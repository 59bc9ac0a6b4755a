/-!
Blank characters, the 25 code points of the Unicode property `White_Space`, and the removal of
them from the ends of a text.
-/

set_option autoImplicit false
set_option relaxedAutoImplicit false

namespace Offside.Text

/-- Whether a character has the property `White_Space`. -/
def isBlank (c : Char) : Bool :=
  let n := c.toNat
  (0x9 ≤ n && n ≤ 0xD) || n == 0x20 || n == 0x85 || n == 0xA0 || n == 0x1680 ||
    (0x2000 ≤ n && n ≤ 0x200A) || n == 0x2028 || n == 0x2029 || n == 0x202F || n == 0x205F ||
    n == 0x3000

/-- Drops the longest tail on which `p` holds. -/
def dropTailWhile (p : Char → Bool) (cs : List Char) : List Char :=
  (cs.reverse.dropWhile p).reverse

/-- Drops the blank characters at the end. -/
def trimEnd (cs : List Char) : List Char :=
  dropTailWhile isBlank cs

/-- Drops the blank characters at both ends. -/
def trim (cs : List Char) : List Char :=
  trimEnd (cs.dropWhile isBlank)

theorem dropTailWhile_append_singleton_of_pos {p : Char → Bool} {c : Char} (hc : p c = true)
    (cs : List Char) : dropTailWhile p (cs ++ [c]) = dropTailWhile p cs := by
  simp [dropTailWhile, hc]

theorem dropTailWhile_append_singleton_of_neg {p : Char → Bool} {c : Char} (hc : p c = false)
    (cs : List Char) : dropTailWhile p (cs ++ [c]) = cs ++ [c] := by
  simp [dropTailWhile, hc]

theorem dropTailWhile_cons (p : Char → Bool) (c : Char) (cs : List Char) :
    dropTailWhile p (c :: cs) =
      if dropTailWhile p cs = [] ∧ p c = true then [] else c :: dropTailWhile p cs := by
  rw [dropTailWhile, List.reverse_cons, List.dropWhile_append, dropTailWhile]
  cases hrest : cs.reverse.dropWhile p with
  | nil => cases hc : p c <;> simp [hc]
  | cons d ds => simp

theorem dropTailWhile_append_cons {p : Char → Bool} {c : Char} (hc : p c = false)
    (cs ds : List Char) :
    dropTailWhile p (cs ++ c :: ds) = cs ++ c :: dropTailWhile p ds := by
  induction cs with
  | nil => rw [List.nil_append, dropTailWhile_cons, if_neg (by simp [hc]), List.nil_append]
  | cons b cs ih =>
    rw [List.cons_append, dropTailWhile_cons, ih, if_neg (by simp), List.cons_append]

end Offside.Text
