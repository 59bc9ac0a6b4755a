import Offside.Compile
import Offside.Proofs.Names

/-!
The names in a program that has been read. Every identifier among the tokens of a source text is a
word, so its name is plain; and all names of a program are those of identifiers. `Yields x Q` says
that a reading `x` of tokens whose identifiers are plain gives a result that satisfies `Q`.
-/

set_option autoImplicit false
set_option relaxedAutoImplicit false

namespace Offside

/-- A token that is no identifier, or one with a plain name. -/
def Token.IsPlain (t : Token) : Prop :=
  ∀ name, t = .identifier name → Plain name

namespace Reading

section

variable {α β : Type} {P Q : α → Prop}

/-- A reading whose results satisfy `Q`, as long as the identifiers are plain. -/
def Yields (x : Reading α) (Q : α → Prop) : Prop :=
  ∀ ts, (∀ t ∈ ts, t.token.IsPlain) → ∀ a ts', x ts = .ok (a, ts') →
    Q a ∧ ∀ t ∈ ts', t.token.IsPlain

theorem Yields.mono {x : Reading α} (h : Yields x P) (hPQ : ∀ a, P a → Q a) : Yields x Q :=
  fun ts hts a ts' hx ↦ (h ts hts a ts' hx).imp_left (hPQ a)

theorem yields_pure {a : α} (ha : Q a) : Yields (pure a) Q := by
  intro ts hts b ts' hx
  cases hx
  exact ⟨ha, hts⟩

theorem yields_throw {e : ParseError} : Yields (throw e : Reading α) Q := by
  intro ts hts b ts' hx
  cases hx

theorem Yields.bind {x : Reading β} {f : β → Reading α} {R : β → Prop} (hx : Yields x R)
    (hf : ∀ b, R b → Yields (f b) Q) : Yields (x >>= f) Q := by
  intro ts hts a ts' h
  obtain ⟨b, us, hxts, hfus⟩ := run_bind_eq_ok.mp h
  obtain ⟨hb, hus⟩ := hx ts hts b us hxts
  exact hf b hb us hus a ts' hfus

/-- A reading of which only the identifiers it leaves matter. -/
theorem Yields.then {x : Reading β} {y : Reading α} {R : β → Prop} (hx : Yields x R)
    (hy : Yields y Q) : Yields (do let _ ← x; y) Q :=
  hx.bind fun _ _ ↦ hy

theorem yields_ite {c : Prop} [Decidable c] {x y : Reading α} (hx : Yields x Q)
    (hy : Yields y Q) : Yields (if c then x else y) Q := by
  split
  · exact hx
  · exact hy

/-! ### The parts of a reading -/

theorem yields_current : Yields current fun t ↦ t.token.IsPlain := by
  intro ts hts t ts' hx
  cases hx
  refine ⟨?_, hts⟩
  cases ts with
  | nil => intro name h; cases h
  | cons t ts => exact hts t (List.mem_cons_self)

theorem yields_advance : Yields advance fun _ ↦ True := by
  intro ts hts a ts' hx
  cases hx
  exact ⟨trivial, fun t ht ↦ hts t (List.mem_of_mem_tail ht)⟩

theorem yields_unexpected {expected : Expected} : Yields (unexpected expected : Reading α) Q :=
  yields_current.bind fun _ _ ↦ yields_throw

theorem yields_take? {token : Token} : Yields (take? token) fun _ ↦ True := by
  have hat : Yields (at? token) fun _ ↦ True := yields_current.bind fun _ _ ↦ yields_pure trivial
  refine hat.bind fun _ _ ↦ ?_
  exact yields_ite (yields_advance.then (yields_pure trivial)) (yields_pure trivial)

theorem yields_take {token : Token} : Yields (take token) fun _ ↦ True :=
  yields_take?.bind fun _ _ ↦ yields_ite (yields_pure trivial) yields_unexpected

theorem yields_takeMark {mark : Punctuation} : Yields (takeMark mark) fun _ ↦ True :=
  yields_take

theorem yields_takeWord {word : Keyword} : Yields (takeWord word) fun _ ↦ True :=
  yields_take

theorem yields_identifier : Yields identifier Plain := by
  refine yields_current.bind fun t ht ↦ ?_
  split
  · next name hname => exact yields_advance.then (yields_pure (ht name hname))
  · exact yields_unexpected

theorem yields_itemsBetweenCommas {item : Reading α} (hitem : Yields item P) (bound : Nat) :
    Yields (itemsBetweenCommas item bound) fun xs ↦ ∀ x ∈ xs, P x := by
  induction bound with
  | zero =>
    refine hitem.bind fun a ha ↦ yields_pure ?_
    simpa using ha
  | succ bound ih =>
    refine hitem.bind fun a ha ↦ yields_take?.bind fun _ _ ↦ yields_ite ?_ ?_
    · refine ih.bind fun rest hrest ↦ yields_pure ?_
      simpa using ⟨ha, hrest⟩
    · refine yields_pure ?_
      simpa using ha

theorem yields_itemsUpTo {item : Reading α} (hitem : Yields item P) (bound : Nat)
    (closing : Punctuation) : Yields (itemsUpTo bound closing item) fun xs ↦ ∀ x ∈ xs, P x := by
  refine yields_take?.bind fun _ _ ↦ yields_ite (yields_pure (by simp)) ?_
  refine (yields_itemsBetweenCommas hitem bound).bind fun xs hxs ↦ ?_
  exact yields_takeMark.then (yields_pure hxs)

theorem yields_linesUpTo {closes : Token → Bool} {line : Reading (List α)}
    (hline : Yields line fun xs ↦ ∀ x ∈ xs, P x) (bound : Nat) :
    Yields (linesUpTo closes line bound) fun xs ↦ ∀ x ∈ xs, P x := by
  induction bound with
  | zero => exact yields_pure (by simp)
  | succ bound ih =>
    refine yields_current.bind fun _ _ ↦ yields_ite (yields_pure (by simp)) ?_
    refine yields_take?.bind fun _ _ ↦ yields_ite ih ?_
    refine hline.bind fun xs hxs ↦ ih.bind fun ys hys ↦ yields_pure fun x hx ↦ ?_
    exact (List.mem_append.mp hx).elim (hxs x) (hys x)

theorem yields_indented {line : Reading (List α)} (hline : Yields line fun xs ↦ ∀ x ∈ xs, P x)
    (bound : Nat) : Yields (indented bound line) fun xs ↦ ∀ x ∈ xs, P x := by
  refine yields_take.then (yields_take.then ((yields_linesUpTo hline bound).bind fun xs hxs ↦ ?_))
  exact yields_take.then (yields_pure hxs)

end

end Reading

end Offside
