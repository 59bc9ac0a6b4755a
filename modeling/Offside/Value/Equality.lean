import Offside.Value

/-!
Equality of values. Numbers and booleans are equal as numbers, instances if they are the same one,
and lists if they are the same one or have equal elements in order. Lists can contain themselves: a
pair of lists that is already under comparison is not compared again, which makes two lists equal
unless some path through both leads to a difference.
-/

set_option autoImplicit false
set_option relaxedAutoImplicit false

namespace Offside

namespace Value

/-- Equality of two values of which at most one is a list. -/
def plainlyEqual (a b : Value) : Bool :=
  match a.number?, b.number? with
  | some x, some y => Number.compare .eq x y
  | _, _ =>
    match a, b with
    | .object i, .object j => i = j
    | .none, .none => true
    | _, _ => false

end Value

/-- Pairs of cells: for each cell those that it is paired with. -/
structure CellPairs where
  partners : Array (List Nat)

namespace CellPairs

/-- No pairs of cells below `size`. -/
def empty (size : Nat) : CellPairs :=
  ⟨Array.replicate size []⟩

def has (p : CellPairs) (i j : Nat) : Bool :=
  (p.partners[i]?.getD []).contains j

def add (p : CellPairs) (i j : Nat) : CellPairs :=
  ⟨p.partners.modify i fun js ↦ j :: js⟩

theorem has_empty (size i j : Nat) : (empty size).has i j = false := by
  by_cases hi : i < size <;> simp [has, empty, hi]

/-- A pair is among the pairs after one is added if it is that one or was among them before. -/
theorem has_add {p : CellPairs} {i : Nat} (hi : i < p.partners.size) (j k l : Nat) :
    (p.add i j).has k l = ((i = k ∧ j = l) || p.has k l) := by
  by_cases hk : i = k
  · subst hk
    simp [has, add, hi, Array.getElem_modify, eq_comm]
  · simp [has, add, Array.getElem?_modify, hk]

end CellPairs

namespace Heap

/-- Whether all pending pairs are equal, given the pairs of lists compared already, with at most
`fresh` pairs of lists yet to compare. -/
def allEqual (h : Heap) (fresh : Nat) (compared : CellPairs) : List (Value × Value) → Bool
  | [] => true
  | (.list i, .list j) :: pending =>
    if i = j || compared.has i j then h.allEqual fresh compared pending
    else
      match fresh with
      | 0 => false
      | fresh + 1 =>
        let left := h.elements i
        let right := h.elements j
        left.size = right.size &&
          h.allEqual fresh (compared.add i j) (left.toList.zip right.toList ++ pending)
  | (a, b) :: pending => a.plainlyEqual b && h.allEqual fresh compared pending
termination_by pending => (fresh, pending.length)

/-- Equality of values. There are no more pairs of lists to compare than pairs of cells. -/
def equal (h : Heap) (a b : Value) : Bool :=
  h.allEqual (h.lists.size * h.lists.size) (.empty h.lists.size) [(a, b)]

end Heap

end Offside
