import Offside.Proofs.Code
import Offside.Proofs.ThreeAddress.Labels

/-!
Operations laid out in a block: each becomes its instructions behind those of the operations before,
and a label stands for the place where it is met. That is how `assemble` lays out operations that
define no label twice.
-/

set_option autoImplicit false
set_option relaxedAutoImplicit false

namespace Offside.ThreeAddress

/-- The block holds the code of operations from the given place on, and `placeOf` gives the
places of their labels. -/
def LaidOut (code : Code) (placeOf : Nat → Nat) (place : Nat) : List Op → Prop
  | [] => True
  | op :: ops =>
    CodeAt code place (op.code placeOf) ∧
      (∀ l, op.defines? = some l → placeOf l = place ∧ place ≤ code.size) ∧
      LaidOut code placeOf (place + op.width) ops

theorem laidOut_append {code : Code} {placeOf : Nat → Nat} {xs ys : List Op} :
    ∀ {place : Nat}, LaidOut code placeOf place (xs ++ ys) ↔
      LaidOut code placeOf place xs ∧ LaidOut code placeOf (place + totalWidth xs) ys := by
  induction xs with
  | nil => simp [LaidOut, totalWidth]
  | cons op ops ih =>
    intro place
    rw [List.cons_append, LaidOut, LaidOut, ih, totalWidth, Nat.add_assoc, and_assoc, and_assoc]

/-- The block holds the instructions of operations that are laid out in it. -/
theorem LaidOut.codeAt {code : Code} {placeOf : Nat → Nat} {ops : List Op} :
    ∀ {place : Nat}, LaidOut code placeOf place ops →
      CodeAt code place (ops.flatMap (Op.code placeOf)) := by
  induction ops with
  | nil => exact fun _ ↦ trivial
  | cons op ops ih =>
    intro place h
    rw [List.flatMap_cons, codeAt_append, op.length_code]
    exact ⟨h.1, ih h.2.2⟩

/-- A label stands for a place of the operations that define it, or for the one behind them. -/
theorem LaidOut.placeOf_le {code : Code} {placeOf : Nat → Nat} {ops : List Op} {l : Nat} :
    ∀ {place : Nat}, LaidOut code placeOf place ops → l ∈ definedLabels ops →
      place ≤ placeOf l ∧ placeOf l ≤ place + totalWidth ops := by
  induction ops with
  | nil => exact fun _ hl ↦ absurd hl List.not_mem_nil
  | cons op ops ih =>
    intro place h hl
    obtain ⟨op', hop, hdefines⟩ := List.mem_filterMap.mp hl
    rw [totalWidth]
    rcases List.mem_cons.mp hop with rfl | hop
    · rw [(h.2.1 l hdefines).1]
      exact ⟨Nat.le_refl _, Nat.le_add_right _ _⟩
    · obtain ⟨hle, hle'⟩ := ih h.2.2 (List.mem_filterMap.mpr ⟨op', hop, hdefines⟩)
      omega

/-- A label is met behind all operations that come before it. -/
theorem placeOf_append {before after : List Op} {l : Nat} (hl : l ∉ definedLabels before) :
    placeOf (before ++ .label l :: after) l = totalWidth before := by
  have hbefore : ∀ op ∈ before, op.defines? ≠ some l := fun op hop heq ↦
    hl (List.mem_filterMap.mpr ⟨op, hop, heq⟩)
  unfold placeOf
  rw [List.takeWhile_append_of_pos fun op hop ↦ decide_eq_true (hbefore op hop)]
  simp [Op.defines?]

/-- A label that is defined once is met behind all operations that come before its definition. -/
theorem placeOf_of_nodup {before after : List Op} {l : Nat}
    (hnodup : (definedLabels (before ++ .label l :: after)).Nodup) :
    placeOf (before ++ .label l :: after) l = totalWidth before := by
  refine placeOf_append fun hmem ↦ ?_
  rw [definedLabels_append, List.nodup_append] at hnodup
  exact hnodup.2.2 l hmem l List.mem_cons_self rfl

theorem eq_label_of_defines {op : Op} {l : Nat} (h : op.defines? = some l) : op = .label l := by
  cases op with
  | label number => rw [Option.some.inj h]
  | _ => cases h

/-- The rest of operations behind those that come before. -/
theorem laidOut_rest {ops : List Op} (hnodup : (definedLabels ops).Nodup) (rest : List Op) :
    ∀ before, before ++ rest = ops →
      LaidOut (ops.flatMap (Op.code (placeOf ops))).toArray (placeOf ops) (totalWidth before)
        rest := by
  induction rest with
  | nil => exact fun _ _ ↦ trivial
  | cons op rest ih =>
    intro before hops
    refine ⟨?_, fun l hl ↦ ⟨?_, ?_⟩, ?_⟩
    · have hcode := codeAt_toArray (before.flatMap (Op.code (placeOf ops)))
        (op.code (placeOf ops)) (rest.flatMap (Op.code (placeOf ops)))
      rw [length_flatMap_code, List.append_assoc, ← List.flatMap_cons, ← List.flatMap_append,
        hops] at hcode
      exact hcode
    · obtain rfl := eq_label_of_defines hl
      rw [← hops] at hnodup ⊢
      exact placeOf_of_nodup hnodup
    · rw [List.size_toArray, length_flatMap_code, ← hops, totalWidth_append]
      exact Nat.le_add_right _ _
    · have hrest := ih (before ++ [op]) (by rw [List.append_assoc]; exact hops)
      rwa [totalWidth_append] at hrest

theorem laidOut_assembled {ops : List Op} (hnodup : (definedLabels ops).Nodup) :
    LaidOut (ops.flatMap (Op.code (placeOf ops))).toArray (placeOf ops) 0 ops :=
  laidOut_rest hnodup ops [] rfl

end Offside.ThreeAddress
