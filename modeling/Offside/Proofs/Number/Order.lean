import Offside.Number

/-!
The order of numbers does not depend on which of two numbers is named first (`order_swap`), so that
equality of numbers is symmetric (`compare_eq_comm`). Doubles are compared by the values that their
bits stand for, and not-a-number stands in no order to anything from either side.
-/

set_option autoImplicit false
set_option relaxedAutoImplicit false

namespace Offside.Number

open Float.Model (UnpackedFloat)

/-- How the values of two doubles stand to each other. -/
def valueOrder (x y : Float) : Option Ordering :=
  x.toModel.unpack.compare y.toModel.unpack

/-- Magnitudes are compared by their exponents, and then by their mantissas. -/
theorem magnitude_compare_swap (e e' : Int) (m m' : Nat) :
    (Ord.compare e' e).then (Ord.compare m' m) =
      ((Ord.compare e e').then (Ord.compare m m')).swap := by
  rw [Ordering.swap_then, Int.compare_swap, Nat.compare_swap]

theorem unpacked_compare_swap (u v : UnpackedFloat) :
    v.compare u = (u.compare v).map Ordering.swap := by
  cases u with
  | notANumber => cases v <;> rfl
  | infinity s =>
    cases v with
    | notANumber => cases s <;> rfl
    | _ t => cases s <;> cases t <;> rfl
  | zero s =>
    cases v with
    | notANumber => cases s <;> rfl
    | _ t => cases s <;> cases t <;> rfl
  | finite s m e =>
    cases v with
    | notANumber => cases s <;> rfl
    | finite t m' e' =>
      have hmagnitude := magnitude_compare_swap e e' m m'
      cases s <;> cases t
      · exact congrArg (some <| Ordering.swap ·) hmagnitude
      · rfl
      · rfl
      · exact congrArg some hmagnitude
    | _ t => cases s <;> cases t <;> rfl

theorem lt_iff_valueOrder {x y : Float} : x < y ↔ valueOrder x y = some .lt := by
  show Float.lt x y = true ↔ _
  rw [Float.lt, decide_eq_true_iff]
  exact beq_iff_eq

theorem beq_iff_valueOrder {x y : Float} : (x == y) = true ↔ valueOrder x y = some .eq := by
  show (valueOrder x y == some .eq) = true ↔ _
  exact beq_iff_eq

theorem floatOrder_eq_valueOrder (x y : Float) : floatOrder x y = valueOrder x y := by
  have hgt : y < x ↔ valueOrder x y = some .gt := by
    rw [lt_iff_valueOrder, valueOrder, unpacked_compare_swap, valueOrder]
    cases x.toModel.unpack.compare y.toModel.unpack with
    | none => simp
    | some o => cases o <;> simp
  rw [floatOrder]
  simp only [lt_iff_valueOrder (x := x), beq_iff_valueOrder, hgt]
  cases valueOrder x y with
  | none => rfl
  | some o => cases o <;> rfl

theorem floatOrder_swap (x y : Float) : floatOrder y x = (floatOrder x y).map Ordering.swap := by
  rw [floatOrder_eq_valueOrder, floatOrder_eq_valueOrder]
  exact unpacked_compare_swap _ _

/-- Naming two numbers the other way round turns their order round. -/
theorem order_swap (a b : Number) : order b a = (order a b).map Ordering.swap := by
  cases a with
  | int i =>
    cases b with
    | int j => exact congrArg some (Int.compare_swap i.toInt j.toInt).symm
    | float y => exact floatOrder_swap _ _
  | float x => cases b <;> exact floatOrder_swap _ _

theorem compare_eq_comm (a b : Number) : compare .eq b a = compare .eq a b := by
  unfold compare
  rw [order_swap]
  cases order a b with
  | none => rfl
  | some o => cases o <;> rfl

end Offside.Number
