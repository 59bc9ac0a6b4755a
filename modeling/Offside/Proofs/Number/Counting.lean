import Offside.Value.Operations

/-!
Counting with 64-bit integers. Up to an integer, counting from zero in steps of one is exact, so it
neither overflows nor passes the integer.
-/

set_option autoImplicit false
set_option relaxedAutoImplicit false

namespace Offside

/-- The numbers from zero that are less than an integer. -/
def countsBelow (n : Int64) : List Value :=
  (List.range n.toInt.toNat).map Value.ofNat

section

variable {n : Int64} {k : Nat}

theorem Number.toInt_ofNat (h : k ≤ n.toInt.toNat) : (Int64.ofNat k).toInt = k := by
  have hle : n.toInt ≤ 9223372036854775807 := n.toInt_le
  exact Int64.toInt_ofNat_of_lt (by omega)

/-- A count below an integer is compared as what it counts. -/
theorem Number.compare_ofNat (h : k ≤ n.toInt.toNat) :
    Number.compare .lt (.int (.ofNat k)) (.int n) = decide (k < n.toInt.toNat) := by
  show decide (Ord.compare (Int64.ofNat k).toInt n.toInt = .lt) = _
  rw [Number.toInt_ofNat h, decide_eq_decide, Int.compare_eq_lt]
  omega

/-- Below an integer, the count after the next can be computed. -/
theorem Number.succ_ofNat (h : k < n.toInt.toNat) :
    Number.apply .add (.int (.ofNat k)) (.int 1) = .ok (.int (.ofNat (k + 1))) := by
  have hle : n.toInt ≤ 9223372036854775807 := n.toInt_le
  have hadd : (Int64.ofNat k).toInt + (1 : Int64).toInt = ((k + 1 : Nat) : Int) := by
    rw [Number.toInt_ofNat (Nat.le_of_lt h)]
    rfl
  have hbounds : Int64.minValue.toInt ≤ ((k + 1 : Nat) : Int) ∧
      ((k + 1 : Nat) : Int) ≤ Int64.maxValue.toInt := by
    have hmin : Int64.minValue.toInt = -9223372036854775808 := rfl
    have hmax : Int64.maxValue.toInt = 9223372036854775807 := rfl
    omega
  show Number.ofInt? _ = _
  rw [hadd, Number.ofInt?, if_pos hbounds]
  rfl

end

namespace Heap

variable {n : Int64} {k : Nat} {bound : Value}

theorem compare_count (h : Heap) (hbound : bound.number? = some (.int n))
    (hk : k ≤ n.toInt.toNat) :
    h.compare .lt (.ofNat k) bound = .ok (decide (k < n.toInt.toNat)) := by
  have hcount : (Value.ofNat k).number? = some (.int (.ofNat k)) := rfl
  simp only [compare, hcount, hbound, Number.compare_ofNat hk]

theorem arith_count (h : Heap) (hk : k < n.toInt.toNat) :
    h.arith .add (.ofNat k) (.number (.int 1)) = (.ok (.ofNat (k + 1)), h) := by
  have hcount : (Value.ofNat k).number? = some (.int (.ofNat k)) := rfl
  have hone : (Value.number (.int 1)).number? = some (.int 1) := rfl
  simp only [arith, hcount, hone, Number.succ_ofNat hk]
  rfl

end Heap

end Offside
