import Offside.Proofs.Number.Order
import Offside.Proofs.Number.Rank

/-!
Comparison as an order. Integers are compared exactly and any other pair of numbers as doubles, so a
double can equal two integers that differ. But for such a double the comparisons of all numbers
other than not-a-number are those of one linear order (`compare_orders_unless_blurred`).
-/

set_option autoImplicit false
set_option relaxedAutoImplicit false

namespace Offside.Number

/-- A double that is not a number. -/
def IsNaN : Number → Prop
  | .int _ => False
  | .float x => x.isNaN = true

/-- Where a number stands among the doubles. -/
def rank (a : Number) : ℤ ×ₗ ℤ ×ₗ ℤ :=
  doubleRank a.toFloat.toModel.unpack

theorem isNaN_ofInt {z : Int} (hz : -2 ^ 63 ≤ z) (hz' : z < 2 ^ 63) :
    (Float.ofInt z).toModel.unpack.isNaN = false := by
  obtain ⟨n, rfl | rfl⟩ := Int.eq_nat_or_neg z
  · obtain rfl | hn := eq_or_ne n 0
    · rfl
    · exact (ofNat_represents hn (by omega)).isNaN
  · cases n with
    | zero => rfl
    | succ k =>
      have hrepresents := ofNat_represents k.succ_ne_zero (by omega)
      show (Float.Model.pack (Float.ofNat k.succ).toModel.unpack.neg).unpack.isNaN = false
      rw [hrepresents.unpack_pack_neg (nearest_le_of_lt (by omega))]
      exact hrepresents.isNaN_neg

section

variable {a b c : Number} {i j : Int64}

theorem isNaN_toFloat (ha : ¬a.IsNaN) : a.toFloat.toModel.unpack.isNaN = false := by
  cases a with
  | int i => exact isNaN_ofInt i.le_toInt i.toInt_lt
  | float x => exact Bool.eq_false_of_not_eq_true ha

/-- Two numbers are integers, or compared by their ranks. -/
theorem compare_cases (ha : ¬a.IsNaN) (hb : ¬b.IsNaN) :
    (∃ i j, a = .int i ∧ b = .int j) ∨
      ∀ op, compare op a b = op.accepts (Ord.compare (rank a) (rank b)) := by
  have hdouble : floatOrder a.toFloat b.toFloat = some (Ord.compare (rank a) (rank b)) := by
    rw [floatOrder_eq_valueOrder]
    exact unpacked_compare_eq (isNaN_toFloat ha) (isNaN_toFloat hb)
  have horder (h : order a b = floatOrder a.toFloat b.toFloat) (op : CompareOp) :
      compare op a b = op.accepts (Ord.compare (rank a) (rank b)) := by
    rw [compare, h, hdouble]
  cases a with
  | int i =>
    cases b with
    | int j => exact .inl ⟨i, j, rfl, rfl⟩
    | float y => exact .inr (horder rfl)
  | float x => cases b <;> exact .inr (horder rfl)

theorem rank_int_mono (h : i.toInt ≤ j.toInt) : rank (.int i) ≤ rank (.int j) :=
  intRank_mono i.le_toInt j.toInt_lt h

theorem le_iff_rank (ha : ¬a.IsNaN) (hb : ¬b.IsNaN) :
    (∃ i j, a = .int i ∧ b = .int j) ∨ (compare .le a b = true ↔ rank a ≤ rank b) := by
  refine (compare_cases ha hb).imp_right fun h ↦ ?_
  rw [h, CompareOp.accepts, decide_eq_true_iff, compare_le_iff_le]

theorem eq_iff_rank (ha : ¬a.IsNaN) (hb : ¬b.IsNaN) :
    (∃ i j, a = .int i ∧ b = .int j) ∨ (compare .eq a b = true ↔ rank a = rank b) := by
  refine (compare_cases ha hb).imp_right fun h ↦ ?_
  rw [h, CompareOp.accepts, decide_eq_true_iff, compare_eq_iff_eq]

theorem int_le_iff : compare .le (.int i) (.int j) = true ↔ i.toInt ≤ j.toInt := by
  show decide (Ord.compare i.toInt j.toInt ≠ .gt) = true ↔ _
  rw [decide_eq_true_iff, compare_le_iff_le]

theorem int_eq_iff : compare .eq (.int i) (.int j) = true ↔ i = j := by
  show decide (Ord.compare i.toInt j.toInt = .eq) = true ↔ _
  rw [decide_eq_true_iff, compare_eq_iff_eq, Int64.toInt_inj]

theorem rank_le_of_le (ha : ¬a.IsNaN) (hb : ¬b.IsNaN) (h : compare .le a b = true) :
    rank a ≤ rank b := by
  obtain ⟨i, j, rfl, rfl⟩ | hiff := le_iff_rank ha hb
  · exact rank_int_mono (int_le_iff.mp h)
  · exact hiff.mp h

theorem rank_eq_of_eq (ha : ¬a.IsNaN) (hb : ¬b.IsNaN) (h : compare .eq a b = true) :
    rank a = rank b := by
  obtain ⟨i, j, rfl, rfl⟩ | hiff := eq_iff_rank ha hb
  · rw [int_eq_iff.mp h]
  · exact hiff.mp h

end

/-- The double in the middle equals two different integers, as the nearest double of both. -/
inductive Blurs : Number → Number → Number → Prop
  | mk {i j : Int64} {x : Float} (hne : i ≠ j) (hi : compare .eq (.int i) (.float x) = true)
    (hj : compare .eq (.float x) (.int j) = true) : Blurs (.int i) (.float x) (.int j)

section

variable {a b c : Number} {i j : Int64}

theorem not_blurs_float (x : Float) (b c : Number) : ¬Blurs (.float x) b c :=
  nofun

theorem blurs_of_rank {x : Float} (hx : ¬(float x).IsNaN) (hne : i ≠ j)
    (hi : rank (.int i) = rank (.float x)) (hj : rank (.float x) = rank (.int j)) :
    Blurs (.int i) (.float x) (.int j) := by
  refine .mk hne ?_ ?_
  · obtain ⟨_, _, -, hint⟩ | hiff := eq_iff_rank (a := .int i) id hx
    · cases hint
    · exact hiff.mpr hi
  · obtain ⟨_, _, hint, -⟩ | hiff := eq_iff_rank hx (b := .int j) id
    · cases hint
    · exact hiff.mpr hj

theorem le_trans_or_blurs (ha : ¬a.IsNaN) (hb : ¬b.IsNaN) (hc : ¬c.IsNaN)
    (hab : compare .le a b = true) (hbc : compare .le b c = true) :
    compare .le a c = true ∨ Blurs a b c := by
  have hrab := rank_le_of_le ha hb hab
  have hrbc := rank_le_of_le hb hc hbc
  obtain ⟨i, k, rfl, rfl⟩ | hiff := le_iff_rank ha hc
  · rw [int_le_iff]
    cases b with
    | int j => exact .inl ((int_le_iff.mp hab).trans (int_le_iff.mp hbc))
    | float x =>
      by_cases hik : i.toInt ≤ k.toInt
      · exact .inl hik
      · -- The integers are the other way round, but not their nearest doubles.
        have hrank := rank_int_mono (Int.le_of_lt (Int.not_le.mp hik))
        refine .inr (blurs_of_rank hb ?_ (hrab.antisymm (hrbc.trans hrank))
          (hrbc.antisymm (hrank.trans hrab)))
        rintro rfl
        exact hik le_rfl
  · exact .inl (hiff.mpr (hrab.trans hrbc))

theorem eq_trans_or_blurs (ha : ¬a.IsNaN) (hb : ¬b.IsNaN) (hc : ¬c.IsNaN)
    (hab : compare .eq a b = true) (hbc : compare .eq b c = true) :
    compare .eq a c = true ∨ Blurs a b c := by
  obtain ⟨i, k, rfl, rfl⟩ | hiff := eq_iff_rank ha hc
  · rw [int_eq_iff]
    cases b with
    | int j => exact .inl ((int_eq_iff.mp hab).trans (int_eq_iff.mp hbc))
    | float x =>
      by_cases hik : i = k
      · exact .inl hik
      · exact .inr (.mk hik hab hbc)
  · exact .inl (hiff.mpr ((rank_eq_of_eq ha hb hab).trans (rank_eq_of_eq hb hc hbc)))

/-- Two integers are blurred only beyond `2 ^ 53`. -/
theorem Blurs.beyond (hb : ¬b.IsNaN) (h : Blurs a b c) :
    ∃ n, (a = .int n ∨ c = .int n) ∧ 2 ^ 53 < |n.toInt| := by
  obtain ⟨hne, hi, hj⟩ := h
  rename_i i j x
  by_contra! hwithin
  have hrank := (rank_eq_of_eq (a := .int i) id hb hi).trans (rank_eq_of_eq hb (b := .int j) id hj)
  have hint := eq_of_intRank (hwithin i (.inl rfl)) (hwithin j (.inr rfl)) hrank
  exact hne (Int64.toInt_inj.mp hint)

theorem existsUnique_accepts (o : Ordering) :
    ∃! op, op ∈ [CompareOp.lt, .eq, .gt] ∧ op.accepts o = true := by
  cases o with
  | lt => exact ⟨.lt, by decide, fun op hop ↦ by cases op <;> revert hop <;> decide⟩
  | eq => exact ⟨.eq, by decide, fun op hop ↦ by cases op <;> revert hop <;> decide⟩
  | gt => exact ⟨.gt, by decide, fun op hop ↦ by cases op <;> revert hop <;> decide⟩

theorem exists_order (ha : ¬a.IsNaN) (hb : ¬b.IsNaN) :
    ∃ o, ∀ op, compare op a b = op.accepts o := by
  obtain ⟨i, j, rfl, rfl⟩ | h := compare_cases ha hb
  · exact ⟨_, fun _ ↦ rfl⟩
  · exact ⟨_, h⟩

end

/-- Of two numbers the first is less than the second, equal to it, or greater, and only one of
these. Being at most and being equal are passed on, but for the double that is nearest to two
different integers: it equals both, and they are not equal to each other. One of two such integers
is beyond `2 ^ 53`. -/
theorem compare_orders_unless_blurred {a b c : Number} (ha : ¬a.IsNaN) (hb : ¬b.IsNaN)
    (hc : ¬c.IsNaN) :
    (∃! op, op ∈ [CompareOp.lt, .eq, .gt] ∧ compare op a b = true) ∧
      (compare .le a b = true → compare .le b c = true →
        compare .le a c = true ∨ Blurs a b c) ∧
      (compare .eq a b = true → compare .eq b c = true →
        (compare .eq a c = true ↔ ¬Blurs a b c)) ∧
      (Blurs a b c → ∃ n, (a = .int n ∨ c = .int n) ∧ 2 ^ 53 < |n.toInt|) := by
  refine ⟨?_, le_trans_or_blurs ha hb hc, fun hab hbc ↦ ⟨fun hac hblurs ↦ ?_, ?_⟩, Blurs.beyond hb⟩
  · obtain ⟨o, ho⟩ := exists_order ha hb
    simp only [ho]
    exact existsUnique_accepts o
  · cases hblurs with
    | mk hne hi hj => exact hne (int_eq_iff.mp hac)
  · exact (eq_trans_or_blurs ha hb hc hab hbc).resolve_right

/-- An integer between two doubles, the first of which is the nearest to it. -/
theorem compare_orders_unless_blurred_between :
    let a : Number := .float (Float.ofInt 9007199254740992)
    let b : Number := .int 9007199254740993
    let c : Number := .float (Float.ofInt 9007199254740994)
    (¬a.IsNaN ∧ ¬b.IsNaN ∧ ¬c.IsNaN) ∧ compare .le a b = true ∧ compare .le b c = true ∧
      compare .eq a b = true ∧ compare .le a c = true := by
  intro a b c
  have ha : ¬a.IsNaN := show ¬(Float.ofInt 9007199254740992).isNaN = true by decide
  have hc : ¬c.IsNaN := show ¬(Float.ofInt 9007199254740994).isNaN = true by decide
  have hab : compare .le a b = true := by decide
  have hbc : compare .le b c = true := by decide
  exact ⟨⟨ha, id, hc⟩, hab, hbc, by decide,
    ((compare_orders_unless_blurred ha id hc).2.1 hab hbc).resolve_right (not_blurs_float _ b c)⟩

/-- The double nearest to two integers that follow each other is at most the smaller and at least
the larger, and equals both. -/
theorem compare_not_transitive :
    let a : Number := .int 9007199254740993
    let b : Number := .float (Float.ofInt 9007199254740992)
    let c : Number := .int 9007199254740992
    (compare .le a b = true ∧ compare .le b c = true ∧ compare .le a c = false) ∧
      compare .eq a b = true ∧ compare .eq b c = true ∧ compare .eq a c = false := by
  decide

end Offside.Number
