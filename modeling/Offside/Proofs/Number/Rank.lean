import Offside.Proofs.Number.Rounding

/-!
The ranks of doubles. Doubles other than not-a-number are compared by their ranks, which are
linearly ordered (`unpacked_compare_eq`). The rank of the double nearest to an integer does not fall
as the integer grows (`intRank_mono`), and up to `2 ^ 53` it tells integers apart (`eq_of_intRank`).
-/

set_option autoImplicit false
set_option relaxedAutoImplicit false

namespace Offside.Number

open Float.Model Float.Model.UnpackedFloat

/-! ### The rank of a double -/

/-- Where a double stands among all doubles but not-a-number: infinities are outermost and zeros in
the middle, and in between larger exponents and then larger mantissas are further out. -/
def doubleRank : UnpackedFloat → ℤ ×ₗ ℤ ×ₗ ℤ
  | .infinity .negative => toLex (-2, toLex (0, 0))
  | .finite .negative m e _ => toLex (-1, toLex (-e, -m))
  | .notANumber | .zero _ => toLex (0, toLex (0, 0))
  | .finite .positive m e _ => toLex (1, toLex (e, m))
  | .infinity .positive => toLex (2, toLex (0, 0))

theorem compare_natCast (m m' : Nat) : Ord.compare (m : Int) m' = Ord.compare m m' := by
  obtain h | rfl | h := lt_trichotomy m m'
  · rw [compare_lt_iff_lt.mpr h, compare_lt_iff_lt.mpr (Int.ofNat_lt.mpr h)]
  · rw [compare_eq_iff_eq.mpr rfl, compare_eq_iff_eq.mpr rfl]
  · rw [compare_gt_iff_gt.mpr h, compare_gt_iff_gt.mpr (Int.ofNat_lt.mpr h)]

theorem compare_neg (x y : Int) : Ord.compare (-x) (-y) = (Ord.compare x y).swap := by
  obtain h | rfl | h := lt_trichotomy x y
  · rw [compare_lt_iff_lt.mpr h, compare_gt_iff_gt.mpr (by omega)]
    rfl
  · rw [compare_eq_iff_eq.mpr rfl, compare_eq_iff_eq.mpr rfl]
    rfl
  · rw [compare_gt_iff_gt.mpr h, compare_lt_iff_lt.mpr (by omega)]
    rfl

/-- Doubles are compared by their ranks. -/
theorem unpacked_compare_eq {u v : UnpackedFloat} (hu : u.isNaN = false) (hv : v.isNaN = false) :
    u.compare v = some (Ord.compare (doubleRank u) (doubleRank v)) := by
  cases u with
  | notANumber => cases hu
  | infinity s =>
    cases v with
    | notANumber => cases hv
    | infinity t => cases s <;> cases t <;> rfl
    | zero t => cases s <;> rfl
    | finite t m' e' => cases s <;> cases t <;> rfl
  | zero s =>
    cases v with
    | notANumber => cases hv
    | infinity t => cases t <;> rfl
    | zero t => rfl
    | finite t m' e' => cases t <;> rfl
  | finite s m e =>
    cases v with
    | notANumber => cases hv
    | infinity t => cases s <;> cases t <;> rfl
    | zero t => cases s <;> rfl
    | finite t m' e' =>
      cases s <;> cases t
      · have h : Ord.compare (-(m : Int)) (-m') = (Ord.compare m m').swap := by
          rw [compare_neg, compare_natCast]
        show some ((Ord.compare e e').then (Ord.compare m m')).swap =
          some ((Ord.compare (-e) (-e')).then (Ord.compare (-(m : Int)) (-m')))
        rw [h, compare_neg, Ordering.swap_then]
      · rfl
      · rfl
      · show some ((Ord.compare e e').then (Ord.compare m m')) =
          some ((Ord.compare e e').then (Ord.compare (m : Int) m'))
        rw [compare_natCast]

/-! ### The ranks of integers -/

theorem doubleRank_neg (u : UnpackedFloat) : doubleRank u.neg = -doubleRank u := by
  cases u with
  | notANumber => rfl
  | zero s => rfl
  | infinity s => cases s <;> rfl
  | finite s m e =>
    cases s with
    | positive => rfl
    | negative =>
      have hrank : toLex ((1 : ℤ), toLex (e, (m : ℤ))) =
          toLex (-(-1 : ℤ), toLex (-(-e), -(-(m : ℤ)))) := by
        rw [neg_neg, neg_neg, neg_neg]
      exact hrank

variable {v v' : Nat} {u u' : UnpackedFloat}

/-- The larger of two numbers of 53 binary digits has the higher rank. -/
theorem Represents.rank_le (h : Represents v u) (h' : Represents v' u') (hle : v ≤ v') :
    doubleRank u ≤ doubleRank u' := by
  obtain ⟨m, k, hpos, hlow, hhigh, hvalue⟩ := h
  obtain ⟨m', k', hpos', hlow', hhigh', hvalue'⟩ := h'
  have hvalues : m * 2 ^ k ≤ m' * 2 ^ k' := by
    rw [hvalue, hvalue']
    exact Nat.mul_le_mul_right _ hle
  have hk : k ≤ k' := by
    by_contra! hlt
    have hstep : 2 ^ (k' + 1) ≤ 2 ^ k := Nat.pow_le_pow_right Nat.two_pos hlt
    have hless : m' * 2 ^ k' < m * 2 ^ k := by
      calc m' * 2 ^ k' < 2 ^ 53 * 2 ^ k' := Nat.mul_lt_mul_of_pos_right hhigh' (Nat.two_pow_pos k')
        _ = 2 ^ 52 * 2 ^ (k' + 1) := by ring
        _ ≤ m * 2 ^ k := Nat.mul_le_mul hlow hstep
    omega
  refine Prod.Lex.toLex_le_toLex.mpr (.inr ⟨rfl, Prod.Lex.toLex_le_toLex.mpr ?_⟩)
  obtain hlt | rfl := hk.lt_or_eq
  · exact .inl (by dsimp only; omega)
  · have hm := Nat.le_of_mul_le_mul_right hvalues (Nat.two_pow_pos k)
    exact .inr ⟨rfl, by dsimp only; omega⟩

theorem Represents.eq_of_rank (h : Represents v u) (h' : Represents v' u')
    (heq : doubleRank u = doubleRank u') : v = v' := by
  obtain ⟨m, k, hpos, hlow, hhigh, hvalue⟩ := h
  obtain ⟨m', k', hpos', hlow', hhigh', hvalue'⟩ := h'
  simp only [doubleRank, EmbeddingLike.apply_eq_iff_eq, Prod.mk.injEq, true_and] at heq
  obtain rfl : k = k' := by omega
  obtain rfl : m = m' := by omega
  exact Nat.eq_of_mul_eq_mul_right (Nat.two_pow_pos 52) (hvalue.symm.trans hvalue')

theorem Represents.zero_lt_rank (h : Represents v u) : 0 < doubleRank u := by
  cases h
  exact Prod.Lex.toLex_lt_toLex.mpr (.inl Int.one_pos)

theorem Represents.isNaN (h : Represents v u) : u.isNaN = false := by
  cases h
  rfl

theorem Represents.isNaN_neg (h : Represents v u) : u.neg.isNaN = false := by
  cases h
  rfl

/-- The rank of the double nearest to an integer. -/
def intRank (z : Int) : ℤ ×ₗ ℤ ×ₗ ℤ :=
  doubleRank (Float.ofInt z).toModel.unpack

theorem intRank_neg {n : Nat} (hlt : n < 2 ^ 64) : intRank (-n) = -intRank n := by
  cases n with
  | zero => rfl
  | succ k =>
    have hrepresents := ofNat_represents k.succ_ne_zero hlt
    have hneg : (Float.ofInt (-(k.succ : Int))).toModel =
        Float.Model.pack (Float.ofNat k.succ).toModel.unpack.neg := rfl
    rw [intRank, hneg, hrepresents.unpack_pack_neg (nearest_le_of_lt hlt), doubleRank_neg]
    rfl

theorem intRank_natCast_mono {m n : Nat} (hn : n < 2 ^ 64) (h : m ≤ n) :
    intRank m ≤ intRank n := by
  obtain rfl | hm := eq_or_ne m 0
  · obtain rfl | hn' := eq_or_ne n 0
    · exact le_rfl
    · exact (ofNat_represents hn' hn).zero_lt_rank.le
  · have hm' : m < 2 ^ 64 := h.trans_lt hn
    exact (ofNat_represents hm hm').rank_le (ofNat_represents (by omega) hn) (nearest_mono h)

theorem intRank_natCast_nonneg {n : Nat} (hn : n < 2 ^ 64) : 0 ≤ intRank n :=
  intRank_natCast_mono hn (Nat.zero_le n)

/-- The conversion of integers to doubles respects the order. -/
theorem intRank_mono {z w : Int} (hz : -2 ^ 63 ≤ z) (hw : w < 2 ^ 63) (h : z ≤ w) :
    intRank z ≤ intRank w := by
  obtain ⟨m, rfl | rfl⟩ := Int.eq_nat_or_neg z
  · obtain ⟨n, rfl⟩ := Int.eq_ofNat_of_zero_le (h.trans' (Int.natCast_nonneg m))
    exact intRank_natCast_mono (by omega) (Int.ofNat_le.mp h)
  · rw [intRank_neg (by omega)]
    obtain ⟨n, rfl | rfl⟩ := Int.eq_nat_or_neg w
    · exact (neg_nonpos.mpr (intRank_natCast_nonneg (by omega))).trans
        (intRank_natCast_nonneg (by omega))
    · rw [intRank_neg (by omega)]
      exact neg_le_neg (intRank_natCast_mono (by omega) (by omega))

theorem eq_zero_of_intRank {n : Nat} (hn : n < 2 ^ 64) (h : intRank n = 0) : n = 0 := by
  by_contra hne
  exact (ofNat_represents hne hn).zero_lt_rank.ne' h

theorem eq_of_intRank_natCast {m n : Nat} (hm : m ≤ 2 ^ 53) (hn : n ≤ 2 ^ 53)
    (h : intRank m = intRank n) : m = n := by
  obtain rfl | hm' := eq_or_ne m 0
  · exact (eq_zero_of_intRank (by omega) h.symm).symm
  · obtain rfl | hn' := eq_or_ne n 0
    · exact eq_zero_of_intRank (by omega) h
    · have hnearest := (ofNat_represents hm' (by omega)).eq_of_rank
        (ofNat_represents hn' (by omega)) h
      rwa [nearest_of_le hm, nearest_of_le hn] at hnearest

theorem eq_of_intRank_natCast_neg {m n : Nat} (hm : m ≤ 2 ^ 53) (hn : n ≤ 2 ^ 53)
    (h : intRank m = intRank (-n)) : (m : Int) = -n := by
  rw [intRank_neg (by omega)] at h
  have hm' : intRank m = 0 := by
    refine le_antisymm ?_ (intRank_natCast_nonneg (by omega))
    rw [h]
    exact neg_nonpos.mpr (intRank_natCast_nonneg (by omega))
  rw [hm', zero_eq_neg] at h
  rw [eq_zero_of_intRank (by omega) hm', eq_zero_of_intRank (by omega) h]
  rfl

/-- Different integers up to `2 ^ 53` have different nearest doubles. -/
theorem eq_of_intRank {z w : Int} (hz : |z| ≤ 2 ^ 53) (hw : |w| ≤ 2 ^ 53)
    (h : intRank z = intRank w) : z = w := by
  obtain ⟨m, rfl | rfl⟩ := Int.eq_nat_or_neg z <;> obtain ⟨n, rfl | rfl⟩ := Int.eq_nat_or_neg w <;>
    simp only [abs_neg, Nat.abs_cast] at hz hw
  · exact congrArg _ (eq_of_intRank_natCast (by omega) (by omega) h)
  · exact eq_of_intRank_natCast_neg (by omega) (by omega) h
  · exact (eq_of_intRank_natCast_neg (by omega) (by omega) h.symm).symm
  · rw [intRank_neg (by omega), intRank_neg (by omega), neg_inj] at h
    rw [eq_of_intRank_natCast (by omega) (by omega) h]

end Offside.Number
