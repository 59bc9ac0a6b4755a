import Mathlib
import Offside.Number

/-!
The double nearest to a natural number. Rounding keeps 53 binary digits and sends a tie to the even
neighbour (`nearest`); it respects the order and leaves numbers up to `2 ^ 53` as they are. The
conversion of natural numbers to doubles rounds in this way: what it gives is the canonical double
whose value is the nearest one (`ofNat_represents`).
-/

set_option autoImplicit false
set_option relaxedAutoImplicit false

namespace Offside.Number

open Float.Model Float.Model.UnpackedFloat

/-! ### Rounding of natural numbers -/

/-- The quotient by a power of two, rounded to the nearest integer; a tie goes to the even one. -/
def halfEven (m s : Nat) : Nat :=
  if 2 * (m % 2 ^ s) < 2 ^ s then m / 2 ^ s
  else if 2 * (m % 2 ^ s) = 2 ^ s then m / 2 ^ s + m / 2 ^ s % 2
  else m / 2 ^ s + 1

/-- The nearest number of 53 binary digits. -/
def nearest (n : Nat) : Nat :=
  halfEven n (n.log2 - 52) * 2 ^ (n.log2 - 52)

theorem div_le_halfEven (m s : Nat) : m / 2 ^ s ≤ halfEven m s := by
  unfold halfEven
  split_ifs <;> omega

theorem halfEven_le (m s : Nat) : halfEven m s ≤ m / 2 ^ s + 1 := by
  unfold halfEven
  split_ifs <;> omega

theorem halfEven_zero (m : Nat) : halfEven m 0 = m := by
  simp [halfEven, Nat.mod_one]

/-- A common factor of the number and what it is divided by makes no difference. -/
theorem halfEven_mul_two_pow (m s k : Nat) : halfEven (m * 2 ^ k) (s + k) = halfEven m s := by
  have hpos : 0 < 2 ^ k := Nat.two_pow_pos k
  have hlt : 2 * (m % 2 ^ s * 2 ^ k) < 2 ^ s * 2 ^ k ↔ 2 * (m % 2 ^ s) < 2 ^ s := by
    rw [← mul_assoc, Nat.mul_lt_mul_right hpos]
  have heq : 2 * (m % 2 ^ s * 2 ^ k) = 2 ^ s * 2 ^ k ↔ 2 * (m % 2 ^ s) = 2 ^ s := by
    rw [← mul_assoc, Nat.mul_left_inj hpos.ne']
  simp only [halfEven, pow_add, Nat.mul_mod_mul_right, Nat.mul_div_mul_right _ _ hpos, hlt, heq]

theorem halfEven_mono {m m' : Nat} (s : Nat) (h : m ≤ m') : halfEven m s ≤ halfEven m' s := by
  obtain hlt | heq := (Nat.div_le_div_right (c := 2 ^ s) h).lt_or_eq
  · calc halfEven m s ≤ m / 2 ^ s + 1 := halfEven_le m s
      _ ≤ m' / 2 ^ s := hlt
      _ ≤ halfEven m' s := div_le_halfEven m' s
  · -- Of two numbers with one quotient the larger has the larger remainder.
    have hm := Nat.div_add_mod m (2 ^ s)
    have hm' := Nat.div_add_mod m' (2 ^ s)
    unfold halfEven
    rw [← heq] at hm' ⊢
    split_ifs <;> omega

variable {m n : Nat}

theorem two_pow_le_halfEven {s : Nat} (hm : m ≠ 0) (hs : s ≤ m.log2) :
    2 ^ (m.log2 - s) ≤ halfEven m s := by
  have hquotient : 2 ^ (m.log2 - s) ≤ m / 2 ^ s := by
    rw [Nat.le_div_iff_mul_le (Nat.two_pow_pos s), ← pow_add, Nat.sub_add_cancel hs]
    exact Nat.log2_self_le hm
  exact hquotient.trans (div_le_halfEven m s)

theorem halfEven_le_two_pow {s : Nat} (hs : s ≤ m.log2 + 1) :
    halfEven m s ≤ 2 ^ (m.log2 + 1 - s) := by
  have hquotient : m / 2 ^ s < 2 ^ (m.log2 + 1 - s) := by
    rw [Nat.div_lt_iff_lt_mul (Nat.two_pow_pos s), ← pow_add, Nat.sub_add_cancel hs]
    exact Nat.lt_log2_self
  exact (halfEven_le m s).trans hquotient

theorem two_pow_le_nearest (hn : n ≠ 0) : 2 ^ n.log2 ≤ nearest n := by
  have hle := Nat.mul_le_mul_right (2 ^ (n.log2 - 52))
    (two_pow_le_halfEven hn (Nat.sub_le n.log2 52))
  rwa [← pow_add, Nat.sub_add_cancel (Nat.sub_le n.log2 52)] at hle

theorem nearest_le_two_pow (n : Nat) : nearest n ≤ 2 ^ (n.log2 + 1) := by
  have hs : n.log2 - 52 ≤ n.log2 + 1 := by omega
  have hle := Nat.mul_le_mul_right (2 ^ (n.log2 - 52)) (halfEven_le_two_pow hs)
  rwa [← pow_add, Nat.sub_add_cancel hs] at hle

theorem nearest_mono (h : m ≤ n) : nearest m ≤ nearest n := by
  obtain rfl | hm := Nat.eq_zero_or_pos m
  · simp [nearest, halfEven_zero]
  · have hlog : m.log2 ≤ n.log2 :=
      (Nat.le_log2 (by omega)).mpr ((Nat.log2_self_le hm.ne').trans h)
    obtain hlt | heq := hlog.lt_or_eq
    · calc nearest m ≤ 2 ^ (m.log2 + 1) := nearest_le_two_pow m
        _ ≤ 2 ^ n.log2 := Nat.pow_le_pow_right Nat.two_pos hlt
        _ ≤ nearest n := two_pow_le_nearest (by omega)
    · rw [nearest, nearest, heq]
      exact Nat.mul_le_mul_right _ (halfEven_mono _ h)

/-- Numbers up to `2 ^ 53` have no more than 53 binary digits that count. -/
theorem nearest_of_le (h : n ≤ 2 ^ 53) : nearest n = n := by
  obtain hlt | rfl := h.lt_or_eq
  · have hlog : n.log2 ≤ 52 := by
      obtain rfl | hn := eq_or_ne n 0
      · exact Nat.zero_le 52
      · exact Nat.le_of_lt_succ ((Nat.log2_lt hn).mpr hlt)
    rw [nearest, Nat.sub_eq_zero_of_le hlog, halfEven_zero, pow_zero, mul_one]
  · rfl

theorem log2_mul_two_pow (hn : n ≠ 0) (k : Nat) : (n * 2 ^ k).log2 = n.log2 + k := by
  have hlow := Nat.mul_le_mul_right (2 ^ k) (Nat.log2_self_le hn)
  have hhigh := Nat.mul_lt_mul_of_pos_right (Nat.lt_log2_self (n := n)) (Nat.two_pow_pos k)
  rw [← pow_add] at hlow hhigh
  rw [Nat.add_right_comm] at hhigh
  exact (Nat.log2_eq_iff (Nat.mul_ne_zero hn (Nat.two_pow_pos k).ne')).mpr ⟨hlow, hhigh⟩

/-! ### Shifting of mantissas -/

/-- What is left of a mantissa that is shifted to the right: the quotient, and how the remainder
stands to half of what is divided by. -/
structure Shifted (m s : Nat) (em : ExtendedMantissa) : Prop where
  mantissa : em.mantissa = m / 2 ^ s
  half : em.roundBit = true ↔ 2 ^ s ≤ 2 * (m % 2 ^ s)
  rest : em.stickyBit = true ↔ m % 2 ^ s ≠ 0 ∧ 2 * (m % 2 ^ s) ≠ 2 ^ s

theorem Shifted.one {s : Nat} {em : ExtendedMantissa} (h : Shifted m s em) :
    Shifted m (s + 1) em.shiftRightOne := by
  have hlt : m % 2 ^ s < 2 ^ s := Nat.mod_lt m (Nat.two_pow_pos s)
  have hmod : m % 2 ^ (s + 1) = m % 2 ^ s + 2 ^ s * (m / 2 ^ s % 2) := by
    rw [pow_succ, Nat.mod_mul]
  have hpow : 2 ^ (s + 1) = 2 * 2 ^ s := pow_succ' 2 s
  have hbit := Nat.mod_two_eq_zero_or_one (m / 2 ^ s)
  constructor
  · rw [ExtendedMantissa.shiftRightOne, h.mantissa, Nat.div_div_eq_div_mul, ← pow_succ]
  · rw [hmod, hpow, ExtendedMantissa.shiftRightOne, h.mantissa]
    obtain hbit | hbit := hbit <;> simp only [hbit, bne_iff_ne] <;> omega
  · rw [hmod, hpow, ExtendedMantissa.shiftRightOne, Bool.or_eq_true, h.half, h.rest]
    obtain hbit | hbit := hbit <;> simp only [hbit] <;> omega

theorem shifted_exact (m s : Nat) :
    Shifted m s (ExtendedMantissa.ofMantissaAndAccuracy m .exact >>> s) := by
  show Shifted m s (s.repeat ExtendedMantissa.shiftRightOne ⟨m, false, false⟩)
  induction s with
  | zero => exact ⟨by simp [Nat.repeat], by simp [Nat.repeat, Nat.mod_one],
      by simp [Nat.repeat, Nat.mod_one]⟩
  | succ s ih => exact ih.one

theorem Shifted.roundedMantissa {s : Nat} {em : ExtendedMantissa} (h : Shifted m s em) :
    em.roundedMantissa = halfEven m s := by
  obtain ⟨q, half, rest⟩ := em
  obtain ⟨hq, hhalf, hrest⟩ := h
  have hpos : 0 < 2 ^ s := Nat.two_pow_pos s
  dsimp only at hq hhalf hrest
  subst hq
  unfold halfEven
  cases half <;> cases rest <;>
    simp only [ExtendedMantissa.roundedMantissa, ExtendedMantissa.accuracy,
      Accuracy.roundToNearestEven, Bool.false_eq_true, false_iff, true_iff, not_and_or, not_le,
      not_not] at hhalf hrest ⊢ <;>
    split_ifs <;> omega

/-! ### Rounding of doubles -/

theorem shiftToTargetExponent_exact {e : Int} {s : Nat} (hlog : m.log2 = 52 + s)
    (he : -1074 ≤ e + s) :
    shiftToTargetExponent .binary64 m e .exact =
      (ExtendedMantissa.ofMantissaAndAccuracy m .exact >>> s, e + s) := by
  have htarget : Format.binary64.targetExponent (totalExponent m e) = e + s := by
    show max ((m.log2 : Int) + 1 + e - 53) (-1074) = e + s
    omega
  have hamount : (e + s - e).toNat = s := by omega
  rw [shiftToTargetExponent, shiftToExponent, htarget, hamount]

/-- Rounding shifts the mantissa, rounds what is left, and shifts once more. -/
theorem roundWithAccuracy_eq {sign : Sign} {e e' e'' : Int} {first last : ExtendedMantissa}
    (hfirst : shiftToTargetExponent .binary64 m e .exact = (first, e'))
    (hlast : shiftToTargetExponent .binary64 first.roundedMantissa e' .exact = (last, e''))
    (hpos : 0 < last.mantissa) :
    roundWithAccuracy .binary64 sign m e .exact = .finite sign last.mantissa e'' hpos := by
  simp only [roundWithAccuracy, hfirst, hlast]
  exact dif_neg hpos.ne'

/-- A mantissa of at least 53 binary digits is cut to 53. Where rounding gives one digit more, the
last digit is zero and the exponent takes it up. -/
theorem roundWithAccuracy_exact (sign : Sign) {e : Int} {s : Nat} (hlog : m.log2 = 52 + s)
    (he : -1074 ≤ e + s) :
    ∃ mantissa carry hpos,
      roundWithAccuracy .binary64 sign m e .exact =
        .finite sign mantissa (e + s + (carry : Nat)) hpos ∧
      2 ^ 52 ≤ mantissa ∧ mantissa < 2 ^ 53 ∧ mantissa * 2 ^ carry = halfEven m s := by
  have hm : m ≠ 0 := by
    rintro rfl
    rw [Nat.log2_zero] at hlog
    omega
  have hlow := two_pow_le_halfEven hm (s := s) (by omega)
  have hhigh := halfEven_le_two_pow (m := m) (s := s) (by omega)
  rw [show m.log2 - s = 52 by omega] at hlow
  rw [show m.log2 + 1 - s = 53 by omega] at hhigh
  have hfirst := shiftToTargetExponent_exact hlog he
  have hrounded := (shifted_exact m s).roundedMantissa
  obtain hlt | heq := hhigh.lt_or_eq
  · have hdigits : (halfEven m s).log2 = 52 + 0 :=
      (Nat.log2_eq_iff (by omega)).mpr ⟨hlow, hlt⟩
    have hlast : shiftToTargetExponent .binary64 (halfEven m s) (e + s) .exact =
        (⟨halfEven m s, false, false⟩, e + s + (0 : Nat)) :=
      shiftToTargetExponent_exact hdigits (by omega)
    rw [← hrounded] at hlast
    exact ⟨_, 0, _, roundWithAccuracy_eq hfirst hlast (by dsimp only; omega), by dsimp only; omega,
      by dsimp only; omega, by dsimp only; omega⟩
  · have hdigits : (halfEven m s).log2 = 52 + 1 := by rw [heq, Nat.log2_two_pow]
    have hlast : shiftToTargetExponent .binary64 (halfEven m s) (e + s) .exact =
        (⟨halfEven m s / 2, halfEven m s % 2 != 0, false⟩, e + s + (1 : Nat)) :=
      shiftToTargetExponent_exact hdigits (by omega)
    rw [← hrounded] at hlast
    exact ⟨_, 1, _, roundWithAccuracy_eq hfirst hlast (by dsimp only; omega), by dsimp only; omega,
      by dsimp only; omega, by dsimp only; omega⟩

/-! ### Packing of doubles -/

theorem unpackSign_packComponents {spec : Format} (sign : Sign)
    (exponent : BitVec spec.exponentBits) (mantissa : BitVec spec.mantissaBitsWithoutImplicit) :
    Sign.ofBitVec (unpackSign (packComponents spec sign exponent mantissa)) = sign := by
  have hbit : unpackSign (packComponents spec sign exponent mantissa) = sign.toBitVec := by
    ext i hi
    obtain rfl : i = 0 := by omega
    simp [unpackSign, packComponents, BitVec.getLsbD_append, BitVec.getElem_append]
  rw [hbit]
  cases sign <;> rfl

/-- A double of 53 binary digits is packed without loss. -/
theorem unpack_pack {sign : Sign} {e : Int} (hpos : 0 < m) (hlow : 2 ^ 52 ≤ m) (hhigh : m < 2 ^ 53)
    (he : -1074 ≤ e) (he' : e ≤ 971) :
    (Float.Model.pack (.finite sign m e hpos)).unpack = .finite sign m e hpos := by
  have hdigits : m.log2 = 52 := (Nat.log2_eq_iff hpos.ne').mpr ⟨hlow, hhigh⟩
  obtain ⟨biased, hbiased⟩ : ∃ biased : Nat, e + 1075 = biased :=
    ⟨(e + 1075).toNat, by omega⟩
  have hexponent : (e + (1023 : Nat) + (52 : Nat)).toNat = biased := by omega
  have hbits : (BitVec.ofNat 11 biased).toNat = biased := by
    rw [BitVec.toNat_ofNat, Nat.mod_eq_of_lt (by omega)]
  have hones : BitVec.ofNat 11 biased ≠ -1#11 := fun h ↦ by
    have hnat := congrArg BitVec.toNat h
    rw [hbits] at hnat
    have : biased = 2047 := hnat
    omega
  have hzeros : BitVec.ofNat 11 biased ≠ 0#11 := fun h ↦ by
    have hnat := congrArg BitVec.toNat h
    rw [hbits] at hnat
    have : biased = 0 := hnat
    omega
  have hmantissa : (1#1 ++ BitVec.ofNat 52 m).toNat = m := by
    rw [BitVec.toNat_append, ← Nat.shiftLeft_add_eq_or_of_lt (BitVec.ofNat 52 m).isLt,
      BitVec.toNat_ofNat, Nat.shiftLeft_eq]
    show 1 * 2 ^ 52 + m % 2 ^ 52 = m
    omega
  have hpack : UnpackedFloat.pack .binary64 (.finite sign m e hpos) =
      packComponents .binary64 sign (BitVec.ofNat 11 biased) (BitVec.ofNat 52 m) := by
    show (if 2 ^ 11 ≤ (e + (1023 : Nat) + (52 : Nat)).toNat + 1 then _
      else if m.log2 + 1 = 53 then
        packComponents .binary64 sign (BitVec.ofNat 11 (e + (1023 : Nat) + (52 : Nat)).toNat) _
      else _) = _
    rw [hexponent, if_neg (by omega), if_pos (by omega)]
  show UnpackedFloat.unpack .binary64 (UnpackedFloat.pack .binary64 (.finite sign m e hpos)) = _
  rw [hpack, UnpackedFloat.unpack]
  simp only [unpackMantissa_packComponents, unpackExponent_packComponents,
    unpackSign_packComponents, hones, hzeros, if_false, hmantissa, hbits]
  congr 1
  show (biased : Int) - ((1023 : Nat) + (52 : Nat)) = e
  omega

/-! ### Conversion of natural numbers -/

/-- The double of 53 binary digits whose value is `v`. -/
inductive Represents (v : Nat) : UnpackedFloat → Prop
  | mk (mantissa exponent : Nat) (hpos : 0 < mantissa) (hlow : 2 ^ 52 ≤ mantissa)
    (hhigh : mantissa < 2 ^ 53) (hvalue : mantissa * 2 ^ exponent = v * 2 ^ 52) :
    Represents v (.finite .positive mantissa (exponent - 52) hpos)

variable {v : Nat} {u : UnpackedFloat}

theorem exponent_le {mantissa exponent : Nat} (hlow : 2 ^ 52 ≤ mantissa)
    (hvalue : mantissa * 2 ^ exponent = v * 2 ^ 52) (hv : v ≤ 2 ^ 64) : exponent ≤ 64 := by
  have hle : 2 ^ 52 * 2 ^ exponent ≤ 2 ^ 52 * 2 ^ 64 := by
    calc 2 ^ 52 * 2 ^ exponent ≤ mantissa * 2 ^ exponent := Nat.mul_le_mul_right _ hlow
      _ = 2 ^ 52 * v := hvalue.trans (mul_comm _ _)
      _ ≤ 2 ^ 52 * 2 ^ 64 := Nat.mul_le_mul_left _ hv
  exact (Nat.pow_le_pow_iff_right (by omega)).mp (Nat.le_of_mul_le_mul_left hle (by omega))

theorem Represents.unpack_pack (h : Represents v u) (hv : v ≤ 2 ^ 64) :
    (Float.Model.pack u).unpack = u := by
  obtain ⟨mantissa, exponent, hpos, hlow, hhigh, hvalue⟩ := h
  have hexponent := exponent_le hlow hvalue hv
  exact Number.unpack_pack hpos hlow hhigh (by omega) (by omega)

theorem Represents.unpack_pack_neg (h : Represents v u) (hv : v ≤ 2 ^ 64) :
    (Float.Model.pack u.neg).unpack = u.neg := by
  obtain ⟨mantissa, exponent, hpos, hlow, hhigh, hvalue⟩ := h
  have hexponent := exponent_le hlow hvalue hv
  exact Number.unpack_pack hpos hlow hhigh (by omega) (by omega)

/-- Rounding a number that is given with a scale. -/
theorem roundWithAccuracy_represents {e : Int} {s k : Nat} (hlog : m.log2 = 52 + s)
    (he : e + s = (k : Int) - 52) (hvalue : halfEven m s * 2 ^ k = v * 2 ^ 52) :
    Represents v (roundWithAccuracy .binary64 .positive m e .exact) := by
  obtain ⟨mantissa, carry, hpos, heq, hlow, hhigh, hcarry⟩ :=
    roundWithAccuracy_exact .positive hlog (e := e) (by omega)
  have hexponent : e + s + (carry : Nat) = ((carry + k : Nat) : Int) - 52 := by omega
  rw [heq, hexponent]
  refine .mk mantissa (carry + k) hpos hlow hhigh ?_
  rw [pow_add, ← mul_assoc, hcarry, hvalue]

/-- The double one. -/
def unpackedOne : UnpackedFloat :=
  .finite .positive (2 ^ 52) (-52) (by decide)

theorem Represents.mul_one (h : Represents v u) : Represents v (mul .binary64 u unpackedOne) := by
  obtain ⟨mantissa, exponent, hpos, hlow, hhigh, hvalue⟩ := h
  have hdigits : mantissa.log2 = 52 := (Nat.log2_eq_iff hpos.ne').mpr ⟨hlow, hhigh⟩
  have hlog : (mantissa * 2 ^ 52).log2 = 52 + 52 := by
    rw [log2_mul_two_pow hpos.ne', hdigits]
  refine roundWithAccuracy_represents (k := exponent) hlog (by omega) ?_
  have hcut := halfEven_mul_two_pow mantissa 0 52
  rw [Nat.zero_add, halfEven_zero] at hcut
  rw [hcut, hvalue]

/-- A number that fits into 64 bits without sign and has at most 53 binary digits. -/
theorem ofUInt64_represents (hn : n ≠ 0) (hlt : n < 2 ^ 53) :
    Represents n (UnpackedFloat.ofUInt64 .binary64 n.toUInt64) := by
  have hdigits : n.log2 < 53 := (Nat.log2_lt hn).mpr hlt
  have hnat : n.toUInt64.toNat = n := by
    rw [Nat.toUInt64_eq, UInt64.toNat_ofNat', Nat.mod_eq_of_lt (by omega)]
  have hround : UnpackedFloat.ofUInt64 .binary64 n.toUInt64 =
      UnpackedFloat.round .binary64 .positive n 0 := by
    rw [UnpackedFloat.ofUInt64, UnpackedFloat.ofNat, UnpackedFloat.ofInt, hnat,
      UnpackedFloat.normalize]
    rw [show Ord.compare (n : Int) 0 = .gt from Int.compare_eq_gt.mpr (by omega)]
    rfl
  have htarget : Format.binary64.targetExponent (totalExponent n 0) = (n.log2 : Int) - 52 := by
    show max ((n.log2 : Int) + 1 + 0 - 53) (-1074) = (n.log2 : Int) - 52
    omega
  have hamount : ((0 : Int) - ((n.log2 : Int) - 52)).toNat = 52 - n.log2 := by omega
  rw [hround, UnpackedFloat.round, htarget, decreaseExponent, hamount]
  dsimp only
  rw [Nat.shiftLeft_eq]
  refine roundWithAccuracy_represents (s := 0) (k := n.log2) ?_ (by omega) ?_
  · rw [log2_mul_two_pow hn]
    omega
  · rw [halfEven_zero, mul_assoc, ← pow_add, Nat.sub_add_cancel (by omega)]

theorem ofScientific_represents (hn : 2 ^ 53 ≤ n) :
    Represents (nearest n) (UnpackedFloat.ofScientific .binary64 n 0) := by
  have hne : n ≠ 0 := by omega
  have hdigits : 53 ≤ n.log2 := (Nat.le_log2 hne).mpr hn
  have hproduct : UnpackedFloat.ofScientific .binary64 n 0 =
      roundWithAccuracy .binary64 .positive (n * 2 ^ 53) (-53) .exact := by
    have hlarge : ¬(0 : Int) > 2 ^ 11 := by decide
    have hsmall : ¬(0 : Int) < -((2 ^ 11 : Int) + n.log2) := by omega
    rw [UnpackedFloat.ofScientific, dif_neg hne, if_neg hlarge, if_neg hsmall, if_pos le_rfl]
    show roundWithAccuracy .binary64 .positive ((n <<< 53) * 1) (-53 + 0) .exact = _
    rw [Nat.shiftLeft_eq, Nat.mul_one]
    rfl
  have hlog : (n * 2 ^ 53).log2 = 52 + (n.log2 + 1) := by
    rw [log2_mul_two_pow hne]
    omega
  rw [hproduct]
  refine roundWithAccuracy_represents (k := n.log2) hlog (by omega) ?_
  have hscale := halfEven_mul_two_pow n (n.log2 - 52) 53
  rw [show n.log2 - 52 + 53 = n.log2 + 1 by omega] at hscale
  rw [hscale, nearest, mul_assoc, ← pow_add, Nat.sub_add_cancel (by omega)]

theorem nearest_le_of_lt (hlt : n < 2 ^ 64) : nearest n ≤ 2 ^ 64 := by
  obtain rfl | hn := eq_or_ne n 0
  · exact Nat.zero_le _
  · have hdigits : n.log2 < 64 := (Nat.log2_lt hn).mpr hlt
    exact (nearest_le_two_pow n).trans (Nat.pow_le_pow_right Nat.two_pos hdigits)

/-- The conversion to a double gives the nearest one. -/
theorem ofNat_represents (hn : n ≠ 0) (hlt : n < 2 ^ 64) :
    Represents (nearest n) (Float.ofNat n).toModel.unpack := by
  have hbound := nearest_le_of_lt hlt
  by_cases hsmall : n < 2 ^ 53
  · have hconverted := ofUInt64_represents hn hsmall
    have hone : (Float.ofBits 0x3FF0000000000000).toModel.unpack = unpackedOne := rfl
    have heq : (Float.ofNat n).toModel =
        Float.Model.pack (mul .binary64 (Float.Model.ofUInt64 n.toUInt64).unpack unpackedOne) := by
      rw [← hone]
      show (Float.ofScientific n false 0).toModel = _
      rw [Float.ofScientific, dif_pos ⟨hsmall, by omega⟩]
      rfl
    rw [nearest_of_le hsmall.le] at hbound ⊢
    rw [heq, Float.Model.ofUInt64, hconverted.unpack_pack hbound,
      hconverted.mul_one.unpack_pack hbound]
    exact hconverted.mul_one
  · have hrounded := ofScientific_represents (Nat.le_of_not_lt hsmall)
    have heq : (Float.ofNat n).toModel =
        Float.Model.pack (UnpackedFloat.ofScientific .binary64 n 0) := by
      show (Float.ofScientific n false 0).toModel = _
      rw [Float.ofScientific, dif_neg (by omega)]
      rfl
    rw [heq, hrounded.unpack_pack hbound]
    exact hrounded

end Offside.Number
