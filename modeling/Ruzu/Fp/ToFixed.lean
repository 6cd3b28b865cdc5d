import Ruzu.Fp.RoundInteger

/-!
# Conversion to fixed point

`fp_to_fixed.rs`. An integer outside the destination's range is noticed by the
highest bit of the magnitude that was rounded, and becomes the nearest bound.
-/

set_option autoImplicit false

namespace Ruzu.Fp

def lowOnes (bits : ℕ) : ℕ := if bits = 64 then 2 ^ 64 - 1 else 1 <<< bits - 1

def leadingZeros (value : ℕ) : ℤ := if value = 0 then 64 else 63 - value.log2

/-- `fp_to_fixed` from the exponent on. -/
def toFixedNonzero (ibits fbits : ℕ) (unsigned sign : Bool) (value : FpUnpacked)
    (rounding : RoundingMode) (fpcr : Fpcr) (fpsr : Fpsr) : Option (ℕ × Fpsr) :=
  let exponent := value.exponent + fbits - normalizedPointPosition
  let intResult := if sign then negateU64 value.mantissa else value.mantissa
  let error := residualErrorOnRightShift intResult (-exponent)
  let intResult := arithmeticShiftLeftU64 intResult exponent
  let roundUp := integerRoundUp rounding error intResult
  let intResult := if roundUp then (intResult + 1) % 2 ^ 64 else intResult
  let adjustedMantissa :=
    (value.mantissa + if roundUp then logicalShiftRightU64 1 exponent else 0) % 2 ^ 64
  let highestSetBit := 63 - leadingZeros adjustedMantissa
  let signBit : ℕ := if unsigned then 0 else 1
  let minExponentForOverflow : ℤ := ibits - highestSetBit - signBit
  let minValue := negateU64 (1 <<< (ibits - 1))
  if exponent ≥ minExponentForOverflow ∧ (unsigned ∨ ¬sign) then
    (processException .invalidOp fpcr fpsr).map fun fpsr => (lowOnes (ibits - signBit), fpsr)
  else if exponent ≥ minExponentForOverflow ∧
      ¬(exponent = minExponentForOverflow ∧ intResult = minValue) then
    (processException .invalidOp fpcr fpsr).map fun fpsr => (1 <<< (ibits - 1), fpsr)
  else if error ≠ .zero then
    (processException .inexact fpcr fpsr).map fun fpsr => (intResult &&& lowOnes ibits, fpsr)
  else some (intResult &&& lowOnes ibits, fpsr)

def fpToFixed (F : FloatFormat) (ibits op fbits : ℕ) (unsigned : Bool) (fpcr : Fpcr)
    (rounding : RoundingMode) (fpsr : Fpsr) : Option (ℕ × Fpsr) :=
  if rounding = .toOdd ∨ ¬ibits ≤ 64 ∨ ¬fbits ≤ ibits then none
  else do
    let ((fpType, sign, value), fpsr) ← fpUnpack F op fpcr fpsr
    let fpsr ← if fpType = .snan ∨ fpType = .qnan then processException .invalidOp fpcr fpsr
      else some fpsr
    if value.mantissa = 0 then some (0, fpsr)
    else if sign ∧ unsigned then (processException .invalidOp fpcr fpsr).map fun fpsr => (0, fpsr)
    else toFixedNonzero ibits fbits unsigned sign value rounding fpcr fpsr

/-! ### The destination -/

/-- The two's complement of an integer. -/
def fixedWord (ibits : ℕ) (n : ℤ) : ℕ := (n % 2 ^ ibits).toNat

def fixedLow (ibits : ℕ) (unsigned : Bool) : ℤ := if unsigned then 0 else -2 ^ (ibits - 1)

def fixedHigh (ibits : ℕ) (unsigned : Bool) : ℤ :=
  if unsigned then 2 ^ ibits - 1 else 2 ^ (ibits - 1) - 1

/-- The nearest integer of the destination. -/
def saturate (ibits : ℕ) (unsigned : Bool) (n : ℤ) : ℤ :=
  max (fixedLow ibits unsigned) (min n (fixedHigh ibits unsigned))

/-- The destination has the integer. -/
def Fits (ibits : ℕ) (unsigned : Bool) (n : ℤ) : Prop :=
  fixedLow ibits unsigned ≤ n ∧ n ≤ fixedHigh ibits unsigned

instance (ibits : ℕ) (unsigned : Bool) (n : ℤ) : Decidable (Fits ibits unsigned n) :=
  inferInstanceAs (Decidable (_ ∧ _))

section Saturate

variable {ibits : ℕ} {unsigned : Bool} {n : ℤ}

theorem fixedLow_le_fixedHigh (ibits : ℕ) (unsigned : Bool) :
    fixedLow ibits unsigned ≤ 0 ∧ 0 ≤ fixedHigh ibits unsigned := by
  have hwide : (0 : ℤ) < 2 ^ ibits := by positivity
  have hnarrow : (0 : ℤ) < 2 ^ (ibits - 1) := by positivity
  rw [fixedLow, fixedHigh]
  split <;> omega

theorem saturate_of_fits (h : Fits ibits unsigned n) : saturate ibits unsigned n = n := by
  rw [saturate, min_eq_left h.2, max_eq_right h.1]

theorem saturate_above (h : fixedHigh ibits unsigned ≤ n) :
    saturate ibits unsigned n = fixedHigh ibits unsigned := by
  have hbounds := fixedLow_le_fixedHigh ibits unsigned
  rw [saturate, min_eq_right h, max_eq_right (hbounds.1.trans hbounds.2)]

theorem saturate_below (h : n ≤ fixedLow ibits unsigned) :
    saturate ibits unsigned n = fixedLow ibits unsigned := by
  rw [saturate, max_eq_left ((min_le_left _ _).trans h)]

end Saturate

/-! ### The rounded integer as a word -/

section Word

variable {v : FpUnpacked} {rounding : RoundingMode} {e : ℤ}

theorem integerRoundUp_zero (rounding : RoundingMode) (n : ℕ) :
    integerRoundUp rounding .zero n = false := by
  cases rounding <;> simp [integerRoundUp]

theorem residualErrorOnRightShift_left (n : ℕ) (he : 0 ≤ e) :
    residualErrorOnRightShift n (-e) = .zero := by
  rw [residualErrorOnRightShift, if_pos (Or.inl (by omega))]

theorem arithmeticShiftLeftU64_nonneg (a : ℤ) (he : 0 ≤ e) :
    arithmeticShiftLeftU64 (ofI64 a) e = ofI64 (a * 2 ^ e.toNat) := by
  rw [arithmeticShiftLeftU64]
  split
  case isTrue hbig =>
    have hdvd : (2 : ℤ) ^ 64 ∣ a * 2 ^ e.toNat := (pow_dvd_pow 2 (by omega)).mul_left a
    rw [ofI64, Int.emod_eq_zero_of_dvd hdvd]
    rfl
  case isFalse =>
    rw [if_neg (by omega), Nat.shiftLeft_eq]
    have hword : ((ofI64 a * 2 ^ e.toNat % 2 ^ 64 : ℕ) : ℤ) = ofI64 (a * 2 ^ e.toNat) := by
      rw [ofI64, ofI64, Int.toNat_of_nonneg (Int.emod_nonneg _ (by decide)), Int.natCast_mod,
        Nat.cast_mul, Int.toNat_of_nonneg (Int.emod_nonneg _ (by decide))]
      push_cast
      exact (Int.mod_modEq a (2 ^ 64)).mul_right _
    exact_mod_cast hword

/-- Whether the code adds one to the integer that was rounded down. -/
def roundsUp (rounding : RoundingMode) (v : FpUnpacked) (e : ℤ) : Bool :=
  integerRoundUp rounding (residualErrorOnRightShift (ofI64 v.signed) (-e))
    (arithmeticShiftLeftU64 (ofI64 v.signed) e)

/-- The mantissa with the sign at the scale of an exponent. -/
def scaled (v : FpUnpacked) (e : ℤ) : ℚ := v.signed * 2 ^ e

theorem scaled_right {s : ℕ} (hs : e = -(s : ℤ)) : scaled v e = v.signed / 2 ^ s := by
  rw [scaled, hs, zpow_neg, zpow_natCast, div_eq_mul_inv]

theorem scaled_left (he : 0 ≤ e) : scaled v e = (v.signed * 2 ^ e.toNat : ℤ) := by
  obtain ⟨s, rfl⟩ := Int.eq_ofNat_of_zero_le he
  rw [scaled, zpow_natCast, Int.toNat_natCast]
  push_cast
  rfl

theorem roundsUp_left (he : 0 ≤ e) : roundsUp rounding v e = false := by
  rw [roundsUp, residualErrorOnRightShift_left _ he, integerRoundUp_zero]

theorem scaledError_eq_zero (h : v.Normal) (e : ℤ) :
    residualErrorOnRightShift (ofI64 v.signed) (-e) = .zero ↔ Int.fract (scaled v e) = 0 := by
  rcases lt_or_ge e 0 with hneg | hnonneg
  · obtain ⟨s, hs⟩ := Int.eq_ofNat_of_zero_le (show 0 ≤ -e by omega)
    rw [hs, scaled_right (s := s) (by omega), error_eq_zero h (by omega)]
  · rw [residualErrorOnRightShift_left _ hnonneg, scaled_left hnonneg]
    exact iff_of_true rfl (Int.fract_intCast _)

theorem roundInt_scaled (h : v.Normal) (hmode : rounding ≠ .toOdd) (e : ℤ) :
    roundInt rounding (scaled v e) =
      ⌊scaled v e⌋ + if roundsUp rounding v e then 1 else 0 := by
  rcases lt_or_ge e 0 with hneg | hnonneg
  · obtain ⟨s, hs⟩ := Int.eq_ofNat_of_zero_le (show 0 ≤ -e by omega)
    have hshift : e = -(s : ℤ) := by omega
    rw [scaled_right hshift, roundsUp, hs, hshift,
      arithmeticShiftLeftU64_neg h.signed_low h.signed_high (by omega),
      residualErrorOnRightShift_eq h.signed_low h.signed_high (by omega),
      roundInt_div hmode h.signed_low h.signed_high, floor_div]
  · rw [roundsUp_left hnonneg, scaled_left hnonneg, roundInt_intCast, Int.floor_intCast,
      if_neg Bool.false_ne_true, add_zero]

theorem scaledWord_eq (h : v.Normal) (hmode : rounding ≠ .toOdd) (e : ℤ) :
    (if roundsUp rounding v e then (arithmeticShiftLeftU64 (ofI64 v.signed) e + 1) % 2 ^ 64
      else arithmeticShiftLeftU64 (ofI64 v.signed) e) =
      ofI64 (roundInt rounding (scaled v e)) := by
  have hfloor : arithmeticShiftLeftU64 (ofI64 v.signed) e = ofI64 ⌊scaled v e⌋ := by
    rcases lt_or_ge e 0 with hneg | hnonneg
    · obtain ⟨s, hs⟩ := Int.eq_ofNat_of_zero_le (show 0 ≤ -e by omega)
      have hshift : e = -(s : ℤ) := by omega
      rw [scaled_right hshift, hshift,
        arithmeticShiftLeftU64_neg h.signed_low h.signed_high (by omega), floor_div]
    · rw [scaled_left hnonneg, arithmeticShiftLeftU64_nonneg _ hnonneg, Int.floor_intCast]
  rw [roundInt_scaled h hmode, hfloor]
  split
  case isTrue => exact ofI64_succ _
  case isFalse => rw [add_zero]

theorem fract_of_roundsUp (h : v.Normal) (hup : roundsUp rounding v e = true) :
    Int.fract (scaled v e) ≠ 0 := by
  intro hfract
  rw [roundsUp, (scaledError_eq_zero h e).mpr hfract, integerRoundUp_zero] at hup
  exact Bool.false_ne_true hup

end Word

/-! ### The highest bit -/

section HighestBit

theorem le_log2_add_iff {n : ℕ} (hpos : 0 < n) (e : ℤ) (b : ℤ) :
    b ≤ n.log2 + e ↔ (2 : ℚ) ^ b ≤ n * 2 ^ e := by
  have hself : (2 : ℚ) ^ (n.log2 : ℤ) ≤ n := by
    rw [zpow_natCast]
    exact_mod_cast Nat.log2_self_le hpos.ne'
  have hnext : (n : ℚ) < 2 ^ ((n.log2 : ℤ) + 1) := by
    have h : n < 2 ^ (n.log2 + 1) := Nat.lt_log2_self
    exact_mod_cast h
  have hunit : (0 : ℚ) < 2 ^ e := zpow_pos (by decide) _
  constructor
  · intro hle
    calc (2 : ℚ) ^ b ≤ 2 ^ ((n.log2 : ℤ) + e) := zpow_le_zpow_right₀ (by norm_num) hle
      _ = 2 ^ (n.log2 : ℤ) * 2 ^ e := zpow_add₀ (by norm_num) _ _
      _ ≤ n * 2 ^ e := mul_le_mul_of_nonneg_right hself hunit.le
  · intro hle
    have hlt : (2 : ℚ) ^ b < 2 ^ ((n.log2 : ℤ) + 1 + e) := by
      calc (2 : ℚ) ^ b ≤ n * 2 ^ e := hle
        _ < 2 ^ ((n.log2 : ℤ) + 1) * 2 ^ e := mul_lt_mul_of_pos_right hnext hunit
        _ = 2 ^ ((n.log2 : ℤ) + 1 + e) := (zpow_add₀ (by norm_num) _ _).symm
    have hexp := (zpow_lt_zpow_iff_right₀ (by norm_num)).mp hlt
    omega

variable {v : FpUnpacked} {rounding : RoundingMode} {e : ℤ}

/-- The magnitude, with one added to the last place where the code rounds up. -/
def adjustedMantissa (rounding : RoundingMode) (v : FpUnpacked) (e : ℤ) : ℕ :=
  (v.mantissa + if roundsUp rounding v e then logicalShiftRightU64 1 e else 0) % 2 ^ 64

theorem abs_scaled (v : FpUnpacked) (e : ℤ) : |scaled v e| = v.mantissa * 2 ^ e := by
  have hunit : (0 : ℚ) < 2 ^ e := zpow_pos (by decide) _
  rw [scaled, abs_mul, abs_of_pos hunit, ← Int.cast_abs, Int.abs_eq_natAbs, v.natAbs_signed,
    Int.cast_natCast]

theorem highestBit_eq {n : ℕ} (hpos : 0 < n) : 63 - leadingZeros n = n.log2 := by
  rw [leadingZeros, if_neg hpos.ne']
  omega

/-- The test for overflow compares the magnitude after the code's rounding. -/
theorem highestBit_add_iff (h : v.Normal) (e : ℤ) {b : ℤ} (hb : 1 ≤ b) :
    b ≤ 63 - leadingZeros (adjustedMantissa rounding v e) + e ↔
      (2 : ℚ) ^ b ≤ |scaled v e| + if roundsUp rounding v e then 1 else 0 := by
  have hlow := h.1
  have hhigh := h.2
  have hmantissa : v.mantissa % 2 ^ 64 = v.mantissa := Nat.mod_eq_of_lt (by omega)
  rw [adjustedMantissa, abs_scaled]
  by_cases hup : roundsUp rounding v e = true
  · have hneg : e < 0 := by
      by_contra hnonneg
      rw [roundsUp_left (not_lt.mp hnonneg)] at hup
      exact Bool.false_ne_true hup
    obtain ⟨s, hs⟩ := Int.eq_ofNat_of_zero_le (show 0 ≤ -e by omega)
    obtain rfl : e = -(s : ℤ) := by omega
    have hinv : (2 : ℚ) ^ s * 2 ^ (-(s : ℤ)) = 1 := by
      rw [← zpow_natCast, ← zpow_add₀ (by norm_num), add_neg_cancel, zpow_zero]
    rw [if_pos hup, if_pos hup, logicalShiftRightU64, if_neg (by omega), if_pos hneg, neg_neg,
      Int.toNat_natCast, Nat.one_shiftLeft]
    split
    case isTrue hfar =>
      have hsmall : (v.mantissa : ℚ) * 2 ^ (-(s : ℤ)) < 1 := by
        rw [← hinv]
        refine mul_lt_mul_of_pos_right ?_ (zpow_pos (by decide) _)
        have hpow : 2 ^ 64 ≤ 2 ^ s := Nat.pow_le_pow_right (by decide) (by omega)
        have hlt : v.mantissa < 2 ^ s := by omega
        exact_mod_cast hlt
      have htwo : (2 : ℚ) ^ (1 : ℤ) ≤ 2 ^ b := zpow_le_zpow_right₀ (by norm_num) hb
      rw [zpow_one] at htwo
      rw [Nat.add_zero, hmantissa, highestBit_eq (by omega), h.log2]
      refine iff_of_false (by omega) ?_
      linarith
    case isFalse hnear =>
      have hpow : 2 ^ s ≤ 2 ^ 63 := Nat.pow_le_pow_right (by decide) (by omega)
      have hroom : 2 ^ s < 2 ^ 64 := by omega
      have hone := Nat.two_pow_pos s
      rw [Nat.mod_eq_of_lt hroom, Nat.mod_eq_of_lt (by omega), highestBit_eq (by omega),
        le_log2_add_iff (by omega)]
      push_cast
      rw [add_mul, hinv]
  · rw [if_neg hup, if_neg hup, Nat.add_zero, hmantissa, highestBit_eq (by omega),
      le_log2_add_iff (by omega), add_zero]

end HighestBit

/-! ### The destination's range -/

section Range

variable {v : FpUnpacked} {rounding : RoundingMode} {e : ℤ} {ibits : ℕ}

/-- The code takes a negative number just below the lowest one that is no bound for an overflow,
although it rounds up into the range. -/
def RoundsBackIn (ibits : ℕ) (unsigned : Bool) (rounding : RoundingMode) (x : ℚ) : Prop :=
  unsigned = false ∧ roundInt rounding x = -2 ^ (ibits - 1) + 1 ∧ x < roundInt rounding x

/-- Where the sign is positive, the test finds every integer that does not fit. -/
theorem overflow_nonneg (h : v.Normal) (hmode : rounding ≠ .toOdd) (hsign : v.sign = false)
    {b : ℕ} (hb : 1 ≤ b) :
    (b : ℤ) ≤ 63 - leadingZeros (adjustedMantissa rounding v e) + e ↔
      2 ^ b ≤ roundInt rounding (scaled v e) := by
  have hnonneg : 0 ≤ scaled v e := by
    rw [scaled, FpUnpacked.signed, hsign, if_neg Bool.false_ne_true, Int.cast_natCast]
    exact mul_nonneg (Nat.cast_nonneg _) (zpow_nonneg (by norm_num) _)
  rw [highestBit_add_iff h e (by omega), abs_of_nonneg hnonneg, roundInt_scaled h hmode]
  have hfloor : ⌊scaled v e + ((if roundsUp rounding v e then 1 else 0 : ℤ) : ℚ)⌋ =
      ⌊scaled v e⌋ + if roundsUp rounding v e then 1 else 0 := Int.floor_add_intCast _ _
  rw [← hfloor, Int.le_floor, zpow_natCast]
  push_cast
  rfl

theorem negateU64_two_pow {b : ℕ} (hb : b ≤ 63) : negateU64 (1 <<< b) = ofI64 (-2 ^ b) := by
  have hle : 2 ^ b ≤ 2 ^ 63 := Nat.pow_le_pow_right (by decide) hb
  have hpos := Nat.two_pow_pos b
  have hcast : ((2 ^ b : ℕ) : ℤ) = 2 ^ b := by push_cast; rfl
  rw [Nat.one_shiftLeft, negateU64, ofI64, ← hcast]
  omega

/-- Where the sign is negative, the test and the exception for the lowest integer find those that
do not fit, and the ones that are rounded back in. -/
theorem overflow_neg (h : v.Normal) (hmode : rounding ≠ .toOdd) (hsign : v.sign = true) {b : ℕ}
    (hb : 1 ≤ b) (hb63 : b ≤ 63)
    (hback : ¬(roundInt rounding (scaled v e) = -2 ^ b + 1 ∧
      scaled v e < roundInt rounding (scaled v e))) :
    ((b : ℤ) ≤ 63 - leadingZeros (adjustedMantissa rounding v e) + e ∧
      ¬(¬(b + 1 : ℤ) ≤ 63 - leadingZeros (adjustedMantissa rounding v e) + e ∧
        ofI64 (roundInt rounding (scaled v e)) = negateU64 (1 <<< b))) ↔
      roundInt rounding (scaled v e) < -2 ^ b := by
  have hnonpos : scaled v e ≤ 0 := by
    rw [scaled, FpUnpacked.signed, hsign, if_pos rfl, Int.cast_neg, neg_mul, Int.cast_natCast,
      neg_nonpos]
    exact mul_nonneg (Nat.cast_nonneg _) (zpow_nonneg (by norm_num) _)
  have hround := roundInt_scaled h hmode e
  have hceil := ceil_eq (scaled v e)
  have hup : roundsUp rounding v e = true → Int.fract (scaled v e) ≠ 0 := fract_of_roundsUp h
  rw [highestBit_add_iff h e (by omega), highestBit_add_iff h e (by omega),
    abs_of_nonpos hnonpos, negateU64_two_pow hb63, zpow_natCast,
    show ((b : ℤ) + 1) = ((b + 1 : ℕ) : ℤ) by push_cast; rfl, zpow_natCast, pow_succ]
  have htwo : (2 : ℤ) ≤ 2 ^ b := by
    calc (2 : ℤ) = 2 ^ 1 := rfl
      _ ≤ 2 ^ b := pow_le_pow_right₀ (by decide) hb
  have hlarge : (2 : ℤ) ^ b ≤ 2 ^ 63 := pow_le_pow_right₀ (by decide) hb63
  have hcast : ((2 ^ b : ℤ) : ℚ) = 2 ^ b := by push_cast; rfl
  rw [← hcast]
  generalize (2 : ℤ) ^ b = p at htwo hlarge hback
  have htest (c : ℤ) : (c : ℚ) ≤ -scaled v e + (if roundsUp rounding v e then 1 else 0) ↔
      ⌈scaled v e⌉ ≤ (if roundsUp rounding v e then 1 else 0) - c := by
    rw [Int.ceil_le]
    push_cast
    constructor <;> intro hle <;> linarith
  rw [htest, show (p : ℚ) * 2 = ((p * 2 : ℤ) : ℚ) by push_cast; rfl, htest, hceil, ofI64, ofI64]
  have hlt := Int.lt_floor_add_one (scaled v e)
  cases hru : roundsUp rounding v e with
  | true =>
    rw [hru, if_pos rfl] at hround
    have hne := hup hru
    have hslip : roundInt rounding (scaled v e) ≠ -p + 1 := by
      intro heq
      refine hback ⟨heq, ?_⟩
      rw [hround]
      push_cast
      exact hlt
    rw [if_neg hne, if_pos rfl]
    omega
  | false =>
    rw [hru, if_neg Bool.false_ne_true, add_zero] at hround
    rw [if_neg Bool.false_ne_true, hround]
    split <;> omega

theorem lowOnes_eq (bits : ℕ) : lowOnes bits = 2 ^ bits - 1 := by
  rw [lowOnes, Nat.one_shiftLeft]
  split
  case isTrue heq => rw [heq]
  case isFalse => rfl

theorem fixedWord_low (n : ℤ) (h : ibits ≤ 64) : ofI64 n &&& lowOnes ibits = fixedWord ibits n := by
  have hmod := ofI64_emod (a := n) h
  rw [lowOnes_eq, Nat.and_two_pow_sub_one_eq_mod, fixedWord, ← hmod, Int.toNat_natCast]

theorem fixedHigh_eq (ibits : ℕ) (unsigned : Bool) :
    fixedHigh ibits unsigned = 2 ^ (ibits - if unsigned then 0 else 1) - 1 := by
  cases unsigned <;> rfl

theorem fixedWord_high (ibits : ℕ) (unsigned : Bool) :
    lowOnes (ibits - if unsigned then 0 else 1) = fixedWord ibits (fixedHigh ibits unsigned) := by
  have hle : (2 : ℤ) ^ (ibits - if unsigned then 0 else 1) ≤ 2 ^ ibits :=
    pow_le_pow_right₀ (by decide) (Nat.sub_le _ _)
  have hpos : (0 : ℤ) < 2 ^ (ibits - if unsigned then 0 else 1) := by positivity
  have hcast : ((2 ^ (ibits - if unsigned then 0 else 1) : ℕ) : ℤ) =
      2 ^ (ibits - if unsigned then 0 else 1) := by push_cast; rfl
  rw [lowOnes_eq, fixedHigh_eq, fixedWord,
    Int.emod_eq_of_lt (by omega) (by omega)]
  omega

theorem fixedWord_lowest (h : 0 < ibits) :
    1 <<< (ibits - 1) = fixedWord ibits (-2 ^ (ibits - 1)) := by
  have hsucc : (2 : ℤ) ^ ibits = 2 * 2 ^ (ibits - 1) := by
    rw [← pow_succ', Nat.sub_add_cancel h]
  have hpos : (0 : ℤ) < 2 ^ (ibits - 1) := by positivity
  have hcast : ((2 ^ (ibits - 1) : ℕ) : ℤ) = 2 ^ (ibits - 1) := by push_cast; rfl
  rw [Nat.one_shiftLeft, fixedWord, hsucc, ← Int.add_mul_emod_self_left _ _ 1,
    Int.emod_eq_of_lt (by omega) (by omega)]
  omega

/-- The conversion in terms of the rounded integer. -/
theorem toFixedNonzero_rounds (h : v.Normal) (hmode : rounding ≠ .toOdd) (ibits fbits : ℕ)
    (unsigned : Bool) (fpcr : Fpcr) (fpsr : Fpsr) :
    toFixedNonzero ibits fbits unsigned v.sign v rounding fpcr fpsr =
      let e := v.exponent + fbits - normalizedPointPosition
      let intResult := ofI64 (roundInt rounding (scaled v e))
      let signBit : ℕ := if unsigned then 0 else 1
      let minExponent : ℤ := ibits - (63 - leadingZeros (adjustedMantissa rounding v e)) - signBit
      if e ≥ minExponent ∧ (unsigned ∨ ¬v.sign) then
        (processException .invalidOp fpcr fpsr).map fun fpsr => (lowOnes (ibits - signBit), fpsr)
      else if e ≥ minExponent ∧
          ¬(e = minExponent ∧ intResult = negateU64 (1 <<< (ibits - 1))) then
        (processException .invalidOp fpcr fpsr).map fun fpsr => (1 <<< (ibits - 1), fpsr)
      else if residualErrorOnRightShift (ofI64 v.signed) (-e) ≠ .zero then
        (processException .inexact fpcr fpsr).map fun fpsr => (intResult &&& lowOnes ibits, fpsr)
      else some (intResult &&& lowOnes ibits, fpsr) := by
  rw [toFixedNonzero]
  dsimp only
  rw [h.ofI64_signed, ← scaledWord_eq h hmode]
  rfl

/-- The flags after an operand at its scale is converted. -/
def fixedFlags (ibits : ℕ) (unsigned : Bool) (rounding : RoundingMode) (x : ℚ) (fpcr : Fpcr)
    (fpsr : Fpsr) : Option Fpsr :=
  if ¬Fits ibits unsigned (roundInt rounding x) then processException .invalidOp fpcr fpsr
  else if Int.fract x ≠ 0 then processException .inexact fpcr fpsr
  else some fpsr

/-- What the code returns for an integer that it does not take for an overflow. -/
theorem toFixed_fits {x : ℚ} {error : ResidualError} {unsigned : Bool} {fpcr : Fpcr} {fpsr : Fpsr}
    (herror : error = .zero ↔ Int.fract x = 0) (hhigh : ibits ≤ 64)
    (hfits : Fits ibits unsigned (roundInt rounding x)) :
    (if error ≠ .zero then
        (processException .inexact fpcr fpsr).map fun fpsr =>
          (ofI64 (roundInt rounding x) &&& lowOnes ibits, fpsr)
      else some (ofI64 (roundInt rounding x) &&& lowOnes ibits, fpsr)) =
      (fixedFlags ibits unsigned rounding x fpcr fpsr).map fun fpsr =>
        (fixedWord ibits (saturate ibits unsigned (roundInt rounding x)), fpsr) := by
  rw [fixedFlags, if_neg (not_not.mpr hfits), saturate_of_fits hfits, fixedWord_low _ hhigh]
  by_cases hzero : error = .zero
  · rw [if_neg (not_not.mpr hzero), if_neg (not_not.mpr (herror.mp hzero)), Option.map_some]
  · rw [if_pos hzero, if_pos (fun hfract => hzero (herror.mpr hfract))]

/-- Apart from the integers that are rounded back in, the conversion saturates. -/
theorem toFixedNonzero_eq (h : v.Normal) (hmode : rounding ≠ .toOdd) (hlow : 1 < ibits)
    (hhigh : ibits ≤ 64) (fbits : ℕ) {unsigned : Bool} (hsign : ¬(v.sign ∧ unsigned))
    (he : e = v.exponent + fbits - normalizedPointPosition)
    (hback : ¬RoundsBackIn ibits unsigned rounding (scaled v e)) (fpcr : Fpcr) (fpsr : Fpsr) :
    toFixedNonzero ibits fbits unsigned v.sign v rounding fpcr fpsr =
      (fixedFlags ibits unsigned rounding (scaled v e) fpcr fpsr).map fun fpsr =>
        (fixedWord ibits (saturate ibits unsigned (roundInt rounding (scaled v e))), fpsr) := by
  have herror := scaledError_eq_zero h e
  have hbounds := fixedLow_le_fixedHigh ibits unsigned
  rw [toFixedNonzero_rounds h hmode, ← he]
  dsimp only
  by_cases hneg : v.sign = true
  · obtain rfl : unsigned = false := by
      rw [Bool.eq_false_iff]
      exact fun hunsigned => hsign ⟨hneg, hunsigned⟩
    have hover := overflow_neg (b := ibits - 1) h hmode hneg (by omega) (by omega)
      (fun hslip => hback ⟨rfl, hslip⟩)
    have hnonpos : roundInt rounding (scaled v e) ≤ 0 := by
      refine roundInt_nonpos rounding ?_
      rw [scaled, FpUnpacked.signed, hneg, if_pos rfl, Int.cast_neg, neg_mul, Int.cast_natCast,
        neg_nonpos]
      exact mul_nonneg (Nat.cast_nonneg _) (zpow_nonneg (by norm_num) _)
    have hlowest : fixedLow ibits false = -2 ^ (ibits - 1) := rfl
    have hbit : ((if false = true then 0 else 1 : ℕ) : ℤ) = 1 := rfl
    rw [if_neg (by simp [hneg]), hbit]
    by_cases hbelow : roundInt rounding (scaled v e) < -2 ^ (ibits - 1)
    · have htest := hover.mpr hbelow
      rw [if_pos ⟨by omega, fun hexact => htest.2 ⟨by omega, hexact.2⟩⟩, fixedFlags,
        if_pos (fun hfits => by
          have hle := hfits.1
          omega), saturate_below (by omega), hlowest, fixedWord_lowest (by omega)]
    · have htest := mt hover.mp hbelow
      have hfits : Fits ibits false (roundInt rounding (scaled v e)) := ⟨by omega, by omega⟩
      rw [if_neg (fun hc => htest ⟨by omega, fun hexact => hc.2 ⟨by omega, hexact.2⟩⟩),
        toFixed_fits herror hhigh hfits]
  · have hpos : v.sign = false := Bool.eq_false_iff.mpr hneg
    have hnonneg : 0 ≤ roundInt rounding (scaled v e) := by
      refine roundInt_nonneg rounding ?_
      rw [scaled, FpUnpacked.signed, hpos, if_neg Bool.false_ne_true, Int.cast_natCast]
      exact mul_nonneg (Nat.cast_nonneg _) (zpow_nonneg (by norm_num) _)
    have hhighest := fixedHigh_eq ibits unsigned
    have hword := fixedWord_high ibits unsigned
    have hbit : (if unsigned = true then 0 else 1) ≤ 1 := by split <;> decide
    generalize (if unsigned = true then 0 else 1) = signBit at hbit hhighest hword ⊢
    have hover : ((ibits - signBit : ℕ) : ℤ) ≤
        63 - leadingZeros (adjustedMantissa rounding v e) + e ↔
          2 ^ (ibits - signBit) ≤ roundInt rounding (scaled v e) :=
      overflow_nonneg h hmode hpos (by omega)
    by_cases habove : 2 ^ (ibits - signBit) ≤ roundInt rounding (scaled v e)
    · have htest := hover.mpr habove
      rw [if_pos ⟨by omega, Or.inr hneg⟩, fixedFlags, if_pos (fun hfits => by
        have hle := hfits.2
        omega), saturate_above (by omega), hword]
    · have htest := mt hover.mp habove
      have hfits : Fits ibits unsigned (roundInt rounding (scaled v e)) := ⟨by omega, by omega⟩
      rw [if_neg (fun hc => htest (by omega)), if_neg (fun hc => htest (by omega)),
        toFixed_fits herror hhigh hfits]

end Range

/-! ### Every operand -/

section Operand

variable {F : FloatFormat} {rounding : RoundingMode} {ibits op fbits : ℕ} {fpcr : Fpcr} {fpsr : Fpsr}
  {unsigned : Bool}

/-- The flags of a conversion: a negative number is never an unsigned one. -/
def convertFlags (ibits : ℕ) (unsigned : Bool) (rounding : RoundingMode) (x : ℚ) (fpcr : Fpcr)
    (fpsr : Fpsr) : Option Fpsr :=
  if unsigned ∧ x < 0 then processException .invalidOp fpcr fpsr
  else fixedFlags ibits unsigned rounding x fpcr fpsr

theorem saturate_negative {n : ℤ} (hunsigned : unsigned = true) (hn : n ≤ 0) :
    fixedWord ibits (saturate ibits unsigned n) = 0 := by
  obtain rfl := hunsigned
  have hlow : fixedLow ibits true = 0 := rfl
  rw [saturate_below (by omega), hlow, fixedWord, Int.zero_emod]
  rfl

theorem fpToFixed_zero (hzero : F.operandValue fpcr op = 0) :
    (convertFlags ibits unsigned rounding (F.operandValue fpcr op * 2 ^ fbits) fpcr fpsr).map
      (fun fpsr => (fixedWord ibits (saturate ibits unsigned
        (roundInt rounding (F.operandValue fpcr op * 2 ^ fbits))), fpsr)) = some (0, fpsr) := by
  have hround : roundInt rounding 0 = 0 := by
    have h := roundInt_intCast rounding 0
    rwa [Int.cast_zero] at h
  have hbounds := fixedLow_le_fixedHigh ibits unsigned
  have hfits : Fits ibits unsigned 0 := hbounds
  have hword : fixedWord ibits 0 = 0 := by
    rw [fixedWord, Int.zero_emod]
    rfl
  rw [hzero, zero_mul, convertFlags, if_neg (fun h => lt_irrefl _ h.2), fixedFlags, hround,
    if_neg (not_not.mpr hfits), if_neg (not_not.mpr (Int.fract_zero)), saturate_of_fits hfits,
    hword, Option.map_some]

theorem fpToFixed_finite (hmode : rounding ≠ .toOdd) (hlow : 1 < ibits) (hhigh : ibits ≤ 64)
    (hfbits : fbits ≤ ibits) (hfinite : F.numberOf op < F.limit {})
    (hide : FlushedOperand F fpcr op → F ≠ .u16 → fpcr.ide = false)
    (hback : ¬RoundsBackIn ibits unsigned rounding (F.operandValue fpcr op * 2 ^ fbits)) :
    fpToFixed F ibits op fbits unsigned fpcr rounding fpsr =
      (convertFlags ibits unsigned rounding (F.operandValue fpcr op * 2 ^ fbits) fpcr
        (readFlags F fpcr op fpsr)).map fun fpsr =>
          (fixedWord ibits (saturate ibits unsigned
            (roundInt rounding (F.operandValue fpcr op * 2 ^ fbits))), fpsr) := by
  have hguard : ¬(rounding = .toOdd ∨ ¬ibits ≤ 64 ∨ ¬fbits ≤ ibits) := by tauto
  rw [fpToFixed, if_neg hguard]
  rcases fpUnpack_finite fpcr fpsr hfinite hide with ⟨hzero, hread⟩ | ⟨hvalue, hpos, v, hread, h⟩
  · rw [hread, fpToFixed_zero hzero]
    simp
  · have hscaled : F.operandValue fpcr op * 2 ^ fbits =
        scaled v (v.exponent + fbits - normalizedPointPosition) := by
      rw [hvalue, h.signedValue_eq, scaled, mul_assoc, ← zpow_natCast, ← zpow_add₀ (by norm_num)]
      congr 2
      ring
    have hmantissa : ¬v.mantissa = 0 := by
      have hlow := h.normal.1
      omega
    have hneg : F.operandValue fpcr op * 2 ^ fbits < 0 ↔ F.signOf op = true := by
      have hvpos := FloatFormat.value_pos (F := F) hpos
      have hunit : (0 : ℚ) < 2 ^ fbits := by positivity
      rw [hvalue, FloatFormat.signedValue]
      split
      case isTrue hsign =>
        exact iff_of_true (mul_neg_of_neg_of_pos (neg_lt_zero.mpr hvpos) hunit) hsign
      case isFalse hsign =>
        exact iff_of_false (not_lt.mpr (mul_pos hvpos hunit).le) hsign
    rw [hread]
    simp only [Option.bind_eq_bind, Option.bind_some, reduceCtorEq, or_self, if_false,
      if_neg hmantissa]
    rw [convertFlags]
    by_cases hsign : F.signOf op = true ∧ unsigned = true
    · have hnonpos : roundInt rounding (F.operandValue fpcr op * 2 ^ fbits) ≤ 0 :=
        roundInt_nonpos rounding (hneg.mpr hsign.1).le
      rw [if_pos hsign, if_pos ⟨hsign.2, hneg.mpr hsign.1⟩, saturate_negative hsign.2 hnonpos]
    · rw [if_neg hsign, if_neg (fun hx => hsign ⟨hneg.mp hx.2, hx.1⟩), hscaled]
      rw [hscaled] at hback
      rw [← h.sign_eq] at hsign ⊢
      exact toFixedNonzero_eq h.normal hmode hlow hhigh fbits hsign rfl hback fpcr _

theorem fpUnpack_special (fpcr : Fpcr) (fpsr : Fpsr) (hlimit : F.limit {} ≤ F.numberOf op) :
    fpUnpack F op fpcr fpsr =
      if F.numberOf op = F.limit {} then
        some ((.infinity, F.signOf op, toNormalized (F.signOf op) 1000000 1), fpsr)
      else some ((if op.testBit (F.explicitMantissaWidth - 1) then .qnan else .snan,
        F.signOf op, ⟨F.signOf op, 0, 0⟩), fpsr) :=
  fpUnpackBase_special { fpcr with ahp := false } fpsr hlimit

/-- Every destination lies within 64 bits. -/
theorem range_bounds (hhigh : ibits ≤ 64) (unsigned : Bool) :
    -2 ^ 64 < fixedLow ibits unsigned ∧ fixedHigh ibits unsigned < 2 ^ 64 ∧
      (2 : ℤ) ^ (ibits - 1) ≤ 2 ^ 63 := by
  have hwide : (2 : ℤ) ^ ibits ≤ 2 ^ 64 := pow_le_pow_right₀ (by decide) hhigh
  have hnarrow : (2 : ℤ) ^ (ibits - 1) ≤ 2 ^ 63 := pow_le_pow_right₀ (by decide) (by omega)
  rw [fixedLow, fixedHigh]
  split <;> omega

/-- A value far from every destination. -/
theorem toFixedNonzero_far {v : FpUnpacked} (h : v.Normal) (hmode : rounding ≠ .toOdd)
    (hlow : 1 < ibits) (hhigh : ibits ≤ 64) (hfar : 1000000 ≤ v.exponent)
    (hsign : ¬(v.sign ∧ unsigned)) :
    toFixedNonzero ibits fbits unsigned v.sign v rounding fpcr fpsr =
      (processException .invalidOp fpcr fpsr).map fun fpsr =>
        (fixedWord ibits (if v.sign then fixedLow ibits unsigned
          else fixedHigh ibits unsigned), fpsr) := by
  obtain ⟨hrangeLow, hrangeHigh, hnarrow⟩ := range_bounds hhigh unsigned
  have hpoint : normalizedPointPosition = 62 := rfl
  have hexp : 0 ≤ v.exponent + fbits - normalizedPointPosition := by omega
  have hscale : (2 : ℤ) ^ 64 ≤ 2 ^ (v.exponent + fbits - normalizedPointPosition).toNat :=
    pow_le_pow_right₀ (by decide) (by omega)
  have hround : roundInt rounding (scaled v (v.exponent + fbits - normalizedPointPosition)) =
      v.signed * 2 ^ (v.exponent + fbits - normalizedPointPosition).toNat := by
    rw [scaled_left hexp, roundInt_intCast]
  have hmantissa := h.1
  generalize (2 : ℤ) ^ (v.exponent + fbits - normalizedPointPosition).toNat = scale at hscale hround
  have hlarge : if v.sign then v.signed * scale ≤ -2 ^ 64 else 2 ^ 64 ≤ v.signed * scale := by
    rw [FpUnpacked.signed]
    split
    · nlinarith
    · nlinarith
  have hback : ¬RoundsBackIn ibits unsigned rounding
      (scaled v (v.exponent + fbits - normalizedPointPosition)) := by
    rintro ⟨-, heq, -⟩
    have hpos : (0 : ℤ) < 2 ^ (ibits - 1) := by positivity
    rw [hround] at heq
    split at hlarge <;> omega
  rw [toFixedNonzero_eq h hmode hlow hhigh fbits hsign rfl hback, fixedFlags, hround]
  split at hlarge
  case isTrue hneg =>
    rw [if_pos hneg, saturate_below (by omega), if_pos (fun hfits => by
      have hle := hfits.1
      omega)]
  case isFalse hpos =>
    rw [if_neg hpos, saturate_above (by omega), if_pos (fun hfits => by
      have hle := hfits.2
      omega)]

/-- Infinity is out of every range. -/
theorem fpToFixed_infinity (hmode : rounding ≠ .toOdd) (hlow : 1 < ibits) (hhigh : ibits ≤ 64)
    (hfbits : fbits ≤ ibits) (hinf : F.numberOf op = F.limit {}) :
    fpToFixed F ibits op fbits unsigned fpcr rounding fpsr =
      (processException .invalidOp fpcr fpsr).map fun fpsr =>
        (fixedWord ibits (if F.signOf op then fixedLow ibits unsigned
          else fixedHigh ibits unsigned), fpsr) := by
  have hguard : ¬(rounding = .toOdd ∨ ¬ibits ≤ 64 ∨ ¬fbits ≤ ibits) := by tauto
  obtain ⟨hsign, hnormal, -, -, hexponent⟩ :=
    toNormalized_normal (F.signOf op) 1000000 (show 0 < 1 by decide) (by decide)
  rw [fpToFixed, if_neg hguard, fpUnpack_special _ _ hinf.ge, if_pos hinf]
  generalize toNormalized (F.signOf op) 1000000 1 = v at hsign hnormal hexponent
  have hmantissa : ¬v.mantissa = 0 := by
    have hlow := hnormal.1
    omega
  simp only [Option.bind_eq_bind, Option.bind_some, reduceCtorEq, or_self, if_false,
    if_neg hmantissa]
  by_cases hneg : F.signOf op = true ∧ unsigned = true
  · have hlowest : fixedLow ibits unsigned = 0 := by rw [hneg.2]; rfl
    have hword : fixedWord ibits 0 = 0 := by
      rw [fixedWord, Int.zero_emod]
      rfl
    rw [if_pos hneg, if_pos hneg.1, hlowest, hword]
  · rw [if_neg hneg]
    rw [← hsign] at hneg ⊢
    exact toFixedNonzero_far hnormal hmode hlow hhigh (by omega) hneg

theorem fpToFixed_nan (hmode : rounding ≠ .toOdd) (hhigh : ibits ≤ 64) (hfbits : fbits ≤ ibits)
    (hnan : F.limit {} < F.numberOf op) :
    fpToFixed F ibits op fbits unsigned fpcr rounding fpsr =
      (processException .invalidOp fpcr fpsr).map fun fpsr => (0, fpsr) := by
  have hguard : ¬(rounding = .toOdd ∨ ¬ibits ≤ 64 ∨ ¬fbits ≤ ibits) := by tauto
  rw [fpToFixed, if_neg hguard, fpUnpack_special _ _ hnan.le, if_neg hnan.ne']
  cases op.testBit (F.explicitMantissaWidth - 1) <;>
    cases hraise : processException .invalidOp fpcr fpsr <;> simp [hraise]

end Operand

/-- NaNs become zero, infinities and numbers out of range the nearest bound. Everything else is
rounded, but for the negative numbers that the code does not round back in. -/
theorem fpToFixed_converts (F : FloatFormat) (ibits op fbits : ℕ) (hlow : 1 < ibits)
    (hhigh : ibits ≤ 64) (hfbits : fbits ≤ ibits) (unsigned : Bool) (fpcr : Fpcr)
    (rounding : RoundingMode) (hmode : rounding ≠ .toOdd) (fpsr : Fpsr) :
    (F.limit {} < F.numberOf op →
      fpToFixed F ibits op fbits unsigned fpcr rounding fpsr =
        (processException .invalidOp fpcr fpsr).map fun fpsr => (0, fpsr)) ∧
    (F.numberOf op = F.limit {} →
      fpToFixed F ibits op fbits unsigned fpcr rounding fpsr =
        (processException .invalidOp fpcr fpsr).map fun fpsr =>
          (fixedWord ibits (if F.signOf op then fixedLow ibits unsigned
            else fixedHigh ibits unsigned), fpsr)) ∧
    (F.numberOf op < F.limit {} →
      (FlushedOperand F fpcr op → F ≠ .u16 → fpcr.ide = false) →
      ¬RoundsBackIn ibits unsigned rounding (F.operandValue fpcr op * 2 ^ fbits) →
      fpToFixed F ibits op fbits unsigned fpcr rounding fpsr =
        (convertFlags ibits unsigned rounding (F.operandValue fpcr op * 2 ^ fbits) fpcr
          (readFlags F fpcr op fpsr)).map fun fpsr =>
            (fixedWord ibits (saturate ibits unsigned
              (roundInt rounding (F.operandValue fpcr op * 2 ^ fbits))), fpsr)) :=
  ⟨fpToFixed_nan hmode hhigh hfbits, fpToFixed_infinity hmode hlow hhigh hfbits,
    fpToFixed_finite hmode hlow hhigh hfbits⟩

/-- The number -1.5 in single precision. -/
theorem fpToFixed_converts_away :
    fpToFixed .u32 32 0xbfc00000 0 false {} .toNearestTieAwayFromZero {} =
      some (0xfffffffe, { ixc := true }) := by
  have hback : ¬RoundsBackIn 32 false .toNearestTieAwayFromZero
      (FloatFormat.u32.operandValue {} 0xbfc00000 * 2 ^ 0) := by
    rintro ⟨-, h, -⟩
    exact absurd h (by decide +kernel)
  exact ((fpToFixed_converts .u32 32 0xbfc00000 0 (by decide) (by decide) (by decide) false {}
    .toNearestTieAwayFromZero (by decide) {}).2.2 (by decide) (fun _ _ => rfl) hback).trans
    (by decide +kernel)

/-- A negative number is refused for an unsigned destination also where it is rounded to zero. -/
theorem fpToFixed_unsigned :
    fpToFixed .u32 32 0xbe800000 0 true {} .towardsZero {} = some (0, { ioc := true }) ∧
      Fits 32 true (roundInt .towardsZero (FloatFormat.u32.signedValue 0xbe800000 * 2 ^ 0)) := by
  decide +kernel

end Ruzu.Fp
