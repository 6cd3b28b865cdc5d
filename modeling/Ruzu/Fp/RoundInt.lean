import Ruzu.Fp.Convert
import Ruzu.Fp.RoundInteger

/-!
# Rounding to an integral value

`fp_round_int.rs`. The integer that the operand is rounded to is encoded again
without the packer that the other operations use.
-/

set_option autoImplicit false

namespace Ruzu.Fp

variable (F : FloatFormat)

def processNan (fpType : FpType) (op : ℕ) (fpcr : Fpcr) (fpsr : Fpsr) : Option (ℕ × Fpsr) :=
  match fpType with
  | .snan => (processException .invalidOp fpcr fpsr).map fun fpsr =>
      (if fpcr.dn then F.defaultNan else F.fromBits (op ||| F.mantissaMsb), fpsr)
  | .qnan => some (if fpcr.dn then F.defaultNan else op, fpsr)
  | _ => none

def arithmeticShiftLeft (value : ℕ) (shiftAmount : ℤ) : ℕ :=
  if shiftAmount ≥ 0 then
    if shiftAmount ≥ 64 then 0 else value <<< shiftAmount.toNat % 2 ^ 64
  else
    let rightShift := shiftAmount.natAbs
    if rightShift ≥ 64 then
      if value >>> 63 ≠ 0 then 2 ^ 64 - 1 else 0
    else ofI64 (toI64 value >>> rightShift)

def encodeIntegral (sign : Bool) (magnitude : ℕ) : ℕ :=
  if magnitude = 0 then F.zero sign
  else
    let topBit := magnitude.log2
    let significand :=
      if topBit > F.explicitMantissaWidth then magnitude >>> (topBit - F.explicitMantissaWidth)
      else magnitude <<< (F.explicitMantissaWidth - topBit) % 2 ^ 64
    let biasedExponent := ((topBit : ℤ) + F.exponentBias).toNat
    let signBits := if sign then F.signMask else 0
    F.fromBits (signBits ||| biasedExponent <<< F.explicitMantissaWidth % 2 ^ 64 |||
      significand &&& F.mantissaMask)

/-- `fp_round_int` from the test of the exponent on. -/
def roundNonzero (op : ℕ) (sign : Bool) (value : FpUnpacked) (rounding : RoundingMode)
    (exact : Bool) (fpcr : Fpcr) (fpsr : Fpsr) : Option (ℕ × Fpsr) :=
  let exponent := value.exponent - normalizedPointPosition
  if exponent ≥ 0 then some (op, fpsr)
  else
    let intResult := if sign then negateU64 value.mantissa else value.mantissa
    let error := residualErrorOnRightShift intResult (-exponent)
    let intResult := arithmeticShiftLeft intResult exponent
    let intResult :=
      if integerRoundUp rounding error intResult then (intResult + 1) % 2 ^ 64 else intResult
    let newSign := decide (intResult >>> 63 ≠ 0)
    let magnitude := if newSign then negateU64 intResult else intResult
    let result := encodeIntegral F (if intResult = 0 then sign else newSign) magnitude
    if error ≠ .zero ∧ exact then
      (processException .inexact fpcr fpsr).map fun fpsr => (result, fpsr)
    else some (result, fpsr)

def fpRoundInt (op : ℕ) (fpcr : Fpcr) (rounding : RoundingMode) (exact : Bool) (fpsr : Fpsr) :
    Option (ℕ × Fpsr) :=
  if rounding = .toOdd then none
  else do
    let ((fpType, sign, value), fpsr) ← fpUnpack F op fpcr fpsr
    match fpType with
    | .snan | .qnan => processNan F fpType op fpcr fpsr
    | .infinity => some (F.infinity sign, fpsr)
    | .zero => some (F.zero sign, fpsr)
    | .nonzero => roundNonzero F op sign value rounding exact fpcr fpsr

variable {F}

theorem arithmeticShiftLeft_eq (value : ℕ) (shiftAmount : ℤ) :
    arithmeticShiftLeft value shiftAmount = arithmeticShiftLeftU64 value shiftAmount := by
  rw [arithmeticShiftLeft, arithmeticShiftLeftU64, arithmeticShiftRightU64]
  rcases lt_or_ge shiftAmount 0 with hneg | hpos
  · rw [if_neg (show ¬shiftAmount ≥ 0 by omega), if_neg (show ¬shiftAmount ≥ 64 by omega),
      if_pos hneg, if_neg (show ¬-shiftAmount < 0 by omega),
      show (-shiftAmount).toNat = shiftAmount.natAbs by omega]
    dsimp only
    by_cases hbig : shiftAmount.natAbs ≥ 64
    · rw [if_pos hbig, if_pos (show -shiftAmount ≥ 64 by omega)]
    · rw [if_neg hbig, if_neg (show ¬-shiftAmount ≥ 64 by omega)]
  · rw [if_pos hpos, if_neg (show ¬shiftAmount < 0 by omega)]

theorem bias_double (F : FloatFormat) : 2 * F.exponentBias + 2 = 2 ^ F.exponentWidth := by
  cases F <;> rfl

theorem signBits_eq (F : FloatFormat) (sign : Bool) :
    (if sign then F.signMask else 0) =
      sign.toNat <<< F.exponentWidth <<< F.explicitMantissaWidth % 2 ^ 64 := by
  cases F <;> cases sign <;> rfl

/-- The bits are put together as in the packer. -/
theorem encodeIntegral_packBits (sign : Bool) {n : ℕ} (hpos : 0 < n) :
    encodeIntegral F sign n = packBits F sign (n.log2 + F.exponentBias)
      (if n.log2 > F.explicitMantissaWidth then n >>> (n.log2 - F.explicitMantissaWidth)
        else n <<< (F.explicitMantissaWidth - n.log2) % 2 ^ 64) := by
  rw [encodeIntegral, if_neg hpos.ne', packBits, Nat.shiftLeft_or_distrib, Nat.or_mod_two_pow,
    ← signBits_eq]

/-- The bits of an integer below the highest one, at the places of the fraction. -/
theorem significand_eq {n : ℕ} (hpos : 0 < n)
    (hdvd : F.explicitMantissaWidth < n.log2 → 2 ^ (n.log2 - F.explicitMantissaWidth) ∣ n) :
    ∃ q, (if n.log2 > F.explicitMantissaWidth then n >>> (n.log2 - F.explicitMantissaWidth)
        else n <<< (F.explicitMantissaWidth - n.log2) % 2 ^ 64) = q ∧
      2 ^ F.explicitMantissaWidth ≤ q ∧ q < 2 ^ (F.explicitMantissaWidth + 1) ∧
      (q : ℚ) * 2 ^ ((n.log2 : ℤ) - F.explicitMantissaWidth) = n := by
  have hwidth := F.width_bounds
  have hself : 2 ^ n.log2 ≤ n := Nat.log2_self_le hpos.ne'
  have hnext : n < 2 ^ (n.log2 + 1) := Nat.lt_log2_self
  refine ⟨_, rfl, ?_⟩
  rcases Nat.lt_or_ge F.explicitMantissaWidth n.log2 with hlong | hshort
  · obtain ⟨c, hc⟩ := hdvd hlong
    have hunit := Nat.two_pow_pos (n.log2 - F.explicitMantissaWidth)
    have hquot : n >>> (n.log2 - F.explicitMantissaWidth) = c := by
      rw [Nat.shiftRight_eq_div_pow]
      exact Nat.div_eq_of_eq_mul_right hunit hc
    have hsplit (k : ℕ) : 2 ^ (n.log2 + k) =
        2 ^ (n.log2 - F.explicitMantissaWidth) * 2 ^ (F.explicitMantissaWidth + k) := by
      rw [← pow_add]
      congr 1
      omega
    rw [if_pos hlong, hquot]
    refine ⟨?_, ?_, ?_⟩
    · refine Nat.le_of_mul_le_mul_left ?_ hunit
      rw [← hc]
      exact (hsplit 0).ge.trans hself
    · refine Nat.lt_of_mul_lt_mul_left (a := 2 ^ (n.log2 - F.explicitMantissaWidth)) ?_
      rw [← hc, ← hsplit]
      exact hnext
    · conv_rhs => rw [hc]
      rw [← Nat.cast_sub hlong.le, zpow_natCast]
      push_cast
      ring
  · obtain ⟨d, hd⟩ := Nat.exists_eq_add_of_le hshort
    have hlow : 2 ^ F.explicitMantissaWidth ≤ n * 2 ^ d := by
      rw [hd, pow_add]
      exact Nat.mul_le_mul_right _ hself
    have hhigh : n * 2 ^ d < 2 ^ (F.explicitMantissaWidth + 1) := by
      rw [hd, Nat.add_right_comm, pow_add]
      exact Nat.mul_lt_mul_of_pos_right hnext (Nat.two_pow_pos d)
    have hsmall : n * 2 ^ d < 2 ^ 64 :=
      hhigh.trans_le (Nat.pow_le_pow_right (by decide) (by omega))
    rw [if_neg (not_lt.mpr hshort), show F.explicitMantissaWidth - n.log2 = d by omega,
      Nat.shiftLeft_eq, Nat.mod_eq_of_lt hsmall]
    refine ⟨hlow, hhigh, ?_⟩
    rw [show (n.log2 : ℤ) - F.explicitMantissaWidth = -(d : ℤ) by omega, zpow_neg, zpow_natCast]
    push_cast
    field_simp

/-- An integer with no more bits than the format has is encoded as the number of its magnitude. -/
theorem encodeIntegral_eq (sign : Bool) {n : ℕ} (hpos : 0 < n)
    (hbias : (n.log2 : ℤ) ≤ F.exponentBias)
    (hdvd : F.explicitMantissaWidth < n.log2 → 2 ^ (n.log2 - F.explicitMantissaWidth) ∣ n) :
    ∃ k, k < F.limit {} ∧ F.value k = n ∧ encodeIntegral F sign n = F.encode sign k := by
  obtain ⟨q, hq, hlow, hhigh, hvalue⟩ := significand_eq hpos hdvd
  have hdouble := bias_double F
  have hbiasPos : 1 ≤ F.exponentBias := by cases F <;> decide
  obtain ⟨b, hb⟩ := Int.le.dest (show (1 : ℤ) ≤ n.log2 + F.exponentBias by omega)
  have hmod : q % 2 ^ F.explicitMantissaWidth = q - 2 ^ F.explicitMantissaWidth := by
    rw [Nat.mod_eq_sub_mod hlow, Nat.mod_eq_of_lt]
    rw [pow_succ] at hhigh
    omega
  refine ⟨b * 2 ^ F.explicitMantissaWidth + q, ?_, ?_, ?_⟩
  · have hroom : b + 2 ≤ 2 ^ F.exponentWidth - 1 := by
      have : ((2 ^ F.exponentWidth : ℕ) : ℤ) = 2 * F.exponentBias + 2 := by
        rw [hdouble]
        norm_cast
      omega
    calc b * 2 ^ F.explicitMantissaWidth + q
        < (b + 2) * 2 ^ F.explicitMantissaWidth := by
          rw [pow_succ] at hhigh
          rw [Nat.add_mul]
          omega
      _ ≤ F.limit {} := by
          rw [FloatFormat.limit, if_neg (by simp)]
          exact Nat.mul_le_mul_right _ hroom
  · rw [F.value_eq hhigh.le (Or.inr hlow), ← hvalue]
    congr 2
    rw [F.exponentMin_eq]
    omega
  · rw [encodeIntegral_packBits sign hpos, hq, FloatFormat.packBits_eq (by omega) (by omega), hmod,
      ← hb, show (1 + (b : ℤ)).toNat = b + 1 by omega, Nat.succ_mul]
    congr 1
    omega

/-! ### The integer of a value below its last place -/

section Integer

variable {op : ℕ} {v : FpUnpacked} {s : ℕ} {rounding : RoundingMode}

theorem natAbs_roundInt_lt (v : FpUnpacked) (rounding : RoundingMode) (s : ℕ) :
    (roundInt rounding (v.signed / 2 ^ s)).natAbs * 2 ^ s < v.mantissa + 2 ^ s := by
  have hnear := abs_roundInt_sub_lt rounding ((v.signed : ℚ) / 2 ^ s)
  generalize roundInt rounding ((v.signed : ℚ) / 2 ^ s) = n at hnear ⊢
  have hunit : (0 : ℚ) < 2 ^ s := by positivity
  have habs : |(n : ℚ)| < |(v.signed : ℚ)| / 2 ^ s + 1 := by
    have htri := abs_sub_abs_le_abs_sub (n : ℚ) ((v.signed : ℚ) / 2 ^ s)
    rw [abs_div, abs_of_pos hunit] at htri
    linarith
  have hmul : |(n : ℚ)| * 2 ^ s < |(v.signed : ℚ)| + 2 ^ s := by
    calc |(n : ℚ)| * 2 ^ s < (|(v.signed : ℚ)| / 2 ^ s + 1) * 2 ^ s :=
          mul_lt_mul_of_pos_right habs hunit
      _ = |(v.signed : ℚ)| + 2 ^ s := by field_simp
  rw [← Int.cast_abs, ← Int.cast_abs, Int.abs_eq_natAbs, Int.abs_eq_natAbs, v.natAbs_signed] at hmul
  exact_mod_cast hmul

theorem natAbs_roundInt_le (h : v.Normal) (rounding : RoundingMode) (s : ℕ) :
    (roundInt rounding (v.signed / 2 ^ s)).natAbs ≤ 2 ^ (63 - s) := by
  have hlt := natAbs_roundInt_lt v rounding s
  have hfit : 2 ^ 63 ≤ 2 ^ (63 - s) * 2 ^ s := by
    rw [← pow_add]
    exact Nat.pow_le_pow_right (by decide) (by omega)
  have hhigh := h.2
  refine Nat.lt_succ_iff.mp (Nat.lt_of_mul_lt_mul_right (a := 2 ^ s) ?_)
  rw [Nat.succ_mul]
  omega

/-- A value that is an integer is it exactly. -/
theorem natAbs_roundInt_mul (rounding : RoundingMode)
    (hfract : Int.fract ((v.signed : ℚ) / 2 ^ s) = 0) :
    (roundInt rounding (v.signed / 2 ^ s)).natAbs * 2 ^ s = v.mantissa := by
  have hfloor : roundInt rounding ((v.signed : ℚ) / 2 ^ s) = v.signed / 2 ^ s := by
    rcases roundInt_eq rounding ((v.signed : ℚ) / 2 ^ s) with h | ⟨h, -⟩
    · rw [h, floor_div]
    · exact absurd hfract h
  have hdvd : (2 : ℤ) ^ s ∣ v.signed := Int.dvd_of_emod_eq_zero (fract_div_eq_zero.mp hfract)
  have hmul := congrArg Int.natAbs (Int.ediv_mul_cancel hdvd)
  rw [Int.natAbs_mul, v.natAbs_signed, Int.natAbs_pow] at hmul
  rw [hfloor]
  exact hmul

/-- The integer has no more bits than the format, and an exponent that the format has. -/
theorem Unpacks.representable {sign : Bool} {number : ℕ} (h : Unpacks F sign number v)
    (hfinite : number < F.limit {}) (hs : v.exponent - normalizedPointPosition = -(s : ℤ))
    (rounding : RoundingMode) {n : ℕ}
    (hn : n = (roundInt rounding ((v.signed : ℚ) / 2 ^ s)).natAbs) (hpos : 0 < n) :
    (n.log2 : ℤ) ≤ F.exponentBias ∧
      (F.explicitMantissaWidth < n.log2 → 2 ^ (n.log2 - F.explicitMantissaWidth) ∣ n) := by
  have hwidth := F.width_bounds
  have hlow := h.normal.1
  have hhigh := h.normal.2
  have hdvd := h.dvd
  by_cases hfract : Int.fract ((v.signed : ℚ) / 2 ^ s) = 0
  · have hmul := natAbs_roundInt_mul rounding hfract
    rw [← hn] at hmul
    have hs62 : s ≤ 62 := by
      by_contra hbig
      have hpow : 2 ^ 63 ≤ 2 ^ s := Nat.pow_le_pow_right (by decide) (by omega)
      have hle : 2 ^ s ≤ n * 2 ^ s := Nat.le_mul_of_pos_left _ hpos
      omega
    have hsplit (k : ℕ) : 2 ^ (62 - s + k) * 2 ^ s = 2 ^ (62 + k) := by
      rw [← pow_add]
      congr 1
      omega
    have hlog : n.log2 = 62 - s := by
      rw [Nat.log2_eq_iff hpos.ne']
      constructor
      · refine Nat.le_of_mul_le_mul_right ?_ (Nat.two_pow_pos s)
        rw [hmul]
        exact (hsplit 0).le.trans hlow
      · refine Nat.lt_of_mul_lt_mul_right (a := 2 ^ s) ?_
        rw [hmul, hsplit 1]
        exact hhigh
    refine ⟨?_, fun hlong => ?_⟩
    · have hle := h.exponent_le
      have hquot : number / 2 ^ F.explicitMantissaWidth < 2 ^ F.exponentWidth - 1 := by
        refine Nat.div_lt_of_lt_mul ?_
        rw [FloatFormat.limit, if_neg (by simp)] at hfinite
        rwa [Nat.mul_comm]
      have hdouble : ((2 ^ F.exponentWidth : ℕ) : ℤ) = 2 * F.exponentBias + 2 := by
        rw [bias_double]
        norm_cast
      have hmin := F.exponentMin_eq
      have hone : 1 ≤ F.exponentBias := by cases F <;> decide
      rw [normalizedPointPosition] at hs
      omega
    · rw [hlog] at hlong ⊢
      refine (Nat.mul_dvd_mul_iff_right (Nat.two_pow_pos s)).mp ?_
      rw [hmul, ← pow_add, show 62 - s - F.explicitMantissaWidth + s = 62 - F.explicitMantissaWidth by
        omega]
      exact hdvd
  · have hfew : 62 - F.explicitMantissaWidth < s := by
      by_contra hle
      refine hfract (fract_div_eq_zero.mpr (Int.emod_eq_zero_of_dvd ?_))
      rw [← Int.natAbs_dvd_natAbs, v.natAbs_signed, Int.natAbs_pow]
      exact (pow_dvd_pow 2 (not_lt.mp hle)).trans hdvd
    have hle : n ≤ 2 ^ F.explicitMantissaWidth := by
      rw [hn]
      exact (natAbs_roundInt_le h.normal rounding s).trans
        (Nat.pow_le_pow_right (by decide) (by omega))
    have hlog : n.log2 ≤ F.explicitMantissaWidth := by
      refine Nat.lt_succ_iff.mp ((Nat.log2_lt hpos.ne').mpr (hle.trans_lt ?_))
      exact Nat.pow_lt_pow_right (by decide) (Nat.lt_succ_self _)
    have hroom : (F.explicitMantissaWidth : ℤ) ≤ F.exponentBias := by cases F <;> decide
    exact ⟨by omega, fun hlong => by omega⟩

theorem magnitude_eq {n : ℤ} (hlow : -2 ^ 63 < n) (hhigh : n < 2 ^ 63) :
    (if decide (ofI64 n >>> 63 ≠ 0) then negateU64 (ofI64 n) else ofI64 n) = n.natAbs := by
  have htop := ofI64_top hlow.le hhigh
  rcases lt_or_ge n 0 with hneg | hnonneg
  · have hword := ofI64_of_neg hneg hlow.le
    rw [if_pos (decide_eq_true (htop.mpr hneg)), negateU64]
    omega
  · have hword := ofI64_of_nonneg hnonneg (by omega)
    rw [if_neg (by rw [decide_eq_true_eq, htop]; omega)]
    omega

/-- The sign of the result is that of the operand, also where the result is zero. -/
theorem resultSign_eq (v : FpUnpacked) (rounding : RoundingMode) (s : ℕ)
    (hlow : -2 ^ 63 ≤ roundInt rounding ((v.signed : ℚ) / 2 ^ s))
    (hhigh : roundInt rounding ((v.signed : ℚ) / 2 ^ s) < 2 ^ 63) :
    (if ofI64 (roundInt rounding ((v.signed : ℚ) / 2 ^ s)) = 0 then v.sign
      else decide (ofI64 (roundInt rounding ((v.signed : ℚ) / 2 ^ s)) >>> 63 ≠ 0)) = v.sign := by
  have htop := ofI64_top hlow hhigh
  have hunit : (0 : ℚ) < 2 ^ s := by positivity
  split
  case isTrue => rfl
  case isFalse hne =>
    rw [Bool.decide_congr htop]
    cases hsign : v.sign with
    | false =>
      have hnonneg : 0 ≤ roundInt rounding ((v.signed : ℚ) / 2 ^ s) := by
        refine roundInt_nonneg rounding (div_nonneg ?_ hunit.le)
        rw [FpUnpacked.signed, hsign]
        simp
      exact decide_eq_false (not_lt.mpr hnonneg)
    | true =>
      have hnonpos : roundInt rounding ((v.signed : ℚ) / 2 ^ s) ≤ 0 := by
        refine roundInt_nonpos rounding (div_nonpos_of_nonpos_of_nonneg ?_ hunit.le)
        rw [FpUnpacked.signed, hsign]
        simp
      refine decide_eq_true (hnonpos.lt_of_ne fun hzero => hne ?_)
      rw [hzero]
      rfl

/-- A value below its last place is encoded as the integer it is rounded to. -/
theorem roundNonzero_eq (op : ℕ) (h : v.Normal) (hmode : rounding ≠ .toOdd) (hpos : 0 < s)
    (hs : v.exponent - normalizedPointPosition = -(s : ℤ)) (exact : Bool) (fpcr : Fpcr)
    (fpsr : Fpsr) :
    roundNonzero F op v.sign v rounding exact fpcr fpsr =
      let x := (v.signed : ℚ) / 2 ^ s
      let result := encodeIntegral F v.sign (roundInt rounding x).natAbs
      if Int.fract x ≠ 0 ∧ exact then
        (processException .inexact fpcr fpsr).map fun fpsr => (result, fpsr)
      else some (result, fpsr) := by
  have hle := natAbs_roundInt_le h rounding s
  have hroom : 2 ^ (63 - s) ≤ 2 ^ 62 := Nat.pow_le_pow_right (by decide) (by omega)
  have hround := rounded_eq hmode h hpos
  rw [roundNonzero]
  dsimp only at hround ⊢
  rw [hs, if_neg (show ¬-(s : ℤ) ≥ 0 by omega), h.ofI64_signed, neg_neg, arithmeticShiftLeft_eq,
    arithmeticShiftLeftU64_neg h.signed_low h.signed_high hpos, hround,
    magnitude_eq (by omega) (by omega), resultSign_eq v rounding s (by omega) (by omega)]
  simp only [ne_eq, error_eq_zero h hpos]

end Integer

/-! ### Every finite operand -/

section Operand

variable {op : ℕ} {fpcr : Fpcr} {fpsr : Fpsr} {rounding : RoundingMode} {exact : Bool}

/-- The word is finite and stands for the integer, with the sign of the operand. -/
structure IsIntegral (F : FloatFormat) (op : ℕ) (n : ℤ) (w : ℕ) : Prop where
  lt : w < 2 ^ F.totalWidth
  finite : F.numberOf w < F.limit {}
  sign_eq : F.signOf w = F.signOf op
  value_eq : F.signedValue w = n

/-- A word is its sign and the number that it stands for. -/
theorem word_unique {w w' : ℕ} (hw : w < 2 ^ F.totalWidth) (hw' : w' < 2 ^ F.totalWidth)
    (hsign : F.signOf w = F.signOf w') (hvalue : F.signedValue w = F.signedValue w') : w = w' := by
  rw [FloatFormat.signedValue, FloatFormat.signedValue, hsign] at hvalue
  have hmagnitude : F.value (F.numberOf w) = F.value (F.numberOf w') := by
    cases h : F.signOf w' with
    | false => simpa [h] using hvalue
    | true => simpa [h] using hvalue
  rw [← FloatFormat.encode_signOf hw, ← FloatFormat.encode_signOf hw', hsign,
    F.value_strictMono.injective hmagnitude]

theorem encode_integral {sign : Bool} {k : ℕ} {n : ℤ} (hk : k < F.limit {})
    (hvalue : F.value k = n.natAbs) (hsign : F.signOf op = sign)
    (hn : if sign then n ≤ 0 else 0 ≤ n) : IsIntegral F op n (F.encode sign k) := by
  have hroom := hk.trans_le (F.limit_le {})
  refine ⟨FloatFormat.encode_lt sign hroom, ?_, ?_, ?_⟩
  · rwa [FloatFormat.numberOf_encode hroom]
  · rw [FloatFormat.signOf_encode hroom, hsign]
  · rw [FloatFormat.signedValue, FloatFormat.signOf_encode hroom,
      FloatFormat.numberOf_encode hroom, hvalue]
    cases sign with
    | false =>
      have hnat : (n.natAbs : ℤ) = n := Int.natAbs_of_nonneg hn
      rw [if_neg Bool.false_ne_true, ← Int.cast_natCast, hnat]
    | true =>
      have hnat : -(n.natAbs : ℤ) = n := by
        have hnonpos : n ≤ 0 := hn
        omega
      rw [if_pos rfl, ← Int.cast_natCast, ← Int.cast_neg, hnat]

/-- A magnitude below the smallest normal one is below one. -/
theorem value_denormal_lt_one {n : ℕ} (h : n < 2 ^ F.explicitMantissaWidth) : F.value n < 1 := by
  have hmono := F.value_strictMono h
  have htop := F.value_eq (k := 0) (q := 2 ^ F.explicitMantissaWidth)
    (Nat.pow_le_pow_right (by decide) (Nat.le_succ _)) (Or.inl rfl)
  rw [Nat.zero_mul, Nat.zero_add] at htop
  have hone : (2 ^ F.explicitMantissaWidth : ℕ) *
      (2 : ℚ) ^ (((0 : ℕ) : ℤ) + F.exponentMin - F.explicitMantissaWidth) ≤ 1 := by
    rw [Nat.cast_pow, Nat.cast_ofNat, ← zpow_natCast, ← zpow_add₀ (by decide)]
    refine zpow_le_one_of_nonpos₀ (by norm_num) ?_
    cases F <;> decide
  linarith

/-- An operand that is read as zero without being zero is no integer. -/
theorem not_flushed_of_integral (fpcr : Fpcr) (h : Int.fract (F.signedValue op) = 0) :
    ¬FlushedOperand F fpcr op := by
  rintro ⟨hpos, hdenormal, -⟩
  have hlow := FloatFormat.value_pos (F := F) hpos
  have hhigh := value_denormal_lt_one hdenormal
  rw [FloatFormat.signedValue] at h
  split at h
  case isTrue =>
    rw [Int.fract_neg_eq_zero] at h
    exact hlow.ne' ((Int.fract_eq_self.mpr ⟨hlow.le, hhigh⟩).symm.trans h)
  case isFalse => exact hlow.ne' ((Int.fract_eq_self.mpr ⟨hlow.le, hhigh⟩).symm.trans h)

theorem exists_number {v : FpUnpacked} {sign : Bool} {number : ℕ} (h : Unpacks F sign number v)
    (hfinite : number < F.limit {}) {s : ℕ}
    (hs : v.exponent - normalizedPointPosition = -(s : ℤ)) (rounding : RoundingMode) :
    ∃ k, k < F.limit {} ∧
      F.value k = (roundInt rounding ((v.signed : ℚ) / 2 ^ s)).natAbs ∧
      encodeIntegral F v.sign (roundInt rounding ((v.signed : ℚ) / 2 ^ s)).natAbs =
        F.encode v.sign k := by
  rcases Nat.eq_zero_or_pos (roundInt rounding ((v.signed : ℚ) / 2 ^ s)).natAbs with hzero | hpos
  · refine ⟨0, (Nat.zero_le _).trans_lt hfinite, ?_, ?_⟩
    · rw [hzero, F.value_zero, Nat.cast_zero]
    · rw [hzero, encodeIntegral, if_pos rfl, FloatFormat.zero_eq]
  · obtain ⟨hbias, hdvd⟩ := h.representable hfinite hs rounding rfl hpos
    exact encodeIntegral_eq v.sign hpos hbias hdvd

/-- A value whose last place is not below one is an integer. -/
theorem signedValue_large {v : FpUnpacked} (h : Unpacks F (F.signOf op) (F.numberOf op) v)
    (hexp : 0 ≤ v.exponent - normalizedPointPosition) : ∃ n : ℤ, F.signedValue op = n := by
  obtain ⟨e, he⟩ := Int.eq_ofNat_of_zero_le hexp
  refine ⟨v.signed * 2 ^ e, ?_⟩
  rw [h.signedValue_eq, he, zpow_natCast]
  push_cast
  rfl

theorem roundNonzero_rounds {v : FpUnpacked} (hop : op < 2 ^ F.totalWidth)
    (hfinite : F.numberOf op < F.limit {}) (hmode : rounding ≠ .toOdd)
    (h : Unpacks F (F.signOf op) (F.numberOf op) v)
    (hixe : exact = true → Int.fract (F.signedValue op) ≠ 0 → fpcr.ixe = false) :
    ∃ w, roundNonzero F op (F.signOf op) v rounding exact fpcr fpsr =
        some (w, if Int.fract (F.signedValue op) ≠ 0 ∧ exact then { fpsr with ixc := true }
          else fpsr) ∧
      IsIntegral F op (roundInt rounding (F.signedValue op)) w := by
  rcases lt_or_ge (v.exponent - normalizedPointPosition) 0 with hneg | hnonneg
  · obtain ⟨s, hs⟩ :=
      Int.eq_ofNat_of_zero_le (show 0 ≤ -(v.exponent - normalizedPointPosition) by omega)
    have hshift : v.exponent - normalizedPointPosition = -(s : ℤ) := by omega
    have hvalue : F.signedValue op = v.signed / 2 ^ s := by
      rw [h.signedValue_eq, hshift, zpow_neg, zpow_natCast, div_eq_mul_inv]
    obtain ⟨k, hk, hnumber, hencode⟩ := exists_number h hfinite hshift rounding
    have hunit : (0 : ℚ) < 2 ^ s := by positivity
    have hsigned : if v.sign then v.signed ≤ 0 else 0 ≤ v.signed := by
      rw [FpUnpacked.signed]
      cases v.sign <;> simp
    have hsign : if v.sign then roundInt rounding ((v.signed : ℚ) / 2 ^ s) ≤ 0
        else 0 ≤ roundInt rounding ((v.signed : ℚ) / 2 ^ s) := by
      split at hsigned
      case isTrue htrue =>
        rw [if_pos htrue]
        exact roundInt_nonpos rounding
          (div_nonpos_of_nonpos_of_nonneg (by exact_mod_cast hsigned) hunit.le)
      case isFalse hfalse =>
        rw [if_neg hfalse]
        exact roundInt_nonneg rounding (div_nonneg (by exact_mod_cast hsigned) hunit.le)
    have hround := roundNonzero_eq (F := F) op h.normal hmode (by omega) hshift exact fpcr fpsr
    dsimp only at hround
    rw [← h.sign_eq, hround, hencode]
    rw [hvalue] at hixe ⊢
    refine ⟨F.encode v.sign k, ?_, encode_integral hk hnumber h.sign_eq.symm hsign⟩
    by_cases hinexact : Int.fract ((v.signed : ℚ) / 2 ^ s) ≠ 0 ∧ exact = true
    · rw [if_pos hinexact, if_pos hinexact, processException, hixe hinexact.2 hinexact.1]
      rfl
    · rw [if_neg hinexact, if_neg hinexact]
  · obtain ⟨n, hn⟩ := signedValue_large h hnonneg
    have hfract : Int.fract (F.signedValue op) = 0 := by rw [hn, Int.fract_intCast]
    refine ⟨op, ?_, hop, hfinite, rfl, ?_⟩
    · rw [roundNonzero, if_pos hnonneg, if_neg (fun h => h.1 hfract)]
    · rw [hn, roundInt_intCast]

/-- Every finite operand is rounded to an integer with its sign, and `Inexact` says whether it was
rounded. -/
theorem fpRoundInt_finite (exact : Bool) (fpsr : Fpsr) (hop : op < 2 ^ F.totalWidth) (hfinite : F.numberOf op < F.limit {})
    (hmode : rounding ≠ .toOdd)
    (hide : FlushedOperand F fpcr op → F ≠ .u16 → fpcr.ide = false)
    (hixe : exact = true → Int.fract (F.operandValue fpcr op) ≠ 0 → fpcr.ixe = false) :
    ∃ w, fpRoundInt F op fpcr rounding exact fpsr =
        some (w, if Int.fract (F.operandValue fpcr op) ≠ 0 ∧ exact then
          { readFlags F fpcr op fpsr with ixc := true } else readFlags F fpcr op fpsr) ∧
      IsIntegral F op (roundInt rounding (F.operandValue fpcr op)) w := by
  rw [fpRoundInt, if_neg hmode]
  rcases fpUnpack_finite fpcr fpsr hfinite hide with ⟨hzero, hread⟩ | ⟨hvalue, -, v, hread, h⟩
  · rw [hread, hzero]
    have hround : roundInt rounding 0 = 0 := by
      have h := roundInt_intCast rounding 0
      rwa [Int.cast_zero] at h
    refine ⟨F.encode (F.signOf op) 0, ?_, ?_⟩
    · simp [FloatFormat.zero_eq]
    · rw [hround]
      refine encode_integral ((Nat.zero_le _).trans_lt hfinite) ?_ rfl (by simp)
      rw [F.value_zero]
      simp
  · rw [hread, hvalue]
    rw [hvalue] at hixe
    exact roundNonzero_rounds hop hfinite hmode h hixe

theorem fpRoundInt_integral (fpcr : Fpcr) (exact : Bool) (fpsr : Fpsr) (hop : op < 2 ^ F.totalWidth) (hfinite : F.numberOf op < F.limit {})
    (hmode : rounding ≠ .toOdd) (h : Int.fract (F.signedValue op) = 0) :
    fpRoundInt F op fpcr rounding exact fpsr = some (op, fpsr) := by
  have hflushed := not_flushed_of_integral fpcr h
  have hvalue : F.operandValue fpcr op = F.signedValue op := if_neg hflushed
  have hflags : readFlags F fpcr op fpsr = fpsr := if_neg fun h => hflushed h.1
  obtain ⟨w, hw, hintegral⟩ := fpRoundInt_finite exact fpsr hop hfinite hmode
    (fun hflush => absurd hflush hflushed)
    (fun _ hinexact => absurd (hvalue ▸ h) hinexact)
  rw [hvalue, hflags, if_neg (fun hinexact => hinexact.1 h)] at hw
  have hfloor : roundInt rounding (F.signedValue op) = F.signedValue op := by
    have hself := Int.floor_add_fract (F.signedValue op)
    rw [h, add_zero] at hself
    rcases roundInt_eq rounding (F.signedValue op) with heq | ⟨hne, -⟩
    · rw [heq, hself]
    · exact absurd h hne
  rw [hvalue] at hintegral
  rw [hw, word_unique hintegral.lt hop hintegral.sign_eq (hintegral.value_eq.trans hfloor)]

end Operand

/-- A finite operand is rounded to an integer that keeps its sign. Integers stay as they are, so a
second rounding in any mode changes nothing. -/
theorem fpRoundInt_rounds (F : FloatFormat) (op : ℕ) (hop : op < 2 ^ F.totalWidth) (fpcr : Fpcr)
    (fpsr : Fpsr) (rounding : RoundingMode) (hmode : rounding ≠ .toOdd) (exact : Bool)
    (hfinite : F.numberOf op < F.limit {})
    (hide : FlushedOperand F fpcr op → F ≠ .u16 → fpcr.ide = false)
    (hixe : exact = true → Int.fract (F.operandValue fpcr op) ≠ 0 → fpcr.ixe = false) :
    ∃ w, fpRoundInt F op fpcr rounding exact fpsr =
        some (w, if Int.fract (F.operandValue fpcr op) ≠ 0 ∧ exact then
          { readFlags F fpcr op fpsr with ixc := true } else readFlags F fpcr op fpsr) ∧
      IsIntegral F op (roundInt rounding (F.operandValue fpcr op)) w ∧
      (Int.fract (F.signedValue op) = 0 → w = op) ∧
      ∀ rounding' exact' fpsr', rounding' ≠ .toOdd →
        fpRoundInt F w fpcr rounding' exact' fpsr' = some (w, fpsr') := by
  obtain ⟨w, hw, hintegral⟩ := fpRoundInt_finite exact fpsr hop hfinite hmode hide hixe
  refine ⟨w, hw, hintegral, fun hfract => ?_, fun rounding' exact' fpsr' hmode' => ?_⟩
  · have hself := fpRoundInt_integral fpcr exact fpsr hop hfinite hmode hfract
    exact (congrArg Prod.fst (Option.some.inj (hw.symm.trans hself)))
  · refine fpRoundInt_integral fpcr exact' fpsr' hintegral.lt hintegral.finite hmode' ?_
    rw [hintegral.value_eq, Int.fract_intCast]

/-- The number 2.5 in single precision. -/
theorem fpRoundInt_rounds_half :
    ∃ w, fpRoundInt .u32 0x40200000 {} .toNearestTieEven false {} = some (w, {}) ∧
      IsIntegral .u32 0x40200000 (roundInt .toNearestTieEven
        (FloatFormat.u32.operandValue {} 0x40200000)) w := by
  obtain ⟨w, hw, hintegral, -, -⟩ := fpRoundInt_rounds .u32 0x40200000 (by decide) {} {}
    .toNearestTieEven (by decide) false (by decide) (fun _ _ => rfl) (fun _ _ => rfl)
  exact ⟨w, by simpa [readFlags, FlushedOperand, FlushesInput] using hw, hintegral⟩

/-- With flush-to-zero the smallest denormal is not rounded up to one. -/
theorem fpRoundInt_flushed :
    ∃ fpsr, fpRoundInt .u32 1 { fz := true } .towardsPlusInfinity true {} = some (0, fpsr) ∧
      FloatFormat.u32.signedValue 0 ≠
        roundInt .towardsPlusInfinity (FloatFormat.u32.signedValue 1) := by
  refine ⟨{ idc := true }, by decide, ?_⟩
  have hpos : 0 < FloatFormat.u32.signedValue 1 := by
    rw [FloatFormat.signedValue, if_neg (by decide)]
    exact FloatFormat.value_pos (by decide)
  have hup : 0 < roundInt .towardsPlusInfinity (FloatFormat.u32.signedValue 1) :=
    Int.ceil_pos.mpr hpos
  rw [FloatFormat.signedValue_of_zero (by decide)]
  exact_mod_cast hup.ne

end Ruzu.Fp
