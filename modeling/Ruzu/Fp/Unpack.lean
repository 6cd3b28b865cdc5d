import Mathlib
import Ruzu.Fp.Round

/-!
# Unpacking of words

A finite word unpacks to a value with the magnitude that its number stands for.
-/

set_option autoImplicit false

namespace Ruzu.Fp

namespace FloatFormat

variable (F : FloatFormat)

def signOf (op : ℕ) : Bool := op.testBit (F.exponentWidth + F.explicitMantissaWidth)

/-- The number of the word's magnitude. -/
def numberOf (op : ℕ) : ℕ := op % 2 ^ (F.exponentWidth + F.explicitMantissaWidth)

variable {F} {op : ℕ}

theorem encode_signOf (h : op < 2 ^ F.totalWidth) : F.encode (F.signOf op) (F.numberOf op) = op := by
  rw [F.totalWidth_eq, Nat.add_assoc, Nat.add_comm 1, pow_succ] at h
  rw [encode, signOf, numberOf, Nat.testBit_eq_decide_div_mod_eq]
  have hdiv := Nat.div_add_mod' op (2 ^ (F.exponentWidth + F.explicitMantissaWidth))
  have hlt : op / 2 ^ (F.exponentWidth + F.explicitMantissaWidth) < 2 := Nat.div_lt_of_lt_mul h
  have hbool : (decide (op / 2 ^ (F.exponentWidth + F.explicitMantissaWidth) % 2 = 1)).toNat =
      op / 2 ^ (F.exponentWidth + F.explicitMantissaWidth) := by
    rcases Nat.lt_or_ge (op / 2 ^ (F.exponentWidth + F.explicitMantissaWidth)) 1 with hzero | hone
    · rw [Nat.lt_one_iff.mp hzero]
      rfl
    · rw [show op / 2 ^ (F.exponentWidth + F.explicitMantissaWidth) = 1 by omega]
      rfl
  rw [hbool, hdiv]

theorem numberOf_lt (F : FloatFormat) (op : ℕ) : F.numberOf op < 2 ^ (F.exponentWidth + F.explicitMantissaWidth) :=
  Nat.mod_lt _ (Nat.two_pow_pos _)

theorem sign_raw : decide (op &&& F.signMask ≠ 0) = F.signOf op := by
  rw [F.signMask_eq, Nat.and_two_pow, signOf]
  cases op.testBit (F.exponentWidth + F.explicitMantissaWidth) <;> simp

theorem exp_raw : (op &&& F.exponentMask) >>> F.explicitMantissaWidth =
    F.numberOf op / 2 ^ F.explicitMantissaWidth := by
  rw [F.exponentMask_eq, Nat.shiftRight_and_distrib, Nat.shiftRight_eq_div_pow,
    Nat.shiftRight_eq_div_pow, Nat.mul_div_cancel _ (Nat.two_pow_pos _),
    Nat.and_two_pow_sub_one_eq_mod, numberOf, pow_add, Nat.mul_comm (2 ^ F.exponentWidth),
    Nat.mod_mul_right_div_self]

theorem frac_raw : op &&& F.mantissaMask = F.numberOf op % 2 ^ F.explicitMantissaWidth := by
  rw [F.mantissaMask_eq, Nat.and_two_pow_sub_one_eq_mod, numberOf,
    Nat.mod_mod_of_dvd _ (pow_dvd_pow 2 (Nat.le_add_left _ _))]

theorem msb_raw : F.numberOf op % 2 ^ F.explicitMantissaWidth &&& F.mantissaMsb ≠ 0 ↔
    op.testBit (F.explicitMantissaWidth - 1) = true := by
  have hwidth := F.width_bounds
  rw [F.mantissaMsb_eq, Nat.and_two_pow, numberOf,
    Nat.mod_mod_of_dvd _ (pow_dvd_pow 2 (Nat.le_add_left _ _)), Nat.testBit_mod_two_pow,
    decide_eq_true (show F.explicitMantissaWidth - 1 < F.explicitMantissaWidth by omega),
    Bool.true_and]
  cases op.testBit (F.explicitMantissaWidth - 1) <;> simp

theorem implicit_raw {frac : ℕ} (h : frac < 2 ^ F.explicitMantissaWidth) :
    (frac ||| F.implicitLeadingBit) <<<
        (normalizedPointPosition - F.explicitMantissaWidth) % 2 ^ 64 =
      (2 ^ F.explicitMantissaWidth + frac) * 2 ^ (62 - F.explicitMantissaWidth) := by
  have hwidth := F.width_bounds
  have hor : frac ||| F.implicitLeadingBit = 2 ^ F.explicitMantissaWidth + frac := by
    have hadd := Nat.two_pow_add_eq_or_of_lt h 1
    rw [Nat.mul_one] at hadd
    rw [implicitLeadingBit, Nat.one_shiftLeft, Nat.or_comm, hadd]
  have hlt : (2 ^ F.explicitMantissaWidth + frac) * 2 ^ (62 - F.explicitMantissaWidth) < 2 ^ 64 := by
    calc (2 ^ F.explicitMantissaWidth + frac) * 2 ^ (62 - F.explicitMantissaWidth)
        < 2 ^ (F.explicitMantissaWidth + 1) * 2 ^ (62 - F.explicitMantissaWidth) := by
          refine Nat.mul_lt_mul_of_pos_right ?_ (Nat.two_pow_pos _)
          rw [pow_succ]
          omega
      _ ≤ 2 ^ 64 := by
          rw [← pow_add]
          exact Nat.pow_le_pow_right (by decide) (by omega)
  rw [hor, normalizedPointPosition, Nat.shiftLeft_eq, Nat.mod_eq_of_lt hlt]

theorem limit_le_iff {fpcr : Fpcr} {n : ℕ}
    (h : n < 2 ^ (F.exponentWidth + F.explicitMantissaWidth)) :
    (n / 2 ^ F.explicitMantissaWidth = 1 <<< F.exponentWidth - 1 ∧
      (¬F = .u16 ∨ ¬fpcr.ahp = true)) ↔ F.limit fpcr ≤ n := by
  have hpos := Nat.two_pow_pos F.explicitMantissaWidth
  have hquot : n / 2 ^ F.explicitMantissaWidth < 2 ^ F.exponentWidth := by
    refine Nat.div_lt_of_lt_mul ?_
    rwa [← pow_add, Nat.add_comm]
  rw [limit, Nat.one_shiftLeft]
  split
  case isTrue hahp =>
    exact ⟨fun hand => absurd hand.2 (by tauto), fun hle => absurd h (not_lt.mpr hle)⟩
  case isFalse hieee =>
    rw [← Nat.le_div_iff_mul_le hpos]
    exact ⟨fun hand => hand.1.ge, fun hle => ⟨by omega, by tauto⟩⟩

end FloatFormat

/-- Denormal operands are read as zero. -/
def FlushesInput (F : FloatFormat) (fpcr : Fpcr) : Prop :=
  (F = .u16 ∧ fpcr.fz16) ∨ (F ≠ .u16 ∧ fpcr.fz)

variable {F : FloatFormat} {fpcr : Fpcr} {fpsr : Fpsr} {op : ℕ}

theorem toNormalized_normal (sign : Bool) (exponent : ℤ) {value : ℕ} (hpos : 0 < value)
    (hlt : value < 2 ^ 52) :
    (toNormalized sign exponent value).sign = sign ∧ (toNormalized sign exponent value).Normal ∧
      (toNormalized sign exponent value).value = value * 2 ^ exponent ∧
      value * 2 ^ (62 - value.log2) = (toNormalized sign exponent value).mantissa ∧
      (toNormalized sign exponent value).exponent = exponent + value.log2 := by
  have hlog : value.log2 < 52 := (Nat.log2_lt hpos.ne').mpr hlt
  have hself : 2 ^ value.log2 ≤ value := Nat.log2_self_le hpos.ne'
  have hnext : value < 2 ^ (value.log2 + 1) := Nat.lt_log2_self
  have hoffset : ((normalizedPointPosition : ℤ) - value.log2).toNat = 62 - value.log2 := by
    rw [normalizedPointPosition]
    omega
  have hlow : 2 ^ 62 ≤ value * 2 ^ (62 - value.log2) := by
    calc 2 ^ 62 = 2 ^ value.log2 * 2 ^ (62 - value.log2) := by
          rw [← pow_add]
          congr 1
          omega
      _ ≤ _ := Nat.mul_le_mul_right _ hself
  have hhigh : value * 2 ^ (62 - value.log2) < 2 ^ 63 := by
    calc value * 2 ^ (62 - value.log2) < 2 ^ (value.log2 + 1) * 2 ^ (62 - value.log2) :=
          Nat.mul_lt_mul_of_pos_right hnext (Nat.two_pow_pos _)
      _ = 2 ^ 63 := by
          rw [← pow_add]
          congr 1
          omega
  have hmantissa : (toNormalized sign exponent value).mantissa =
      value * 2 ^ (62 - value.log2) := by
    rw [toNormalized, if_neg hpos.ne']
    dsimp only
    rw [hoffset, Nat.shiftLeft_eq, Nat.mod_eq_of_lt (by omega)]
  have hexponent : (toNormalized sign exponent value).exponent = exponent + value.log2 := by
    rw [toNormalized, if_neg hpos.ne']
    dsimp only
    omega
  refine ⟨?_, ⟨hmantissa ▸ hlow, hmantissa ▸ hhigh⟩, ?_, hmantissa.symm, hexponent⟩
  · rw [toNormalized, if_neg hpos.ne']
  · rw [FpUnpacked.value, hmantissa, hexponent, Nat.cast_mul, Nat.cast_pow, Nat.cast_ofNat,
      mul_assoc, ← zpow_natCast, ← zpow_add₀ (by decide)]
    congr 2
    rw [normalizedPointPosition]
    omega

/-- The operand after its fields are read. -/
theorem fpUnpackBase_fields : fpUnpackBase F op fpcr fpsr =
    let n := F.numberOf op
    let sign := F.signOf op
    if n < 2 ^ F.explicitMantissaWidth then
      if F = .u16 then
        if n = 0 ∨ fpcr.fz16 then some ((.zero, sign, ⟨sign, 0, 0⟩), fpsr)
        else some ((.nonzero, sign,
          toNormalized sign (F.exponentMin - F.explicitMantissaWidth) n), fpsr)
      else if n = 0 ∨ fpcr.fz then
        if n ≠ 0 then
          (processException .inputDenorm fpcr fpsr).map fun fpsr =>
            ((.zero, sign, ⟨sign, 0, 0⟩), fpsr)
        else some ((.zero, sign, ⟨sign, 0, 0⟩), fpsr)
      else some ((.nonzero, sign,
        toNormalized sign (F.exponentMin - F.explicitMantissaWidth) n), fpsr)
    else if F.limit fpcr ≤ n then
      if n % 2 ^ F.explicitMantissaWidth = 0 then
        some ((.infinity, sign, toNormalized sign 1000000 1), fpsr)
      else
        some ((if op.testBit (F.explicitMantissaWidth - 1) then .qnan else .snan, sign,
          ⟨sign, 0, 0⟩), fpsr)
    else
      some ((.nonzero, sign, ⟨sign, (n / 2 ^ F.explicitMantissaWidth : ℕ) - F.exponentBias,
        (2 ^ F.explicitMantissaWidth + n % 2 ^ F.explicitMantissaWidth) *
          2 ^ (62 - F.explicitMantissaWidth)⟩), fpsr) := by
  have hpos := Nat.two_pow_pos F.explicitMantissaWidth
  have hlt := F.numberOf_lt op
  have hmod := Nat.mod_lt (F.numberOf op) hpos
  rw [fpUnpackBase]
  simp only [FloatFormat.sign_raw, FloatFormat.exp_raw, FloatFormat.frac_raw,
    FloatFormat.totalWidth_eq_16, FloatFormat.limit_le_iff hlt, FloatFormat.msb_raw,
    Nat.div_eq_zero_iff_lt hpos, FloatFormat.implicit_raw hmod]
  split
  case isTrue hdenormal => rw [Nat.mod_eq_of_lt hdenormal]
  case isFalse => rfl

/-- An unpacked word: its sign, its magnitude, and no more bits than the format has. -/
structure Unpacks (F : FloatFormat) (sign : Bool) (n : ℕ) (v : FpUnpacked) : Prop where
  sign_eq : v.sign = sign
  normal : v.Normal
  value_eq : v.value = F.value n
  dvd : 2 ^ (62 - F.explicitMantissaWidth) ∣ v.mantissa
  exponent_ge : F.exponentMin - F.explicitMantissaWidth ≤ v.exponent
  exponent_le : v.exponent ≤ max F.exponentMin
    ((n / 2 ^ F.explicitMantissaWidth : ℕ) - F.exponentBias)

theorem unpacks_denormal {n : ℕ} (sign : Bool) (hpos : 0 < n)
    (hlt : n < 2 ^ F.explicitMantissaWidth) :
    Unpacks F sign n (toNormalized sign (F.exponentMin - F.explicitMantissaWidth) n) := by
  have hwidth := F.width_bounds
  obtain ⟨hsign, hnormal, hvalue, hmantissa, hexponent⟩ :=
    toNormalized_normal sign (F.exponentMin - F.explicitMantissaWidth) hpos
      (hlt.trans_le (Nat.pow_le_pow_right (by decide) hwidth.2))
  have hlog : n.log2 < F.explicitMantissaWidth := (Nat.log2_lt hpos.ne').mpr hlt
  refine ⟨hsign, hnormal, ?_, ?_, by omega, by omega⟩
  · rw [hvalue, FloatFormat.value]
    simp only [Nat.div_eq_of_lt hlt, Nat.mod_eq_of_lt hlt, if_pos]
  · rw [← hmantissa]
    exact (pow_dvd_pow 2 (by omega)).mul_left n

theorem unpacks_normal {n : ℕ} (sign : Bool) (hge : 2 ^ F.explicitMantissaWidth ≤ n) :
    Unpacks F sign n ⟨sign, (n / 2 ^ F.explicitMantissaWidth : ℕ) - F.exponentBias,
      (2 ^ F.explicitMantissaWidth + n % 2 ^ F.explicitMantissaWidth) *
        2 ^ (62 - F.explicitMantissaWidth)⟩ := by
  have hwidth := F.width_bounds
  have hpos := Nat.two_pow_pos F.explicitMantissaWidth
  have hmod := Nat.mod_lt n hpos
  have hquot : 0 < n / 2 ^ F.explicitMantissaWidth := Nat.div_pos hge hpos
  have hsplit (k : ℕ) : 2 ^ (F.explicitMantissaWidth + k) * 2 ^ (62 - F.explicitMantissaWidth) =
      2 ^ (62 + k) := by
    rw [← pow_add]
    congr 1
    omega
  refine ⟨rfl, ⟨?_, ?_⟩, ?_, Dvd.intro_left _ rfl, ?_, Int.le_max_right _ _⟩
  · calc 2 ^ 62 = 2 ^ F.explicitMantissaWidth * 2 ^ (62 - F.explicitMantissaWidth) :=
          (hsplit 0).symm
      _ ≤ _ := Nat.mul_le_mul_right _ (Nat.le_add_right _ _)
  · calc _ < 2 ^ (F.explicitMantissaWidth + 1) * 2 ^ (62 - F.explicitMantissaWidth) := by
          refine Nat.mul_lt_mul_of_pos_right ?_ (Nat.two_pow_pos _)
          rw [pow_succ]
          omega
      _ = 2 ^ 63 := hsplit 1
  · rw [FpUnpacked.value, FloatFormat.value]
    simp only [if_neg hquot.ne']
    rw [Nat.cast_mul, Nat.cast_pow, Nat.cast_ofNat, mul_assoc, ← zpow_natCast,
      ← zpow_add₀ (by decide)]
    congr 2
    rw [F.exponentMin_eq, normalizedPointPosition]
    omega
  · dsimp only
    rw [F.exponentMin_eq]
    omega

/-- A finite word that is not read as zero. -/
theorem fpUnpackBase_finite (fpcr : Fpcr) (fpsr : Fpsr) (hpos : 0 < F.numberOf op) (hlimit : F.numberOf op < F.limit fpcr)
    (hflush : F.numberOf op < 2 ^ F.explicitMantissaWidth → ¬FlushesInput F fpcr) :
    ∃ v, fpUnpackBase F op fpcr fpsr = some ((.nonzero, F.signOf op, v), fpsr) ∧
      Unpacks F (F.signOf op) (F.numberOf op) v := by
  rw [fpUnpackBase_fields]
  dsimp only
  split
  case isTrue hdenormal =>
    have hnot := hflush hdenormal
    rw [FlushesInput, not_or, not_and, not_and] at hnot
    refine ⟨_, ?_, unpacks_denormal _ hpos hdenormal⟩
    by_cases hhalf : F = .u16
    · rw [if_pos hhalf, if_neg (not_or.mpr ⟨hpos.ne', hnot.1 hhalf⟩)]
    · rw [if_neg hhalf, if_neg (not_or.mpr ⟨hpos.ne', hnot.2 hhalf⟩)]
  case isFalse hnormal =>
    rw [if_neg (not_le.mpr hlimit)]
    exact ⟨_, rfl, unpacks_normal _ (not_lt.mp hnormal)⟩

theorem fpUnpackBase_zero (hzero : F.numberOf op = 0) : fpUnpackBase F op fpcr fpsr =
    some ((.zero, F.signOf op, ⟨F.signOf op, 0, 0⟩), fpsr) := by
  rw [fpUnpackBase_fields]
  simp [hzero]

/-- A denormal word that is read as zero. -/
theorem fpUnpackBase_flushed (hpos : 0 < F.numberOf op)
    (hdenormal : F.numberOf op < 2 ^ F.explicitMantissaWidth) (hflush : FlushesInput F fpcr) :
    fpUnpackBase F op fpcr fpsr =
      (if F = .u16 then some fpsr else processException .inputDenorm fpcr fpsr).map fun fpsr =>
        ((.zero, F.signOf op, ⟨F.signOf op, 0, 0⟩), fpsr) := by
  rw [fpUnpackBase_fields]
  dsimp only
  rw [if_pos hdenormal]
  rcases hflush with ⟨hhalf, hfz⟩ | ⟨hhalf, hfz⟩
  · rw [if_pos hhalf, if_pos hhalf, if_pos (Or.inr hfz)]
    rfl
  · rw [if_neg hhalf, if_neg hhalf, if_pos (Or.inr hfz), if_pos hpos.ne']

/-- A word past the finite ones is infinity or a NaN. -/
theorem fpUnpackBase_special (fpcr : Fpcr) (fpsr : Fpsr) (hlimit : F.limit fpcr ≤ F.numberOf op) :
    fpUnpackBase F op fpcr fpsr =
      if F.numberOf op = F.limit fpcr then
        some ((.infinity, F.signOf op, toNormalized (F.signOf op) 1000000 1), fpsr)
      else some ((if op.testBit (F.explicitMantissaWidth - 1) then .qnan else .snan,
        F.signOf op, ⟨F.signOf op, 0, 0⟩), fpsr) := by
  have hpos := Nat.two_pow_pos F.explicitMantissaWidth
  have hlt := F.numberOf_lt op
  have hlimit_eq : F.limit fpcr = (2 ^ F.exponentWidth - 1) * 2 ^ F.explicitMantissaWidth := by
    rw [FloatFormat.limit] at hlimit ⊢
    split
    case isTrue hahp =>
      rw [if_pos hahp] at hlimit
      omega
    case isFalse => rfl
  have hdenormal : ¬F.numberOf op < 2 ^ F.explicitMantissaWidth := by
    rw [not_lt]
    refine le_trans ?_ hlimit
    rw [hlimit_eq]
    exact Nat.le_mul_of_pos_left _ (by cases F <;> decide)
  rw [fpUnpackBase_fields]
  dsimp only
  rw [if_neg hdenormal, if_pos hlimit]
  obtain ⟨r, hr⟩ := Nat.exists_eq_add_of_le hlimit
  have hrlt : r < 2 ^ F.explicitMantissaWidth := by
    rw [pow_add, hr, hlimit_eq] at hlt
    have hone : 1 ≤ 2 ^ F.exponentWidth := Nat.one_le_two_pow
    have hmul : (2 ^ F.exponentWidth - 1) * 2 ^ F.explicitMantissaWidth +
        2 ^ F.explicitMantissaWidth = 2 ^ F.exponentWidth * 2 ^ F.explicitMantissaWidth := by
      rw [← Nat.succ_mul, Nat.succ_eq_add_one, Nat.sub_add_cancel hone]
    omega
  have hmod : F.numberOf op % 2 ^ F.explicitMantissaWidth = r := by
    rw [hr, hlimit_eq, Nat.mul_comm, Nat.mul_add_mod, Nat.mod_eq_of_lt hrlt]
  rw [hmod]
  by_cases hinf : r = 0
  · rw [if_pos hinf, if_pos (by omega)]
  · rw [if_neg hinf, if_neg (show ¬F.numberOf op = F.limit fpcr by omega)]

end Ruzu.Fp
