import Mathlib
import Ruzu.Fp.Format

/-!
# Shifts of 64-bit mantissas

`safe_ops.rs` and `mantissa_util.rs`. A mantissa of 64 bits stands for a number
or, as a two's complement, for a negative one. An arithmetic shift to the right
is a division that rounds down, and the residual error says how far the number
is above the result.
-/

set_option autoImplicit false

namespace Ruzu.Fp

/-- `value as i64`. -/
def toI64 (value : ℕ) : ℤ := if value < 2 ^ 63 then value else value - 2 ^ 64

/-- `value as u64`. -/
def ofI64 (value : ℤ) : ℕ := (value % 2 ^ 64).toNat

def arithmeticShiftRightU64 (value : ℕ) (shiftAmount : ℤ) : ℕ :=
  if shiftAmount ≥ 64 then
    if value >>> 63 ≠ 0 then 2 ^ 64 - 1 else 0
  else if shiftAmount < 0 then
    if -shiftAmount ≥ 64 then 0 else value <<< (-shiftAmount).toNat % 2 ^ 64
  else ofI64 (toI64 value >>> shiftAmount.toNat)

def arithmeticShiftLeftU64 (value : ℕ) (shiftAmount : ℤ) : ℕ :=
  if shiftAmount ≥ 64 then 0
  else if shiftAmount < 0 then arithmeticShiftRightU64 value (-shiftAmount)
  else value <<< shiftAmount.toNat % 2 ^ 64

def logicalShiftRightU64 (value : ℕ) (shiftAmount : ℤ) : ℕ :=
  if shiftAmount ≥ 64 then 0
  else if shiftAmount < 0 then
    if -shiftAmount ≥ 64 then 0 else value <<< (-shiftAmount).toNat % 2 ^ 64
  else value >>> shiftAmount.toNat

def negateU64 (value : ℕ) : ℕ := (2 ^ 64 - value) % 2 ^ 64

inductive ResidualError
  | zero
  | lessThanHalf
  | half
  | greaterThanHalf
  deriving DecidableEq

def residualErrorOnRightShift (mantissa : ℕ) (shiftAmount : ℤ) : ResidualError :=
  if shiftAmount ≤ 0 ∨ mantissa = 0 then .zero
  else if shiftAmount > 64 then
    if mantissa >>> 63 ≠ 0 then .greaterThanHalf else .lessThanHalf
  else
    let half := 1 <<< (shiftAmount.toNat - 1)
    let errorMask := if shiftAmount = 64 then 2 ^ 64 - 1 else 1 <<< shiftAmount.toNat - 1
    let error := mantissa &&& errorMask
    if error = 0 then .zero
    else if error < half then .lessThanHalf
    else if error = half then .half
    else .greaterThanHalf

/-! ### What is left of a division -/

/-- Where `r` lies between 0 and `d`. -/
def residual (r d : ℤ) : ResidualError :=
  if r = 0 then .zero
  else if 2 * r < d then .lessThanHalf
  else if 2 * r = d then .half
  else .greaterThanHalf

theorem ofI64_of_nonneg {a : ℤ} (h : 0 ≤ a) (hlt : a < 2 ^ 64) : (ofI64 a : ℤ) = a := by
  rw [ofI64, Int.emod_eq_of_lt h hlt, Int.toNat_of_nonneg h]

theorem ofI64_of_neg {a : ℤ} (h : a < 0) (hge : -2 ^ 63 ≤ a) : (ofI64 a : ℤ) = a + 2 ^ 64 := by
  have hmod : a % 2 ^ 64 = a + 2 ^ 64 := by omega
  rw [ofI64, hmod, Int.toNat_of_nonneg (by omega)]

theorem toI64_ofI64 {a : ℤ} (hlow : -2 ^ 63 ≤ a) (hhigh : a < 2 ^ 63) : toI64 (ofI64 a) = a := by
  rcases lt_or_ge a 0 with hneg | hpos
  · have h := ofI64_of_neg hneg hlow
    rw [toI64, if_neg (by omega)]
    omega
  · have h := ofI64_of_nonneg hpos (by omega)
    rw [toI64, if_pos (by omega)]
    omega

theorem ofI64_top {a : ℤ} (hlow : -2 ^ 63 ≤ a) (hhigh : a < 2 ^ 63) :
    ofI64 a >>> 63 ≠ 0 ↔ a < 0 := by
  rw [Nat.shiftRight_eq_div_pow]
  rcases lt_or_ge a 0 with hneg | hpos
  · have h := ofI64_of_neg hneg hlow
    omega
  · have h := ofI64_of_nonneg hpos (by omega)
    omega

theorem negateU64_eq {m : ℕ} (hm : m < 2 ^ 63) : negateU64 m = ofI64 (-m) := by
  rw [negateU64, ofI64]
  omega

/-- A shift to the right is a division that rounds down. -/
theorem arithmeticShiftLeftU64_neg {a : ℤ} (hlow : -2 ^ 63 ≤ a) (hhigh : a < 2 ^ 63) {s : ℕ}
    (hs : 0 < s) : arithmeticShiftLeftU64 (ofI64 a) (-(s : ℤ)) = ofI64 (a / 2 ^ s) := by
  rw [arithmeticShiftLeftU64, if_neg (by omega), if_pos (by omega), neg_neg,
    arithmeticShiftRightU64]
  split
  case isTrue hbig =>
    have hpow : (2 : ℤ) ^ 63 < 2 ^ s := pow_lt_pow_right₀ (by decide) (by omega)
    split
    case isTrue htop =>
      have hneg := (ofI64_top hlow hhigh).mp htop
      have hdiv : a / 2 ^ s = -1 := by
        rw [Int.ediv_eq_iff_of_pos (by omega)]
        omega
      rw [hdiv]
      rfl
    case isFalse htop =>
      have hpos : 0 ≤ a := by
        by_contra hneg
        exact htop ((ofI64_top hlow hhigh).mpr (by omega))
      rw [Int.ediv_eq_zero_of_lt hpos (by omega)]
      rfl
  case isFalse =>
    rw [if_neg (by omega), toI64_ofI64 hlow hhigh, Int.shiftRight_eq_div_pow, Int.toNat_natCast]
    norm_cast

theorem ofI64_emod {a : ℤ} {s : ℕ} (hs : s ≤ 64) :
    ((ofI64 a % 2 ^ s : ℕ) : ℤ) = a % 2 ^ s := by
  have hdvd : (2 : ℤ) ^ s ∣ 2 ^ 64 := pow_dvd_pow 2 hs
  rw [ofI64, Int.natCast_mod, Int.toNat_of_nonneg (Int.emod_nonneg _ (by decide))]
  push_cast
  exact Int.emod_emod_of_dvd a hdvd

/-- The residual error is what the division leaves. -/
theorem residualErrorOnRightShift_eq {a : ℤ} (hlow : -2 ^ 63 ≤ a) (hhigh : a < 2 ^ 63) {s : ℕ}
    (hs : 0 < s) :
    residualErrorOnRightShift (ofI64 a) s = residual (a % 2 ^ s) (2 ^ s) := by
  rw [residualErrorOnRightShift]
  by_cases hzero : a = 0
  · rw [hzero, if_pos (Or.inr (show ofI64 0 = 0 from rfl)), Int.zero_emod]
    rfl
  have hne : ofI64 a ≠ 0 := by
    rcases lt_or_ge a 0 with hneg | hpos
    · have h := ofI64_of_neg hneg hlow
      omega
    · have h := ofI64_of_nonneg hpos (by omega)
      omega
  rw [if_neg (by omega)]
  split
  case isTrue hbig =>
    have hpow : (2 : ℤ) ^ 64 < 2 ^ s := pow_lt_pow_right₀ (by decide) (by omega)
    split
    case isTrue htop =>
      have hneg := (ofI64_top hlow hhigh).mp htop
      have hmod : a % 2 ^ s = a + 2 ^ s := by
        rw [← Int.add_emod_right, Int.emod_eq_of_lt (by omega) (by omega)]
      rw [hmod, residual, if_neg (by omega), if_neg (by omega), if_neg (by omega)]
    case isFalse htop =>
      have hpos : 0 ≤ a := by
        by_contra hneg
        exact htop ((ofI64_top hlow hhigh).mpr (by omega))
      rw [Int.emod_eq_of_lt hpos (by omega), residual, if_neg hzero, if_pos (by omega)]
  case isFalse hle =>
    have hmask : (if (s : ℤ) = 64 then 2 ^ 64 - 1 else 1 <<< (s : ℤ).toNat - 1) = 2 ^ s - 1 := by
      split
      case isTrue h64 => rw [show s = 64 by omega]
      case isFalse => rw [Int.toNat_natCast, Nat.one_shiftLeft]
    have herror := ofI64_emod (a := a) (s := s) (by omega)
    have hhalf : (2 : ℤ) ^ s = 2 * 2 ^ (s - 1) := by
      rw [← pow_succ', Nat.sub_add_cancel hs]
    have hcast : ((2 ^ (s - 1) : ℕ) : ℤ) = 2 ^ (s - 1) := by push_cast; rfl
    dsimp only
    rw [hmask, Nat.and_two_pow_sub_one_eq_mod, Int.toNat_natCast, Nat.one_shiftLeft, residual]
    generalize ofI64 a % 2 ^ s = error at herror
    generalize a % 2 ^ s = r at herror
    generalize 2 ^ (s - 1) = half at hcast
    rw [← hcast] at hhalf
    generalize (2 : ℤ) ^ s = d at hhalf
    rcases Nat.eq_zero_or_pos error with hnone | hsome
    · rw [if_pos hnone, if_pos (show r = 0 by omega)]
    rw [if_neg (show ¬ error = 0 by omega), if_neg (show ¬ r = 0 by omega)]
    rcases Nat.lt_trichotomy error half with hlt | heq | hgt
    · rw [if_pos hlt, if_pos (show 2 * r < d by omega)]
    · rw [if_neg (show ¬ error < half by omega), if_pos heq, if_neg (show ¬ 2 * r < d by omega),
        if_pos (show 2 * r = d by omega)]
    · rw [if_neg (show ¬ error < half by omega), if_neg (show ¬ error = half by omega),
        if_neg (show ¬ 2 * r < d by omega), if_neg (show ¬ 2 * r = d by omega)]

/-! ### Numbers that are not negative -/

theorem ofI64_natCast {m : ℕ} (hm : m < 2 ^ 64) : ofI64 m = m := by
  have h := ofI64_of_nonneg (Int.natCast_nonneg m) (by omega)
  omega

theorem logicalShiftRightU64_eq {m s : ℕ} (hm : m < 2 ^ 64) :
    logicalShiftRightU64 m s = m / 2 ^ s := by
  rw [logicalShiftRightU64]
  split
  case isTrue hbig =>
    have hpow : 2 ^ 64 ≤ 2 ^ s := Nat.pow_le_pow_right (by decide) (by omega)
    exact (Nat.div_eq_of_lt (hm.trans_le hpow)).symm
  case isFalse =>
    rw [if_neg (by omega), Int.toNat_natCast, Nat.shiftRight_eq_div_pow]

theorem residualErrorOnRightShift_natCast {m s : ℕ} (hm : m < 2 ^ 63) (hs : 0 < s) :
    residualErrorOnRightShift m s = residual (m % 2 ^ s : ℕ) (2 ^ s : ℕ) := by
  have h := residualErrorOnRightShift_eq (a := m) (by omega) (by omega) hs
  rw [ofI64_natCast (by omega)] at h
  rw [h, Int.natCast_mod]
  push_cast
  rfl

end Ruzu.Fp
