import Mathlib
import Ruzu.Fp.Value

/-!
# Rounding of unpacked values

`fp_round_base` finds the number of the magnitude below the value and how far
the value is above it. Rounding up goes to the next number, and a number past
the finite ones is an overflow.
-/

set_option autoImplicit false

namespace Ruzu.Fp

open Rounding

/-! ### The rounding modes -/

/-- Where the residual error says that the value is. -/
def ResidualError.Holds : ResidualError → ℚ → Prop
  | .zero, t => t = 0
  | .lessThanHalf, t => 0 < t ∧ 2 * t < 1
  | .half, t => 2 * t = 1
  | .greaterThanHalf, t => 1 < 2 * t

theorem residual_holds {r d : ℤ} (hr : 0 ≤ r) (hd : 0 < d) :
    (residual r d).Holds ((r : ℚ) / d) := by
  have hd' : (0 : ℚ) < d := by exact_mod_cast hd
  have hdouble : 2 * ((r : ℚ) / d) = (2 * r : ℤ) / d := by
    push_cast
    ring
  rw [residual]
  split
  case isTrue hzero =>
    rw [hzero]
    exact Int.cast_zero (R := ℚ) ▸ zero_div _
  case isFalse hne =>
    split
    case isTrue hlt =>
      refine ⟨div_pos (by exact_mod_cast lt_of_le_of_ne hr (Ne.symm hne)) hd', ?_⟩
      rw [hdouble, div_lt_one hd']
      exact_mod_cast hlt
    case isFalse hge =>
      split
      case isTrue heq =>
        rw [ResidualError.Holds, hdouble, heq, div_self hd'.ne']
      case isFalse =>
        rw [ResidualError.Holds, hdouble, one_lt_div hd']
        have : d < 2 * r := by omega
        exact_mod_cast this

/-- The number of the magnitude that a rounding mode selects. -/
def Rounds (value : ℕ → ℚ) (rounding : RoundingMode) (sign : Bool) (v : ℚ) (n : ℕ) : Prop :=
  match rounding with
  | .toNearestTieEven => NearestEven value v n
  | .toNearestTieAwayFromZero => NearestAway value v n
  | .towardsPlusInfinity => if sign then Below value v n else Above value v n
  | .towardsMinusInfinity => if sign then Above value v n else Below value v n
  | .towardsZero => Below value v n
  | .toOdd => value n = v ∨ Odd n ∧ (Below value v n ∨ Above value v n)

/-- The number that the code goes to from the one below the value. -/
def roundNumber (rounding : RoundingMode) (error : ResidualError) (sign : Bool) (n : ℕ) : ℕ :=
  if (roundDirection rounding error n sign).1 then n + 1
  else if error ≠ .zero ∧ rounding = .toOdd then n ||| 1
  else n

theorem or_one (n : ℕ) : n ||| 1 = if n % 2 = 0 then n + 1 else n := by
  split
  case isTrue heven =>
    obtain ⟨k, rfl⟩ := Nat.dvd_of_mod_eq_zero heven
    exact (Nat.two_pow_add_eq_or_of_lt (i := 1) (by decide) k).symm
  case isFalse hodd =>
    obtain ⟨k, rfl⟩ : ∃ k, n = 2 * k + 1 := ⟨n / 2, by omega⟩
    rw [Nat.two_pow_add_eq_or_of_lt (i := 1) (by decide) k, Nat.or_assoc, Nat.or_self]

section Modes

variable {value : ℕ → ℚ} {v t : ℚ} {n : ℕ} {error : ResidualError}

theorem ResidualError.Holds.zero_iff (h : error.Holds t) : error = .zero ↔ t = 0 := by
  cases error with
  | zero => exact ⟨fun _ => h, fun _ => rfl⟩
  | lessThanHalf => exact ⟨nofun, fun ht => absurd ht h.1.ne'⟩
  | half =>
    refine ⟨nofun, fun ht => ?_⟩
    rw [ResidualError.Holds, ht] at h
    norm_num at h
  | greaterThanHalf =>
    refine ⟨nofun, fun ht => ?_⟩
    rw [ResidualError.Holds, ht] at h
    norm_num at h

theorem roundNumber_even (error : ResidualError) (sign : Bool) (n : ℕ) :
    roundNumber .toNearestTieEven error sign n =
      if error = .greaterThanHalf ∨ error = .half ∧ n % 2 ≠ 0 then n + 1 else n := by
  simp [roundNumber, roundDirection, Nat.and_one_is_mod]

theorem nearestEven_roundNumber (hmono : StrictMono value) (h : Between value v n t)
    (herror : error.Holds t) (sign : Bool) :
    NearestEven value v (roundNumber .toNearestTieEven error sign n) := by
  rw [roundNumber_even]
  cases error with
  | zero =>
    rw [if_neg (by simp)]
    exact h.nearestEven_low hmono (by rw [show t = 0 from herror]; norm_num)
  | lessThanHalf =>
    rw [if_neg (by simp)]
    exact h.nearestEven_low hmono herror.2
  | half =>
    split
    case isTrue hodd =>
      have hmod : n % 2 ≠ 0 := hodd.elim nofun And.right
      exact h.nearestEven_half hmono herror (Or.inr rfl)
        (Nat.even_add_one.mpr fun heven => hmod (Nat.even_iff.mp heven))
    case isFalse heven =>
      have hmod : n % 2 = 0 := by
        by_contra hne
        exact heven (Or.inr ⟨rfl, hne⟩)
      exact h.nearestEven_half hmono herror (Or.inl rfl) (Nat.even_iff.mpr hmod)
  | greaterThanHalf =>
    rw [if_pos (Or.inl rfl)]
    exact h.nearestEven_high hmono herror

theorem above_roundNumber (hmono : StrictMono value) (h : Between value v n t)
    (herror : error.Holds t) : Above value v (if error ≠ .zero then n + 1 else n) := by
  split
  case isTrue hne => exact h.above_next hmono fun ht => hne (herror.zero_iff.mpr ht)
  case isFalse hzero => exact h.above_self hmono (herror.zero_iff.mp (not_not.mp hzero))

theorem odd_roundNumber (hmono : StrictMono value) (h : Between value v n t)
    (herror : error.Holds t) (sign : Bool) :
    value (roundNumber .toOdd error sign n) = v ∨
      Odd (roundNumber .toOdd error sign n) ∧
        (Below value v (roundNumber .toOdd error sign n) ∨
          Above value v (roundNumber .toOdd error sign n)) := by
  rw [roundNumber, if_neg (show ¬(roundDirection .toOdd error n sign).1 = true from nofun)]
  split
  case isTrue hne =>
    refine Or.inr ?_
    rw [or_one]
    split
    case isTrue heven =>
      exact ⟨(Nat.even_iff.mpr heven).add_one,
        Or.inr (h.above_next hmono fun ht => hne.1 (herror.zero_iff.mpr ht))⟩
    case isFalse hodd =>
      exact ⟨Nat.odd_iff.mpr (by omega), Or.inl (h.below hmono)⟩
  case isFalse hzero =>
    have hexact : error = .zero := by
      by_contra hne
      exact hzero ⟨hne, rfl⟩
    exact Or.inl ((h.eq_iff hmono).mpr (herror.zero_iff.mp hexact))

theorem rounds_roundNumber (hmono : StrictMono value) (h : Between value v n t)
    (herror : error.Holds t) (rounding : RoundingMode)
    (hmode : rounding ≠ .toNearestTieAwayFromZero) (sign : Bool) :
    Rounds value rounding sign v (roundNumber rounding error sign n) := by
  cases rounding with
  | toNearestTieEven => exact nearestEven_roundNumber hmono h herror sign
  | towardsPlusInfinity =>
    have habove := above_roundNumber hmono h herror
    cases sign with
    | true => simpa [Rounds, roundNumber, roundDirection] using h.below hmono
    | false => simpa [Rounds, roundNumber, roundDirection] using habove
  | towardsMinusInfinity =>
    have habove := above_roundNumber hmono h herror
    cases sign with
    | true => simpa [Rounds, roundNumber, roundDirection] using habove
    | false => simpa [Rounds, roundNumber, roundDirection] using h.below hmono
  | towardsZero => simpa [Rounds, roundNumber, roundDirection] using h.below hmono
  | toNearestTieAwayFromZero => exact absurd rfl hmode
  | toOdd => exact odd_roundNumber hmono h herror sign

end Modes

/-! ### The number below a value -/

namespace FpUnpacked

variable (F : FloatFormat) (op : FpUnpacked)

/-- How many bits of the mantissa have no place in the format. -/
def droppedBits : ℕ :=
  (62 - F.explicitMantissaWidth + max (F.exponentMin - op.exponent) 0 : ℤ).toNat

def lowNumber : ℕ :=
  (max (op.exponent - F.exponentMin) 0).toNat * 2 ^ F.explicitMantissaWidth +
    op.mantissa / 2 ^ op.droppedBits F

def residualError : ResidualError :=
  residual (op.mantissa % 2 ^ op.droppedBits F : ℕ) (2 ^ op.droppedBits F : ℕ)

variable {F op}

theorem droppedBits_cast : (op.droppedBits F : ℤ) =
    62 - F.explicitMantissaWidth + max (F.exponentMin - op.exponent) 0 := by
  have hwidth := F.width_bounds
  rw [droppedBits, Int.toNat_of_nonneg (by omega)]

theorem droppedBits_pos : 0 < op.droppedBits F := by
  have hwidth := F.width_bounds
  have hcast := op.droppedBits_cast (F := F)
  omega

theorem Normal.quotient_lt (h : op.Normal) :
    op.mantissa / 2 ^ op.droppedBits F < 2 ^ (F.explicitMantissaWidth + 1) := by
  have hcast := op.droppedBits_cast (F := F)
  have hpow : 2 ^ 63 ≤ 2 ^ op.droppedBits F * 2 ^ (F.explicitMantissaWidth + 1) := by
    rw [← pow_add]
    exact Nat.pow_le_pow_right (by decide) (by omega)
  exact Nat.div_lt_of_lt_mul (h.2.trans_le hpow)

theorem Normal.quotient_denormal (h : op.Normal) (hexp : op.exponent < F.exponentMin) :
    op.mantissa / 2 ^ op.droppedBits F < 2 ^ F.explicitMantissaWidth := by
  have hcast := op.droppedBits_cast (F := F)
  have hpow : 2 ^ 63 ≤ 2 ^ op.droppedBits F * 2 ^ F.explicitMantissaWidth := by
    rw [← pow_add]
    exact Nat.pow_le_pow_right (by decide) (by omega)
  exact Nat.div_lt_of_lt_mul (h.2.trans_le hpow)

theorem Normal.quotient_normal (h : op.Normal) (hexp : F.exponentMin ≤ op.exponent) :
    2 ^ F.explicitMantissaWidth ≤ op.mantissa / 2 ^ op.droppedBits F := by
  have hcast := op.droppedBits_cast (F := F)
  have hwidth := F.width_bounds
  rw [Nat.le_div_iff_mul_le (Nat.two_pow_pos _), ← pow_add]
  exact (Nat.pow_le_pow_right (by decide) (by omega)).trans h.1

theorem Normal.between (h : op.Normal) : Between F.value op.value (op.lowNumber F)
    ((op.mantissa % 2 ^ op.droppedBits F : ℕ) / (2 ^ op.droppedBits F : ℕ)) := by
  have hcast := op.droppedBits_cast (F := F)
  have hbinade : (max (op.exponent - F.exponentMin) 0).toNat = 0 ∨
      2 ^ F.explicitMantissaWidth ≤ op.mantissa / 2 ^ op.droppedBits F := by
    rcases lt_or_ge op.exponent F.exponentMin with hlow | hhigh
    · exact Or.inl (by omega)
    · exact Or.inr (h.quotient_normal hhigh)
  have hlt := h.quotient_lt (F := F)
  have hpos : (0 : ℚ) < (2 ^ op.droppedBits F : ℕ) := by exact_mod_cast Nat.two_pow_pos _
  refine ⟨by positivity, ?_, ?_⟩
  · rw [div_lt_one hpos]
    exact_mod_cast Nat.mod_lt _ (Nat.two_pow_pos _)
  · have hunit : (2 : ℚ) ^ (op.exponent - normalizedPointPosition) * (2 ^ op.droppedBits F : ℕ) =
        2 ^ (((max (op.exponent - F.exponentMin) 0).toNat : ℤ) + F.exponentMin -
          F.explicitMantissaWidth) := by
      rw [Nat.cast_pow, Nat.cast_ofNat, ← zpow_natCast, ← zpow_add₀ (by decide)]
      congr 1
      rw [hcast, normalizedPointPosition]
      omega
    have hmantissa : (op.mantissa : ℚ) = (op.mantissa / 2 ^ op.droppedBits F : ℕ) *
        (2 ^ op.droppedBits F : ℕ) + (op.mantissa % 2 ^ op.droppedBits F : ℕ) := by
      exact_mod_cast (Nat.div_add_mod' op.mantissa (2 ^ op.droppedBits F)).symm
    rw [lowNumber, Nat.add_assoc, F.value_eq hlt.le hbinade,
      F.value_eq (Nat.succ_le_of_lt hlt) (hbinade.imp_right Nat.le_succ_of_le), ← hunit, value,
      hmantissa]
    push_cast
    field_simp
    ring

theorem residualError_holds : (op.residualError F).Holds
    ((op.mantissa % 2 ^ op.droppedBits F : ℕ) / (2 ^ op.droppedBits F : ℕ)) := by
  have h := residual_holds (r := (op.mantissa % 2 ^ op.droppedBits F : ℕ))
    (d := (2 ^ op.droppedBits F : ℕ)) (Int.natCast_nonneg _)
    (by exact_mod_cast Nat.two_pow_pos _)
  rwa [Int.cast_natCast, Int.cast_natCast] at h

end FpUnpacked

/-! ### From numbers to words -/

namespace FloatFormat

variable (F : FloatFormat)

/-- The word of a sign and the number of a magnitude. -/
def encode (sign : Bool) (n : ℕ) : ℕ :=
  sign.toNat * 2 ^ (F.exponentWidth + F.explicitMantissaWidth) + n

/-- The numbers from here on are past the finite magnitudes. -/
def limit (fpcr : Fpcr) : ℕ :=
  if F = .u16 ∧ fpcr.ahp then 2 ^ (F.exponentWidth + F.explicitMantissaWidth)
  else (2 ^ F.exponentWidth - 1) * 2 ^ F.explicitMantissaWidth

variable {F}

theorem totalWidth_eq_16 : F.totalWidth = 16 ↔ F = .u16 := by
  cases F <;> decide

theorem encode_lt (sign : Bool) {n : ℕ}
    (h : n < 2 ^ (F.exponentWidth + F.explicitMantissaWidth)) :
    F.encode sign n < 2 ^ F.totalWidth := by
  rw [encode, F.totalWidth_eq, Nat.add_assoc, Nat.add_comm 1, pow_succ]
  cases sign with
  | false => rw [Bool.toNat_false]; omega
  | true => rw [Bool.toNat_true]; omega

theorem packBits_eq {sign : Bool} {b : ℤ} {q : ℕ} (hb : 0 ≤ b) (hlt : b < 2 ^ F.exponentWidth) :
    packBits F sign b q = F.encode sign
      (b.toNat * 2 ^ F.explicitMantissaWidth + q % 2 ^ F.explicitMantissaWidth) := by
  have hbnat : b.toNat < 2 ^ F.exponentWidth := by
    have : ((b.toNat : ℕ) : ℤ) < (2 ^ F.exponentWidth : ℕ) := by
      rw [Int.toNat_of_nonneg hb]
      exact_mod_cast hlt
    exact_mod_cast this
  have hq := Nat.mod_lt q (Nat.two_pow_pos F.explicitMantissaWidth)
  have hn : b.toNat * 2 ^ F.explicitMantissaWidth + q % 2 ^ F.explicitMantissaWidth <
      2 ^ (F.exponentWidth + F.explicitMantissaWidth) := by
    rw [pow_add]
    calc b.toNat * 2 ^ F.explicitMantissaWidth + q % 2 ^ F.explicitMantissaWidth
        < (b.toNat + 1) * 2 ^ F.explicitMantissaWidth := by rw [Nat.succ_mul]; omega
      _ ≤ _ := Nat.mul_le_mul_right _ hbnat
  have hword := encode_lt sign hn
  have hhead : sign.toNat <<< F.exponentWidth ||| b.toNat =
      sign.toNat * 2 ^ F.exponentWidth + b.toNat := by
    rw [← Nat.shiftLeft_add_eq_or_of_lt hbnat, Nat.shiftLeft_eq]
  have hshift : (sign.toNat * 2 ^ F.exponentWidth + b.toNat) <<< F.explicitMantissaWidth ||| q %
      2 ^ F.explicitMantissaWidth = F.encode sign
      (b.toNat * 2 ^ F.explicitMantissaWidth + q % 2 ^ F.explicitMantissaWidth) := by
    rw [← Nat.shiftLeft_add_eq_or_of_lt hq, Nat.shiftLeft_eq, encode, pow_add]
    ring
  have hsmall : (sign.toNat * 2 ^ F.exponentWidth + b.toNat) <<< F.explicitMantissaWidth <
      2 ^ 64 := by
    refine lt_of_le_of_lt ?_ (hword.trans_le (Nat.pow_le_pow_right (by decide) F.totalWidth_le))
    rw [← hshift]
    exact Nat.left_le_or
  rw [packBits, hhead, Nat.mod_eq_of_lt hsmall, F.mantissaMask_eq,
    Nat.and_two_pow_sub_one_eq_mod, hshift, fromBits, Nat.mod_eq_of_lt hword]

end FloatFormat

/-! ### The rounding as a whole -/

variable {F : FloatFormat} {fpcr : Fpcr} {fpsr : Fpsr}

/-- The exponent and the mantissa are those of a number. -/
def Numbers (F : FloatFormat) (b : ℤ) (q n : ℕ) : Prop :=
  0 ≤ b ∧ n = b.toNat * 2 ^ F.explicitMantissaWidth + q % 2 ^ F.explicitMantissaWidth

/-- The word or the overflow of a number. -/
def finishNumber (F : FloatFormat) (sign : Bool) (n : ℕ) (error : ResidualError)
    (overflowToInf : Bool) (fpcr : Fpcr) (fpsr : Fpsr) : Option (ℕ × Fpsr) :=
  if n < F.limit fpcr then
    if error ≠ .zero then
      (processException .inexact fpcr fpsr).map fun fpsr => (F.encode sign n, fpsr)
    else some (F.encode sign n, fpsr)
  else if F = .u16 ∧ fpcr.ahp then
    (processException .invalidOp fpcr fpsr).map fun fpsr => (F.encode sign 0x7fff, fpsr)
  else do
    let fpsr ← processException .overflow fpcr fpsr
    let fpsr ← processException .inexact fpcr fpsr
    some (if overflowToInf then F.infinity sign else F.maxNormal sign, fpsr)

theorem Numbers.lt_iff {b : ℤ} {q n : ℕ} (h : Numbers F b q n) (k : ℕ) :
    n < k * 2 ^ F.explicitMantissaWidth ↔ b < k := by
  obtain ⟨hb, rfl⟩ := h
  have hq := Nat.mod_lt q (Nat.two_pow_pos F.explicitMantissaWidth)
  have hcast : (b.toNat : ℤ) = b := Int.toNat_of_nonneg hb
  constructor
  · intro hlt
    by_contra hge
    have hmul := Nat.mul_le_mul_right (2 ^ F.explicitMantissaWidth) (show k ≤ b.toNat by omega)
    omega
  · intro hlt
    have hmul := Nat.mul_le_mul_right (2 ^ F.explicitMantissaWidth) (show b.toNat + 1 ≤ k by omega)
    rw [Nat.succ_mul] at hmul
    omega

theorem finishRound_eq {b : ℤ} {q n : ℕ} (h : Numbers F b q n) (sign : Bool)
    (error : ResidualError) (overflowToInf : Bool) :
    finishRound F sign b q error overflowToInf fpcr fpsr =
      finishNumber F sign n error overflowToInf fpcr fpsr := by
  rw [finishRound, finishNumber, FloatFormat.limit]
  simp only [FloatFormat.totalWidth_eq_16]
  have hone : 1 ≤ 2 ^ F.exponentWidth := Nat.one_le_two_pow
  by_cases hahp : F = .u16 ∧ fpcr.ahp = true
  · have hlt := h.lt_iff (2 ^ F.exponentWidth)
    rw [← pow_add] at hlt
    push_cast at hlt
    rw [if_neg (by rintro (hformat | hoff); exacts [hformat hahp.1, hoff hahp.2]), if_pos hahp,
      if_pos hahp]
    by_cases hin : n < 2 ^ (F.exponentWidth + F.explicitMantissaWidth)
    · rw [if_pos hin, if_neg (not_le.mpr (hlt.mp hin)),
        FloatFormat.packBits_eq h.1 (hlt.mp hin), ← h.2]
    · rw [if_neg hin, if_pos (not_lt.mp fun hb => hin (hlt.mpr hb)), hahp.1]
      cases sign <;> rfl
  · have hlt := h.lt_iff (2 ^ F.exponentWidth - 1)
    rw [Nat.cast_sub hone] at hlt
    push_cast at hlt
    rw [if_pos (by tauto), if_neg hahp, if_neg hahp]
    by_cases hin : n < (2 ^ F.exponentWidth - 1) * 2 ^ F.explicitMantissaWidth
    · have hb := hlt.mp hin
      rw [if_pos hin, if_neg (not_le.mpr hb), FloatFormat.packBits_eq h.1 (by omega), ← h.2]
    · rw [if_neg hin, if_pos (not_lt.mp fun hb => hin (hlt.mpr hb))]

theorem two_dvd_pow : 2 ∣ 2 ^ F.explicitMantissaWidth :=
  dvd_pow_self 2 (by have := F.width_bounds; omega)

theorem Numbers.mod_two {b : ℤ} {q n : ℕ} (h : Numbers F b q n) : n % 2 = q % 2 := by
  obtain ⟨-, rfl⟩ := h
  rw [Nat.add_mod, Nat.mod_eq_zero_of_dvd (two_dvd_pow.mul_left _), Nat.zero_add, Nat.mod_mod,
    Nat.mod_mod_of_dvd _ two_dvd_pow]

theorem Numbers.increment {b : ℤ} {q n : ℕ} (h : Numbers F b q n)
    (hlt : q < 2 ^ (F.explicitMantissaWidth + 1)) :
    Numbers F (incrementMantissa F q b).2 (incrementMantissa F q b).1 (n + 1) := by
  obtain ⟨hb, rfl⟩ := h
  rw [pow_succ] at hlt
  rw [Numbers, incrementMantissa, F.mantissaMask_eq, Nat.and_two_pow_sub_one_eq_mod]
  have hpos := Nat.two_pow_pos F.explicitMantissaWidth
  generalize 2 ^ F.explicitMantissaWidth = w at *
  have hnext : (b + 1).toNat = b.toNat + 1 := by omega
  have hmod := Nat.mod_lt q hpos
  split
  case isTrue hones =>
    split
    case isTrue hmax =>
      refine ⟨by dsimp only; omega, ?_⟩
      dsimp only
      rw [hones, hnext, show q + 1 = w by omega, Nat.mod_self, Nat.succ_mul]
      omega
    case isFalse hcarry =>
      have hq : q = 2 * w - 1 := by
        have hdiv := Nat.div_add_mod' q w
        have hquot : q / w < 2 := Nat.div_lt_of_lt_mul hlt
        rcases Nat.lt_or_ge (q / w) 1 with hzero | hone
        · rw [Nat.lt_one_iff.mp hzero] at hdiv
          omega
        · rw [show q / w = 1 by omega] at hdiv
          omega
      refine ⟨by dsimp only; omega, ?_⟩
      dsimp only
      rw [hones, hnext, show (q + 1) / 2 = w by omega, Nat.mod_self, Nat.succ_mul]
      omega
  case isFalse hones =>
    refine ⟨hb, ?_⟩
    dsimp only
    have hsucc : (q + 1) % w = q % w + 1 := by
      rw [← Nat.mod_add_mod, Nat.mod_eq_of_lt (by omega)]
    rw [hsucc, Nat.add_assoc]

theorem Numbers.or_one {b : ℤ} {q n : ℕ} (h : Numbers F b q n) :
    Numbers F b (q ||| 1) (n ||| 1) := by
  have hparity := h.mod_two
  obtain ⟨hb, rfl⟩ := h
  refine ⟨hb, ?_⟩
  have hmod := Nat.mod_lt q (Nat.two_pow_pos F.explicitMantissaWidth)
  obtain ⟨k, hk⟩ := two_dvd_pow (F := F)
  rw [Fp.or_one, Fp.or_one, hparity]
  split
  case isTrue heven =>
    have hsucc : (q + 1) % 2 ^ F.explicitMantissaWidth = q % 2 ^ F.explicitMantissaWidth + 1 := by
      have hlow : q % 2 ^ F.explicitMantissaWidth % 2 = 0 := by
        rw [Nat.mod_mod_of_dvd _ two_dvd_pow, heven]
      rw [← Nat.mod_add_mod, Nat.mod_eq_of_lt (by omega)]
    rw [hsucc, Nat.add_assoc]
  case isFalse => rfl

namespace FpUnpacked

variable {op : FpUnpacked}

/-- The value is below the normal magnitudes. -/
def Tiny (F : FloatFormat) (op : FpUnpacked) : Prop := op.exponent < F.exponentMin

/-- The value is flushed to zero. -/
def Flushed (F : FloatFormat) (fpcr : Fpcr) (op : FpUnpacked) : Prop :=
  ((F ≠ .u16 ∧ fpcr.fz) ∨ (F = .u16 ∧ fpcr.fz16)) ∧ op.Tiny F

instance (F : FloatFormat) (op : FpUnpacked) : Decidable (op.Tiny F) :=
  inferInstanceAs (Decidable (_ < _))

instance (F : FloatFormat) (fpcr : Fpcr) (op : FpUnpacked) : Decidable (op.Flushed F fpcr) :=
  inferInstanceAs (Decidable (_ ∧ _))

theorem Normal.log2 (h : op.Normal) : op.mantissa.log2 = 62 := by
  rw [Nat.log2_eq_iff (by have := h.1; omega)]
  exact h

theorem Normal.normalize (h : op.Normal) {extra : ℤ}
    (hextra : extra = max (F.exponentMin - op.exponent) 0) :
    normalize F.explicitMantissaWidth op extra =
      (op.exponent, op.mantissa / 2 ^ op.droppedBits F, op.residualError F) := by
  have hshift : (op.mantissa.log2 : ℤ) - F.explicitMantissaWidth + extra = op.droppedBits F := by
    rw [h.log2, droppedBits_cast, hextra]
    rfl
  rw [Fp.normalize]
  simp only [hshift]
  rw [logicalShiftRightU64_eq (h.2.trans (by decide)),
    residualErrorOnRightShift_natCast h.2 droppedBits_pos, h.log2, residualError]
  refine Prod.ext ?_ rfl
  dsimp only [normalizedPointPosition]
  omega

theorem Normal.numbers (h : op.Normal) :
    Numbers F (max (op.exponent - F.exponentMin + 1) 0) (op.mantissa / 2 ^ op.droppedBits F)
      (op.lowNumber F) := by
  refine ⟨Int.le_max_right _ _, ?_⟩
  rw [lowNumber]
  rcases lt_or_ge op.exponent F.exponentMin with hlow | hhigh
  · rw [show max (op.exponent - F.exponentMin + 1) 0 = 0 by omega,
      show max (op.exponent - F.exponentMin) 0 = 0 by omega,
      Nat.mod_eq_of_lt (h.quotient_denormal hlow)]
  · obtain ⟨r, hr⟩ := Nat.exists_eq_add_of_le (h.quotient_normal hhigh)
    have hlt := h.quotient_lt (F := F)
    rw [pow_succ] at hlt
    rw [show max (op.exponent - F.exponentMin + 1) 0 = op.exponent - F.exponentMin + 1 by omega,
      show max (op.exponent - F.exponentMin) 0 = op.exponent - F.exponentMin by omega,
      show (op.exponent - F.exponentMin + 1).toNat = (op.exponent - F.exponentMin).toNat + 1 by
        omega, hr, Nat.add_mod_left, Nat.mod_eq_of_lt (by omega), Nat.succ_mul, Nat.add_assoc]

end FpUnpacked

theorem roundDirection_mod (rounding : RoundingMode) (error : ResidualError) {q n : ℕ}
    (h : n % 2 = q % 2) (sign : Bool) :
    roundDirection rounding error q sign = roundDirection rounding error n sign := by
  cases rounding <;> simp [roundDirection, Nat.and_one_is_mod, h]

theorem roundDirection_toOdd {rounding : RoundingMode} {error : ResidualError} {n : ℕ}
    {sign : Bool} (h : (roundDirection rounding error n sign).1 = true) : rounding ≠ .toOdd := by
  rintro rfl
  exact absurd h Bool.false_ne_true

/-- The number of the result. -/
def FpUnpacked.number (F : FloatFormat) (rounding : RoundingMode) (op : FpUnpacked) : ℕ :=
  roundNumber rounding (op.residualError F) op.sign (op.lowNumber F)

/-- Whether an overflow goes to infinity. -/
def overflowToInf (rounding : RoundingMode) (sign : Bool) : Bool :=
  (roundDirection rounding .zero 0 sign).2

theorem roundMantissa_eq {b : ℤ} {q n : ℕ} (h : Numbers F b q n)
    (hlt : q < 2 ^ (F.explicitMantissaWidth + 1)) (rounding : RoundingMode)
    (error : ResidualError) (sign : Bool) :
    Numbers F (roundMantissa F rounding error sign q b).2.1
        (roundMantissa F rounding error sign q b).1 (roundNumber rounding error sign n) ∧
      (roundMantissa F rounding error sign q b).2.2 = overflowToInf rounding sign := by
  have hdirection := roundDirection_mod rounding error h.mod_two sign
  rw [roundMantissa, roundNumber, hdirection]
  refine ⟨?_, ?_⟩
  · dsimp only
    by_cases hup : (roundDirection rounding error n sign).1 = true
    · rw [if_pos hup, if_pos hup, if_neg fun hodd => roundDirection_toOdd hup hodd.2]
      exact h.increment hlt
    · rw [if_neg hup, if_neg hup]
      split
      case isTrue => exact h.or_one
      case isFalse => exact h
  · cases rounding <;> rfl

theorem fpRoundBase_eq {op : FpUnpacked} (h : op.Normal) {rounding : RoundingMode}
    (hmode : rounding ≠ .toNearestTieAwayFromZero) :
    fpRoundBase F op fpcr rounding fpsr =
      if op.Flushed F fpcr then some (F.zero op.sign, { fpsr with ufc := true })
      else
        (if op.Tiny F ∧ (op.residualError F ≠ .zero ∨ fpcr.ufe) then
          processException .underflow fpcr fpsr else some fpsr).bind fun fpsr =>
          finishNumber F op.sign (op.number F rounding) (op.residualError F)
            (overflowToInf rounding op.sign) fpcr fpsr := by
  have hpos : op.mantissa ≠ 0 := by
    have := h.1
    omega
  rw [fpRoundBase, if_neg (not_or.mpr ⟨hpos, hmode⟩)]
  simp only [FloatFormat.totalWidth_eq_16]
  obtain ⟨mantissa, error, hfirst⟩ : ∃ mantissa error,
      normalize F.explicitMantissaWidth op 0 = (op.exponent, mantissa, error) := by
    refine ⟨_, _, Prod.ext ?_ rfl⟩
    rw [normalize, h.log2]
    dsimp only [normalizedPointPosition]
    omega
  rw [hfirst]
  dsimp only
  by_cases hflush : (¬F = .u16 ∧ fpcr.fz = true ∨ F = .u16 ∧ fpcr.fz16 = true) ∧
      op.exponent < F.exponentMin
  · rw [if_pos hflush, if_pos (show op.Flushed F fpcr from hflush)]
  rw [if_neg hflush, if_neg (show ¬op.Flushed F fpcr from hflush)]
  have hnumbers := h.numbers (F := F)
  have hlt := h.quotient_lt (F := F)
  have hsame : (if max (op.exponent - F.exponentMin + 1) 0 = 0 then
      normalize F.explicitMantissaWidth op (F.exponentMin - op.exponent)
      else (op.exponent, mantissa, error)) =
        (op.exponent, op.mantissa / 2 ^ op.droppedBits F, op.residualError F) := by
    split
    case isTrue hzero => exact h.normalize (by omega)
    case isFalse hsome => rw [← hfirst, h.normalize (by omega)]
  have htiny : max (op.exponent - F.exponentMin + 1) 0 = 0 ↔ op.Tiny F := by
    rw [FpUnpacked.Tiny]
    omega
  rw [hsame]
  dsimp only
  simp only [htiny]
  refine congrArg _ (funext fun fpsr => ?_)
  obtain ⟨hround, hinf⟩ :=
    roundMantissa_eq hnumbers hlt rounding (op.residualError F) op.sign
  rw [finishRound_eq hround, hinf]
  rfl

namespace FpUnpacked

variable {op : FpUnpacked} {rounding : RoundingMode}

theorem Normal.rounds (h : op.Normal) (hmode : rounding ≠ .toNearestTieAwayFromZero) :
    Rounds F.value rounding op.sign op.value (op.number F rounding) :=
  rounds_roundNumber F.value_strictMono h.between residualError_holds rounding hmode op.sign

/-- The result is the value exactly when nothing is left of the mantissa. -/
theorem Normal.value_number (h : op.Normal) (rounding : RoundingMode) :
    F.value (op.number F rounding) = op.value ↔ op.residualError F = .zero := by
  have hbetween := h.between (F := F)
  rw [residualError_holds.zero_iff]
  constructor
  · intro heq
    have hbelow := hbetween.below F.value_strictMono
    have hle := hbelow.2 _ heq.le
    have hge := F.value_strictMono.le_iff_le.mp (hbelow.1.trans heq.ge)
    rw [le_antisymm hle hge] at heq
    exact (hbetween.eq_iff F.value_strictMono).mp heq
  · intro ht
    have hzero := residualError_holds.zero_iff.mpr ht
    rw [number, roundNumber, hzero, if_neg (by cases rounding <;> simp [roundDirection]),
      if_neg (by simp)]
    exact (hbetween.eq_iff F.value_strictMono).mpr ht

theorem Normal.lowNumber_tiny (h : op.Normal) (htiny : op.Tiny F) :
    op.lowNumber F < 2 ^ F.explicitMantissaWidth := by
  rw [lowNumber, show max (op.exponent - F.exponentMin) 0 = 0 by rw [Tiny] at htiny; omega,
    Int.toNat_zero, Nat.zero_mul, Nat.zero_add]
  exact h.quotient_denormal htiny

theorem Normal.tiny_lt (h : op.Normal) (htiny : op.Tiny F) :
    op.number F rounding < F.limit fpcr := by
  have hlow := h.lowNumber_tiny htiny
  have hnumber : op.number F rounding ≤ op.lowNumber F + 1 := by
    rw [number, roundNumber]
    split
    · exact le_rfl
    · split
      · rw [or_one]
        split <;> omega
      · omega
  have hlimit : 2 * 2 ^ F.explicitMantissaWidth ≤ F.limit fpcr := by
    rw [FloatFormat.limit]
    split
    · rw [pow_add]
      exact Nat.mul_le_mul_right _ (by cases F <;> decide)
    · exact Nat.mul_le_mul_right _ (by cases F <;> decide)
  omega

end FpUnpacked

/-- The word of an overflow: infinity, or the greatest normal magnitude. -/
def overflowWord (F : FloatFormat) (sign : Bool) : RoundingMode → ℕ
  | .toNearestTieEven | .toNearestTieAwayFromZero => F.infinity sign
  | .towardsPlusInfinity => if sign then F.maxNormal sign else F.infinity sign
  | .towardsMinusInfinity => if sign then F.infinity sign else F.maxNormal sign
  | .towardsZero | .toOdd => F.maxNormal sign

theorem overflowWord_eq (sign : Bool) {rounding : RoundingMode}
    (hmode : rounding ≠ .toNearestTieAwayFromZero) :
    (if overflowToInf rounding sign then F.infinity sign else F.maxNormal sign) =
      overflowWord F sign rounding := by
  cases rounding with
  | toNearestTieAwayFromZero => exact absurd rfl hmode
  | _ => cases sign <;> rfl

/-- A third of the smallest magnitude of half precision. -/
def thirdOfSmallest : FpUnpacked := ⟨false, -26, 0x5555555555555555⟩

end Ruzu.Fp
