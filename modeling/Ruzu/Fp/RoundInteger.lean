import Mathlib
import Ruzu.Fp.Unpack

/-!
# Rounding to integers

What `fp_to_fixed` and `fp_round_int` share: the two's complement of the
mantissa is divided with rounding down, and the residual error decides whether
one is added.
-/

set_option autoImplicit false

namespace Ruzu.Fp

/-- Whether one is added to the integer that was rounded down. -/
def integerRoundUp (rounding : RoundingMode) (error : ResidualError) (intResult : ℕ) : Bool :=
  match rounding with
  | .toNearestTieEven => error = .greaterThanHalf ∨ error = .half ∧ intResult &&& 1 ≠ 0
  | .towardsPlusInfinity => error ≠ .zero
  | .towardsMinusInfinity => false
  | .towardsZero => error ≠ .zero ∧ intResult >>> 63 ≠ 0
  | .toNearestTieAwayFromZero =>
    error = .greaterThanHalf ∨ error = .half ∧ intResult >>> 63 = 0
  | .toOdd => false

/-- The integer that a rounding mode selects. -/
def roundInt (rounding : RoundingMode) (x : ℚ) : ℤ :=
  match rounding with
  | .toNearestTieEven =>
    if 2 * Int.fract x < 1 ∨ 2 * Int.fract x = 1 ∧ ⌊x⌋ % 2 = 0 then ⌊x⌋ else ⌊x⌋ + 1
  | .towardsPlusInfinity => ⌈x⌉
  | .towardsMinusInfinity => ⌊x⌋
  | .towardsZero => if 0 ≤ x then ⌊x⌋ else ⌈x⌉
  | .toNearestTieAwayFromZero =>
    if 2 * Int.fract x < 1 ∨ 2 * Int.fract x = 1 ∧ x < 0 then ⌊x⌋ else ⌊x⌋ + 1
  | .toOdd => if Int.fract x = 0 ∨ ⌊x⌋ % 2 ≠ 0 then ⌊x⌋ else ⌊x⌋ + 1

variable {rounding : RoundingMode} {x : ℚ}

theorem ceil_eq (x : ℚ) : ⌈x⌉ = ⌊x⌋ + if Int.fract x = 0 then 0 else 1 := by
  have hx := Int.floor_add_fract x
  have hlow := Int.fract_nonneg x
  have hhigh := Int.fract_lt_one x
  rw [Int.ceil_eq_iff]
  split
  case isTrue hzero =>
    constructor <;> push_cast <;> linarith
  case isFalse hne =>
    have hpos : 0 < Int.fract x := hlow.lt_of_ne (Ne.symm hne)
    constructor <;> push_cast <;> linarith

/-- Only a number that is not an integer goes up. -/
theorem roundInt_eq (rounding : RoundingMode) (x : ℚ) :
    roundInt rounding x = ⌊x⌋ ∨ Int.fract x ≠ 0 ∧ roundInt rounding x = ⌊x⌋ + 1 := by
  by_cases hzero : Int.fract x = 0
  · left
    cases rounding <;> simp [roundInt, ceil_eq, hzero]
  · cases rounding <;> simp only [roundInt, ceil_eq, ne_eq, hzero, not_false_eq_true, true_and,
      false_or, true_or]
    all_goals split <;> simp

/-- The integer is less than one away. -/
theorem abs_roundInt_sub_lt (rounding : RoundingMode) (x : ℚ) :
    |(roundInt rounding x : ℚ) - x| < 1 := by
  have hx := Int.floor_add_fract x
  have hlow := Int.fract_nonneg x
  have hhigh := Int.fract_lt_one x
  rw [abs_lt]
  rcases roundInt_eq rounding x with h | ⟨hne, h⟩
  · rw [h]
    constructor <;> linarith
  · have hpos : 0 < Int.fract x := hlow.lt_of_ne (Ne.symm hne)
    rw [h]
    push_cast
    constructor <;> linarith

theorem roundInt_nonneg (rounding : RoundingMode) (hx : 0 ≤ x) : 0 ≤ roundInt rounding x := by
  have h := (abs_lt.mp (abs_roundInt_sub_lt rounding x)).1
  have hcast : ((-1 : ℤ) : ℚ) < roundInt rounding x := by
    push_cast
    linarith
  have hint : -1 < roundInt rounding x := by exact_mod_cast hcast
  omega

theorem roundInt_nonpos (rounding : RoundingMode) (hx : x ≤ 0) : roundInt rounding x ≤ 0 := by
  have h := (abs_lt.mp (abs_roundInt_sub_lt rounding x)).2
  have hcast : (roundInt rounding x : ℚ) < (1 : ℤ) := by
    push_cast
    linarith
  have hint : roundInt rounding x < 1 := by exact_mod_cast hcast
  omega

theorem roundInt_intCast (rounding : RoundingMode) (n : ℤ) : roundInt rounding n = n := by
  rcases roundInt_eq rounding n with h | ⟨h, -⟩
  · rw [h, Int.floor_intCast]
  · exact absurd (Int.fract_intCast n) h

theorem abs_floor_sub (x : ℚ) : |(⌊x⌋ : ℚ) - x| = Int.fract x := by
  rw [abs_sub_comm, Int.self_sub_floor]
  exact abs_of_nonneg (Int.fract_nonneg x)

theorem abs_floor_succ_sub (x : ℚ) : |((⌊x⌋ + 1 : ℤ) : ℚ) - x| = 1 - Int.fract x := by
  have hlt := Int.fract_lt_one x
  have hx := Int.floor_add_fract x
  rw [show ((⌊x⌋ + 1 : ℤ) : ℚ) - x = 1 - Int.fract x by push_cast; linarith]
  exact abs_of_nonneg (by linarith)

/-- Every integer is as far away as the floor or as the next one. -/
theorem le_abs_sub (x : ℚ) (k : ℤ) :
    Int.fract x ≤ |(k : ℚ) - x| ∨ 1 - Int.fract x ≤ |(k : ℚ) - x| := by
  have hx := Int.floor_add_fract x
  rcases le_or_gt k ⌊x⌋ with hle | hgt
  · have hcast : (k : ℚ) ≤ ⌊x⌋ := by exact_mod_cast hle
    exact Or.inl (le_trans (by linarith) (neg_le_abs _))
  · have hcast : ((⌊x⌋ + 1 : ℤ) : ℚ) ≤ k := by exact_mod_cast hgt
    push_cast at hcast
    exact Or.inr (le_trans (by linarith) (le_abs_self _))

/-- Rounding to nearest selects an integer that no other one is nearer than. -/
theorem roundInt_nearest
    (hmode : rounding = .toNearestTieEven ∨ rounding = .toNearestTieAwayFromZero) (x : ℚ) (k : ℤ) :
    |(roundInt rounding x : ℚ) - x| ≤ |(k : ℚ) - x| := by
  have hk := le_abs_sub x k
  have hlow (h : 2 * Int.fract x ≤ 1) : |(⌊x⌋ : ℚ) - x| ≤ |(k : ℚ) - x| := by
    rw [abs_floor_sub]
    rcases hk with hk | hk <;> linarith
  have hhigh (h : 1 ≤ 2 * Int.fract x) : |((⌊x⌋ + 1 : ℤ) : ℚ) - x| ≤ |(k : ℚ) - x| := by
    rw [abs_floor_succ_sub]
    rcases hk with hk | hk <;> linarith
  have hsplit (p : Prop) [Decidable p] :
      |((if 2 * Int.fract x < 1 ∨ 2 * Int.fract x = 1 ∧ p then ⌊x⌋ else ⌊x⌋ + 1 : ℤ) : ℚ) - x| ≤
        |(k : ℚ) - x| := by
    split
    case isTrue h => exact hlow (h.elim le_of_lt fun h => h.1.le)
    case isFalse h => exact hhigh (not_lt.mp (not_or.mp h).1)
  rcases hmode with rfl | rfl
  · exact hsplit _
  · exact hsplit _

/-! ### Division by a power of two -/

theorem floor_div (a : ℤ) (s : ℕ) : ⌊(a : ℚ) / 2 ^ s⌋ = a / 2 ^ s := by
  have h := Rat.floor_intCast_div_natCast a (2 ^ s)
  push_cast at h
  exact h

theorem fract_div (a : ℤ) (s : ℕ) : Int.fract ((a : ℚ) / 2 ^ s) = (a % 2 ^ s : ℤ) / 2 ^ s := by
  have hpos : (0 : ℚ) < 2 ^ s := by positivity
  have hmod : (a : ℚ) = (a / 2 ^ s : ℤ) * 2 ^ s + (a % 2 ^ s : ℤ) := by
    have h := (Int.ediv_mul_add_emod a (2 ^ s)).symm
    exact_mod_cast h
  rw [Int.fract, floor_div]
  conv_lhs => rw [hmod]
  field_simp
  ring

variable {a : ℤ} {s : ℕ}

theorem fract_div_eq_zero : Int.fract ((a : ℚ) / 2 ^ s) = 0 ↔ a % 2 ^ s = 0 := by
  have hpos : (2 : ℚ) ^ s ≠ 0 := by positivity
  rw [fract_div, div_eq_zero_iff, or_iff_left hpos, Int.cast_eq_zero]

theorem two_mul_fract_div : 2 * Int.fract ((a : ℚ) / 2 ^ s) = (2 * (a % 2 ^ s) : ℤ) / 2 ^ s := by
  rw [fract_div]
  push_cast
  ring

theorem two_mul_fract_div_lt_one :
    2 * Int.fract ((a : ℚ) / 2 ^ s) < 1 ↔ 2 * (a % 2 ^ s) < 2 ^ s := by
  rw [two_mul_fract_div, div_lt_one (by positivity)]
  norm_cast

theorem two_mul_fract_div_eq_one :
    2 * Int.fract ((a : ℚ) / 2 ^ s) = 1 ↔ 2 * (a % 2 ^ s) = 2 ^ s := by
  rw [two_mul_fract_div, div_eq_one_iff_eq (by positivity)]
  norm_cast

theorem ofI64_odd (q : ℤ) : ofI64 q &&& 1 ≠ 0 ↔ q % 2 ≠ 0 := by
  have h := ofI64_emod (a := q) (s := 1) (by decide)
  rw [Nat.and_one_is_mod]
  omega

section Residual

variable {r d : ℤ}

theorem residual_eq_zero : residual r d = .zero ↔ r = 0 := by
  rw [residual]
  split_ifs <;> simp_all

theorem residual_eq_half (hd : 0 < d) : residual r d = .half ↔ 2 * r = d := by
  rw [residual]
  split_ifs with hzero hlt hhalf <;> simp <;> omega

theorem residual_eq_greater (hd : 0 < d) : residual r d = .greaterThanHalf ↔ d < 2 * r := by
  rw [residual]
  split_ifs with hzero hlt hhalf <;> simp <;> omega

end Residual

/-- The residual error and the integer that was rounded down decide the rounding. -/
theorem roundInt_div (hmode : rounding ≠ .toOdd) (hlow : -2 ^ 63 ≤ a) (hhigh : a < 2 ^ 63) :
    roundInt rounding ((a : ℚ) / 2 ^ s) = a / 2 ^ s +
      if integerRoundUp rounding (residual (a % 2 ^ s) (2 ^ s)) (ofI64 (a / 2 ^ s)) then 1
      else 0 := by
  have hd : (0 : ℤ) < 2 ^ s := by positivity
  have hrlow := Int.emod_nonneg a hd.ne'
  have hneg : (a : ℚ) / 2 ^ s < 0 ↔ a / 2 ^ s < 0 := by
    rw [← floor_div, Int.floor_lt, Int.cast_zero]
  have hquot := Int.emod_add_mul_ediv a (2 ^ s)
  have htop : ofI64 (a / 2 ^ s) >>> 63 ≠ 0 ↔ a / 2 ^ s < 0 := by
    have hone : (1 : ℤ) ≤ 2 ^ s := one_le_pow₀ (by decide)
    refine ofI64_top ?_ (Int.ediv_lt_of_lt_mul hd ?_)
    · rw [Int.le_ediv_iff_mul_le hd]
      nlinarith
    · nlinarith
  have hodd := ofI64_odd (a / 2 ^ s)
  generalize ofI64 (a / 2 ^ s) = q at htop hodd
  cases rounding <;>
    simp only [roundInt, integerRoundUp, floor_div, ceil_eq, fract_div_eq_zero,
      two_mul_fract_div_lt_one, two_mul_fract_div_eq_one, ← not_lt, hneg, decide_eq_true_eq,
      residual_eq_half hd, residual_eq_greater hd, residual_eq_zero, htop, hodd, ne_eq,
      not_not.symm.trans (not_congr htop)]
  case toOdd => exact absurd rfl hmode
  all_goals grind

theorem ofI64_succ (q : ℤ) : (ofI64 q + 1) % 2 ^ 64 = ofI64 (q + 1) := by
  rw [ofI64, ofI64]
  omega

/-! ### Operands with a sign -/

/-- The number that a finite word stands for. -/
def FloatFormat.signedValue (F : FloatFormat) (op : ℕ) : ℚ :=
  if F.signOf op then -F.value (F.numberOf op) else F.value (F.numberOf op)

/-- A denormal operand that is read as zero. -/
def FlushedOperand (F : FloatFormat) (fpcr : Fpcr) (op : ℕ) : Prop :=
  0 < F.numberOf op ∧ F.numberOf op < 2 ^ F.explicitMantissaWidth ∧ FlushesInput F fpcr

instance (F : FloatFormat) (fpcr : Fpcr) : Decidable (FlushesInput F fpcr) :=
  inferInstanceAs (Decidable (_ ∨ _))

instance (F : FloatFormat) (fpcr : Fpcr) (op : ℕ) : Decidable (FlushedOperand F fpcr op) :=
  inferInstanceAs (Decidable (_ ∧ _))

/-- The number that a finite operand is read as. -/
def FloatFormat.operandValue (F : FloatFormat) (fpcr : Fpcr) (op : ℕ) : ℚ :=
  if FlushedOperand F fpcr op then 0 else F.signedValue op

/-- The flags after a finite operand is read. -/
def readFlags (F : FloatFormat) (fpcr : Fpcr) (op : ℕ) (fpsr : Fpsr) : Fpsr :=
  if FlushedOperand F fpcr op ∧ F ≠ .u16 then { fpsr with idc := true } else fpsr

/-- The mantissa with the sign. -/
def FpUnpacked.signed (v : FpUnpacked) : ℤ := if v.sign then -v.mantissa else v.mantissa

namespace FpUnpacked

variable {v : FpUnpacked}

theorem Normal.signed_low (h : v.Normal) : -2 ^ 63 ≤ v.signed := by
  have hlt := h.2
  rw [signed]
  split <;> omega

theorem Normal.signed_high (h : v.Normal) : v.signed < 2 ^ 63 := by
  have hlt := h.2
  rw [signed]
  split <;> omega

theorem Normal.ofI64_signed (h : v.Normal) :
    (if v.sign then negateU64 v.mantissa else v.mantissa) = ofI64 v.signed := by
  have hlt := h.2
  rw [signed]
  split
  case isTrue => exact negateU64_eq hlt
  case isFalse => exact (ofI64_natCast (by omega)).symm

theorem signed_eq_zero : v.signed = 0 ↔ v.mantissa = 0 := by
  rw [signed]
  split <;> omega

theorem natAbs_signed (v : FpUnpacked) : v.signed.natAbs = v.mantissa := by
  rw [signed]
  split <;> omega

end FpUnpacked

/-- The mantissa with the sign, shifted by the exponent, is the operand. -/
theorem Unpacks.signedValue_eq {F : FloatFormat} {op : ℕ} {v : FpUnpacked}
    (h : Unpacks F (F.signOf op) (F.numberOf op) v) :
    F.signedValue op = v.signed * 2 ^ (v.exponent - normalizedPointPosition) := by
  rw [FloatFormat.signedValue, ← h.value_eq, ← h.sign_eq, FpUnpacked.value, FpUnpacked.signed]
  split <;> push_cast <;> ring

theorem FloatFormat.value_zero (F : FloatFormat) : F.value 0 = 0 := by
  simp [FloatFormat.value]

theorem FloatFormat.value_pos {F : FloatFormat} {n : ℕ} (h : 0 < n) : 0 < F.value n := by
  rw [← F.value_zero]
  exact F.value_strictMono h

theorem FloatFormat.signedValue_of_zero {F : FloatFormat} {op : ℕ} (h : F.numberOf op = 0) :
    F.signedValue op = 0 := by
  rw [signedValue, h, value_zero, neg_zero, ite_self]

/-- A finite operand is read as zero or as what it stands for. -/
theorem fpUnpack_finite {F : FloatFormat} {op : ℕ} (fpcr : Fpcr) (fpsr : Fpsr)
    (hfinite : F.numberOf op < F.limit {})
    (hide : FlushedOperand F fpcr op → F ≠ .u16 → fpcr.ide = false) :
    (F.operandValue fpcr op = 0 ∧ fpUnpack F op fpcr fpsr =
      some ((.zero, F.signOf op, ⟨F.signOf op, 0, 0⟩), readFlags F fpcr op fpsr)) ∨
    (F.operandValue fpcr op = F.signedValue op ∧ 0 < F.numberOf op ∧
      ∃ v, fpUnpack F op fpcr fpsr = some ((.nonzero, F.signOf op, v), readFlags F fpcr op fpsr) ∧
        Unpacks F (F.signOf op) (F.numberOf op) v) := by
  rw [FloatFormat.operandValue, readFlags, fpUnpack]
  by_cases hflushed : FlushedOperand F fpcr op
  · have hread : fpUnpackBase F op { fpcr with ahp := false } fpsr = _ :=
      fpUnpackBase_flushed hflushed.1 hflushed.2.1 hflushed.2.2
    rw [if_pos hflushed, hread]
    refine Or.inl ⟨rfl, ?_⟩
    by_cases hhalf : F = .u16
    · rw [if_pos hhalf, if_neg (fun h => h.2 hhalf)]
      rfl
    · rw [if_neg hhalf, if_pos ⟨hflushed, hhalf⟩, processException, hide hflushed hhalf]
      rfl
  · rw [if_neg hflushed, if_neg fun h => hflushed h.1]
    rcases Nat.eq_zero_or_pos (F.numberOf op) with hzero | hpos
    · exact Or.inl ⟨FloatFormat.signedValue_of_zero hzero, fpUnpackBase_zero hzero⟩
    · refine Or.inr ⟨rfl, hpos, fpUnpackBase_finite _ fpsr hpos ?_ ?_⟩
      · exact hfinite
      · exact fun hdenormal hflush => hflushed ⟨hpos, hdenormal, hflush⟩

/-- What the code rounds a value to whose last bits are shifted out. -/
theorem rounded_eq {rounding : RoundingMode} (hmode : rounding ≠ .toOdd) {v : FpUnpacked}
    (h : v.Normal) {s : ℕ} (hs : 0 < s) :
    let error := residualErrorOnRightShift (ofI64 v.signed) s
    let intResult := ofI64 (v.signed / 2 ^ s)
    (if integerRoundUp rounding error intResult then (intResult + 1) % 2 ^ 64 else intResult) =
      ofI64 (roundInt rounding (v.signed / 2 ^ s)) := by
  dsimp only
  rw [residualErrorOnRightShift_eq h.signed_low h.signed_high hs,
    roundInt_div hmode h.signed_low h.signed_high]
  split
  case isTrue => exact ofI64_succ _
  case isFalse => rw [add_zero]

theorem error_eq_zero {v : FpUnpacked} (h : v.Normal) {s : ℕ} (hs : 0 < s) :
    residualErrorOnRightShift (ofI64 v.signed) s = .zero ↔
      Int.fract ((v.signed : ℚ) / 2 ^ s) = 0 := by
  rw [residualErrorOnRightShift_eq h.signed_low h.signed_high hs, residual_eq_zero,
    fract_div_eq_zero]

end Ruzu.Fp
