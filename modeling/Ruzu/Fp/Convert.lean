import Ruzu.Fp.Unpack

/-!
# Conversion between formats

`fp_convert.rs`. A magnitude of a narrow format is one of a wide format, and
comes back as it was.
-/

set_option autoImplicit false

namespace Ruzu.Fp

/-- The fraction of a NaN below the quiet bit, at the top of 51 bits. -/
def nanFraction (src : FloatFormat) (op : ℕ) : ℕ :=
  match src with
  | .u64 => op &&& (1 <<< 51 - 1)
  | .u32 => (op &&& (1 <<< 22 - 1)) <<< 29
  | .u16 => (op &&& (1 <<< 9 - 1)) <<< 42

/-- A NaN that is quiet, with the fraction as far as it fits. -/
def fpConvertNan (dst src : FloatFormat) (op : ℕ) : ℕ :=
  let sign := decide (op &&& src.signMask ≠ 0)
  let fraction := nanFraction src op
  let shiftedSign := sign.toNat <<< (dst.totalWidth - 1)
  let exponent := 1 <<< (dst.totalWidth - dst.explicitMantissaWidth) - 1
  let bits :=
    match dst with
    | .u64 => shiftedSign ||| exponent <<< 51 ||| fraction
    | .u32 => shiftedSign ||| exponent <<< 22 ||| fraction >>> 29 &&& (1 <<< 22 - 1)
    | .u16 => shiftedSign ||| exponent <<< 9 ||| fraction >>> 42 &&& (1 <<< 9 - 1)
  dst.fromBits bits

/-- The conversion of a NaN. -/
def convertNan (dst src : FloatFormat) (op : ℕ) (fpType : FpType) (sign : Bool) (fpcr : Fpcr)
    (fpsr : Fpsr) : Option (ℕ × Fpsr) :=
  let isAlthp := dst = .u16 ∧ fpcr.ahp
  let result :=
    if isAlthp then dst.zero sign
    else if fpcr.dn then dst.defaultNan
    else fpConvertNan dst src op
  if fpType = .snan ∨ isAlthp then
    (processException .invalidOp fpcr fpsr).map fun fpsr => (result, fpsr)
  else some (result, fpsr)

def fpConvert (dst src : FloatFormat) (op : ℕ) (fpcr : Fpcr) (roundingMode : RoundingMode)
    (fpsr : Fpsr) : Option (ℕ × Fpsr) :=
  (fpUnpackCv src op fpcr fpsr).bind fun ((fpType, sign, value), fpsr) =>
    match fpType with
    | .snan | .qnan => convertNan dst src op fpType sign fpcr fpsr
    | .infinity =>
      if dst = .u16 ∧ fpcr.ahp then
        (processException .invalidOp fpcr fpsr).map fun fpsr =>
          (dst.fromBits (sign.toNat <<< 15 ||| 0x7fff), fpsr)
      else some (dst.infinity sign, fpsr)
    | .zero => some (dst.zero sign, fpsr)
    | .nonzero => fpRoundCv dst value fpcr roundingMode fpsr

/-! ### Words of a sign and a number -/

namespace FloatFormat

variable {F : FloatFormat} {sign : Bool} {n : ℕ}

theorem numberOf_encode (h : n < 2 ^ (F.exponentWidth + F.explicitMantissaWidth)) :
    F.numberOf (F.encode sign n) = n := by
  rw [numberOf, encode, Nat.mul_comm, Nat.mul_add_mod, Nat.mod_eq_of_lt h]

theorem signOf_encode (h : n < 2 ^ (F.exponentWidth + F.explicitMantissaWidth)) :
    F.signOf (F.encode sign n) = sign := by
  rw [signOf, encode, Nat.testBit_eq_decide_div_mod_eq, Nat.mul_comm,
    Nat.mul_add_div (Nat.two_pow_pos _), Nat.div_eq_of_lt h]
  cases sign <;> rfl

theorem zero_eq : F.zero sign = F.encode sign 0 := by
  cases F <;> cases sign <;> rfl

theorem infinity_eq {fpcr : Fpcr} (h : ¬(F = .u16 ∧ fpcr.ahp = true)) :
    F.infinity sign = F.encode sign (F.limit fpcr) := by
  rw [limit, if_neg h]
  cases F <;> cases sign <;> rfl

theorem limit_le (F : FloatFormat) (fpcr : Fpcr) :
    F.limit fpcr ≤ 2 ^ (F.exponentWidth + F.explicitMantissaWidth) := by
  rw [limit]
  split
  · exact le_rfl
  · rw [pow_add]
    exact Nat.mul_le_mul_right _ (Nat.sub_le _ _)

/-- The quiet NaN with a fraction below its highest bit. -/
def quietNan (F : FloatFormat) (sign : Bool) (payload : ℕ) : ℕ :=
  F.encode sign ((2 ^ F.exponentWidth - 1) * 2 ^ F.explicitMantissaWidth +
    2 ^ (F.explicitMantissaWidth - 1) + payload)

end FloatFormat

theorem quietNan_lt (F : FloatFormat) {payload : ℕ}
    (h : payload < 2 ^ (F.explicitMantissaWidth - 1)) :
    (2 ^ F.exponentWidth - 1) * 2 ^ F.explicitMantissaWidth + 2 ^ (F.explicitMantissaWidth - 1) +
      payload < 2 ^ (F.exponentWidth + F.explicitMantissaWidth) := by
  have hwidth := F.width_bounds
  have hhalf : 2 ^ F.explicitMantissaWidth = 2 * 2 ^ (F.explicitMantissaWidth - 1) := by
    rw [← pow_succ', Nat.sub_add_cancel (by omega)]
  have hmul : (2 ^ F.exponentWidth - 1) * 2 ^ F.explicitMantissaWidth +
      2 ^ F.explicitMantissaWidth = 2 ^ F.exponentWidth * 2 ^ F.explicitMantissaWidth := by
    rw [← Nat.succ_mul, Nat.succ_eq_add_one, Nat.sub_add_cancel Nat.one_le_two_pow]
  rw [pow_add]
  omega

theorem nanBits (F : FloatFormat) (sign : Bool) {payload : ℕ}
    (h : payload < 2 ^ (F.explicitMantissaWidth - 1)) :
    F.fromBits (sign.toNat <<< (F.totalWidth - 1) |||
      (1 <<< (F.totalWidth - F.explicitMantissaWidth) - 1) <<< (F.explicitMantissaWidth - 1) |||
        payload) = F.quietNan sign payload := by
  have hwidth := F.width_bounds
  have htotal := F.totalWidth_eq
  have hone : 1 ≤ 2 ^ F.exponentWidth := Nat.one_le_two_pow
  have hfield : (1 <<< (F.totalWidth - F.explicitMantissaWidth) - 1) <<<
      (F.explicitMantissaWidth - 1) ||| payload =
        (2 ^ F.exponentWidth - 1) * 2 ^ F.explicitMantissaWidth +
          2 ^ (F.explicitMantissaWidth - 1) + payload := by
    rw [← Nat.shiftLeft_add_eq_or_of_lt h, Nat.shiftLeft_eq, Nat.one_shiftLeft,
      show F.totalWidth - F.explicitMantissaWidth = F.exponentWidth + 1 by omega, pow_succ,
      show 2 ^ F.explicitMantissaWidth = 2 * 2 ^ (F.explicitMantissaWidth - 1) by
        rw [← pow_succ', Nat.sub_add_cancel (by omega)],
      show 2 ^ F.exponentWidth * 2 - 1 = (2 ^ F.exponentWidth - 1) * 2 + 1 by omega]
    ring
  have hlt := quietNan_lt F h
  rw [Nat.or_assoc, hfield, show F.totalWidth - 1 = F.exponentWidth + F.explicitMantissaWidth by
    omega, ← Nat.shiftLeft_add_eq_or_of_lt hlt, Nat.shiftLeft_eq, FloatFormat.fromBits]
  exact Nat.mod_eq_of_lt (FloatFormat.encode_lt sign hlt)

theorem nanFraction_eq (src : FloatFormat) (op : ℕ) : nanFraction src op =
    op % 2 ^ (src.explicitMantissaWidth - 1) * 2 ^ (52 - src.explicitMantissaWidth) := by
  unfold nanFraction
  cases src with
  | u16 =>
    simp only [Nat.one_shiftLeft 9, Nat.and_two_pow_sub_one_eq_mod, Nat.shiftLeft_eq,
      FloatFormat.explicitMantissaWidth, Nat.reduceSub]
  | u32 =>
    simp only [Nat.one_shiftLeft 22, Nat.and_two_pow_sub_one_eq_mod, Nat.shiftLeft_eq,
      FloatFormat.explicitMantissaWidth, Nat.reduceSub]
  | u64 =>
    simp only [Nat.one_shiftLeft 51, Nat.and_two_pow_sub_one_eq_mod,
      FloatFormat.explicitMantissaWidth, Nat.reduceSub, pow_zero, Nat.mul_one]

theorem fpConvertNan_eq (dst src : FloatFormat) (op : ℕ) : fpConvertNan dst src op =
    dst.quietNan (src.signOf op) (op % 2 ^ (src.explicitMantissaWidth - 1) *
      2 ^ (52 - src.explicitMantissaWidth) / 2 ^ (52 - dst.explicitMantissaWidth) %
        2 ^ (dst.explicitMantissaWidth - 1)) := by
  have hlow := Nat.mod_lt (op % 2 ^ (src.explicitMantissaWidth - 1) *
    2 ^ (52 - src.explicitMantissaWidth) / 2 ^ (52 - dst.explicitMantissaWidth))
    (Nat.two_pow_pos (dst.explicitMantissaWidth - 1))
  rw [← nanBits dst (src.signOf op) hlow]
  have hsmall : op % 2 ^ (src.explicitMantissaWidth - 1) *
      2 ^ (52 - src.explicitMantissaWidth) < 2 ^ 51 := by
    have hwidth := src.width_bounds
    calc _ < 2 ^ (src.explicitMantissaWidth - 1) * 2 ^ (52 - src.explicitMantissaWidth) :=
          Nat.mul_lt_mul_of_pos_right (Nat.mod_lt _ (Nat.two_pow_pos _)) (Nat.two_pow_pos _)
      _ = 2 ^ 51 := by
          rw [← pow_add]
          congr 1
          omega
  unfold fpConvertNan
  dsimp only
  rw [nanFraction_eq, FloatFormat.sign_raw]
  generalize op % 2 ^ (src.explicitMantissaWidth - 1) *
    2 ^ (52 - src.explicitMantissaWidth) = fraction at hsmall
  cases dst with
  | u64 =>
    have hsame : fraction / 2 ^ (52 - (FloatFormat.u64).explicitMantissaWidth) %
        2 ^ ((FloatFormat.u64).explicitMantissaWidth - 1) = fraction := by
      rw [show fraction / 2 ^ (52 - (FloatFormat.u64).explicitMantissaWidth) = fraction from
        Nat.div_one _]
      exact Nat.mod_eq_of_lt hsmall
    rw [hsame]
    rfl
  | u32 =>
    dsimp only
    rw [Nat.one_shiftLeft 22, Nat.and_two_pow_sub_one_eq_mod, Nat.shiftRight_eq_div_pow]
    rfl
  | u16 =>
    dsimp only
    rw [Nat.one_shiftLeft 9, Nat.and_two_pow_sub_one_eq_mod, Nat.shiftRight_eq_div_pow]
    rfl

/-! ### Exact results -/

namespace FpUnpacked

variable {F : FloatFormat} {v v' : FpUnpacked} {n : ℕ}

theorem Normal.le_of_value_eq (h : v.Normal) (h' : v'.Normal) (heq : v.value = v'.value) :
    v'.exponent ≤ v.exponent := by
  by_contra hlt
  obtain ⟨k, hk⟩ := Int.le.dest (show v.exponent + 1 ≤ v'.exponent by omega)
  have hunit : (0 : ℚ) < 2 ^ (v.exponent - normalizedPointPosition) := zpow_pos (by decide) _
  have hmantissa : (v.mantissa : ℚ) = (v'.mantissa * 2 ^ (k + 1) : ℕ) := by
    refine mul_right_cancel₀ hunit.ne' (heq.trans ?_)
    rw [value, ← hk, Nat.cast_mul, Nat.cast_pow, Nat.cast_ofNat, mul_assoc, ← zpow_natCast,
      ← zpow_add₀ (by decide)]
    congr 2
    push_cast
    ring
  have hnat : v.mantissa = v'.mantissa * 2 ^ (k + 1) := by exact_mod_cast hmantissa
  have hlow := h'.1
  have hhigh := h.2
  rw [pow_succ, ← Nat.mul_assoc] at hnat
  have hgrow : v'.mantissa ≤ v'.mantissa * 2 ^ k := Nat.le_mul_of_pos_right _ (Nat.two_pow_pos k)
  omega

/-- A magnitude has one normal form. -/
theorem Normal.unique (h : v.Normal) (h' : v'.Normal) (heq : v.value = v'.value)
    (hsign : v.sign = v'.sign) : v = v' := by
  have hexp := le_antisymm (h'.le_of_value_eq h heq.symm) (h.le_of_value_eq h' heq)
  have hmantissa : (v.mantissa : ℚ) = v'.mantissa := by
    rw [value, value, hexp] at heq
    exact mul_right_cancel₀ (zpow_pos (by decide) _).ne' heq
  cases v
  cases v'
  simp only [mk.injEq]
  exact ⟨hsign, hexp, by exact_mod_cast hmantissa⟩

/-- A magnitude of the format is its own number. -/
theorem Normal.exact (h : v.Normal) (heq : v.value = F.value n) :
    v.lowNumber F = n ∧ v.residualError F = .zero := by
  have hbetween := h.between (F := F)
  have hbelow := hbetween.below F.value_strictMono
  have hle := hbelow.2 n heq.ge
  have hge := F.value_strictMono.le_iff_le.mp (hbelow.1.trans heq.le)
  have hsame := le_antisymm hge hle
  refine ⟨hsame, residualError_holds.zero_iff.mpr ?_⟩
  exact (hbetween.eq_iff F.value_strictMono).mp (by rw [hsame, heq])

theorem number_of_exact (rounding : RoundingMode) (h : v.residualError F = .zero) :
    v.number F rounding = v.lowNumber F := by
  rw [number, roundNumber, h, if_neg (by cases rounding <;> simp [roundDirection]),
    if_neg (by simp)]

end FpUnpacked

/-- A magnitude of the format is rounded to itself, and no flag is raised. -/
theorem fpRoundBase_exact {F : FloatFormat} {v : FpUnpacked} {n : ℕ} (fpcr : Fpcr) (fpsr : Fpsr)
    {rounding : RoundingMode} (h : v.Normal) (hmode : rounding ≠ .toNearestTieAwayFromZero)
    (heq : v.value = F.value n) (hlimit : n < F.limit fpcr) (hflush : ¬v.Flushed F fpcr)
    (htrap : v.Tiny F → fpcr.ufe = false) :
    fpRoundBase F v fpcr rounding fpsr = some (F.encode v.sign n, fpsr) := by
  obtain ⟨hnumber, hexact⟩ := h.exact heq
  have hraise : ¬(v.Tiny F ∧ (v.residualError F ≠ .zero ∨ fpcr.ufe = true)) := by
    rintro ⟨htiny, herror | hufe⟩
    · exact herror hexact
    · exact absurd (hufe.symm.trans (htrap htiny)) (by decide)
  rw [fpRoundBase_eq h hmode, if_neg hflush, if_neg hraise, Option.bind_some, finishNumber,
    FpUnpacked.number_of_exact rounding hexact, hnumber, if_pos hlimit, if_neg (not_not.mpr hexact)]

/-! ### There and back -/

section RoundTrip

variable {narrow wide : FloatFormat} {fpcr : Fpcr}

theorem exponents_nested (h : narrow.totalWidth < wide.totalWidth) :
    wide.exponentMin ≤ narrow.exponentMin - narrow.explicitMantissaWidth ∧
      narrow.explicitMantissaWidth ≤ wide.explicitMantissaWidth ∧
      2 ^ narrow.exponentWidth - 1 - narrow.exponentBias - wide.exponentMin + 2 ≤
        2 ^ wide.exponentWidth - 1 ∧ narrow.exponentMin ≤ 2 ^ narrow.exponentWidth - 1 -
          narrow.exponentBias ∧ wide ≠ .u16 := by
  cases narrow <;> cases wide <;> revert h <;> decide

/-- A magnitude of the narrow format is a normal one of the wide format. -/
theorem Unpacks.widen (fpcr : Fpcr) (h : narrow.totalWidth < wide.totalWidth) {sign : Bool} {n : ℕ}
    {v : FpUnpacked} (hv : Unpacks narrow sign n v)
    (hn : n < 2 ^ (narrow.exponentWidth + narrow.explicitMantissaWidth)) :
    ¬v.Tiny wide ∧ v.value = wide.value (v.lowNumber wide) ∧
      v.lowNumber wide < wide.limit fpcr ∧
      2 ^ wide.explicitMantissaWidth ≤ v.lowNumber wide := by
  obtain ⟨hmin, hwidth, hmax, hbias, hwide⟩ := exponents_nested h
  have hbounds := narrow.width_bounds
  have hbounds' := wide.width_bounds
  have hquot : n / 2 ^ narrow.explicitMantissaWidth < 2 ^ narrow.exponentWidth := by
    refine Nat.div_lt_of_lt_mul ?_
    rwa [← pow_add, Nat.add_comm]
  have hquot' : ((n / 2 ^ narrow.explicitMantissaWidth : ℕ) : ℤ) < 2 ^ narrow.exponentWidth := by
    exact_mod_cast hquot
  have hlow := hv.exponent_ge
  have hhigh := hv.exponent_le
  have hdropped := v.droppedBits_cast (F := wide)
  have hzero : v.residualError wide = .zero := by
    have hdvd : 2 ^ v.droppedBits wide ∣ v.mantissa :=
      (pow_dvd_pow 2 (by omega)).trans hv.dvd
    rw [FpUnpacked.residualError, Nat.mod_eq_zero_of_dvd hdvd]
    rfl
  have hvalue : v.value = wide.value (v.lowNumber wide) :=
    (((hv.normal.between (F := wide)).eq_iff wide.value_strictMono).mpr
      (FpUnpacked.residualError_holds.zero_iff.mp hzero)).symm
  refine ⟨fun htiny => ?_, hvalue, ?_, ?_⟩
  · rw [FpUnpacked.Tiny] at htiny
    omega
  · have hq := hv.normal.quotient_lt (F := wide)
    rw [pow_succ] at hq
    have hcount : (max (v.exponent - wide.exponentMin) 0).toNat + 2 ≤
        2 ^ wide.exponentWidth - 1 := by
      have hone : 1 ≤ 2 ^ wide.exponentWidth := Nat.one_le_two_pow
      have hcast : ((2 ^ wide.exponentWidth : ℕ) : ℤ) = 2 ^ wide.exponentWidth := by push_cast; rfl
      omega
    have hmul := Nat.mul_le_mul_right (2 ^ wide.explicitMantissaWidth) hcount
    rw [Nat.add_mul] at hmul
    rw [FpUnpacked.lowNumber, FloatFormat.limit, if_neg fun hahp => hwide hahp.1]
    omega
  · have hq := hv.normal.quotient_normal (F := wide) (by omega)
    rw [FpUnpacked.lowNumber]
    omega

variable {fpsr : Fpsr} {x : ℕ} {mode mode' : RoundingMode}

/-- What the conversion of a finite word that is not zero goes through. -/
theorem fpConvert_finite {src : FloatFormat} (dst : FloatFormat) (mode : RoundingMode)
    (fpsr : Fpsr) (hpos : 0 < src.numberOf x)
    (hlimit : src.numberOf x < src.limit fpcr) (hfz : fpcr.fz = false) :
    ∃ v, Unpacks src (src.signOf x) (src.numberOf x) v ∧
      fpConvert dst src x fpcr mode fpsr =
        fpRoundBase dst v { fpcr with fz16 := false } mode fpsr := by
  have hflush : ¬FlushesInput src { fpcr with fz16 := false } := by
    rintro (⟨-, hfz16⟩ | ⟨-, hfz'⟩)
    · cases hfz16
    · exact absurd (hfz.symm.trans hfz') (by decide)
  obtain ⟨v, hrun, hv⟩ := fpUnpackBase_finite { fpcr with fz16 := false } fpsr hpos hlimit (fun _ => hflush)
  exact ⟨v, hv, by rw [fpConvert, fpUnpackCv, hrun]; rfl⟩

theorem not_flushed {F : FloatFormat} {v : FpUnpacked} (hfz : fpcr.fz = false) :
    ¬v.Flushed F { fpcr with fz16 := false } := by
  rintro ⟨⟨-, hfz'⟩ | ⟨-, hfz16⟩, -⟩
  · exact absurd (hfz.symm.trans hfz') (by decide)
  · cases hfz16

theorem roundTrip_finite (h : narrow.totalWidth < wide.totalWidth)
    (hx : x < 2 ^ narrow.totalWidth) (hpos : 0 < narrow.numberOf x)
    (hlimit : narrow.numberOf x < narrow.limit fpcr) (hfz : fpcr.fz = false)
    (hmode : mode ≠ .toNearestTieAwayFromZero) (hmode' : mode' ≠ .toNearestTieAwayFromZero)
    (htrap : narrow.numberOf x < 2 ^ narrow.explicitMantissaWidth → fpcr.ufe = false) :
    ∃ w, fpConvert wide narrow x fpcr mode fpsr = some (w, fpsr) ∧
      fpConvert narrow wide w fpcr mode' fpsr = some (x, fpsr) := by
  obtain ⟨v, hv, hrun⟩ := fpConvert_finite wide mode fpsr hpos hlimit hfz
  obtain ⟨htiny, hvalue, hin, hnormal⟩ := hv.widen fpcr h (narrow.numberOf_lt x)
  have hround := fpRoundBase_exact { fpcr with fz16 := false } fpsr hv.normal hmode
    hvalue hin (not_flushed hfz) (fun ht => absurd ht htiny)
  have hwide := hin.trans_le (wide.limit_le fpcr)
  have hnumber : wide.numberOf (wide.encode v.sign (v.lowNumber wide)) = v.lowNumber wide :=
    FloatFormat.numberOf_encode hwide
  have hsign : wide.signOf (wide.encode v.sign (v.lowNumber wide)) = v.sign :=
    FloatFormat.signOf_encode hwide
  refine ⟨wide.encode v.sign (v.lowNumber wide), hrun.trans hround, ?_⟩
  obtain ⟨v', hv', hrun'⟩ := fpConvert_finite narrow mode' fpsr
    (hnumber.symm ▸ (Nat.two_pow_pos _).trans_le hnormal) (hnumber.symm ▸ hin) hfz
  rw [hnumber, hsign] at hv'
  obtain rfl : v' = v := hv'.normal.unique hv.normal (hv'.value_eq.trans hvalue.symm) hv'.sign_eq
  have hback := fpRoundBase_exact { fpcr with fz16 := false } fpsr hv.normal hmode'
    hv.value_eq hlimit (not_flushed hfz) fun ht => ?_
  · rw [hrun', hback, hv.sign_eq, FloatFormat.encode_signOf hx]
  · refine htrap ?_
    have hlow := hv.normal.lowNumber_tiny ht
    rwa [(hv.normal.exact hv.value_eq).1] at hlow

/-- The word is a NaN. -/
def IsNan (F : FloatFormat) (fpcr : Fpcr) (op : ℕ) : Prop := F.limit fpcr < F.numberOf op

def IsSignaling (F : FloatFormat) (fpcr : Fpcr) (op : ℕ) : Prop :=
  IsNan F fpcr op ∧ op.testBit (F.explicitMantissaWidth - 1) = false

instance (F : FloatFormat) (fpcr : Fpcr) (op : ℕ) : Decidable (IsSignaling F fpcr op) :=
  inferInstanceAs (Decidable (_ < _ ∧ _))

theorem IsNan.ieee {F : FloatFormat} (h : IsNan F fpcr x) : ¬(F = .u16 ∧ fpcr.ahp = true) := by
  intro hahp
  rw [IsNan, FloatFormat.limit, if_pos hahp] at h
  exact absurd (F.numberOf_lt x) (not_lt.mpr h.le)

/-- What the conversion of a NaN delivers. -/
theorem fpConvert_nan {src : FloatFormat} (dst : FloatFormat) (mode : RoundingMode) (fpsr : Fpsr)
    (hnan : IsNan src fpcr x) (hdst : ¬(dst = .u16 ∧ fpcr.ahp = true)) (hdn : fpcr.dn = false)
    (htrap : IsSignaling src fpcr x → fpcr.ioe = false) :
    fpConvert dst src x fpcr mode fpsr = some (fpConvertNan dst src x,
      if IsSignaling src fpcr x then { fpsr with ioc := true } else fpsr) := by
  have hspecial := fpUnpackBase_special { fpcr with fz16 := false } fpsr (le_of_lt hnan)
  have hne : ¬src.numberOf x = src.limit { fpcr with fz16 := false } := ne_of_gt hnan
  rw [if_neg hne] at hspecial
  rw [fpConvert, fpUnpackCv, hspecial, Option.bind_some]
  by_cases hquiet : x.testBit (src.explicitMantissaWidth - 1) = true
  · have hnot : ¬IsSignaling src fpcr x := fun hsnan =>
      absurd (hquiet.symm.trans hsnan.2) (by decide)
    rw [if_pos hquiet, if_neg hnot]
    dsimp only
    rw [convertNan, if_neg (by rintro (hsnan | hahp); exacts [absurd hsnan (by decide), hdst hahp]),
      if_neg hdst, hdn]
    rfl
  · have hsnan : IsSignaling src fpcr x := ⟨hnan, Bool.not_eq_true _ ▸ hquiet⟩
    rw [if_neg hquiet, if_pos hsnan]
    dsimp only
    rw [convertNan, if_pos (Or.inl rfl), if_neg hdst, hdn, processException, htrap hsnan]
    rfl

theorem or_two_pow (n k : ℕ) : n ||| 2 ^ k = (2 * (n / 2 ^ (k + 1)) + 1) * 2 ^ k + n % 2 ^ k := by
  have hlow : (n ||| 2 ^ k) % 2 ^ k = n % 2 ^ k := by
    rw [Nat.or_mod_two_pow, Nat.mod_self, Nat.or_zero]
  have hhigh : (n ||| 2 ^ k) / 2 ^ k = 2 * (n / 2 ^ (k + 1)) + 1 := by
    rw [← Nat.shiftRight_eq_div_pow, Nat.shiftRight_or_distrib, Nat.shiftRight_eq_div_pow,
      Nat.shiftRight_eq_div_pow, Nat.div_self (Nat.two_pow_pos k), or_one, pow_succ,
      ← Nat.div_div_eq_div_mul]
    split <;> omega
  rw [← hlow, ← hhigh, Nat.div_add_mod']

theorem quietNan_eq (F : FloatFormat) (sign : Bool) (payload : ℕ) : F.quietNan sign payload =
    (2 * (sign.toNat * 2 ^ F.exponentWidth + (2 ^ F.exponentWidth - 1)) + 1) *
      2 ^ (F.explicitMantissaWidth - 1) + payload := by
  have hwidth := F.width_bounds
  have hhalf : 2 ^ F.explicitMantissaWidth = 2 * 2 ^ (F.explicitMantissaWidth - 1) := by
    rw [← pow_succ', Nat.sub_add_cancel (by omega)]
  rw [FloatFormat.quietNan, FloatFormat.encode, pow_add, hhalf]
  ring

theorem quietNan_fields {F : FloatFormat} (hieee : ¬(F = .u16 ∧ fpcr.ahp = true)) (sign : Bool)
    {payload : ℕ} (h : payload < 2 ^ (F.explicitMantissaWidth - 1)) :
    IsNan F fpcr (F.quietNan sign payload) ∧ F.signOf (F.quietNan sign payload) = sign ∧
      F.quietNan sign payload % 2 ^ (F.explicitMantissaWidth - 1) = payload ∧
      (F.quietNan sign payload).testBit (F.explicitMantissaWidth - 1) = true := by
  have hpos := Nat.two_pow_pos (F.explicitMantissaWidth - 1)
  have hlt := quietNan_lt F h
  refine ⟨?_, FloatFormat.signOf_encode hlt, ?_, ?_⟩
  · rw [IsNan, FloatFormat.quietNan, FloatFormat.numberOf_encode hlt, FloatFormat.limit,
      if_neg hieee]
    omega
  · rw [quietNan_eq, Nat.mul_comm, Nat.mul_add_mod, Nat.mod_eq_of_lt h]
  · rw [quietNan_eq, Nat.testBit_eq_decide_div_mod_eq, Nat.mul_comm _ (2 ^ _),
      Nat.mul_add_div hpos, Nat.div_eq_of_lt h, Nat.add_zero, Nat.mul_add_mod]
    rfl

theorem quieted_eq {F : FloatFormat} (hx : x < 2 ^ F.totalWidth) (hnan : IsNan F fpcr x) :
    F.quietNan (F.signOf x) (x % 2 ^ (F.explicitMantissaWidth - 1)) = x ||| F.mantissaMsb := by
  have hwidth := F.width_bounds
  have hpos := Nat.two_pow_pos F.explicitMantissaWidth
  have hlt := F.numberOf_lt x
  have hexp : F.numberOf x / 2 ^ F.explicitMantissaWidth = 2 ^ F.exponentWidth - 1 := by
    have hlimit := (FloatFormat.limit_le_iff hlt).mpr (le_of_lt hnan)
    rw [hlimit.1, Nat.one_shiftLeft]
  have hhigh : x / 2 ^ F.explicitMantissaWidth =
      (F.signOf x).toNat * 2 ^ F.exponentWidth + (2 ^ F.exponentWidth - 1) := by
    conv_lhs => rw [← FloatFormat.encode_signOf hx]
    rw [FloatFormat.encode, pow_add, ← Nat.mul_assoc, Nat.mul_comm _ (2 ^ F.explicitMantissaWidth),
      Nat.mul_add_div hpos, hexp]
  rw [quietNan_eq, F.mantissaMsb_eq, or_two_pow, Nat.sub_add_cancel (by omega), hhigh]

/-- The payload in the wide format has zeros below it. -/
theorem payload_widen (h : narrow.totalWidth < wide.totalWidth) {payload : ℕ}
    (hp : payload < 2 ^ (narrow.explicitMantissaWidth - 1)) :
    payload * 2 ^ (52 - narrow.explicitMantissaWidth) / 2 ^ (52 - wide.explicitMantissaWidth) %
        2 ^ (wide.explicitMantissaWidth - 1) =
      payload * 2 ^ (wide.explicitMantissaWidth - narrow.explicitMantissaWidth) := by
  obtain ⟨-, hwidth, -⟩ := exponents_nested h
  have hnarrow := narrow.width_bounds
  have hwide := wide.width_bounds
  have hsplit : 2 ^ (52 - narrow.explicitMantissaWidth) =
      2 ^ (wide.explicitMantissaWidth - narrow.explicitMantissaWidth) *
        2 ^ (52 - wide.explicitMantissaWidth) := by
    rw [← pow_add]
    congr 1
    omega
  have hlt : payload * 2 ^ (wide.explicitMantissaWidth - narrow.explicitMantissaWidth) <
      2 ^ (wide.explicitMantissaWidth - 1) := by
    calc _ < 2 ^ (narrow.explicitMantissaWidth - 1) *
          2 ^ (wide.explicitMantissaWidth - narrow.explicitMantissaWidth) :=
          Nat.mul_lt_mul_of_pos_right hp (Nat.two_pow_pos _)
      _ = 2 ^ (wide.explicitMantissaWidth - 1) := by
          rw [← pow_add]
          congr 1
          omega
  rw [hsplit, ← Nat.mul_assoc, Nat.mul_div_cancel _ (Nat.two_pow_pos _), Nat.mod_eq_of_lt hlt]

theorem payload_narrow (h : narrow.totalWidth < wide.totalWidth) {payload : ℕ}
    (hp : payload < 2 ^ (narrow.explicitMantissaWidth - 1)) :
    payload * 2 ^ (wide.explicitMantissaWidth - narrow.explicitMantissaWidth) *
        2 ^ (52 - wide.explicitMantissaWidth) / 2 ^ (52 - narrow.explicitMantissaWidth) %
          2 ^ (narrow.explicitMantissaWidth - 1) = payload := by
  obtain ⟨-, hwidth, -⟩ := exponents_nested h
  have hwide := wide.width_bounds
  have hsplit : 2 ^ (52 - narrow.explicitMantissaWidth) =
      2 ^ (wide.explicitMantissaWidth - narrow.explicitMantissaWidth) *
        2 ^ (52 - wide.explicitMantissaWidth) := by
    rw [← pow_add]
    congr 1
    omega
  rw [Nat.mul_assoc, ← hsplit, Nat.mul_div_cancel _ (Nat.two_pow_pos _), Nat.mod_eq_of_lt hp]

theorem roundTrip_nan (h : narrow.totalWidth < wide.totalWidth) (hx : x < 2 ^ narrow.totalWidth)
    (hnan : IsNan narrow fpcr x) (hdn : fpcr.dn = false)
    (htrap : IsSignaling narrow fpcr x → fpcr.ioe = false) :
    ∃ w fpsr', fpConvert wide narrow x fpcr mode fpsr = some (w, fpsr') ∧
      fpConvert narrow wide w fpcr mode' fpsr' = some (x ||| narrow.mantissaMsb, fpsr') ∧
      fpsr' = if IsSignaling narrow fpcr x then { fpsr with ioc := true } else fpsr := by
  obtain ⟨-, hwidth, -, -, hwide⟩ := exponents_nested h
  have hp : x % 2 ^ (narrow.explicitMantissaWidth - 1) <
      2 ^ (narrow.explicitMantissaWidth - 1) := Nat.mod_lt _ (Nat.two_pow_pos _)
  have hpw : x % 2 ^ (narrow.explicitMantissaWidth - 1) *
      2 ^ (wide.explicitMantissaWidth - narrow.explicitMantissaWidth) <
        2 ^ (wide.explicitMantissaWidth - 1) := by
    rw [← payload_widen h hp]
    exact Nat.mod_lt _ (Nat.two_pow_pos _)
  have hthere := fpConvert_nan wide mode fpsr hnan (fun hahp => hwide hahp.1) hdn htrap
  rw [fpConvertNan_eq, payload_widen h hp] at hthere
  obtain ⟨hnan', hsign, hpayload, hquiet⟩ := quietNan_fields
    (fun hahp : wide = .u16 ∧ fpcr.ahp = true => hwide hahp.1) (narrow.signOf x) hpw
  have hback := fpConvert_nan narrow mode'
    (if IsSignaling narrow fpcr x then { fpsr with ioc := true } else fpsr) hnan' hnan.ieee hdn
    (fun hsnan => absurd (hquiet.symm.trans hsnan.2) (by decide))
  rw [fpConvertNan_eq, hsign, hpayload, payload_narrow h hp, quieted_eq hx hnan,
    if_neg (show ¬IsSignaling wide fpcr _ from fun hsnan =>
      absurd (hquiet.symm.trans hsnan.2) (by decide))] at hback
  exact ⟨_, _, hthere, hback, rfl⟩

/-- The conversion of a zero. -/
theorem fpConvert_zero {src : FloatFormat} (dst : FloatFormat) (hzero : src.numberOf x = 0) :
    fpConvert dst src x fpcr mode fpsr = some (dst.encode (src.signOf x) 0, fpsr) := by
  rw [fpConvert, fpUnpackCv, fpUnpackBase_zero hzero, ← FloatFormat.zero_eq]
  rfl

theorem roundTrip_zero (hx : x < 2 ^ narrow.totalWidth) (hzero : narrow.numberOf x = 0) :
    ∃ w, fpConvert wide narrow x fpcr mode fpsr = some (w, fpsr) ∧
      fpConvert narrow wide w fpcr mode' fpsr = some (x, fpsr) := by
  refine ⟨_, fpConvert_zero wide hzero, ?_⟩
  rw [fpConvert_zero narrow (FloatFormat.numberOf_encode (Nat.two_pow_pos _)),
    FloatFormat.signOf_encode (Nat.two_pow_pos _), ← hzero, FloatFormat.encode_signOf hx]

/-- The conversion of an infinity. -/
theorem fpConvert_infinity {src dst : FloatFormat} (hinf : src.numberOf x = src.limit fpcr)
    (hdst : ¬(dst = .u16 ∧ fpcr.ahp = true)) :
    fpConvert dst src x fpcr mode fpsr =
      some (dst.encode (src.signOf x) (dst.limit fpcr), fpsr) := by
  have hspecial := fpUnpackBase_special { fpcr with fz16 := false } fpsr hinf.ge
  have heq : src.numberOf x = src.limit { fpcr with fz16 := false } := hinf
  rw [if_pos heq] at hspecial
  rw [fpConvert, fpUnpackCv, hspecial, Option.bind_some]
  dsimp only
  rw [if_neg hdst, FloatFormat.infinity_eq hdst]

theorem roundTrip_infinity (h : narrow.totalWidth < wide.totalWidth)
    (hx : x < 2 ^ narrow.totalWidth) (hinf : narrow.numberOf x = narrow.limit fpcr) :
    ∃ w, fpConvert wide narrow x fpcr mode fpsr = some (w, fpsr) ∧
      fpConvert narrow wide w fpcr mode' fpsr = some (x, fpsr) := by
  obtain ⟨-, -, -, -, hwide⟩ := exponents_nested h
  have hieee : ¬(narrow = .u16 ∧ fpcr.ahp = true) := by
    intro hahp
    rw [FloatFormat.limit, if_pos hahp] at hinf
    exact absurd (narrow.numberOf_lt x) (hinf ▸ lt_irrefl _)
  have hwideieee : ¬(wide = .u16 ∧ fpcr.ahp = true) := fun hahp => hwide hahp.1
  have hlt : wide.limit fpcr < 2 ^ (wide.exponentWidth + wide.explicitMantissaWidth) := by
    rw [FloatFormat.limit, if_neg hwideieee, pow_add]
    exact Nat.mul_lt_mul_of_pos_right (Nat.sub_lt (Nat.two_pow_pos _) Nat.one_pos)
      (Nat.two_pow_pos _)
  refine ⟨_, fpConvert_infinity hinf hwideieee, ?_⟩
  rw [fpConvert_infinity (FloatFormat.numberOf_encode hlt) hieee,
    FloatFormat.signOf_encode hlt, ← hinf, FloatFormat.encode_signOf hx]

/-- A word of a narrow format comes back from a wide one: the same word and no flag when it is not
a NaN, the quieted word when it is. -/
theorem fpConvert_roundTrip (narrow wide : FloatFormat)
    (h : narrow.totalWidth < wide.totalWidth) (x : ℕ) (hx : x < 2 ^ narrow.totalWidth)
    (fpcr : Fpcr) (fpsr : Fpsr) (mode mode' : RoundingMode) (hfz : fpcr.fz = false) :
    (¬IsNan narrow fpcr x →
      (0 < narrow.numberOf x → narrow.numberOf x < narrow.limit fpcr →
        mode ≠ .toNearestTieAwayFromZero ∧ mode' ≠ .toNearestTieAwayFromZero) →
      (0 < narrow.numberOf x → narrow.numberOf x < 2 ^ narrow.explicitMantissaWidth →
        fpcr.ufe = false) →
      ∃ w, fpConvert wide narrow x fpcr mode fpsr = some (w, fpsr) ∧
        fpConvert narrow wide w fpcr mode' fpsr = some (x, fpsr)) ∧
    (IsNan narrow fpcr x → fpcr.dn = false → (IsSignaling narrow fpcr x → fpcr.ioe = false) →
      ∃ w fpsr', fpConvert wide narrow x fpcr mode fpsr = some (w, fpsr') ∧
        fpConvert narrow wide w fpcr mode' fpsr' = some (x ||| narrow.mantissaMsb, fpsr') ∧
        fpsr' = if IsSignaling narrow fpcr x then { fpsr with ioc := true } else fpsr) := by
  refine ⟨fun hnan hmodes htrap => ?_, fun hnan hdn htrap => roundTrip_nan h hx hnan hdn htrap⟩
  rcases Nat.eq_zero_or_pos (narrow.numberOf x) with hzero | hpos
  · exact roundTrip_zero hx hzero
  rcases Nat.lt_or_ge (narrow.numberOf x) (narrow.limit fpcr) with hlt | hge
  · obtain ⟨hmode, hmode'⟩ := hmodes hpos hlt
    exact roundTrip_finite h hx hpos hlt hfz hmode hmode' (htrap hpos)
  · exact roundTrip_infinity h hx (le_antisymm (not_lt.mp hnan) hge)

end RoundTrip

/-- The smallest denormal of half precision through double precision. -/
theorem fpConvert_roundTrip_denormal :
    ∃ w, fpConvert .u64 .u16 1 {} .towardsZero {} = some (w, {}) ∧
      fpConvert .u16 .u64 w {} .toOdd {} = some (1, {}) :=
  (fpConvert_roundTrip .u16 .u64 (by decide) 1 (by decide) {} {} .towardsZero .toOdd rfl).1
    (by unfold IsNan; decide) (fun _ _ => ⟨by decide, by decide⟩) (fun _ _ => rfl)

/-- Rounding to nearest with ties away from zero is refused, also where nothing is rounded. -/
theorem fpConvert_roundTrip_away :
    fpConvert .u64 .u16 0x3c00 {} .toNearestTieAwayFromZero {} = none := by
  decide

end Ruzu.Fp
