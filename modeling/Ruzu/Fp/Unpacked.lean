import Ruzu.Fp.Mantissa

/-!
# Unpacked values

`unpacked.rs`. A value is a sign, a mantissa whose highest bit is bit 62, and
the exponent of that bit.
-/

set_option autoImplicit false

namespace Ruzu.Fp

def normalizedPointPosition : ℕ := 62

inductive FpType
  | nonzero
  | zero
  | infinity
  | qnan
  | snan
  deriving DecidableEq

structure FpUnpacked where
  sign : Bool
  exponent : ℤ
  mantissa : ℕ
  deriving DecidableEq

def toNormalized (sign : Bool) (exponent : ℤ) (value : ℕ) : FpUnpacked :=
  if value = 0 then ⟨sign, 0, 0⟩
  else
    let highestBit : ℤ := value.log2
    let offset := normalizedPointPosition - highestBit
    ⟨sign, exponent - (offset - normalizedPointPosition), value <<< offset.toNat % 2 ^ 64⟩

variable (F : FloatFormat)

/-- The type, the sign and the value. -/
def fpUnpackBase (op : ℕ) (fpcr : Fpcr) (fpsr : Fpsr) :
    Option ((FpType × Bool × FpUnpacked) × Fpsr) :=
  let sign := decide (op &&& F.signMask ≠ 0)
  let expRaw := (op &&& F.exponentMask) >>> F.explicitMantissaWidth
  let fracRaw := op &&& F.mantissaMask
  let denormalExponent := F.exponentMin - F.explicitMantissaWidth
  let isHalf := F.totalWidth = 16
  if expRaw = 0 then
    if isHalf then
      if fracRaw = 0 ∨ fpcr.fz16 then some ((.zero, sign, ⟨sign, 0, 0⟩), fpsr)
      else some ((.nonzero, sign, toNormalized sign denormalExponent fracRaw), fpsr)
    else if fracRaw = 0 ∨ fpcr.fz then
      if fracRaw ≠ 0 then
        (processException .inputDenorm fpcr fpsr).map fun fpsr =>
          ((.zero, sign, ⟨sign, 0, 0⟩), fpsr)
      else some ((.zero, sign, ⟨sign, 0, 0⟩), fpsr)
    else some ((.nonzero, sign, toNormalized sign denormalExponent fracRaw), fpsr)
  else if expRaw = 1 <<< F.exponentWidth - 1 ∧ (¬isHalf ∨ ¬fpcr.ahp) then
    if fracRaw = 0 then some ((.infinity, sign, toNormalized sign 1000000 1), fpsr)
    else
      let fpType := if fracRaw &&& F.mantissaMsb ≠ 0 then FpType.qnan else FpType.snan
      some ((fpType, sign, ⟨sign, 0, 0⟩), fpsr)
  else
    let exponent := expRaw - F.exponentBias
    let mantissa := (fracRaw ||| F.implicitLeadingBit) <<<
      (normalizedPointPosition - F.explicitMantissaWidth) % 2 ^ 64
    some ((.nonzero, sign, ⟨sign, exponent, mantissa⟩), fpsr)

def fpUnpack (op : ℕ) (fpcr : Fpcr) (fpsr : Fpsr) :
    Option ((FpType × Bool × FpUnpacked) × Fpsr) :=
  fpUnpackBase F op { fpcr with ahp := false } fpsr

def fpUnpackCv (op : ℕ) (fpcr : Fpcr) (fpsr : Fpsr) :
    Option ((FpType × Bool × FpUnpacked) × Fpsr) :=
  fpUnpackBase F op { fpcr with fz16 := false } fpsr

/-! ### Rounding -/

/-- The exponent, the mantissa and the residual error. -/
def normalize (width : ℕ) (op : FpUnpacked) (extraRightShift : ℤ) : ℤ × ℕ × ResidualError :=
  let highestSetBit : ℤ := op.mantissa.log2
  let shiftAmount := highestSetBit - width + extraRightShift
  (op.exponent + highestSetBit - normalizedPointPosition,
    logicalShiftRightU64 op.mantissa shiftAmount,
    residualErrorOnRightShift op.mantissa shiftAmount)

/-- Whether the mantissa is rounded up, and whether an overflow goes to infinity. -/
def roundDirection (rounding : RoundingMode) (error : ResidualError) (mantissa : ℕ) (sign : Bool) :
    Bool × Bool :=
  match rounding with
  | .toNearestTieEven =>
    (error = .greaterThanHalf ∨ error = .half ∧ mantissa &&& 1 ≠ 0, true)
  | .towardsPlusInfinity => (error ≠ .zero ∧ ¬sign, !sign)
  | .towardsMinusInfinity => (error ≠ .zero ∧ sign, sign)
  | _ => (false, false)

/-- A carry out of the mantissa goes to the exponent. -/
def incrementMantissa (mantissa : ℕ) (biasedExp : ℤ) : ℕ × ℤ :=
  if mantissa &&& F.mantissaMask = F.mantissaMask then
    if mantissa = F.mantissaMask then (mantissa + 1, biasedExp + 1)
    else ((mantissa + 1) / 2, biasedExp + 1)
  else (mantissa + 1, biasedExp)

/-- The mantissa and the exponent after the rounding, and whether an overflow goes to infinity. -/
def roundMantissa (rounding : RoundingMode) (error : ResidualError) (sign : Bool) (mantissa : ℕ)
    (biasedExp : ℤ) : ℕ × ℤ × Bool :=
  let (roundUp, overflowToInf) := roundDirection rounding error mantissa sign
  let (mantissa, biasedExp) :=
    if roundUp then incrementMantissa F mantissa biasedExp else (mantissa, biasedExp)
  let mantissa := if error ≠ .zero ∧ rounding = .toOdd then mantissa ||| 1 else mantissa
  (mantissa, biasedExp, overflowToInf)

def packBits (sign : Bool) (biasedExp : ℤ) (mantissa : ℕ) : ℕ :=
  F.fromBits (((sign.toNat <<< F.exponentWidth) ||| biasedExp.toNat) <<<
    F.explicitMantissaWidth % 2 ^ 64 ||| mantissa &&& F.mantissaMask)

/-- The end of `fp_round_base`, from the test for overflow on. -/
def finishRound (sign : Bool) (biasedExp : ℤ) (mantissa : ℕ) (error : ResidualError)
    (overflowToInf : Bool) (fpcr : Fpcr) (fpsr : Fpsr) : Option (ℕ × Fpsr) :=
  let isFp16 := F.totalWidth = 16
  if ¬isFp16 ∨ ¬fpcr.ahp then
    if biasedExp ≥ 2 ^ F.exponentWidth - 1 then do
      let result := if overflowToInf then F.infinity sign else F.maxNormal sign
      let fpsr ← processException .overflow fpcr fpsr
      let fpsr ← processException .inexact fpcr fpsr
      some (result, fpsr)
    else if error ≠ .zero then
      (processException .inexact fpcr fpsr).map fun fpsr =>
        (packBits F sign biasedExp mantissa, fpsr)
    else some (packBits F sign biasedExp mantissa, fpsr)
  else if biasedExp ≥ 2 ^ F.exponentWidth then
    (processException .invalidOp fpcr fpsr).map fun fpsr =>
      (F.fromBits (if sign then 0xffff else 0x7fff), fpsr)
  else if error ≠ .zero then
    (processException .inexact fpcr fpsr).map fun fpsr =>
      (packBits F sign biasedExp mantissa, fpsr)
  else some (packBits F sign biasedExp mantissa, fpsr)

def fpRoundBase (op : FpUnpacked) (fpcr : Fpcr) (rounding : RoundingMode) (fpsr : Fpsr) :
    Option (ℕ × Fpsr) :=
  if op.mantissa = 0 ∨ rounding = .toNearestTieAwayFromZero then none
  else
    let (exponent, mantissa, error) := normalize F.explicitMantissaWidth op 0
    let isFp16 := F.totalWidth = 16
    if ((¬isFp16 ∧ fpcr.fz) ∨ (isFp16 ∧ fpcr.fz16)) ∧ exponent < F.exponentMin then
      some (F.zero op.sign, { fpsr with ufc := true })
    else
      let biasedExp := max (exponent - F.exponentMin + 1) 0
      let (_, mantissa, error) :=
        if biasedExp = 0 then normalize F.explicitMantissaWidth op (F.exponentMin - exponent)
        else (exponent, mantissa, error)
      let raised :=
        if biasedExp = 0 ∧ (error ≠ .zero ∨ fpcr.ufe) then processException .underflow fpcr fpsr
        else some fpsr
      raised.bind fun fpsr =>
        let (mantissa, biasedExp, overflowToInf) :=
          roundMantissa F rounding error op.sign mantissa biasedExp
        finishRound F op.sign biasedExp mantissa error overflowToInf fpcr fpsr

def fpRound (op : FpUnpacked) (fpcr : Fpcr) (rounding : RoundingMode) (fpsr : Fpsr) :
    Option (ℕ × Fpsr) :=
  fpRoundBase F op { fpcr with ahp := false } rounding fpsr

def fpRoundCv (op : FpUnpacked) (fpcr : Fpcr) (rounding : RoundingMode) (fpsr : Fpsr) :
    Option (ℕ × Fpsr) :=
  fpRoundBase F op { fpcr with fz16 := false } rounding fpsr

end Ruzu.Fp
