import Mathlib

/-!
# Floating-point formats and status

`info.rs`, `fpcr.rs`, `fpsr.rs`, `rounding_mode.rs` and `process_exception.rs`.
Words of 64 bits are numbers. The control register is its bits; a trapped
exception is an assertion that fails.
-/

set_option autoImplicit false

namespace Ruzu.Fp

inductive FloatFormat
  | u16
  | u32
  | u64
  deriving DecidableEq

namespace FloatFormat

def totalWidth : FloatFormat → ℕ
  | .u16 => 16
  | .u32 => 32
  | .u64 => 64

def exponentWidth : FloatFormat → ℕ
  | .u16 => 5
  | .u32 => 8
  | .u64 => 11

def explicitMantissaWidth : FloatFormat → ℕ
  | .u16 => 10
  | .u32 => 23
  | .u64 => 52

def signMask : FloatFormat → ℕ
  | .u16 => 0x8000
  | .u32 => 0x80000000
  | .u64 => 0x8000000000000000

def exponentMask : FloatFormat → ℕ
  | .u16 => 0x7c00
  | .u32 => 0x7f800000
  | .u64 => 0x7ff0000000000000

def mantissaMask : FloatFormat → ℕ
  | .u16 => 0x03ff
  | .u32 => 0x007fffff
  | .u64 => 0x000fffffffffffff

def mantissaMsb : FloatFormat → ℕ
  | .u16 => 0x0200
  | .u32 => 0x00400000
  | .u64 => 0x0008000000000000

def exponentMin : FloatFormat → ℤ
  | .u16 => -14
  | .u32 => -126
  | .u64 => -1022

def exponentBias : FloatFormat → ℤ
  | .u16 => 15
  | .u32 => 127
  | .u64 => 1023

variable (F : FloatFormat)

def implicitLeadingBit : ℕ := 1 <<< F.explicitMantissaWidth

def fromBits (value : ℕ) : ℕ := value % 2 ^ F.totalWidth

def zero (sign : Bool) : ℕ := F.fromBits (if sign then F.signMask else 0)

def infinity (sign : Bool) : ℕ := F.fromBits (F.exponentMask ||| F.zero sign)

def maxNormal (sign : Bool) : ℕ := F.fromBits ((F.exponentMask - 1) ||| F.zero sign)

def defaultNan : ℕ := F.fromBits (F.exponentMask ||| 1 <<< (F.explicitMantissaWidth - 1))

end FloatFormat

/-- The bits of the control register that the operations read. -/
structure Fpcr where
  ahp : Bool := false
  dn : Bool := false
  fz : Bool := false
  fz16 : Bool := false
  ide : Bool := false
  ixe : Bool := false
  ufe : Bool := false
  ofe : Bool := false
  dze : Bool := false
  ioe : Bool := false
  deriving DecidableEq

/-- The cumulative bits of the status register. -/
structure Fpsr where
  ioc : Bool := false
  dzc : Bool := false
  ofc : Bool := false
  ufc : Bool := false
  ixc : Bool := false
  idc : Bool := false
  deriving DecidableEq

inductive RoundingMode
  | toNearestTieEven
  | towardsPlusInfinity
  | towardsMinusInfinity
  | towardsZero
  | toNearestTieAwayFromZero
  | toOdd
  deriving DecidableEq

inductive FpException
  | invalidOp
  | divideByZero
  | overflow
  | underflow
  | inexact
  | inputDenorm

def processException (exception : FpException) (fpcr : Fpcr) (fpsr : Fpsr) : Option Fpsr :=
  match exception with
  | .invalidOp => if fpcr.ioe then none else some { fpsr with ioc := true }
  | .divideByZero => if fpcr.dze then none else some { fpsr with dzc := true }
  | .overflow => if fpcr.ofe then none else some { fpsr with ofc := true }
  | .underflow => if fpcr.ufe then none else some { fpsr with ufc := true }
  | .inexact => if fpcr.ixe then none else some { fpsr with ixc := true }
  | .inputDenorm => if fpcr.ide then none else some { fpsr with idc := true }

/-- No exception is trapped. -/
structure Fpcr.TrapsOff (fpcr : Fpcr) : Prop where
  ide : fpcr.ide = false
  ixe : fpcr.ixe = false
  ufe : fpcr.ufe = false
  ofe : fpcr.ofe = false
  dze : fpcr.dze = false
  ioe : fpcr.ioe = false

/-! ### The fields of a word -/

namespace FloatFormat

variable (F : FloatFormat)

theorem totalWidth_eq : F.totalWidth = 1 + F.exponentWidth + F.explicitMantissaWidth := by
  cases F <;> rfl

theorem signMask_eq : F.signMask = 2 ^ (F.exponentWidth + F.explicitMantissaWidth) := by
  cases F <;> rfl

theorem exponentMask_eq :
    F.exponentMask = (2 ^ F.exponentWidth - 1) * 2 ^ F.explicitMantissaWidth := by
  cases F <;> rfl

theorem mantissaMask_eq : F.mantissaMask = 2 ^ F.explicitMantissaWidth - 1 := by
  cases F <;> rfl

theorem mantissaMsb_eq : F.mantissaMsb = 2 ^ (F.explicitMantissaWidth - 1) := by
  cases F <;> rfl

theorem exponentMin_eq : F.exponentMin = 1 - F.exponentBias := by
  cases F <;> rfl

theorem width_bounds : 10 ≤ F.explicitMantissaWidth ∧ F.explicitMantissaWidth ≤ 52 := by
  cases F <;> decide

theorem totalWidth_le : F.totalWidth ≤ 64 := by
  cases F <;> decide

theorem bias_eq : F.exponentBias = 2 ^ (F.exponentWidth - 1) - 1 := by
  cases F <;> rfl

end FloatFormat

end Ruzu.Fp
