import Ruzu.Ir.ConstantPropagation
import Ruzu.Ir.Run

/-!
# What the folded opcodes compute

Values, and for additions, subtractions and 32-bit shifts the flags that can
be read off them. A pseudo-operation reads one flag off its argument.
-/

set_option autoImplicit false

namespace Ruzu.Ir

namespace Val

def b1 : Val → Bool
  | .u1 v => v
  | _ => false

def w8 : Val → BitVec 8
  | .u8 v => v
  | _ => 0

def w16 : Val → BitVec 16
  | .u16 v => v
  | _ => 0

def w32 : Val → BitVec 32
  | .u32 v => v
  | _ => 0

def w64 : Val → BitVec 64
  | .u64 v => v
  | _ => 0

end Val

/-! ### Addition -/

section Sum

variable {w : ℕ}

def addWithCarry (a b : BitVec w) (c : Bool) : BitVec w := a+b+(BitVec.ofBool c).setWidth w

def carryOut (a b : BitVec w) (c : Bool) : Bool := 2^w ≤ a.toNat+b.toNat+c.toNat

def overflowOut (a b : BitVec w) (c : Bool) : Bool :=
  a.msb == b.msb && (addWithCarry a b c).msb != a.msb

/-- An outcome with a carry and an overflow. -/
def Outcome.sum (toVal : BitVec w → Val) (a b : BitVec w) (c : Bool) : Outcome where
  value := toVal (addWithCarry a b c)
  side
    | .carry => .u1 (carryOut a b c)
    | .overflow => .u1 (overflowOut a b c)
    | .nzcv => .nzcv (flagBits (addWithCarry a b c).msb (addWithCarry a b c = 0) (carryOut a b c)
        (overflowOut a b c))
    | .nz => (toVal (addWithCarry a b c)).nz
    | _ => .void

end Sum

/-! ### Shifts -/

/-- The value and the carry of a shift by `n`, from the carry-in. -/
structure Shift (w : ℕ) where
  value : BitVec w → ℕ → BitVec w
  carry : BitVec w → ℕ → Bool

def shiftLeft (w : ℕ) : Shift w where
  value a n := a <<< n
  carry a n := n ≤ w && a.getLsbD (w-n)

def shiftRight (w : ℕ) : Shift w where
  value a n := a >>> n
  carry a n := a.getLsbD (n-1)

def arithmeticShiftRight (w : ℕ) : Shift w where
  value a n := a.sshiftRight n
  carry a n := (a.sshiftRight (n-1)).getLsbD 0

def rotateRight (w : ℕ) : Shift w where
  value a n := a.rotateRight n
  carry a n := (a.rotateRight n).msb

/-- A shift by zero hands the carry-in on. -/
def Outcome.shift32 (f : Shift 32) (a : BitVec 32) (n : ℕ) (c : Bool) : Outcome where
  value := .u32 (f.value a n)
  side
    | .carry => .u1 (if n = 0 then c else f.carry a n)
    | .nz | .nzcv => (Val.u32 (f.value a n)).nz
    | _ => .void

def shiftOf : Opcode → Option (Shift 32)
  | .logicalShiftLeft32 => some (shiftLeft 32)
  | .logicalShiftRight32 => some (shiftRight 32)
  | .arithmeticShiftRight32 => some (arithmeticShiftRight 32)
  | .bitRotateRight32 => some (rotateRight 32)
  | _ => none

/-! ### All opcodes -/

/-- The value of the opcodes without a flag of their own. -/
def plainOf (op : Opcode) (x y : Val) : Option Val :=
  match op with
  | .leastSignificantWord => some (.u32 (x.w64.setWidth 32))
  | .leastSignificantHalf => some (.u16 (x.w32.setWidth 16))
  | .leastSignificantByte => some (.u8 (x.w32.setWidth 8))
  | .mostSignificantBit => some (.u1 x.w32.msb)
  | .isZero32 => some (.u1 (x.w32 = 0))
  | .isZero64 => some (.u1 (x.w64 = 0))
  | .logicalShiftLeftMasked32 => some (.u32 (x.w32 <<< (y.w32.toNat%32)))
  | .logicalShiftLeftMasked64 => some (.u64 (x.w64 <<< (y.w64.toNat%64)))
  | .logicalShiftRightMasked32 => some (.u32 (x.w32 >>> (y.w32.toNat%32)))
  | .logicalShiftRightMasked64 => some (.u64 (x.w64 >>> (y.w64.toNat%64)))
  | .arithmeticShiftRightMasked32 => some (.u32 (x.w32.sshiftRight (y.w32.toNat%32)))
  | .arithmeticShiftRightMasked64 => some (.u64 (x.w64.sshiftRight (y.w64.toNat%64)))
  | .rotateRightMasked32 => some (.u32 (x.w32.rotateRight (y.w32.toNat%32)))
  | .rotateRightMasked64 => some (.u64 (x.w64.rotateRight (y.w64.toNat%64)))
  | .logicalShiftLeft64 => some (.u64 ((shiftLeft 64).value x.w64 y.w8.toNat))
  | .logicalShiftRight64 => some (.u64 ((shiftRight 64).value x.w64 y.w8.toNat))
  | .arithmeticShiftRight64 => some (.u64 ((arithmeticShiftRight 64).value x.w64 y.w8.toNat))
  | .bitRotateRight64 => some (.u64 ((rotateRight 64).value x.w64 y.w8.toNat))
  | .mul32 => some (.u32 (x.w32*y.w32))
  | .mul64 => some (.u64 (x.w64*y.w64))
  | .signedDiv32 => some (.u32 (x.w32.sdiv y.w32))
  | .signedDiv64 => some (.u64 (x.w64.sdiv y.w64))
  | .unsignedDiv32 => some (.u32 (x.w32/y.w32))
  | .unsignedDiv64 => some (.u64 (x.w64/y.w64))
  | .and32 => some (.u32 (x.w32 &&& y.w32))
  | .and64 => some (.u64 (x.w64 &&& y.w64))
  | .eor32 => some (.u32 (x.w32 ^^^ y.w32))
  | .eor64 => some (.u64 (x.w64 ^^^ y.w64))
  | .or32 => some (.u32 (x.w32 ||| y.w32))
  | .or64 => some (.u64 (x.w64 ||| y.w64))
  | .not32 => some (.u32 (~~~x.w32))
  | .not64 => some (.u64 (~~~x.w64))
  | .signExtendByteToWord => some (.u32 (x.w8.signExtend 32))
  | .signExtendHalfToWord => some (.u32 (x.w16.signExtend 32))
  | .signExtendByteToLong => some (.u64 (x.w8.signExtend 64))
  | .signExtendHalfToLong => some (.u64 (x.w16.signExtend 64))
  | .signExtendWordToLong => some (.u64 (x.w32.signExtend 64))
  | .zeroExtendByteToWord => some (.u32 (x.w8.setWidth 32))
  | .zeroExtendHalfToWord => some (.u32 (x.w16.setWidth 32))
  | .zeroExtendByteToLong => some (.u64 (x.w8.setWidth 64))
  | .zeroExtendHalfToLong => some (.u64 (x.w16.setWidth 64))
  | .zeroExtendWordToLong => some (.u64 (x.w32.setWidth 64))
  | .byteReverseWord => some (.u32 (swapBytes32 x.w32))
  | .byteReverseHalf => some (.u16 (swapBytes16 x.w16))
  | .byteReverseDual => some (.u64 (swapBytes64 x.w64))
  | _ => none

/-- The opcodes that constant propagation folds. -/
def arithmetic (op : Opcode) (x y z : Val) : Option Outcome :=
  match op with
  | .add32 => some (.sum .u32 x.w32 y.w32 z.b1)
  | .add64 => some (.sum .u64 x.w64 y.w64 z.b1)
  | .sub32 => some (.sum .u32 x.w32 (~~~y.w32) z.b1)
  | .sub64 => some (.sum .u64 x.w64 (~~~y.w64) z.b1)
  | op =>
    match shiftOf op with
    | some f => some (.shift32 f x.w32 y.w8.toNat z.b1)
    | none => (plainOf op x y).map .plain

def pseudoOf : Opcode → Option Pseudo
  | .getCarryFromOp => some .carry
  | .getOverflowFromOp => some .overflow
  | .getGEFromOp => some .ge
  | .getNZCVFromOp => some .nzcv
  | .getNZFromOp => some .nz
  | .getUpperFromOp => some .upper
  | .getLowerFromOp => some .lower
  | _ => none

/-- A flag that is not there is read as zero. -/
def Val.orZero (v : Val) (t : Ty) : Val := if v.ty = t then v else .zero t

variable {S : Type*}

/-- The folded opcodes and the pseudo-operations over the meaning `other` of
the remaining ones. -/
def arithExec (other : Machine S) : Machine S := fun op args s =>
  let o := args.getD 0 (.plain .void)
  let x := o.value
  let y := (args.getD 1 (.plain .void)).value
  let z := (args.getD 2 (.plain .void)).value
  match op with
  | .void => (.plain .void, s)
  | .identity => (.plain x, s)
  | op =>
    match pseudoOf op with
    | some kind => (.plain ((o.side kind).orZero op.returnType), s)
    | none =>
      match arithmetic op x y z with
      | some o => (o, s)
      | none => other op args s

/-- The other opcodes see the values of their operands, return values of their
types, and have the N and Z of their values. -/
structure Ordinary (other : Machine S) : Prop where
  values : ∀ op args args' s, args.map Outcome.value = args'.map Outcome.value →
    other op args s = other op args' s
  typed : ∀ op args s, (other op args s).1.value.HasTy op.returnType
  nz : ∀ op args s, (other op args s).1.side .nz = (other op args s).1.value.nz

end Ruzu.Ir
