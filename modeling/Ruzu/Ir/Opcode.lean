import Mathlib

/-!
# Opcodes of the intermediate representation

The opcodes that some modelled pass tells apart, with the type of the result
and of each argument. Every other opcode is `other`, with its types.
-/

set_option autoImplicit false

namespace Ruzu.Ir

inductive Ty where
  | void | a32Reg | a32ExtReg | a64Reg | a64Vec | anyTy | u1 | u8 | u16 | u32 | u64 | u128
  | coprocInfo | nzcvFlags | cond | table | accType
deriving DecidableEq

inductive Opcode where
  | void | identity
  | a64GetCFlag | a64GetNZCVRaw | a64SetNZCVRaw | a64SetNZCV | a64GetW | a64GetX | a64GetS
  | a64GetD | a64GetQ | a64GetSP | a64SetW | a64SetX | a64SetS | a64SetD | a64SetQ | a64SetSP
  | a64SetPC
  | a32GetCFlag | a32GetRegister | a32SetRegister | a32GetExtendedRegister32
  | a32GetExtendedRegister64 | a32SetExtendedRegister32 | a32SetExtendedRegister64
  | a32GetVector | a32SetVector | a32GetCpsr | a32SetCpsr | a32SetCpsrNZCVRaw | a32SetCpsrNZCV
  | a32SetCpsrNZCVQ | a32SetCpsrNZ | a32SetCpsrNZC | a32OrQFlag | a32GetGEFlags | a32SetGEFlags
  | a32SetGEFlagsCompressed | a32BXWritePC | a32UpdateUpperLocationDescriptor
  | getCarryFromOp | getOverflowFromOp | getGEFromOp | getNZCVFromOp | getNZFromOp
  | getUpperFromOp | getLowerFromOp | getCFlagFromNZCV | conditionalSelect32
  | conditionalSelect64 | conditionalSelectNZCV | vectorZeroUpper
  | leastSignificantWord | leastSignificantHalf | leastSignificantByte | mostSignificantBit
  | isZero32 | isZero64
  | logicalShiftLeftMasked32 | logicalShiftLeftMasked64 | logicalShiftRightMasked32
  | logicalShiftRightMasked64 | arithmeticShiftRightMasked32 | arithmeticShiftRightMasked64
  | rotateRightMasked32 | rotateRightMasked64 | logicalShiftLeft32 | logicalShiftLeft64
  | logicalShiftRight32 | logicalShiftRight64 | arithmeticShiftRight32 | arithmeticShiftRight64
  | bitRotateRight32 | bitRotateRight64
  | add32 | add64 | sub32 | sub64 | mul32 | mul64 | signedDiv32 | signedDiv64 | unsignedDiv32
  | unsignedDiv64 | and32 | and64 | eor32 | eor64 | or32 | or64 | not32 | not64
  | signExtendByteToWord | signExtendHalfToWord | signExtendByteToLong | signExtendHalfToLong
  | signExtendWordToLong | zeroExtendByteToWord | zeroExtendHalfToWord | zeroExtendByteToLong
  | zeroExtendHalfToLong | zeroExtendWordToLong | byteReverseWord | byteReverseHalf
  | byteReverseDual
  | sha256Hash | sha256MessageSchedule0 | sha256MessageSchedule1
  | vectorMultiplySignedWiden8 | vectorMultiplySignedWiden16 | vectorMultiplySignedWiden32
  | vectorMultiplyUnsignedWiden8 | vectorMultiplyUnsignedWiden16 | vectorMultiplyUnsignedWiden32
  | vectorGetElement32 | vectorGetElement64 | vectorSetElement32 | vectorSetElement64
  | vectorAdd32 | vectorEor | vectorOr | vectorExtract | vectorRotateWholeVectorRight
  | vectorLogicalShiftLeft32 | vectorLogicalShiftRight32 | vectorSignExtend8 | vectorSignExtend16
  | vectorSignExtend32 | vectorZeroExtend8 | vectorZeroExtend16 | vectorZeroExtend32
  | vectorMultiply16 | vectorMultiply32 | vectorMultiply64 | zeroVector
  | other (id : ℕ) (ret : Ty) (args : List Ty)
deriving DecidableEq

namespace Opcode

/-- The result type and the argument types. -/
def info : Opcode → Ty × List Ty
  | .void => (.void, [])
  | .identity => (.anyTy, [.anyTy])
  | .a64GetCFlag => (.u1, [])
  | .a64GetNZCVRaw => (.u32, [])
  | .a64SetNZCVRaw => (.void, [.u32])
  | .a64SetNZCV => (.void, [.nzcvFlags])
  | .a64GetW => (.u32, [.a64Reg])
  | .a64GetX => (.u64, [.a64Reg])
  | .a64GetS | .a64GetD | .a64GetQ => (.u128, [.a64Vec])
  | .a64GetSP => (.u64, [])
  | .a64SetW => (.void, [.a64Reg, .u32])
  | .a64SetX => (.void, [.a64Reg, .u64])
  | .a64SetS | .a64SetD | .a64SetQ => (.void, [.a64Vec, .u128])
  | .a64SetSP | .a64SetPC => (.void, [.u64])
  | .a32GetCFlag => (.u1, [])
  | .a32GetRegister => (.u32, [.a32Reg])
  | .a32SetRegister => (.void, [.a32Reg, .u32])
  | .a32GetExtendedRegister32 => (.u32, [.a32ExtReg])
  | .a32GetExtendedRegister64 => (.u64, [.a32ExtReg])
  | .a32SetExtendedRegister32 => (.void, [.a32ExtReg, .u32])
  | .a32SetExtendedRegister64 => (.void, [.a32ExtReg, .u64])
  | .a32GetVector => (.u128, [.a32ExtReg])
  | .a32SetVector => (.void, [.a32ExtReg, .u128])
  | .a32GetCpsr | .a32GetGEFlags => (.u32, [])
  | .a32SetCpsr | .a32SetCpsrNZCVRaw | .a32SetCpsrNZCVQ | .a32SetGEFlags
  | .a32SetGEFlagsCompressed | .a32BXWritePC => (.void, [.u32])
  | .a32SetCpsrNZCV | .a32SetCpsrNZ => (.void, [.nzcvFlags])
  | .a32SetCpsrNZC => (.void, [.nzcvFlags, .u1])
  | .a32OrQFlag => (.void, [.u1])
  | .a32UpdateUpperLocationDescriptor => (.void, [])
  | .getCarryFromOp | .getOverflowFromOp => (.u1, [.anyTy])
  | .getGEFromOp => (.u32, [.anyTy])
  | .getNZCVFromOp | .getNZFromOp => (.nzcvFlags, [.anyTy])
  | .getUpperFromOp | .getLowerFromOp => (.u128, [.anyTy])
  | .getCFlagFromNZCV => (.u1, [.nzcvFlags])
  | .conditionalSelect32 => (.u32, [.cond, .u32, .u32])
  | .conditionalSelect64 => (.u64, [.cond, .u64, .u64])
  | .conditionalSelectNZCV => (.nzcvFlags, [.cond, .nzcvFlags, .nzcvFlags])
  | .vectorZeroUpper => (.u128, [.u128])
  | .leastSignificantWord => (.u32, [.u64])
  | .leastSignificantHalf => (.u16, [.u32])
  | .leastSignificantByte => (.u8, [.u32])
  | .mostSignificantBit | .isZero32 => (.u1, [.u32])
  | .isZero64 => (.u1, [.u64])
  | .logicalShiftLeftMasked32 | .logicalShiftRightMasked32 | .arithmeticShiftRightMasked32
  | .rotateRightMasked32 => (.u32, [.u32, .u32])
  | .logicalShiftLeftMasked64 | .logicalShiftRightMasked64 | .arithmeticShiftRightMasked64
  | .rotateRightMasked64 => (.u64, [.u64, .u64])
  | .logicalShiftLeft32 | .logicalShiftRight32 | .arithmeticShiftRight32 | .bitRotateRight32 =>
    (.u32, [.u32, .u8, .u1])
  | .logicalShiftLeft64 | .logicalShiftRight64 | .arithmeticShiftRight64 | .bitRotateRight64 =>
    (.u64, [.u64, .u8])
  | .add32 | .sub32 => (.u32, [.u32, .u32, .u1])
  | .add64 | .sub64 => (.u64, [.u64, .u64, .u1])
  | .mul32 | .signedDiv32 | .unsignedDiv32 | .and32 | .eor32 | .or32 => (.u32, [.u32, .u32])
  | .mul64 | .signedDiv64 | .unsignedDiv64 | .and64 | .eor64 | .or64 => (.u64, [.u64, .u64])
  | .not32 => (.u32, [.u32])
  | .not64 => (.u64, [.u64])
  | .signExtendByteToWord | .zeroExtendByteToWord => (.u32, [.u8])
  | .signExtendHalfToWord | .zeroExtendHalfToWord => (.u32, [.u16])
  | .signExtendByteToLong | .zeroExtendByteToLong => (.u64, [.u8])
  | .signExtendHalfToLong | .zeroExtendHalfToLong => (.u64, [.u16])
  | .signExtendWordToLong | .zeroExtendWordToLong => (.u64, [.u32])
  | .byteReverseWord => (.u32, [.u32])
  | .byteReverseHalf => (.u16, [.u16])
  | .byteReverseDual => (.u64, [.u64])
  | .sha256Hash => (.u128, [.u128, .u128, .u128, .u1])
  | .sha256MessageSchedule1 => (.u128, [.u128, .u128, .u128])
  | .sha256MessageSchedule0 | .vectorMultiplySignedWiden8 | .vectorMultiplySignedWiden16
  | .vectorMultiplySignedWiden32 | .vectorMultiplyUnsignedWiden8 | .vectorMultiplyUnsignedWiden16
  | .vectorMultiplyUnsignedWiden32 | .vectorAdd32 | .vectorEor | .vectorOr | .vectorMultiply16
  | .vectorMultiply32 | .vectorMultiply64 => (.u128, [.u128, .u128])
  | .vectorGetElement32 => (.u32, [.u128, .u8])
  | .vectorGetElement64 => (.u64, [.u128, .u8])
  | .vectorSetElement32 => (.u128, [.u128, .u8, .u32])
  | .vectorSetElement64 => (.u128, [.u128, .u8, .u64])
  | .vectorExtract => (.u128, [.u128, .u128, .u8])
  | .vectorRotateWholeVectorRight | .vectorLogicalShiftLeft32 | .vectorLogicalShiftRight32 =>
    (.u128, [.u128, .u8])
  | .vectorSignExtend8 | .vectorSignExtend16 | .vectorSignExtend32 | .vectorZeroExtend8
  | .vectorZeroExtend16 | .vectorZeroExtend32 => (.u128, [.u128])
  | .zeroVector => (.u128, [])
  | .other _ ret args => (ret, args)

def returnType (op : Opcode) : Ty := op.info.1

def argTypes (op : Opcode) : List Ty := op.info.2

def numArgs (op : Opcode) : ℕ := op.argTypes.length

def readsFromCoreRegister : Opcode → Bool
  | .a32GetRegister | .a32GetExtendedRegister32 | .a32GetExtendedRegister64 | .a32GetVector
  | .a64GetW | .a64GetX | .a64GetS | .a64GetD | .a64GetQ | .a64GetSP => true
  | _ => false

def writesToCoreRegister : Opcode → Bool
  | .a32SetRegister | .a32SetExtendedRegister32 | .a32SetExtendedRegister64 | .a32SetVector
  | .a32BXWritePC | .a64SetW | .a64SetX | .a64SetS | .a64SetD | .a64SetQ | .a64SetSP
  | .a64SetPC => true
  | _ => false

def readsCpsr : Opcode → Bool
  | .a32GetCpsr | .a32GetCFlag | .a32GetGEFlags | .a32UpdateUpperLocationDescriptor
  | .a64GetCFlag | .a64GetNZCVRaw | .conditionalSelect32 | .conditionalSelect64
  | .conditionalSelectNZCV => true
  | _ => false

def writesCpsr : Opcode → Bool
  | .a32SetCpsr | .a32SetCpsrNZCVRaw | .a32SetCpsrNZCV | .a32SetCpsrNZCVQ | .a32SetCpsrNZ
  | .a32SetCpsrNZC | .a32OrQFlag | .a32SetGEFlags | .a32SetGEFlagsCompressed
  | .a32UpdateUpperLocationDescriptor | .a64SetNZCVRaw | .a64SetNZCV => true
  | _ => false

end Opcode
end Ruzu.Ir
