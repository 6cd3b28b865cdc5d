import Ruzu.Ir.Arithmetic
import Ruzu.Lib.Lanes

/-!
# What the vector opcodes compute

The opcodes that the polyfill expands have the meaning of the instructions they
are named after; those it expands them to work lane by lane.
-/

set_option autoImplicit false

namespace Ruzu.Ir

open Lanes

/-! ### The architecture -/

namespace Arm

def shaChoose (x y z : BitVec 32) : BitVec 32 := ((y ^^^ z) &&& x) ^^^ z

def shaMajority (x y z : BitVec 32) : BitVec 32 := (x &&& y) ||| ((x ||| y) &&& z)

def shaHashSigma0 (x : BitVec 32) : BitVec 32 :=
  x.rotateRight 2 ^^^ x.rotateRight 13 ^^^ x.rotateRight 22

def shaHashSigma1 (x : BitVec 32) : BitVec 32 :=
  x.rotateRight 6 ^^^ x.rotateRight 11 ^^^ x.rotateRight 25

def hashStep (w : BitVec 128) (xy : BitVec 128 × BitVec 128) (e : ℕ) : BitVec 128 × BitVec 128 :=
  let (x, y) := xy
  let chs := shaChoose (y.extractLsb' 0 32) (y.extractLsb' 32 32) (y.extractLsb' 64 32)
  let maj := shaMajority (x.extractLsb' 0 32) (x.extractLsb' 32 32) (x.extractLsb' 64 32)
  let t := y.extractLsb' 96 32 + shaHashSigma1 (y.extractLsb' 0 32) + chs + lane 32 e w
  let x' := (t + x.extractLsb' 96 32) ++ x.extractLsb' 0 96
  let y' := (t + shaHashSigma0 (x.extractLsb' 0 32) + maj) ++ y.extractLsb' 0 96
  let yx : BitVec 256 := (y' ++ x').rotateLeft 32
  (yx.extractLsb' 0 128, yx.extractLsb' 128 128)

/-- `SHA256H` for the first part and `SHA256H2` for the second one. -/
def sha256Hash (x y w : BitVec 128) (part1 : Bool) : BitVec 128 :=
  let (x, y) := [0, 1, 2, 3].foldl (hashStep w) (x, y)
  if part1 then x else y

def sha256su0 (operand1 operand2 : BitVec 128) : BitVec 128 :=
  let t : BitVec 128 := operand2.extractLsb' 0 32 ++ operand1.extractLsb' 32 96
  ofLanes 128 32 fun e =>
    let elt := lane 32 e t
    (elt.rotateRight 7 ^^^ elt.rotateRight 18 ^^^ elt >>> 3) + lane 32 e operand1

def scheduleMix (elt : BitVec 32) : BitVec 32 :=
  elt.rotateRight 17 ^^^ elt.rotateRight 19 ^^^ elt >>> 10

def sha256su1 (operand1 operand2 operand3 : BitVec 128) : BitVec 128 :=
  let t0 : BitVec 128 := operand3.extractLsb' 0 32 ++ operand2.extractLsb' 32 96
  let t1 : BitVec 64 := operand3.extractLsb' 64 64
  let low : BitVec 64 := ofLanes 64 32 fun e =>
    scheduleMix (lane 32 e t1) + lane 32 e operand1 + lane 32 e t0
  let high : BitVec 64 := ofLanes 64 32 fun e =>
    scheduleMix (lane 32 e low) + lane 32 (e + 2) operand1 + lane 32 (e + 2) t0
  high ++ low

/-- The elements as integers. -/
def toInt {w : ℕ} (unsigned : Bool) (v : BitVec w) : ℤ := if unsigned then v.toNat else v.toInt

/-- `SMULL` and `UMULL`: the products of the elements of the low halves. -/
def multiplyWiden (esize : ℕ) (unsigned : Bool) (operand1 operand2 : BitVec 128) : BitVec 128 :=
  ofLanes 128 (2 * esize) fun e => BitVec.ofInt (2 * esize)
    (toInt unsigned (lane esize e operand1) * toInt unsigned (lane esize e operand2))

end Arm

/-! ### The intermediate representation -/

def Val.v128 : Val → BitVec 128
  | .u128 v => v
  | _ => 0

section Lanewise

variable {w : ℕ}

/-- Lane by lane, on vectors of lanes of `w` bits. -/
def lanewise (w : ℕ) (f : BitVec w → BitVec w) (a : BitVec 128) : BitVec 128 :=
  ofLanes 128 w fun i => f (lane w i a)

def lanewise₂ (w : ℕ) (f : BitVec w → BitVec w → BitVec w) (a b : BitVec 128) : BitVec 128 :=
  ofLanes 128 w fun i => f (lane w i a) (lane w i b)

/-- The lanes of the low half, widened. -/
def extendLanes (w : ℕ) (f : BitVec w → BitVec (2 * w)) (a : BitVec 128) : BitVec 128 :=
  ofLanes 128 (2 * w) fun i => f (lane w i a)

end Lanewise

/-- What opcodes on vectors make of the values of their operands. -/
def vectorOf (op : Opcode) (x y z u : Val) : Option Val :=
  match op with
  | .sha256Hash => some (.u128 (Arm.sha256Hash x.v128 y.v128 z.v128 u.b1))
  | .sha256MessageSchedule0 => some (.u128 (Arm.sha256su0 x.v128 y.v128))
  | .sha256MessageSchedule1 => some (.u128 (Arm.sha256su1 x.v128 y.v128 z.v128))
  | .vectorMultiplySignedWiden8 => some (.u128 (Arm.multiplyWiden 8 false x.v128 y.v128))
  | .vectorMultiplySignedWiden16 => some (.u128 (Arm.multiplyWiden 16 false x.v128 y.v128))
  | .vectorMultiplySignedWiden32 => some (.u128 (Arm.multiplyWiden 32 false x.v128 y.v128))
  | .vectorMultiplyUnsignedWiden8 => some (.u128 (Arm.multiplyWiden 8 true x.v128 y.v128))
  | .vectorMultiplyUnsignedWiden16 => some (.u128 (Arm.multiplyWiden 16 true x.v128 y.v128))
  | .vectorMultiplyUnsignedWiden32 => some (.u128 (Arm.multiplyWiden 32 true x.v128 y.v128))
  | .zeroVector => some (.u128 0)
  | .vectorGetElement32 => some (.u32 (lane 32 y.w8.toNat x.v128))
  | .vectorGetElement64 => some (.u64 (lane 64 y.w8.toNat x.v128))
  | .vectorSetElement32 => some (.u128 (setLane y.w8.toNat x.v128 z.w32))
  | .vectorSetElement64 => some (.u128 (setLane y.w8.toNat x.v128 z.w64))
  | .vectorAdd32 => some (.u128 (lanewise₂ 32 (· + ·) x.v128 y.v128))
  | .vectorEor => some (.u128 (x.v128 ^^^ y.v128))
  | .vectorOr => some (.u128 (x.v128 ||| y.v128))
  | .vectorZeroUpper => some (.u128 (0#64 ++ x.v128.extractLsb' 0 64))
  | .vectorExtract => some (.u128 ((y.v128 ++ x.v128).extractLsb' z.w8.toNat 128))
  | .vectorRotateWholeVectorRight => some (.u128 (x.v128.rotateRight y.w8.toNat))
  | .vectorLogicalShiftLeft32 => some (.u128 (lanewise 32 (· <<< y.w8.toNat) x.v128))
  | .vectorLogicalShiftRight32 => some (.u128 (lanewise 32 (· >>> y.w8.toNat) x.v128))
  | .vectorSignExtend8 => some (.u128 (extendLanes 8 (·.signExtend 16) x.v128))
  | .vectorSignExtend16 => some (.u128 (extendLanes 16 (·.signExtend 32) x.v128))
  | .vectorSignExtend32 => some (.u128 (extendLanes 32 (·.signExtend 64) x.v128))
  | .vectorZeroExtend8 => some (.u128 (extendLanes 8 (·.setWidth 16) x.v128))
  | .vectorZeroExtend16 => some (.u128 (extendLanes 16 (·.setWidth 32) x.v128))
  | .vectorZeroExtend32 => some (.u128 (extendLanes 32 (·.setWidth 64) x.v128))
  | .vectorMultiply16 => some (.u128 (lanewise₂ 16 (· * ·) x.v128 y.v128))
  | .vectorMultiply32 => some (.u128 (lanewise₂ 32 (· * ·) x.v128 y.v128))
  | .vectorMultiply64 => some (.u128 (lanewise₂ 64 (· * ·) x.v128 y.v128))
  | _ => none

variable {S : Type*}

/-- Vectors and words over the meaning `other` of the remaining opcodes. -/
def vectorExec (other : Machine S) : Machine S := arithExec fun op args s =>
  match vectorOf op (args.getD 0 (.plain .void)).value (args.getD 1 (.plain .void)).value
      (args.getD 2 (.plain .void)).value (args.getD 3 (.plain .void)).value with
  | some v => (.plain v, s)
  | none => other op args s

end Ruzu.Ir
