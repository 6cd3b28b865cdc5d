import Ruzu.Ir.Block

/-!
# Constant propagation and identity removal

Constant propagation looks at one instruction at a time. It turns one with
immediate operands, or with a neutral one, into an identity. Identity removal
then leads every argument past the identities and removes them. A panic is
`none`.
-/

set_option autoImplicit false

namespace Ruzu.Ir

namespace Value

def isImmediate : Value → Bool
  | .inst _ | .void => false
  | _ => true

def getU1 : Value → Option Bool
  | .immU1 v => some v
  | _ => none

def getU8 : Value → Option (BitVec 8)
  | .immU8 v => some v
  | _ => none

def getU32 : Value → Option (BitVec 32)
  | .immU32 v => some v
  | _ => none

def getU64 : Value → Option (BitVec 64)
  | .immU64 v => some v
  | _ => none

def getImmAsU64 : Value → Option (BitVec 64)
  | .immU1 v => some ((BitVec.ofBool v).setWidth 64)
  | .immU8 v => some (v.setWidth 64)
  | .immU16 v => some (v.setWidth 64)
  | .immU32 v => some (v.setWidth 64)
  | .immU64 v => some v
  | _ => none

def getImmAsS64 : Value → Option (BitVec 64)
  | .immU1 v => some ((BitVec.ofBool v).setWidth 64)
  | .immU8 v => some (v.signExtend 64)
  | .immU16 v => some (v.signExtend 64)
  | .immU32 v => some (v.signExtend 64)
  | .immU64 v => some v
  | _ => none

def isZero : Value → Bool
  | .immU1 v => !v
  | .immU8 v => v = 0
  | .immU16 v => v = 0
  | .immU32 v => v = 0
  | .immU64 v => v = 0
  | _ => false

def hasAllBitsSet : Value → Bool
  | .immU1 v => v
  | .immU8 v => v = 0xFF
  | .immU16 v => v = 0xFFFF
  | .immU32 v => v = 0xFFFFFFFF
  | .immU64 v => v = 0xFFFFFFFFFFFFFFFF
  | _ => false

def isUnsignedImm (v : Value) (val : BitVec 64) : Option Bool :=
  if v.isImmediate then v.getImmAsU64.map fun x => x = val else some false

end Value

/-- A panic, nothing, or the value that replaces the instruction. -/
abbrev Fold := Option (Option Value)

def sized (is32 : Bool) (value : BitVec 64) : Value :=
  if is32 then .immU32 (value.setWidth 32) else .immU64 value

/-- Both operands are immediate, and are read by `get`. -/
def foldBoth {α β : Type} (get : Value → Option α) (get' : Value → Option β)
    (f : α → β → Option Value) (x y : Value) : Fold :=
  if x.isImmediate && y.isImmediate then
    (get x).bind fun a => (get' y).bind fun b => (f a b).map some
  else some none

def foldOne {α : Type} (get : Value → Option α) (f : α → Value) (x : Value) : Fold :=
  if x.isImmediate then (get x).map fun a => some (f a) else some none

/-! ### Shifts -/

def width (is32 : Bool) : ℕ := if is32 then 32 else 64

def safeLsl (value : BitVec 64) (shift : BitVec 8) (is32 : Bool) : BitVec 64 :=
  if width is32 ≤ shift.toNat then 0
  else if is32 then (value.setWidth 32 <<< shift.toNat).setWidth 64
  else value <<< shift.toNat

def safeLsr (value : BitVec 64) (shift : BitVec 8) (is32 : Bool) : BitVec 64 :=
  if width is32 ≤ shift.toNat then 0
  else if is32 then (value.setWidth 32 >>> shift.toNat).setWidth 64
  else value >>> shift.toNat

def safeAsr (value : BitVec 64) (shift : BitVec 8) (is32 : Bool) : BitVec 64 :=
  if is32 then
    (if 32 ≤ shift.toNat then (value.setWidth 32).sshiftRight 31
      else (value.setWidth 32).sshiftRight shift.toNat).signExtend 64
  else if 64 ≤ shift.toNat then value.sshiftRight 63
  else value.sshiftRight shift.toNat

def safeRor (value : BitVec 64) (shift : BitVec 8) (is32 : Bool) : BitVec 64 :=
  if is32 then ((value.setWidth 32).rotateRight shift.toNat).setWidth 64
  else value.rotateRight shift.toNat

def foldShift (get : Value → Option (BitVec 64))
    (f : BitVec 64 → BitVec 8 → Bool → BitVec 64) (is32 : Bool) (args : List Value)
    (numArgs : ℕ) : Fold :=
  if (args.getD 1 .void).isZero then some (some (args.getD 0 .void))
  else if (List.range numArgs).all fun k => (args.getD k .void).isImmediate then
    (get (args.getD 0 .void)).bind fun a =>
      (args.getD 1 .void).getU8.map fun b => some (sized is32 (f a b is32))
  else some none

/-! ### Arithmetic -/

def foldAdd (is32 : Bool) (lhs rhs carry : Value) : Fold :=
  if !lhs.isImmediate && rhs.isZero && carry.isZero then some (some lhs)
  else if lhs.isImmediate && rhs.isImmediate && carry.isImmediate then
    lhs.getImmAsU64.bind fun a => rhs.getImmAsU64.bind fun b => carry.getU1.map fun c =>
      some (sized is32 (a+b+(BitVec.ofBool c).setWidth 64))
  else some none

def foldSub (is32 : Bool) (lhs rhs carry : Value) : Fold :=
  if lhs.isImmediate && rhs.isImmediate && carry.isImmediate then
    lhs.getImmAsU64.bind fun a => rhs.getImmAsU64.bind fun b => carry.getU1.map fun c =>
      some (sized is32 (a+~~~b+(BitVec.ofBool c).setWidth 64))
  else some none

def foldMultiply (is32 : Bool) (lhs rhs : Value) : Fold :=
  if lhs.isZero || rhs.isZero then some (some (sized is32 0))
  else (rhs.isUnsignedImm 1).bind fun one => if one then some (some lhs)
  else (lhs.isUnsignedImm 1).bind fun one => if one then some (some rhs)
  else foldBoth Value.getImmAsU64 Value.getImmAsU64 (fun a b => some (sized is32 (a*b))) lhs rhs

/-- The most negative quotient overflows. -/
def signedQuotient (a b : BitVec 64) : Option (BitVec 64) :=
  if b = 0 then some 0
  else if a = BitVec.intMin 64 ∧ b = -1 then none
  else some (a.sdiv b)

def unsignedQuotient (a b : BitVec 64) : Option (BitVec 64) :=
  if b = 0 then some 0 else some (a/b)

def foldDivide (is32 isSigned : Bool) (lhs rhs : Value) : Fold :=
  if rhs.isZero then some (some (sized is32 0))
  else (rhs.isUnsignedImm 1).bind fun one => if one then some (some lhs)
  else if isSigned then
    foldBoth Value.getImmAsS64 Value.getImmAsS64
      (fun a b => (signedQuotient a b).map (sized is32)) lhs rhs
  else
    foldBoth Value.getImmAsU64 Value.getImmAsU64
      (fun a b => (unsignedQuotient a b).map (sized is32)) lhs rhs

def foldAnd (is32 : Bool) (lhs rhs : Value) : Fold :=
  if lhs.isZero || rhs.isZero then some (some (sized is32 0))
  else if rhs.hasAllBitsSet then some (some lhs)
  else if lhs.hasAllBitsSet then some (some rhs)
  else foldBoth Value.getImmAsU64 Value.getImmAsU64 (fun a b => some (sized is32 (a &&& b))) lhs rhs

def foldEor (is32 : Bool) (lhs rhs : Value) : Fold :=
  if rhs.isZero then some (some lhs)
  else if lhs.isZero then some (some rhs)
  else foldBoth Value.getImmAsU64 Value.getImmAsU64 (fun a b => some (sized is32 (a ^^^ b))) lhs rhs

def foldOr (is32 : Bool) (lhs rhs : Value) : Fold :=
  if rhs.isZero then some (some lhs)
  else if lhs.isZero then some (some rhs)
  else foldBoth Value.getImmAsU64 Value.getImmAsU64 (fun a b => some (sized is32 (a ||| b))) lhs rhs

def foldNot (is32 : Bool) : Value → Fold :=
  foldOne Value.getImmAsU64 fun a => sized is32 (~~~a)

/-! ### Bytes -/

def swapBytes16 (v : BitVec 16) : BitVec 16 := v.extractLsb' 0 8 ++ v.extractLsb' 8 8

def swapBytes32 (v : BitVec 32) : BitVec 32 :=
  swapBytes16 (v.extractLsb' 0 16) ++ swapBytes16 (v.extractLsb' 16 16)

def swapBytes64 (v : BitVec 64) : BitVec 64 :=
  swapBytes32 (v.extractLsb' 0 32) ++ swapBytes32 (v.extractLsb' 32 32)

/-! ### Constant propagation -/

/-- What becomes of the instruction, from its operands. -/
def foldOf (op : Opcode) (args : List Value) : Fold :=
  let x := args.getD 0 .void
  let y := args.getD 1 .void
  let z := args.getD 2 .void
  match op with
  | .leastSignificantWord => foldOne Value.getImmAsU64 (fun v => .immU32 (v.setWidth 32)) x
  | .leastSignificantHalf => foldOne Value.getImmAsU64 (fun v => .immU16 (v.setWidth 16)) x
  | .leastSignificantByte => foldOne Value.getImmAsU64 (fun v => .immU8 (v.setWidth 8)) x
  | .mostSignificantBit => foldOne Value.getImmAsU64 (fun v => .immU1 (v >>> 31 ≠ 0)) x
  | .isZero32 => foldOne Value.getU32 (fun v => .immU1 (v = 0)) x
  | .isZero64 => foldOne Value.getU64 (fun v => .immU1 (v = 0)) x
  | .logicalShiftLeftMasked32 =>
    foldBoth Value.getU32 Value.getU32 (fun a b => some (.immU32 (a <<< (b &&& 0x1F)))) x y
  | .logicalShiftLeftMasked64 =>
    foldBoth Value.getU64 Value.getU64 (fun a b => some (.immU64 (a <<< (b &&& 0x3F)))) x y
  | .logicalShiftRightMasked32 =>
    foldBoth Value.getU32 Value.getU32 (fun a b => some (.immU32 (a >>> (b &&& 0x1F)))) x y
  | .logicalShiftRightMasked64 =>
    foldBoth Value.getU64 Value.getU64 (fun a b => some (.immU64 (a >>> (b &&& 0x3F)))) x y
  | .arithmeticShiftRightMasked32 =>
    foldBoth Value.getU32 Value.getU32 (fun a b => some (.immU32 (a.sshiftRight' (b &&& 0x1F)))) x y
  | .arithmeticShiftRightMasked64 =>
    foldBoth Value.getU64 Value.getU64 (fun a b => some (.immU64 (a.sshiftRight' (b &&& 0x3F)))) x y
  | .rotateRightMasked32 =>
    foldBoth Value.getU32 Value.getU32 (fun a b => some (.immU32 (a.rotateRight b.toNat))) x y
  | .rotateRightMasked64 =>
    foldBoth Value.getU64 Value.getU64
      (fun a b => some (.immU64 (a.rotateRight (b.setWidth 32).toNat))) x y
  | .logicalShiftLeft32 => foldShift Value.getImmAsU64 safeLsl true args op.numArgs
  | .logicalShiftLeft64 => foldShift Value.getImmAsU64 safeLsl false args op.numArgs
  | .logicalShiftRight32 => foldShift Value.getImmAsU64 safeLsr true args op.numArgs
  | .logicalShiftRight64 => foldShift Value.getImmAsU64 safeLsr false args op.numArgs
  | .arithmeticShiftRight32 => foldShift Value.getImmAsS64 safeAsr true args op.numArgs
  | .arithmeticShiftRight64 => foldShift Value.getImmAsS64 safeAsr false args op.numArgs
  | .bitRotateRight32 => foldShift Value.getImmAsU64 safeRor true args op.numArgs
  | .bitRotateRight64 => foldShift Value.getImmAsU64 safeRor false args op.numArgs
  | .add32 => foldAdd true x y z
  | .add64 => foldAdd false x y z
  | .sub32 => foldSub true x y z
  | .sub64 => foldSub false x y z
  | .mul32 => foldMultiply true x y
  | .mul64 => foldMultiply false x y
  | .signedDiv32 => foldDivide true true x y
  | .signedDiv64 => foldDivide false true x y
  | .unsignedDiv32 => foldDivide true false x y
  | .unsignedDiv64 => foldDivide false false x y
  | .and32 => foldAnd true x y
  | .and64 => foldAnd false x y
  | .eor32 => foldEor true x y
  | .eor64 => foldEor false x y
  | .or32 => foldOr true x y
  | .or64 => foldOr false x y
  | .not32 => foldNot true x
  | .not64 => foldNot false x
  | .signExtendByteToWord | .signExtendHalfToWord =>
    foldOne Value.getImmAsS64 (fun v => .immU32 (v.setWidth 32)) x
  | .signExtendByteToLong | .signExtendHalfToLong | .signExtendWordToLong =>
    foldOne Value.getImmAsS64 .immU64 x
  | .zeroExtendByteToWord | .zeroExtendHalfToWord =>
    foldOne Value.getImmAsU64 (fun v => .immU32 (v.setWidth 32)) x
  | .zeroExtendByteToLong | .zeroExtendHalfToLong | .zeroExtendWordToLong =>
    foldOne Value.getImmAsU64 .immU64 x
  | .byteReverseWord =>
    foldOne Value.getImmAsU64 (fun v => .immU32 (swapBytes32 (v.setWidth 32))) x
  | .byteReverseHalf =>
    foldOne Value.getImmAsU64 (fun v => .immU16 (swapBytes16 (v.setWidth 16))) x
  | .byteReverseDual => foldOne Value.getImmAsU64 (fun v => .immU64 (swapBytes64 v)) x
  | _ => some none

def isShift : Opcode → Bool
  | .logicalShiftLeft32 | .logicalShiftLeft64 | .logicalShiftRight32 | .logicalShiftRight64
  | .arithmeticShiftRight32 | .arithmeticShiftRight64 | .bitRotateRight32 | .bitRotateRight64 =>
    true
  | _ => false

def isAdd : Opcode → Bool
  | .add32 | .add64 => true
  | _ => false

/-- What a fold changes in the operands before it looks at them: a shift loses
its carry-in, and of the operands of an addition the immediate comes last. -/
def prepare (b : Block) (i : ℕ) : Block :=
  let inst := b.inst i
  if isShift inst.opcode then
    if 3 ≤ inst.numArgs then b.setArg i 2 (.immU1 false) else b
  else if isAdd inst.opcode then
    if (inst.arg 0).isImmediate && !(inst.arg 1).isImmediate then
      (b.setArg i 0 (inst.arg 1)).setArg i 1 (inst.arg 0)
    else b
  else b

def replaceWith (b : Block) (i : ℕ) (fold : Fold) : Option Block :=
  fold.map fun v => match v with
    | some v => b.replaceUsesWith i v
    | none => b

def constantFold (b : Block) (i : ℕ) : Option Block :=
  if (b.inst i).isTombstone then some b
  else replaceWith (prepare b i) i (foldOf (b.inst i).opcode ((prepare b i).inst i).args)

def constantPropagation (b : Block) : Option Block :=
  (List.range b.instructions.length).foldlM constantFold b

/-! ### Identity removal -/

namespace Block

/-- The argument goes past the identity that it refers to. -/
def chase (b : Block) (i a r : ℕ) : Block :=
  let replacement := (b.inst r).arg 0
  ((b.modify r Inst.dropUse).addUses replacement.ref.toList).modify i
    fun inst => { inst with args := inst.args.set a replacement }

/-- The loop over one argument. More steps than that run in a circle. -/
def chaseArg (i a : ℕ) : ℕ → Block → Option Block
  | 0, _ => none
  | fuel+1, b =>
    match (b.inst i).arg a with
    | .inst r => if (b.inst r).opcode = .identity then chaseArg i a fuel (b.chase i a r) else some b
    | _ => some b

def chaseArgs (b : Block) (i : ℕ) : Option Block :=
  if (b.inst i).isTombstone then some b
  else (List.range (b.inst i).numArgs).foldlM
    (fun b a => chaseArg i a (b.instructions.length+1) b) b

def removeIdentity (b : Block) (i : ℕ) : Block :=
  if (b.inst i).opcode = .identity ∨ (b.inst i).opcode = .void then
    (b.dropUses (b.inst i).refs).modify i fun inst => { inst.tombstone with useCount := 0 }
  else b

end Block

def identityRemoval (b : Block) : Option Block :=
  ((List.range b.instructions.length).foldlM Block.chaseArgs b).map fun b =>
    (List.range b.instructions.length).foldl Block.removeIdentity b

end Ruzu.Ir
