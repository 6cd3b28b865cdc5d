import Mathlib

/-!
# Cheat programs and their opcodes

`dmnt_cheat_types.rs` and the opcodes of `dmnt_cheat_vm.rs`. A four-bit field
of an instruction is a number below 16, which indexes a register file.
-/

set_option autoImplicit false

namespace Ruzu.CheatVm

abbrev Word := BitVec 32

abbrev Value := BitVec 64

/-! ### Programs -/

def maximumProgramOpcodeCount : ℕ := 0x400

structure CheatDefinition where
  numOpcodes : BitVec 32
  opcodes : Fin 0x100 → Word

structure CheatEntry where
  enabled : Bool
  definition : CheatDefinition

/-- The program of a machine: the words from `numOpcodes` on are of earlier programs. -/
structure Program where
  words : Fin maximumProgramOpcodeCount → Word
  numOpcodes : ℕ
  fits : numOpcodes ≤ maximumProgramOpcodeCount

def Program.empty (p : Program) : Program := { p with numOpcodes := 0, fits := Nat.zero_le _ }

/-- The words of an entry after those of the entries before it. -/
def Program.copy (p : Program) (definition : CheatDefinition)
    (hcount : definition.numOpcodes.toNat ≤ 0x100)
    (hroom : definition.numOpcodes.toNat + p.numOpcodes ≤ maximumProgramOpcodeCount) : Program :=
  let count := definition.numOpcodes.toNat
  { words := fun i =>
      if h : p.numOpcodes ≤ i ∧ i < p.numOpcodes + count then
        definition.opcodes ⟨i - p.numOpcodes, by omega⟩
      else p.words i
    numOpcodes := p.numOpcodes + count
    fits := by omega }

def loadEntries (p : Program) : List CheatEntry → Program × Bool
  | [] => (p, true)
  | cheat::cheats =>
    let definition := cheat.definition
    if cheat.enabled then
      if h : definition.numOpcodes.toNat ≤ 0x100 ∧
          definition.numOpcodes.toNat + p.numOpcodes ≤ maximumProgramOpcodeCount then
        loadEntries (p.copy definition h.1 h.2) cheats
      else (p.empty, false)
    else loadEntries p cheats

def loadProgram (p : Program) (cheats : List CheatEntry) : Program × Bool :=
  loadEntries p.empty cheats

/-! ### Opcodes -/

structure VmInt where
  bit64 : Value

def VmInt.bit8 (v : VmInt) : BitVec 8 := v.bit64.setWidth 8
def VmInt.bit16 (v : VmInt) : BitVec 16 := v.bit64.setWidth 16
def VmInt.bit32 (v : VmInt) : BitVec 32 := v.bit64.setWidth 32

abbrev Nibble := Fin 16

theorem nibble_neZero : NeZero 16 := ⟨by decide⟩

structure StoreStaticOpcode where
  bitWidth : Nibble
  memType : Nibble
  offsetRegister : Nibble
  relAddress : Value
  value : VmInt

structure BeginConditionalOpcode where
  bitWidth : Nibble
  memType : Nibble
  condType : Nibble
  relAddress : Value
  value : VmInt

structure ControlLoopOpcode where
  startLoop : Bool
  regIndex : Nibble
  numIters : BitVec 32

structure LoadRegisterStaticOpcode where
  regIndex : Nibble
  value : Value

structure LoadRegisterMemoryOpcode where
  bitWidth : Nibble
  memType : Nibble
  regIndex : Nibble
  loadFromReg : Bool
  relAddress : Value

structure StoreStaticToAddressOpcode where
  bitWidth : Nibble
  regIndex : Nibble
  incrementReg : Bool
  addOffsetReg : Bool
  offsetRegIndex : Nibble
  value : Value

structure PerformArithmeticStaticOpcode where
  bitWidth : Nibble
  regIndex : Nibble
  mathType : Nibble
  value : BitVec 32

structure BeginKeypressConditionalOpcode where
  keyMask : BitVec 32

structure PerformArithmeticRegisterOpcode where
  bitWidth : Nibble
  mathType : Nibble
  dstRegIndex : Nibble
  srcReg1Index : Nibble
  srcReg2Index : Nibble
  hasImmediate : Bool
  value : VmInt

structure StoreRegisterToAddressOpcode where
  bitWidth : Nibble
  strRegIndex : Nibble
  addrRegIndex : Nibble
  incrementReg : Bool
  ofsType : Nibble
  memType : Nibble
  ofsRegIndex : Nibble
  relAddress : Value

structure BeginRegisterConditionalOpcode where
  bitWidth : Nibble
  condType : Nibble
  valRegIndex : Nibble
  compType : Nibble
  memType : Nibble
  addrRegIndex : Nibble
  otherRegIndex : Nibble
  ofsRegIndex : Nibble
  relAddress : Value
  value : VmInt

structure SaveRestoreRegisterOpcode where
  dstIndex : Nibble
  srcIndex : Nibble
  opType : Nibble

structure SaveRestoreRegisterMaskOpcode where
  opType : Nibble
  shouldOperate : Fin 16 → Bool

structure ReadWriteStaticRegisterOpcode where
  staticIdx : Fin 256
  idx : Nibble

structure DebugLogOpcode where
  bitWidth : Nibble
  logId : Nibble
  valType : Nibble
  memType : Nibble
  addrRegIndex : Nibble
  valRegIndex : Nibble
  ofsRegIndex : Nibble
  relAddress : Value

/-- `CheatVmOpcodeVariant`, less the one that no instruction decodes to. -/
inductive Variant
  | storeStatic (op : StoreStaticOpcode)
  | beginConditional (op : BeginConditionalOpcode)
  | endConditional (isElse : Bool)
  | controlLoop (op : ControlLoopOpcode)
  | loadRegisterStatic (op : LoadRegisterStaticOpcode)
  | loadRegisterMemory (op : LoadRegisterMemoryOpcode)
  | storeStaticToAddress (op : StoreStaticToAddressOpcode)
  | performArithmeticStatic (op : PerformArithmeticStaticOpcode)
  | beginKeypressConditional (op : BeginKeypressConditionalOpcode)
  | performArithmeticRegister (op : PerformArithmeticRegisterOpcode)
  | storeRegisterToAddress (op : StoreRegisterToAddressOpcode)
  | beginRegisterConditional (op : BeginRegisterConditionalOpcode)
  | saveRestoreRegister (op : SaveRestoreRegisterOpcode)
  | saveRestoreRegisterMask (op : SaveRestoreRegisterMaskOpcode)
  | readWriteStaticRegister (op : ReadWriteStaticRegisterOpcode)
  | pauseProcess
  | resumeProcess
  | debugLog (op : DebugLogOpcode)

def Variant.isCondition : Variant → Bool
  | .beginConditional _ | .beginKeypressConditional _ | .beginRegisterConditional _ => true
  | _ => false

structure Opcode where
  beginConditionalBlock : Bool
  variant : Variant

end Ruzu.CheatVm
