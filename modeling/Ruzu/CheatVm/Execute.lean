import Ruzu.CheatVm.Decode

/-!
# Executing

`DmntCheatVm::execute` as a machine that takes one instruction a step. While
`skip_conditional_block` looks for the end of a block, a step decodes only.
-/

set_option autoImplicit false

namespace Ruzu.CheatVm

structure CheatProcessMetadata where
  mainNsoBase : Value
  heapBase : Value
  aliasBase : Value
  aslrBase : Value

/-- What the command log is told, as data. -/
inductive Command
  | started (mainNso heap keysDown : Value)
  | instruction (instructionPtr : ℕ) (registers savedValues : Fin 16 → Value) (opcode : Variant)

structure VmCallbacks (W : Type) where
  /-- The bytes of the slice after the call; before it the slice holds the given ones. -/
  memoryRead : W → Value → (n : ℕ) → (Fin n → BitVec 8) → W × (Fin n → BitVec 8)
  memoryWrite : W → Value → List (BitVec 8) → W
  hidKeysDown : W → W × Value
  pauseProcess : W → W
  resumeProcess : W → W
  debugLog : W → BitVec 8 → Value → W
  commandLog : W → Command → W

structure Data (W : Type) where
  registers : Fin 16 → Value
  savedValues : Fin 16 → Value
  staticRegisters : Fin 256 → Value
  loopTops : Fin 16 → ℕ
  world : W

structure Vm (W : Type) where
  program : Program
  cursor : Cursor
  conditionDepth : ℕ
  data : Data W

/-- What a run of `execute` does not change. -/
structure Env (W : Type) where
  callbacks : VmCallbacks W
  metadata : CheatProcessMetadata
  keysDown : Value

variable {W : Type} (env : Env W)

/-! ### Memory -/

attribute [local instance] nibble_neZero in
def IsWidth (w : Nibble) : Prop := w = 1 ∨ w = 2 ∨ w = 4 ∨ w = 8

instance (w : Nibble) : Decidable (IsWidth w) := inferInstanceAs (Decidable (_ ∨ _))

theorem IsWidth.le {w : Nibble} (h : IsWidth w) : w.val ≤ 8 := by
  obtain rfl | rfl | rfl | rfl := h <;> decide

def toByte (v : Value) (i : ℕ) : BitVec 8 := (v >>> (8 * i)).setWidth 8

def fromLeBytes (bytes : Fin 8 → BitVec 8) : Value :=
  (List.finRange 8).foldr (fun i v => v <<< 8 ||| (bytes i).setWidth 64) 0

/-- `memory_read_unsafe` into the first bytes of `value`. -/
def Data.readOver (d : Data W) (address : Value) (w : Nibble) (hw : w.val ≤ 8) (value : Value) :
    Value × Data W :=
  let bytes : Fin 8 → BitVec 8 := fun i => toByte value i
  let (world, read) := env.callbacks.memoryRead d.world address w fun i =>
    bytes ⟨i, i.isLt.trans_le hw⟩
  (fromLeBytes fun i => if h : i < w.val then read ⟨i, h⟩ else bytes i, { d with world })

def Data.readValueFromAddress (d : Data W) (address : Value) (bitWidth : Nibble) :
    Value × Data W :=
  if h : IsWidth bitWidth then d.readOver env address bitWidth h.le 0 else (0, d)

def Data.writeValueToAddress (d : Data W) (address : Value) (bitWidth : Nibble) (value : Value) :
    Data W :=
  if IsWidth bitWidth then
    { d with world :=
        env.callbacks.memoryWrite d.world address ((List.range bitWidth).map (toByte value)) }
  else d

def getCheatProcessAddress (memType : Nibble) (relAddress : Value) : Value :=
  let base := match memType.val with
    | 0 => env.metadata.mainNsoBase
    | 1 => env.metadata.heapBase
    | 2 => env.metadata.aliasBase
    | 3 => env.metadata.aslrBase
    | _ => env.metadata.mainNsoBase
  base + relAddress

/-! ### Values -/

def getVmInt (value : VmInt) (bitWidth : Nibble) : Value :=
  match bitWidth.val with
  | 1 => value.bit8.setWidth 64
  | 2 => value.bit16.setWidth 64
  | 4 => value.bit32.setWidth 64
  | 8 => value.bit64
  | _ => 0

def evaluateCondition (condType bitWidth : Nibble) (lhs rhs : Value) : Bool :=
  let mask : Value := match bitWidth.val with
    | 1 => 0xFF
    | 2 => 0xFFFF
    | 4 => 0xFFFFFFFF
    | 8 => BitVec.allOnes 64
    | _ => 0
  let lhs := lhs &&& mask
  let rhs := rhs &&& mask
  match condType.val with
  | 1 => rhs < lhs
  | 2 => rhs ≤ lhs
  | 3 => lhs < rhs
  | 4 => lhs ≤ rhs
  | 5 => lhs == rhs
  | 6 => lhs != rhs
  | _ => false

def performArithmetic (mathType bitWidth : Nibble) (lhs rhs : Value) : Value :=
  let mask : Value := match bitWidth.val with
    | 1 => 0xFF
    | 2 => 0xFFFF
    | 4 => 0xFFFFFFFF
    | _ => BitVec.allOnes 64
  let result : Value := match mathType.val with
    | 0 => lhs + rhs
    | 1 => lhs - rhs
    | 2 => lhs * rhs
    | 3 => lhs <<< (rhs &&& 0x3F)
    | 4 => lhs >>> (rhs &&& 0x3F)
    | 5 => lhs &&& rhs
    | 6 => lhs ||| rhs
    | 7 => ~~~lhs
    | 8 => lhs ^^^ rhs
    | 9 => lhs
    | _ => 0
  result &&& mask

/-! ### The arms of `execute_opcode` -/

def Data.setRegister (d : Data W) (i : Fin 16) (value : Value) : Data W :=
  { d with registers := Function.update d.registers i value }

def Data.setSaved (d : Data W) (i : Fin 16) (value : Value) : Data W :=
  { d with savedValues := Function.update d.savedValues i value }

def Data.storeStatic (d : Data W) (op : StoreStaticOpcode) : Data W :=
  let address := getCheatProcessAddress env op.memType op.relAddress + d.registers op.offsetRegister
  d.writeValueToAddress env address op.bitWidth (getVmInt op.value op.bitWidth)

def Data.beginConditional (d : Data W) (op : BeginConditionalOpcode) : Bool × Data W :=
  let address := getCheatProcessAddress env op.memType op.relAddress
  let (memValue, d) := d.readValueFromAddress env address op.bitWidth
  (evaluateCondition op.condType op.bitWidth memValue (getVmInt op.value op.bitWidth), d)

def Data.loadRegisterMemory (d : Data W) (op : LoadRegisterMemoryOpcode) : Data W :=
  let address := if op.loadFromReg then d.registers op.regIndex + op.relAddress
    else getCheatProcessAddress env op.memType op.relAddress
  if h : IsWidth op.bitWidth then
    let (value, d) := d.readOver env address op.bitWidth h.le (d.registers op.regIndex)
    d.setRegister op.regIndex value
  else d

def Data.storeStaticToAddress (d : Data W) (op : StoreStaticToAddressOpcode) : Data W :=
  let address := d.registers op.regIndex
  let address := if op.addOffsetReg then address + d.registers op.offsetRegIndex else address
  let d := d.writeValueToAddress env address op.bitWidth op.value
  if op.incrementReg then
    d.setRegister op.regIndex (d.registers op.regIndex + BitVec.ofNat 64 op.bitWidth)
  else d

attribute [local instance] nibble_neZero in
def Data.performArithmeticStatic (d : Data W) (op : PerformArithmeticStaticOpcode) : Data W :=
  d.setRegister op.regIndex
    (performArithmetic (if op.mathType ≤ 4 then op.mathType else 9) op.bitWidth
      (d.registers op.regIndex) (op.value.setWidth 64))

def keypressHolds (op : BeginKeypressConditionalOpcode) : Bool :=
  env.keysDown &&& op.keyMask.setWidth 64 == op.keyMask.setWidth 64

def Data.performArithmeticRegister (d : Data W) (op : PerformArithmeticRegisterOpcode) : Data W :=
  let rhs := if op.hasImmediate then getVmInt op.value op.bitWidth else d.registers op.srcReg2Index
  d.setRegister op.dstRegIndex
    (performArithmetic op.mathType op.bitWidth (d.registers op.srcReg1Index) rhs)

def Data.storeRegisterToAddress (d : Data W) (op : StoreRegisterToAddressOpcode) : Data W :=
  let value := d.registers op.strRegIndex
  let address := d.registers op.addrRegIndex
  let address := match op.ofsType.val with
    | 0 => address
    | 1 => address + d.registers op.ofsRegIndex
    | 2 => address + op.relAddress
    | 3 => getCheatProcessAddress env op.memType 0 + d.registers op.addrRegIndex
    | 4 => getCheatProcessAddress env op.memType op.relAddress
    | 5 => getCheatProcessAddress env op.memType op.relAddress + d.registers op.addrRegIndex
    | _ => address
  let d := d.writeValueToAddress env address op.bitWidth value
  if op.incrementReg then
    d.setRegister op.addrRegIndex (d.registers op.addrRegIndex + BitVec.ofNat 64 op.bitWidth)
  else d

def Data.beginRegisterConditional (d : Data W) (op : BeginRegisterConditionalOpcode) :
    Bool × Data W :=
  let lhs := d.registers op.valRegIndex
  let read address := d.readValueFromAddress env address op.bitWidth
  let (rhs, d) := match op.compType.val with
    | 0 => read (getCheatProcessAddress env op.memType op.relAddress)
    | 1 => read (getCheatProcessAddress env op.memType 0 + d.registers op.ofsRegIndex)
    | 2 => read (d.registers op.addrRegIndex + op.relAddress)
    | 3 => read (d.registers op.addrRegIndex + d.registers op.ofsRegIndex)
    | 4 => (getVmInt op.value op.bitWidth, d)
    | 5 => (d.registers op.otherRegIndex, d)
    | _ => read 0
  (evaluateCondition op.condType op.bitWidth lhs rhs, d)

/-- One register of the operations on saved registers. -/
def Data.saveRestore (d : Data W) (opType : Nibble) (dst src : Fin 16) : Data W :=
  match opType.val with
  | 0 => d.setRegister dst (d.savedValues src)
  | 1 => d.setSaved dst (d.registers src)
  | 2 => d.setSaved dst 0
  | 3 => d.setRegister dst 0
  | _ => d.setRegister dst (d.savedValues src)

def Data.saveRestoreRegisterMask (d : Data W) (op : SaveRestoreRegisterMaskOpcode) : Data W :=
  (List.finRange 16).foldl
    (fun d i => if op.shouldOperate i then d.saveRestore op.opType i i else d) d

def Data.readWriteStaticRegister (d : Data W) (op : ReadWriteStaticRegisterOpcode) : Data W :=
  if op.staticIdx < 0x80 then d.setRegister op.idx (d.staticRegisters op.staticIdx)
  else
    { d with staticRegisters :=
        Function.update d.staticRegisters op.staticIdx (d.registers op.idx) }

def Data.debugLog (d : Data W) (op : DebugLogOpcode) : Data W :=
  let read address := d.readValueFromAddress env address op.bitWidth
  let (value, d) := match op.valType.val with
    | 0 => read (getCheatProcessAddress env op.memType op.relAddress)
    | 1 => read (getCheatProcessAddress env op.memType 0 + d.registers op.ofsRegIndex)
    | 2 => read (d.registers op.addrRegIndex + op.relAddress)
    | 3 => read (d.registers op.addrRegIndex + d.registers op.ofsRegIndex)
    | 4 => (getVmInt ⟨d.registers op.valRegIndex⟩ op.bitWidth, d)
    | _ => read 0
  { d with world := env.callbacks.debugLog d.world (BitVec.ofNat 8 op.logId) value }

/-- The instructions that change nothing but the data. -/
def Data.perform (d : Data W) : Variant → Data W
  | .storeStatic op => d.storeStatic env op
  | .loadRegisterStatic op => d.setRegister op.regIndex op.value
  | .loadRegisterMemory op => d.loadRegisterMemory env op
  | .storeStaticToAddress op => d.storeStaticToAddress env op
  | .performArithmeticStatic op => d.performArithmeticStatic op
  | .performArithmeticRegister op => d.performArithmeticRegister op
  | .storeRegisterToAddress op => d.storeRegisterToAddress env op
  | .saveRestoreRegister op => d.saveRestore op.opType op.dstIndex op.srcIndex
  | .saveRestoreRegisterMask op => d.saveRestoreRegisterMask op
  | .readWriteStaticRegister op => d.readWriteStaticRegister op
  | .pauseProcess => { d with world := env.callbacks.pauseProcess d.world }
  | .resumeProcess => { d with world := env.callbacks.resumeProcess d.world }
  | .debugLog op => d.debugLog env op
  | .beginConditional _ | .beginKeypressConditional _ | .beginRegisterConditional _
  | .endConditional _ | .controlLoop _ => d

/-- Whether the condition of an instruction holds, and the data after the reads for it. -/
def Data.condition (d : Data W) : Variant → Option (Bool × Data W)
  | .beginConditional op => some (d.beginConditional env op)
  | .beginKeypressConditional op => some (keypressHolds env op, d)
  | .beginRegisterConditional op => some (d.beginRegisterConditional env op)
  | _ => none

def Data.startLoop (d : Data W) (reg : Fin 16) (numIters : BitVec 32) (top : ℕ) : Data W :=
  let d := d.setRegister reg (numIters.setWidth 64)
  { d with loopTops := Function.update d.loopTops reg top }

def Data.logCommand (d : Data W) (instructionPtr : ℕ) (opcode : Variant) : Data W :=
  let command := Command.instruction instructionPtr d.registers d.savedValues opcode
  { d with world := env.callbacks.commandLog d.world command }

/-! ### Instructions other than loops leave the loop tops -/

theorem readOver_loopTops (d : Data W) (address : Value) (w : Nibble) (hw : w.val ≤ 8)
    (value : Value) : (d.readOver env address w hw value).2.loopTops = d.loopTops := rfl

@[simp] theorem readValueFromAddress_loopTops (d : Data W) (address : Value) (w : Nibble) :
    (d.readValueFromAddress env address w).2.loopTops = d.loopTops := by
  unfold Data.readValueFromAddress
  split <;> rfl

@[simp] theorem writeValueToAddress_loopTops (d : Data W) (address : Value) (w : Nibble)
    (value : Value) : (d.writeValueToAddress env address w value).loopTops = d.loopTops := by
  unfold Data.writeValueToAddress
  split <;> rfl

@[simp] theorem saveRestore_loopTops (d : Data W) (opType : Nibble) (dst src : Fin 16) :
    (d.saveRestore opType dst src).loopTops = d.loopTops := by
  unfold Data.saveRestore
  split <;> rfl

theorem saveRestoreRegisterMask_loopTops (d : Data W) (op : SaveRestoreRegisterMaskOpcode) :
    (d.saveRestoreRegisterMask op).loopTops = d.loopTops := by
  unfold Data.saveRestoreRegisterMask
  generalize List.finRange 16 = is
  induction is generalizing d with
  | nil => rfl
  | cons i is ih =>
    rw [List.foldl_cons, ih]
    split
    · exact saveRestore_loopTops d op.opType i i
    · rfl

theorem perform_loopTops (d : Data W) (opcode : Variant) :
    (d.perform env opcode).loopTops = d.loopTops := by
  cases opcode with
  | storeStatic op => exact writeValueToAddress_loopTops env d _ _ _
  | loadRegisterMemory op =>
    unfold Data.perform Data.loadRegisterMemory
    dsimp only
    split <;> rfl
  | storeStaticToAddress op =>
    unfold Data.perform Data.storeStaticToAddress
    dsimp only
    split <;> exact writeValueToAddress_loopTops env d _ _ _
  | storeRegisterToAddress op =>
    unfold Data.perform Data.storeRegisterToAddress
    dsimp only
    split <;> exact writeValueToAddress_loopTops env d _ _ _
  | saveRestoreRegister op => exact saveRestore_loopTops d _ _ _
  | saveRestoreRegisterMask op => exact saveRestoreRegisterMask_loopTops d op
  | readWriteStaticRegister op =>
    unfold Data.perform Data.readWriteStaticRegister
    dsimp only
    split <;> rfl
  | debugLog op =>
    unfold Data.perform Data.debugLog
    dsimp only
    split
    case h_5 => rfl
    all_goals exact readValueFromAddress_loopTops env d _ _
  | _ => rfl

theorem condition_loopTops {d d' : Data W} {opcode : Variant} {holds : Bool}
    (h : d.condition env opcode = some (holds, d')) : d'.loopTops = d.loopTops := by
  cases opcode with
  | beginConditional op =>
    have hd : (d.beginConditional env op).2 = d' := congrArg Prod.snd (Option.some.inj h)
    rw [← hd]
    exact readValueFromAddress_loopTops env d _ _
  | beginKeypressConditional op =>
    have hd : d = d' := congrArg Prod.snd (Option.some.inj h)
    rw [hd]
  | beginRegisterConditional op =>
    have hd : (d.beginRegisterConditional env op).2 = d' := congrArg Prod.snd (Option.some.inj h)
    rw [← hd]
    unfold Data.beginRegisterConditional
    dsimp only
    split
    case h_5 => rfl
    case h_6 => rfl
    all_goals exact readValueFromAddress_loopTops env d _ _
  | _ => cases h

/-! ### The machine -/

structure Skip where
  isIf : Bool
  desiredDepth : ℕ

structure Machine (W : Type) where
  vm : Vm W
  /-- The block that is being skipped. -/
  skip : Option Skip

inductive Outcome (W : Type)
  | next (m : Machine W)
  | halt (vm : Vm W)
  | fault

/-- One past the largest `usize`. -/
def usizeBound : ℕ := 2 ^ 64

/-- The depth one deeper, for what comes then; past a `usize` it is an overflow. -/
def Vm.deepen (vm : Vm W) (go : Vm W → Outcome W) : Outcome W :=
  if vm.conditionDepth + 1 < usizeBound then
    go { vm with conditionDepth := vm.conditionDepth + 1 }
  else .fault

/-- The entry of `skip_conditional_block`, with its assertion. -/
def Vm.skipConditionalBlock (vm : Vm W) (isIf : Bool) : Outcome W :=
  if 0 < vm.conditionDepth then .next ⟨vm, some ⟨isIf, vm.conditionDepth - 1⟩⟩ else .fault

def Vm.executeOpcode (vm : Vm W) (opcode : Variant) : Outcome W :=
  match vm.data.condition env opcode with
  | some (holds, data) =>
    let vm := { vm with data }
    if holds then .next ⟨vm, none⟩ else vm.skipConditionalBlock true
  | none =>
    match opcode with
    | .endConditional isElse =>
      if isElse then vm.skipConditionalBlock false
      else if 0 < vm.conditionDepth then
        .next ⟨{ vm with conditionDepth := vm.conditionDepth - 1 }, none⟩
      else .next ⟨vm, none⟩
    | .controlLoop op =>
      if op.startLoop then
        .next ⟨{ vm with data :=
          vm.data.startLoop op.regIndex op.numIters vm.cursor.instructionPtr }, none⟩
      else
        let counter := vm.data.registers op.regIndex - 1
        let vm := { vm with data := vm.data.setRegister op.regIndex counter }
        if counter != 0 then
          .next ⟨{ vm with cursor :=
            { vm.cursor with instructionPtr := vm.data.loopTops op.regIndex } }, none⟩
        else .next ⟨vm, none⟩
    | _ => .next ⟨{ vm with data := vm.data.perform env opcode }, none⟩

/-- One turn of the loop of `execute`. -/
def Vm.run (vm : Vm W) : Outcome W :=
  match decodeNextOpcode vm.program vm.cursor with
  | (none, cursor) => .halt { vm with cursor }
  | (some opcode, cursor) =>
    let data := vm.data.logCommand env cursor.instructionPtr opcode.variant
    let vm := { vm with cursor, data }
    if opcode.beginConditionalBlock then vm.deepen fun vm => vm.executeOpcode env opcode.variant
    else vm.executeOpcode env opcode.variant

/-- One turn of the loop of `skip_conditional_block`. -/
def Vm.skipOne (vm : Vm W) (skip : Skip) : Outcome W :=
  if skip.desiredDepth < vm.conditionDepth then
    match decodeNextOpcode vm.program vm.cursor with
    | (none, cursor) => .next ⟨{ vm with cursor }, none⟩
    | (some opcode, cursor) =>
      let vm := { vm with cursor }
      if opcode.beginConditionalBlock then vm.deepen fun vm => .next ⟨vm, some skip⟩
      else
        match opcode.variant with
        | .endConditional isElse =>
          if !isElse then
            .next ⟨{ vm with conditionDepth := vm.conditionDepth - 1 }, some skip⟩
          else if skip.isIf ∧ vm.conditionDepth - 1 = skip.desiredDepth then .next ⟨vm, none⟩
          else .next ⟨vm, some skip⟩
        | _ => .next ⟨vm, some skip⟩
  else .next ⟨vm, none⟩

def Machine.step (m : Machine W) : Outcome W :=
  match m.skip with
  | none => m.vm.run env
  | some skip => m.vm.skipOne skip

def Vm.resetState (vm : Vm W) : Vm W :=
  let data : Data W :=
    { vm.data with registers := fun _ => 0, savedValues := fun _ => 0, loopTops := fun _ => 0 }
  { vm with data, cursor := ⟨0, true⟩, conditionDepth := 0 }

/-- `execute` up to its loop: the keys are sampled once. -/
def Vm.start (vm : Vm W) (callbacks : VmCallbacks W) (metadata : CheatProcessMetadata) :
    Env W × Machine W :=
  let (world, keysDown) := callbacks.hidKeysDown vm.data.world
  let world := callbacks.commandLog world
    (.started metadata.mainNsoBase metadata.mainNsoBase (keysDown &&& 0x0FFFFFFF))
  (⟨callbacks, metadata, keysDown⟩,
    ⟨Vm.resetState { vm with data := { vm.data with world } }, none⟩)

end Ruzu.CheatVm
