import Ruzu.CheatVm.Opcode

/-!
# Decoding

`DmntCheatVm::decode_next_opcode`: an instruction takes as many words as its
first one asks for. A word read past the program fails the decoding, for good.
-/

set_option autoImplicit false

namespace Ruzu.CheatVm

structure Cursor where
  instructionPtr : ℕ
  decodeSuccess : Bool
  deriving DecidableEq

abbrev Decoder := StateM Cursor

def readProgramU32 (p : Program) : Decoder Word := fun c =>
  if h : c.instructionPtr < p.numOpcodes then
    (p.words ⟨c.instructionPtr, h.trans_le p.fits⟩,
      { c with instructionPtr := c.instructionPtr + 1 })
  else (0, { c with decodeSuccess := false })

def readVmInt (p : Program) (bitWidth : Nibble) : Decoder VmInt := do
  let first ← readProgramU32 p
  match bitWidth.val with
  | 1 => return ⟨(first.setWidth 8).setWidth 64⟩
  | 2 => return ⟨(first.setWidth 16).setWidth 64⟩
  | 4 => return ⟨first.setWidth 64⟩
  | 8 =>
    let low ← readProgramU32 p
    return ⟨first.setWidth 64 <<< 32 ||| low.setWidth 64⟩
  | _ => return ⟨0⟩

def readU64 (p : Program) : Decoder Value := do
  let high ← readProgramU32 p
  let low ← readProgramU32 p
  return high.setWidth 64 <<< 32 ||| low.setWidth 64

/-- The low bits of the first word over the next word. -/
def readRelAddress (p : Program) (first mask : Word) : Decoder Value := do
  let low ← readProgramU32 p
  return (first &&& mask).setWidth 64 <<< 32 ||| low.setWidth 64

def nibble (word : Word) (shift : ℕ) : Nibble :=
  ⟨((word >>> shift) &&& 0xF).toNat, by
    rw [BitVec.toNat_and]
    exact lt_of_le_of_lt Nat.and_le_right (by decide)⟩

def staticIndex (word : Word) : Fin 256 :=
  ⟨((word >>> 4) &&& 0xFF).toNat, by
    rw [BitVec.toNat_and]
    exact lt_of_le_of_lt Nat.and_le_right (by decide)⟩

inductive OpcodeType
  | storeStatic
  | beginConditionalBlock
  | endConditionalBlock
  | controlLoop
  | loadRegisterStatic
  | loadRegisterMemory
  | storeStaticToAddress
  | performArithmeticStatic
  | beginKeypressConditionalBlock
  | performArithmeticRegister
  | storeRegisterToAddress
  | beginRegisterConditionalBlock
  | saveRestoreRegister
  | saveRestoreRegisterMask
  | readWriteStaticRegister
  | pauseProcess
  | resumeProcess
  | debugLog
  deriving DecidableEq

/-- One nibble, two from `0xc` on, three from `0xf0` on. -/
def opcodeNumber (first : Word) : ℕ :=
  let number := (nibble first 28).val
  let number := if 0xc ≤ number then number * 16 + nibble first 24 else number
  if 0xf0 ≤ number then number * 16 + nibble first 20 else number

def opcodeType (first : Word) : Option OpcodeType :=
  match opcodeNumber first with
  | 0 => some .storeStatic
  | 1 => some .beginConditionalBlock
  | 2 => some .endConditionalBlock
  | 3 => some .controlLoop
  | 4 => some .loadRegisterStatic
  | 5 => some .loadRegisterMemory
  | 6 => some .storeStaticToAddress
  | 7 => some .performArithmeticStatic
  | 8 => some .beginKeypressConditionalBlock
  | 9 => some .performArithmeticRegister
  | 10 => some .storeRegisterToAddress
  | 0xC0 => some .beginRegisterConditionalBlock
  | 0xC1 => some .saveRestoreRegister
  | 0xC2 => some .saveRestoreRegisterMask
  | 0xC3 => some .readWriteStaticRegister
  | 0xFF0 => some .pauseProcess
  | 0xFF1 => some .resumeProcess
  | 0xFFF => some .debugLog
  | _ => none

def decodeStoreRegisterToAddress (p : Program) (first : Word) :
    Decoder StoreRegisterToAddressOpcode := do
  let op : StoreRegisterToAddressOpcode :=
    { bitWidth := nibble first 24
      strRegIndex := nibble first 20
      addrRegIndex := nibble first 16
      incrementReg := nibble first 12 != 0
      ofsType := nibble first 8
      memType := 0
      ofsRegIndex := nibble first 4
      relAddress := 0 }
  match op.ofsType.val with
  | 0 | 1 => return op
  | 2 =>
    let relAddress ← readRelAddress p first 0xF
    return { op with relAddress }
  | 3 => return { op with memType := nibble first 4 }
  | 4 | 5 =>
    let relAddress ← readRelAddress p first 0xF
    return { op with memType := nibble first 4, relAddress }
  | _ => return { op with ofsType := 0 }

def decodeBeginRegisterConditional (p : Program) (first : Word) :
    Decoder BeginRegisterConditionalOpcode := do
  let op : BeginRegisterConditionalOpcode :=
    { bitWidth := nibble first 20
      condType := nibble first 16
      valRegIndex := nibble first 12
      compType := nibble first 8
      memType := 0
      addrRegIndex := 0
      otherRegIndex := 0
      ofsRegIndex := 0
      relAddress := 0
      value := ⟨0⟩ }
  match op.compType.val with
  | 4 =>
    let value ← readVmInt p op.bitWidth
    return { op with value }
  | 5 => return { op with otherRegIndex := nibble first 4 }
  | 0 =>
    let relAddress ← readRelAddress p first 0xF
    return { op with memType := nibble first 4, relAddress }
  | 1 => return { op with memType := nibble first 4, ofsRegIndex := nibble first 0 }
  | 2 =>
    let relAddress ← readRelAddress p first 0xF
    return { op with addrRegIndex := nibble first 4, relAddress }
  | 3 => return { op with addrRegIndex := nibble first 4, ofsRegIndex := nibble first 0 }
  | _ => return op

def decodeDebugLog (p : Program) (first : Word) : Decoder DebugLogOpcode := do
  let op : DebugLogOpcode :=
    { bitWidth := nibble first 16
      logId := nibble first 12
      valType := nibble first 8
      memType := 0
      addrRegIndex := 0
      valRegIndex := 0
      ofsRegIndex := 0
      relAddress := 0 }
  match op.valType.val with
  | 4 => return { op with valRegIndex := nibble first 4 }
  | 0 =>
    let relAddress ← readRelAddress p first 0xF
    return { op with memType := nibble first 4, relAddress }
  | 1 => return { op with memType := nibble first 4, ofsRegIndex := nibble first 0 }
  | 2 =>
    let relAddress ← readRelAddress p first 0xF
    return { op with addrRegIndex := nibble first 4, relAddress }
  | 3 => return { op with addrRegIndex := nibble first 4, ofsRegIndex := nibble first 0 }
  | _ => return op

/-- The arms of `decode_next_opcode`, with whether the instruction begins a conditional block. -/
def decodeVariant (p : Program) (first : Word) : OpcodeType → Decoder Opcode
  | .storeStatic => do
    let bitWidth := nibble first 24
    let relAddress ← readRelAddress p first 0xFF
    let value ← readVmInt p bitWidth
    return ⟨false, .storeStatic
      { bitWidth, memType := nibble first 20, offsetRegister := nibble first 16, relAddress,
        value }⟩
  | .beginConditionalBlock => do
    let bitWidth := nibble first 24
    let relAddress ← readRelAddress p first 0xFF
    let value ← readVmInt p bitWidth
    return ⟨true, .beginConditional
      { bitWidth, memType := nibble first 20, condType := nibble first 16, relAddress, value }⟩
  | .endConditionalBlock => return ⟨false, .endConditional (nibble first 24 == 1)⟩
  | .controlLoop => do
    let startLoop := nibble first 24 == 0
    let regIndex := nibble first 20
    let numIters ← if startLoop then readProgramU32 p else pure 0
    return ⟨false, .controlLoop { startLoop, regIndex, numIters }⟩
  | .loadRegisterStatic => do
    let value ← readU64 p
    return ⟨false, .loadRegisterStatic { regIndex := nibble first 16, value }⟩
  | .loadRegisterMemory => do
    let relAddress ← readRelAddress p first 0xFF
    return ⟨false, .loadRegisterMemory
      { bitWidth := nibble first 24, memType := nibble first 20, regIndex := nibble first 16,
        loadFromReg := nibble first 12 != 0, relAddress }⟩
  | .storeStaticToAddress => do
    let value ← readU64 p
    return ⟨false, .storeStaticToAddress
      { bitWidth := nibble first 24, regIndex := nibble first 16,
        incrementReg := nibble first 12 != 0, addOffsetReg := nibble first 8 != 0,
        offsetRegIndex := nibble first 4, value }⟩
  | .performArithmeticStatic => do
    let value ← readProgramU32 p
    return ⟨false, .performArithmeticStatic
      { bitWidth := nibble first 24, regIndex := nibble first 16, mathType := nibble first 12,
        value }⟩
  | .beginKeypressConditionalBlock =>
    return ⟨true, .beginKeypressConditional { keyMask := first &&& 0x0FFFFFFF }⟩
  | .performArithmeticRegister => do
    let bitWidth := nibble first 24
    let hasImmediate := nibble first 8 != 0
    let value ← if hasImmediate then readVmInt p bitWidth else pure ⟨0⟩
    return ⟨false, .performArithmeticRegister
      { bitWidth, mathType := nibble first 20, dstRegIndex := nibble first 16,
        srcReg1Index := nibble first 12,
        srcReg2Index := if hasImmediate then 0 else nibble first 4, hasImmediate, value }⟩
  | .storeRegisterToAddress => do
    let op ← decodeStoreRegisterToAddress p first
    return ⟨false, .storeRegisterToAddress op⟩
  | .beginRegisterConditionalBlock => do
    let op ← decodeBeginRegisterConditional p first
    return ⟨true, .beginRegisterConditional op⟩
  | .saveRestoreRegister =>
    return ⟨false, .saveRestoreRegister
      { dstIndex := nibble first 16, srcIndex := nibble first 8, opType := nibble first 4 }⟩
  | .saveRestoreRegisterMask =>
    return ⟨false, .saveRestoreRegisterMask
      { opType := nibble first 20, shouldOperate := fun i => first &&& (1 <<< i.val) != 0 }⟩
  | .readWriteStaticRegister =>
    return ⟨false, .readWriteStaticRegister
      { staticIdx := staticIndex first, idx := nibble first 0 }⟩
  | .pauseProcess => return ⟨false, .pauseProcess⟩
  | .resumeProcess => return ⟨false, .resumeProcess⟩
  | .debugLog => do
    let op ← decodeDebugLog p first
    return ⟨false, .debugLog op⟩

def decodeNextOpcode (p : Program) : Decoder (Option Opcode) := fun c =>
  if c.decodeSuccess then
    let (first, c) := readProgramU32 p c
    if c.decodeSuccess then
      match opcodeType first with
      | none => (none, { c with decodeSuccess := false })
      | some type =>
        let (opcode, c) := decodeVariant p first type c
        (if c.decodeSuccess then some opcode else none, c)
    else (none, c)
  else (none, c)

/-! ### What decoding does to the cursor -/

/-- The cursor goes on inside the program, and a failure stays. -/
def Reads {α : Type} (p : Program) (m : Decoder α) : Prop :=
  ∀ c, c.instructionPtr ≤ p.numOpcodes →
    c.instructionPtr ≤ (m c).2.instructionPtr ∧ (m c).2.instructionPtr ≤ p.numOpcodes ∧
      ((m c).2.decodeSuccess = true → c.decodeSuccess = true)

variable {p : Program} {α β : Type}

theorem reads_pure (a : α) : Reads p (pure a) := fun _ hc => ⟨le_rfl, hc, id⟩

theorem Reads.bind {m : Decoder α} {f : α → Decoder β} (hm : Reads p m)
    (hf : ∀ a, Reads p (f a)) : Reads p (m >>= f) := by
  intro c hc
  obtain ⟨hle, hfit, hkeep⟩ := hm c hc
  obtain ⟨hle', hfit', hkeep'⟩ := hf (m c).1 (m c).2 hfit
  exact ⟨hle.trans hle', hfit', fun h => hkeep (hkeep' h)⟩

theorem reads_program : Reads p (readProgramU32 p) := by
  intro c hc
  unfold readProgramU32
  split
  case isTrue h => exact ⟨Nat.le_succ _, h, id⟩
  case isFalse => exact ⟨le_rfl, hc, fun h => absurd h (by simp)⟩

theorem reads_u64 : Reads p (readU64 p) :=
  Reads.bind reads_program fun _ => Reads.bind reads_program fun _ => reads_pure _

theorem reads_relAddress (first mask : Word) : Reads p (readRelAddress p first mask) :=
  Reads.bind reads_program fun _ => reads_pure _

theorem reads_vmInt (bitWidth : Nibble) : Reads p (readVmInt p bitWidth) := by
  refine Reads.bind reads_program fun first => ?_
  split
  case h_4 => exact Reads.bind reads_program fun _ => reads_pure _
  all_goals exact reads_pure _

theorem reads_variant (first : Word) (type : OpcodeType) :
    Reads p (decodeVariant p first type) := by
  have hstore : Reads p (decodeStoreRegisterToAddress p first) := by
    unfold decodeStoreRegisterToAddress
    dsimp only
    split <;> first
      | exact reads_pure _
      | exact (reads_relAddress _ _).bind fun _ => reads_pure _
  have hcondition : Reads p (decodeBeginRegisterConditional p first) := by
    unfold decodeBeginRegisterConditional
    dsimp only
    split <;> first
      | exact reads_pure _
      | exact (reads_relAddress _ _).bind fun _ => reads_pure _
      | exact (reads_vmInt _).bind fun _ => reads_pure _
  have hlog : Reads p (decodeDebugLog p first) := by
    unfold decodeDebugLog
    dsimp only
    split <;> first
      | exact reads_pure _
      | exact (reads_relAddress _ _).bind fun _ => reads_pure _
  cases type with
  | storeStatic | beginConditionalBlock =>
    exact (reads_relAddress _ _).bind fun _ => (reads_vmInt _).bind fun _ => reads_pure _
  | controlLoop =>
    unfold decodeVariant
    dsimp only
    split
    · exact Reads.bind reads_program fun _ => reads_pure _
    · exact reads_pure _
  | loadRegisterStatic | storeStaticToAddress => exact Reads.bind reads_u64 fun _ => reads_pure _
  | loadRegisterMemory => exact (reads_relAddress _ _).bind fun _ => reads_pure _
  | performArithmeticStatic => exact Reads.bind reads_program fun _ => reads_pure _
  | performArithmeticRegister =>
    unfold decodeVariant
    dsimp only
    split
    · exact (reads_vmInt _).bind fun _ => reads_pure _
    · exact reads_pure _
  | storeRegisterToAddress => exact hstore.bind fun _ => reads_pure _
  | beginRegisterConditionalBlock => exact hcondition.bind fun _ => reads_pure _
  | debugLog => exact hlog.bind fun _ => reads_pure _
  | endConditionalBlock | beginKeypressConditionalBlock | saveRestoreRegister
  | saveRestoreRegisterMask | readWriteStaticRegister | pauseProcess | resumeProcess =>
    exact reads_pure _

theorem decodeNextOpcode_fits {c : Cursor} (hc : c.instructionPtr ≤ p.numOpcodes) :
    (decodeNextOpcode p c).2.instructionPtr ≤ p.numOpcodes := by
  have hread := reads_program c hc
  unfold decodeNextOpcode
  generalize readProgramU32 p c = r at hread ⊢
  obtain ⟨first, c₁⟩ := r
  split
  case isFalse => exact hc
  dsimp only
  split
  case isFalse => exact hread.2.1
  split
  case h_1 => exact hread.2.1
  case h_2 type _ => exact (reads_variant first type c₁ hread.2.1).2.1

theorem readProgramU32_success {c : Cursor} (h : (readProgramU32 p c).2.decodeSuccess = true) :
    c.instructionPtr < p.numOpcodes ∧
      (readProgramU32 p c).2.instructionPtr = c.instructionPtr + 1 := by
  unfold readProgramU32 at h ⊢
  split
  case isTrue hptr => exact ⟨hptr, rfl⟩
  case isFalse hptr => exact absurd h (by simp [hptr])

theorem decodeVariant_begins (first : Word) (type : OpcodeType) (c : Cursor) :
    (decodeVariant p first type c).1.beginConditionalBlock =
      (decodeVariant p first type c).1.variant.isCondition := by
  cases type with
  | controlLoop | performArithmeticRegister =>
    unfold decodeVariant
    dsimp only
    split <;> rfl
  | _ => rfl

theorem decodeNextOpcode_cases {c : Cursor} {op : Opcode}
    (h : (decodeNextOpcode p c).1 = some op) :
    c.decodeSuccess = true ∧ (readProgramU32 p c).2.decodeSuccess = true ∧
      (decodeNextOpcode p c).2.decodeSuccess = true ∧
      ∃ type, decodeVariant p (readProgramU32 p c).1 type (readProgramU32 p c).2 =
        (op, (decodeNextOpcode p c).2) := by
  unfold decodeNextOpcode at h ⊢
  generalize readProgramU32 p c = r at h ⊢
  obtain ⟨first, c₁⟩ := r
  split at h
  case isFalse => cases h
  case isTrue hc =>
  rw [if_pos hc]
  dsimp only at h ⊢
  split at h
  case isFalse => cases h
  case isTrue hfirst =>
  rw [if_pos hfirst]
  split at h
  case h_1 => cases h
  case h_2 type _ =>
  generalize hvariant : decodeVariant p first type c₁ = q at h ⊢
  obtain ⟨opcode, c₂⟩ := q
  dsimp only at h ⊢
  split at h
  case isFalse => cases h
  case isTrue hlast =>
  exact ⟨hc, hfirst, hlast, type, hvariant.trans (by rw [Option.some.inj h])⟩

theorem decodeNextOpcode_lt {c : Cursor} {op : Opcode} (h : (decodeNextOpcode p c).1 = some op) :
    c.instructionPtr < (decodeNextOpcode p c).2.instructionPtr := by
  obtain ⟨-, hfirst, -, type, hvariant⟩ := decodeNextOpcode_cases h
  obtain ⟨hlt, hnext⟩ := readProgramU32_success hfirst
  have hreads :=
    (reads_variant (p := p) (readProgramU32 p c).1 type (readProgramU32 p c).2 (by omega)).1
  rw [hvariant] at hreads
  dsimp only at hreads
  omega

theorem decodeNextOpcode_begins {c : Cursor} {op : Opcode}
    (h : (decodeNextOpcode p c).1 = some op) :
    op.beginConditionalBlock = op.variant.isCondition := by
  obtain ⟨-, -, -, type, hvariant⟩ := decodeNextOpcode_cases h
  have hbegins := decodeVariant_begins (p := p) (readProgramU32 p c).1 type (readProgramU32 p c).2
  rwa [hvariant] at hbegins

/-- The instruction at `pos` is `op`, of `size` words. -/
def Decodes (p : Program) (pos : ℕ) (op : Opcode) (size : ℕ) : Prop :=
  decodeNextOpcode p ⟨pos, true⟩ = (some op, ⟨pos + size, true⟩)

theorem Decodes.size_pos {pos size : ℕ} {op : Opcode} (h : Decodes p pos op size) :
    0 < size := by
  have hlt := decodeNextOpcode_lt (congrArg Prod.fst h)
  rw [h] at hlt
  exact Nat.lt_add_right_iff_pos.mp hlt

end Ruzu.CheatVm
