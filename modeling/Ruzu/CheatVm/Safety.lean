import Mathlib
import Ruzu.CheatVm.Execute

/-!
# Faults of the cheat machine

The only faults are an else marker that is executed outside of every block and
a block that begins at the greatest depth there is.
-/

set_option autoImplicit false

namespace Ruzu.CheatVm
open Relation

variable {W : Type} {env : Env W}

/-- The instruction that the next step decodes, if it decodes one. -/
def Machine.decoded (m : Machine W) : Option Opcode :=
  match m.skip with
  | none => (decodeNextOpcode m.vm.program m.vm.cursor).1
  | some skip =>
    if skip.desiredDepth < m.vm.conditionDepth then
      (decodeNextOpcode m.vm.program m.vm.cursor).1
    else none

/-- The next instruction neither begins a block at the greatest depth nor is an else
marker to execute outside of every block. -/
def StepOk (m : Machine W) : Prop :=
  ∀ op, m.decoded = some op →
    (op.beginConditionalBlock = true → m.vm.conditionDepth + 1 < usizeBound) ∧
      (m.skip = none → op.variant = .endConditional true → 0 < m.vm.conditionDepth)

def Leads (env : Env W) (m m' : Machine W) : Prop := m.step env = .next m'

abbrev Reaches (env : Env W) : Machine W → Machine W → Prop := ReflTransGen (Leads env)

/-! ### When a step is a fault -/

theorem skipConditionalBlock_fault {vm : Vm W} {isIf : Bool} :
    vm.skipConditionalBlock isIf = .fault ↔ vm.conditionDepth = 0 := by
  unfold Vm.skipConditionalBlock
  split
  case isTrue h => exact ⟨fun hf => (nomatch hf), fun hz => absurd h (by omega)⟩
  case isFalse h => exact ⟨fun _ => by omega, fun _ => rfl⟩

theorem condition_of_isCondition (env : Env W) (d : Data W) {opcode : Variant}
    (hcondition : opcode.isCondition = true) : ∃ r, d.condition env opcode = some r := by
  cases opcode <;> first | exact ⟨_, rfl⟩ | cases hcondition

theorem executeOpcode_condition (p : Program) (cursor : Cursor) (depth : ℕ) {d data : Data W}
    {opcode : Variant} {holds : Bool} (h : d.condition env opcode = some (holds, data)) :
    Vm.executeOpcode env ⟨p, cursor, depth, d⟩ opcode =
      if holds then .next ⟨⟨p, cursor, depth, data⟩, none⟩
      else Vm.skipConditionalBlock ⟨p, cursor, depth, data⟩ true := by
  unfold Vm.executeOpcode
  rw [h]

theorem executeOpcode_condition_fault {vm : Vm W} {opcode : Variant}
    (hcondition : opcode.isCondition = true) (hdepth : 0 < vm.conditionDepth) :
    vm.executeOpcode env opcode ≠ .fault := by
  obtain ⟨p, cursor, depth, d⟩ := vm
  obtain ⟨⟨holds, data⟩, hr⟩ := condition_of_isCondition env d hcondition
  rw [executeOpcode_condition p cursor depth hr]
  split
  · exact fun h => nomatch h
  · exact fun h => absurd (skipConditionalBlock_fault.1 h) (Nat.ne_of_gt hdepth)

theorem executeOpcode_fault {vm : Vm W} {opcode : Variant}
    (hcondition : opcode.isCondition = false) :
    vm.executeOpcode env opcode = .fault ↔
      opcode = .endConditional true ∧ vm.conditionDepth = 0 := by
  cases opcode with
  | beginConditional | beginKeypressConditional | beginRegisterConditional => cases hcondition
  | endConditional isElse =>
    cases isElse with
    | true => exact skipConditionalBlock_fault.trans (by simp)
    | false =>
      unfold Vm.executeOpcode Data.condition
      dsimp only
      rw [if_neg Bool.false_ne_true]
      split <;> simp
  | controlLoop op =>
    unfold Vm.executeOpcode Data.condition
    dsimp only
    split
    · simp
    · split <;> simp
  | _ =>
    unfold Vm.executeOpcode Data.condition
    simp

theorem stepOk_of_none {m : Machine W} (h : m.decoded = none) : StepOk m :=
  fun _ hop => nomatch h.symm.trans hop

theorem stepOk_of_some {m : Machine W} {op : Opcode} (h : m.decoded = some op) :
    StepOk m ↔ (op.beginConditionalBlock = true → m.vm.conditionDepth + 1 < usizeBound) ∧
      (m.skip = none → op.variant = .endConditional true → 0 < m.vm.conditionDepth) := by
  refine ⟨fun hok => hok op h, fun hop op' h' => ?_⟩
  rwa [Option.some.inj (h'.symm.trans h)]

theorem run_fault {vm : Vm W} : vm.run env = .fault ↔ ¬StepOk ⟨vm, none⟩ := by
  rcases hdecode : decodeNextOpcode vm.program vm.cursor with ⟨_ | op, cursor⟩
  case none =>
    have hok : StepOk (⟨vm, none⟩ : Machine W) := stepOk_of_none (congrArg Prod.fst hdecode)
    unfold Vm.run
    rw [hdecode]
    exact ⟨fun h => (nomatch h), fun h => absurd hok h⟩
  case some =>
    have hsome : (decodeNextOpcode vm.program vm.cursor).1 = some op := congrArg Prod.fst hdecode
    have hdecoded : (⟨vm, none⟩ : Machine W).decoded = some op := hsome
    have hflag := decodeNextOpcode_begins hsome
    rw [stepOk_of_some hdecoded, hflag]
    unfold Vm.run
    rw [hdecode]
    dsimp only
    rw [hflag]
    cases hcondition : op.variant.isCondition with
    | true =>
      have helse : op.variant ≠ .endConditional true := by
        intro h
        rw [h] at hcondition
        cases hcondition
      rw [if_pos rfl, Vm.deepen]
      split
      case isTrue h =>
        refine ⟨fun hfault => absurd hfault ?_, fun hok => absurd ⟨fun _ => h, ?_⟩ hok⟩
        · exact executeOpcode_condition_fault hcondition (Nat.succ_pos _)
        · exact fun _ hisElse => absurd hisElse helse
      case isFalse h => exact ⟨fun _ hok => h (hok.1 rfl), fun _ => rfl⟩
    | false =>
      rw [if_neg Bool.false_ne_true, executeOpcode_fault hcondition]
      simp

theorem skipOne_fault {vm : Vm W} {skip : Skip} :
    vm.skipOne skip = .fault ↔ ¬StepOk ⟨vm, some skip⟩ := by
  unfold Vm.skipOne
  by_cases hdepth : skip.desiredDepth < vm.conditionDepth
  case neg =>
    have hok : StepOk (⟨vm, some skip⟩ : Machine W) := stepOk_of_none (if_neg hdepth)
    rw [if_neg hdepth]
    exact ⟨fun h => (nomatch h), fun h => absurd hok h⟩
  rw [if_pos hdepth]
  rcases hdecode : decodeNextOpcode vm.program vm.cursor with ⟨_ | op, cursor⟩
  case none =>
    have hok : StepOk (⟨vm, some skip⟩ : Machine W) :=
      stepOk_of_none ((if_pos hdepth).trans (congrArg Prod.fst hdecode))
    exact ⟨fun h => (nomatch h), fun h => absurd hok h⟩
  case some =>
    have hdecoded : (⟨vm, some skip⟩ : Machine W).decoded = some op :=
      (if_pos hdepth).trans (congrArg Prod.fst hdecode)
    rw [stepOk_of_some hdecoded]
    dsimp only
    cases op.beginConditionalBlock with
    | true =>
      rw [if_pos rfl, Vm.deepen]
      split <;> simp [*]
    | false =>
      rw [if_neg Bool.false_ne_true]
      split
      · split
        · simp
        · split <;> simp
      · simp

theorem step_fault {m : Machine W} : m.step env = .fault ↔ ¬StepOk m := by
  obtain ⟨vm, _ | skip⟩ := m
  · exact run_fault
  · exact skipOne_fault

/-! ### The instruction pointer -/

structure Vm.Fits (vm : Vm W) : Prop where
  cursor : vm.cursor.instructionPtr ≤ vm.program.numOpcodes
  loopTops : ∀ r, vm.data.loopTops r ≤ vm.program.numOpcodes

theorem Vm.Fits.decoded {vm : Vm W} (h : vm.Fits) {r : Option Opcode} {cursor : Cursor}
    (hdecode : decodeNextOpcode vm.program vm.cursor = (r, cursor)) :
    ({ vm with cursor } : Vm W).Fits := by
  have hcursor := decodeNextOpcode_fits h.cursor
  rw [hdecode] at hcursor
  exact ⟨hcursor, h.loopTops⟩

theorem skipConditionalBlock_next {vm : Vm W} {isIf : Bool} {m : Machine W}
    (h : vm.skipConditionalBlock isIf = .next m) : m.vm = vm := by
  unfold Vm.skipConditionalBlock at h
  split at h
  case isTrue => rw [← Outcome.next.inj h]
  case isFalse => cases h

theorem deepen_next {vm : Vm W} {go : Vm W → Outcome W} {m : Machine W}
    (h : vm.deepen go = .next m) :
    go { vm with conditionDepth := vm.conditionDepth + 1 } = .next m := by
  unfold Vm.deepen at h
  split at h
  case isTrue => exact h
  case isFalse => cases h

theorem executeOpcode_fits {vm : Vm W} (hfits : vm.Fits) {opcode : Variant} {m : Machine W}
    (h : vm.executeOpcode env opcode = .next m) : m.vm.Fits := by
  unfold Vm.executeOpcode at h
  split at h
  case h_1 holds data hcondition =>
    have hdata : ({ vm with data } : Vm W).Fits := by
      refine ⟨hfits.cursor, fun r => ?_⟩
      rw [condition_loopTops env hcondition]
      exact hfits.loopTops r
    dsimp only at h
    split at h
    case isTrue => exact (Outcome.next.inj h) ▸ hdata
    case isFalse => exact (skipConditionalBlock_next h) ▸ hdata
  case h_2 =>
  split at h
  case h_1 =>
    split at h
    case isTrue => exact (skipConditionalBlock_next h) ▸ hfits
    case isFalse =>
      split at h
      · exact (Outcome.next.inj h) ▸ ⟨hfits.cursor, hfits.loopTops⟩
      · exact (Outcome.next.inj h) ▸ hfits
  case h_2 op _ =>
    split at h
    case isTrue =>
      rw [← Outcome.next.inj h]
      refine ⟨hfits.cursor, fun r => ?_⟩
      by_cases hr : r = op.regIndex
      · rw [hr]
        exact (Function.update_self op.regIndex _ vm.data.loopTops).trans_le hfits.cursor
      · exact (Function.update_of_ne hr _ vm.data.loopTops).trans_le (hfits.loopTops r)
    case isFalse =>
      dsimp only at h
      split at h
      · exact (Outcome.next.inj h) ▸ ⟨hfits.loopTops op.regIndex, hfits.loopTops⟩
      · exact (Outcome.next.inj h) ▸ ⟨hfits.cursor, hfits.loopTops⟩
  case h_3 =>
    rw [← Outcome.next.inj h]
    refine ⟨hfits.cursor, fun r => ?_⟩
    rw [perform_loopTops env vm.data opcode]
    exact hfits.loopTops r

theorem run_fits {vm : Vm W} (hfits : vm.Fits) {m : Machine W} (h : vm.run env = .next m) :
    m.vm.Fits := by
  unfold Vm.run at h
  split at h
  case h_1 => cases h
  case h_2 op cursor hdecode =>
    have hlogged : ({ vm with
        cursor, data := vm.data.logCommand env cursor.instructionPtr op.variant } : Vm W).Fits :=
      ⟨(hfits.decoded hdecode).cursor, hfits.loopTops⟩
    dsimp only at h
    split at h
    case isTrue =>
      refine executeOpcode_fits ?_ (deepen_next h)
      exact ⟨hlogged.cursor, hlogged.loopTops⟩
    case isFalse => exact executeOpcode_fits hlogged h

theorem skipOne_fits {vm : Vm W} (hfits : vm.Fits) {skip : Skip} {m : Machine W}
    (h : vm.skipOne skip = .next m) : m.vm.Fits := by
  unfold Vm.skipOne at h
  split at h
  case isFalse => exact (Outcome.next.inj h) ▸ hfits
  case isTrue =>
  split at h
  case h_1 _ cursor hdecode => exact (Outcome.next.inj h) ▸ hfits.decoded hdecode
  case h_2 _ op cursor hdecode =>
    have hnext := hfits.decoded hdecode
    dsimp only at h
    split at h
    case isTrue => exact (Outcome.next.inj (deepen_next h)) ▸ ⟨hnext.cursor, hnext.loopTops⟩
    case isFalse =>
      split at h
      case h_1 =>
        split at h
        · exact (Outcome.next.inj h) ▸ ⟨hnext.cursor, hnext.loopTops⟩
        · split at h <;> exact (Outcome.next.inj h) ▸ hnext
      case h_2 => exact (Outcome.next.inj h) ▸ hnext

theorem step_fits {m m' : Machine W} (hfits : m.vm.Fits) (h : m.step env = .next m') :
    m'.vm.Fits := by
  obtain ⟨vm, _ | skip⟩ := m
  · exact run_fits hfits h
  · exact skipOne_fits hfits h

theorem start_fits (vm : Vm W) (callbacks : VmCallbacks W) (metadata : CheatProcessMetadata) :
    (vm.start callbacks metadata).2.vm.Fits :=
  ⟨Nat.zero_le _, fun _ => Nat.zero_le _⟩

theorem reaches_fits {m m' : Machine W} (hfits : m.vm.Fits) (h : Reaches env m m') :
    m'.vm.Fits := by
  induction h with
  | refl => exact hfits
  | tail _ hstep ih => exact step_fits ih hstep

/-- A run is safe just if it meets no else marker outside of every block and never
begins a block at the greatest depth. -/
theorem execute_safe_iff (vm : Vm W) (callbacks : VmCallbacks W)
    (metadata : CheatProcessMetadata) :
    (∀ m, Reaches (vm.start callbacks metadata).1 (vm.start callbacks metadata).2 m →
        m.step (vm.start callbacks metadata).1 ≠ .fault ∧
          m.vm.cursor.instructionPtr ≤ m.vm.program.numOpcodes) ↔
      ∀ m, Reaches (vm.start callbacks metadata).1 (vm.start callbacks metadata).2 m →
        StepOk m := by
  constructor
  · intro h m hm
    exact not_not.mp fun hok => (h m hm).1 (step_fault.2 hok)
  · intro h m hm
    exact ⟨fun hfault => step_fault.1 hfault (h m hm),
      (reaches_fits (start_fits vm callbacks metadata) hm).cursor⟩

/-! ### An else marker outside of every block -/

def enabledCheat (words : List Word) : CheatEntry :=
  ⟨true, ⟨BitVec.ofNat 32 words.length, fun i => words.getD i 0⟩⟩

def noProgram : Program := ⟨fun _ => 0, 0, Nat.zero_le _⟩

/-- A new machine that has loaded the cheats. -/
def loaded (world : W) (cheats : List CheatEntry) : Vm W where
  program := (loadProgram noProgram cheats).1
  cursor := ⟨0, false⟩
  conditionDepth := 0
  data := ⟨fun _ => 0, fun _ => 0, fun _ => 0, fun _ => 0, world⟩

/-- Callbacks that only count the commands they log. -/
def countingCallbacks : VmCallbacks ℕ where
  memoryRead count _ _ bytes := (count, bytes)
  memoryWrite count _ _ := count
  hidKeysDown count := (count, 0)
  pauseProcess count := count
  resumeProcess count := count
  debugLog count _ _ := count
  commandLog count _ := count + 1

def elseMarker : List CheatEntry := [enabledCheat [0x21000000]]

theorem elseMarker_faults :
    (loadProgram noProgram elseMarker).2 = true ∧
      ((loaded 0 elseMarker).start countingCallbacks ⟨0, 0, 0, 0⟩).2.step
        ((loaded 0 elseMarker).start countingCallbacks ⟨0, 0, 0, 0⟩).1 = .fault :=
  ⟨by decide, rfl⟩

end Ruzu.CheatVm
