import Mathlib
import Ruzu.Ir.Opcode

/-!
# Values, instructions and blocks

A block is an arena of instructions that refer to each other by index. What
an instruction computes is its code, the opcode and the arguments; use counts
only say whether an emptied slot counts as removed.
-/

set_option autoImplicit false

namespace Ruzu.Ir

inductive A32Reg where
  | r (n : Fin 16)
  | invalidReg
deriving DecidableEq

def A32Reg.number : A32Reg → ℕ
  | .r n => n
  | .invalidReg => 99

inductive A32ExtReg where
  | single (n : Fin 32)
  | double (n : Fin 32)
  | quad (n : Fin 16)
deriving DecidableEq

namespace A32ExtReg

def isDouble : A32ExtReg → Bool
  | .double _ => true
  | _ => false

/-- The index within the category. -/
def index : A32ExtReg → ℕ
  | .single n => n
  | .double n => n
  | .quad n => n

def backingIndex : A32ExtReg → ℕ
  | .single n => n
  | .double n => 2*n
  | .quad n => 4*n

end A32ExtReg

inductive Value where
  | void
  | inst (r : ℕ)
  | emptyNZCVImmediateMarker
  | immU1 (v : Bool)
  | immU8 (v : BitVec 8)
  | immU16 (v : BitVec 16)
  | immU32 (v : BitVec 32)
  | immU64 (v : BitVec 64)
  | immA64Reg (r : Fin 32)
  | immA64Vec (v : Fin 32)
  | immA32Reg (r : A32Reg)
  | immA32ExtReg (r : A32ExtReg)
  | immCoprocInfo (v : BitVec 64)
  | immCond (c : ℕ)
  | immAccType (a : ℕ)
deriving DecidableEq

namespace Value

def getType : Value → Ty
  | .void => .void
  | .inst _ => .anyTy
  | .emptyNZCVImmediateMarker => .nzcvFlags
  | .immU1 _ => .u1
  | .immU8 _ => .u8
  | .immU16 _ => .u16
  | .immU32 _ => .u32
  | .immU64 _ => .u64
  | .immA64Reg _ => .a64Reg
  | .immA64Vec _ => .a64Vec
  | .immA32Reg _ => .a32Reg
  | .immA32ExtReg _ => .a32ExtReg
  | .immCoprocInfo _ => .coprocInfo
  | .immCond _ => .cond
  | .immAccType _ => .accType

def ref : Value → Option ℕ
  | .inst r => some r
  | _ => none

/-- The value once an instruction has been inserted at `index`. -/
def renumber (index : ℕ) : Value → Value
  | .inst r => .inst (if index ≤ r then r+1 else r)
  | v => v

end Value

structure Inst where
  opcode : Opcode
  args : List Value
  useCount : ℕ
deriving DecidableEq

namespace Inst

def new (opcode : Opcode) (args : List Value) : Inst := ⟨opcode, args, 0⟩

def numArgs (i : Inst) : ℕ := i.opcode.numArgs

def arg (i : Inst) (k : ℕ) : Value := i.args.getD k .void

def isTombstone (i : Inst) : Bool := i.opcode = .void ∧ i.useCount = 0

def tombstone (i : Inst) : Inst := { i with opcode := .void, args := [] }

def replaceWithIdentity (value : Value) (i : Inst) : Inst :=
  { i with opcode := .identity, args := [value] }

/-- The instructions that the arguments refer to. -/
def refs (i : Inst) : List ℕ := (i.args.take i.numArgs).filterMap Value.ref

def addUse (i : Inst) : Inst := { i with useCount := i.useCount+1 }

def dropUse (i : Inst) : Inst := { i with useCount := i.useCount-1 }

/-- What the instruction computes. -/
def code (i : Inst) : Opcode × List Value := (i.opcode, i.args)

@[simp] theorem addUse_code (i : Inst) : i.addUse.code = i.code := rfl

@[simp] theorem dropUse_code (i : Inst) : i.dropUse.code = i.code := rfl

end Inst

structure Block where
  instructions : List Inst
deriving DecidableEq

namespace Block

def inst (b : Block) (k : ℕ) : Inst := b.instructions.getD k (.new .void [])

def modify (b : Block) (k : ℕ) (f : Inst → Inst) : Block := ⟨b.instructions.modify k f⟩

/-- Append an instruction that uses the results it refers to. -/
def append (b : Block) (opcode : Opcode) (args : List Value) : Block :=
  ⟨((args.filterMap Value.ref).foldl (fun b r => b.modify r Inst.addUse) b).instructions ++
    [.new opcode args]⟩

def dropUses (b : Block) (refs : List ℕ) : Block :=
  refs.foldl (fun b r => b.modify r Inst.dropUse) b

def addUses (b : Block) (refs : List ℕ) : Block :=
  refs.foldl (fun b r => b.modify r Inst.addUse) b

def replaceUsesWith (b : Block) (target : ℕ) (replacement : Value) : Block :=
  ((b.dropUses (b.inst target).refs).modify target (.replaceWithIdentity replacement)).addUses
    replacement.ref.toList

def invalidate (b : Block) (target : ℕ) : Block :=
  (b.dropUses (b.inst target).refs).modify target .tombstone

def setArg (b : Block) (target idx : ℕ) (value : Value) : Block :=
  ((b.dropUses ((b.inst target).arg idx).ref.toList).addUses value.ref.toList).modify target
    fun i => { i with args := i.args.set idx value }

def recomputeUseCounts (b : Block) : Block :=
  (b.instructions.flatMap Inst.refs).foldl (fun b r => b.modify r Inst.addUse)
    ⟨b.instructions.map fun i => { i with useCount := 0 }⟩

/-- Insert an instruction before `index`; later references move up. -/
def insert (b : Block) (index : ℕ) (opcode : Opcode) (args : List Value) : Block :=
  recomputeUseCounts
    ⟨(b.instructions.map fun i => { i with args := i.args.map (Value.renumber index) }).insertIdx
      index (.new opcode (args.map (Value.renumber index)))⟩

def code (b : Block) : List (Opcode × List Value) := b.instructions.map Inst.code

theorem inst_code {b : Block} {i : ℕ} {c : Opcode × List Value} (hc : b.code[i]? = some c) :
    (b.inst i).code = c := by
  rw [code, List.getElem?_map, Option.map_eq_some_iff] at hc
  obtain ⟨inst, hinst, rfl⟩ := hc
  rw [Block.inst, List.getD_eq_getElem?_getD, hinst, Option.getD_some]

/-! ### The code after an edit -/

theorem code_modify {b : Block} {k : ℕ} {f : Inst → Inst} {g : Opcode × List Value → Opcode × List Value}
    (h : ∀ i, (f i).code = g i.code) : (b.modify k f).code = b.code.modify k g := by
  refine List.ext_getElem? fun j => ?_
  simp only [code, modify, List.getElem?_map, List.getElem?_modify]
  by_cases hk : k = j
  · cases b.instructions[j]? <;> simp [hk, h]
  · cases b.instructions[j]? <;> simp [hk]

theorem code_modify_same {b : Block} {k : ℕ} {f : Inst → Inst} (h : ∀ i, (f i).code = i.code) :
    (b.modify k f).code = b.code := by
  rw [code_modify (g := id) h, List.modify_id]

theorem code_modify_set {b : Block} {k : ℕ} {f : Inst → Inst} {c : Opcode × List Value}
    (h : ∀ i, (f i).code = c) : (b.modify k f).code = b.code.set k c := by
  rw [code_modify (g := fun _ => c) h]
  refine List.ext_getElem? fun j => ?_
  rw [List.getElem?_modify, List.getElem?_set]
  by_cases hk : k = j
  · subst hk
    cases hc : b.code[k]? with
    | none => simp [List.getElem?_eq_none_iff.mp hc]
    | some c' => simp [(List.getElem?_eq_some_iff.mp hc).1]
  · simp [hk]

@[simp] theorem code_dropUses (b : Block) (refs : List ℕ) : (b.dropUses refs).code = b.code := by
  induction refs generalizing b with
  | nil => rfl
  | cons r refs ih => exact (ih _).trans (code_modify_same Inst.dropUse_code)

@[simp] theorem code_addUses (b : Block) (refs : List ℕ) : (b.addUses refs).code = b.code := by
  induction refs generalizing b with
  | nil => rfl
  | cons r refs ih => exact (ih _).trans (code_modify_same Inst.addUse_code)

@[simp] theorem code_replaceUsesWith (b : Block) (target : ℕ) (replacement : Value) :
    (b.replaceUsesWith target replacement).code =
      b.code.set target (.identity, [replacement]) := by
  have h : ∀ i : Inst, (i.replaceWithIdentity replacement).code = (.identity, [replacement]) :=
    fun _ => rfl
  rw [replaceUsesWith, code_addUses, code_modify_set h, code_dropUses]

@[simp] theorem code_invalidate (b : Block) (target : ℕ) :
    (b.invalidate target).code = b.code.set target (.void, []) := by
  have h : ∀ i : Inst, i.tombstone.code = (.void, []) := fun _ => rfl
  rw [invalidate, code_modify_set h, code_dropUses]

@[simp] theorem code_setArg (b : Block) (target idx : ℕ) (value : Value) :
    (b.setArg target idx value).code =
      b.code.modify target fun c => (c.1, c.2.set idx value) := by
  have h : ∀ i : Inst, Inst.code { i with args := i.args.set idx value } =
      (i.code.1, i.code.2.set idx value) := fun _ => rfl
  rw [setArg, code_modify (g := fun c => (c.1, c.2.set idx value)) h, code_addUses, code_dropUses]

@[simp] theorem code_recomputeUseCounts (b : Block) : b.recomputeUseCounts.code = b.code := by
  have hzero : ∀ is : List Inst, (is.map fun i => { i with useCount := 0 }).map Inst.code =
      is.map Inst.code := by
    intro is
    rw [List.map_map]
    rfl
  exact (code_addUses _ _).trans (hzero b.instructions)

@[simp] theorem code_insert (b : Block) (index : ℕ) (opcode : Opcode) (args : List Value) :
    (b.insert index opcode args).code =
      (b.code.map fun c => (c.1, c.2.map (Value.renumber index))).insertIdx index
        (opcode, args.map (Value.renumber index)) := by
  rw [insert, code_recomputeUseCounts]
  simp only [code, List.map_insertIdx, List.map_map]
  rfl

end Block
end Ruzu.Ir
