import Mathlib
import Ruzu.Lib.DoublyLinked

/-!
# Basic blocks of the shader IR

`basic_block.rs`: instructions in an arena of slots that never move, chained by
links beside the slots. A slot may hold an instruction that is not linked.
-/

set_option autoImplicit false

namespace Ruzu.Shader

open DoublyLinked

abbrev InstructionLink := Node ℕ

structure Block (I : Type) where
  instructions : List (Option I)
  instructionLinks : List (Option InstructionLink)
  instructionHead : Option ℕ
  instructionTail : Option ℕ
deriving DecidableEq

/-- A length as a slot index of the type `u32`. -/
def asU32 (n : ℕ) : ℕ := n % 2 ^ 32

namespace Block

variable {I : Type}

def new : Block I := ⟨[], [], none, none⟩

/-- Write to the links of a slot, which have to be there. -/
def modifyLink (b : Block I) (slot : ℕ) (f : InstructionLink → InstructionLink) :
    Option (Block I) :=
  match b.instructionLinks[slot]? with
  | some (some link) =>
    some { b with instructionLinks := b.instructionLinks.set slot (some (f link)) }
  | _ => none

/-- Set what follows `prev`, or the head if there is no `prev`. -/
def setNextOf (b : Block I) (prev next : Option ℕ) : Option (Block I) :=
  match prev with
  | some prev => b.modifyLink prev fun link => { link with next := next }
  | none => some { b with instructionHead := next }

/-- Set what stands before `next`, or the tail if there is no `next`. -/
def setPrevOf (b : Block I) (next prev : Option ℕ) : Option (Block I) :=
  match next with
  | some next => b.modifyLink next fun link => { link with prev := prev }
  | none => some { b with instructionTail := prev }

/-- A new slot, with its links. -/
def push (b : Block I) (inst : I) (link : InstructionLink) : Block I :=
  { b with
    instructions := b.instructions ++ [some inst]
    instructionLinks := b.instructionLinks ++ [some link] }

def appendInst (b : Block I) (inst : I) : Option (Block I × ℕ) := do
  let idx := asU32 b.instructions.length
  let prev := b.instructionTail
  let b ← (b.push inst ⟨prev, none⟩).setNextOf prev (some idx)
  some ({ b with instructionTail := some idx }, idx)

def insertInstBefore (b : Block I) (before : ℕ) (inst : I) : Option (Block I × ℕ) :=
  match b.instructionLinks[before]? with
  | some (some beforeLink) => do
    let idx := asU32 b.instructions.length
    let b ← (b.push inst ⟨beforeLink.prev, some before⟩).setNextOf beforeLink.prev (some idx)
    let b ← b.setPrevOf (some before) (some idx)
    some (b, idx)
  | _ => none

/-- The index of the new slot is not returned. -/
def insertInst (b : Block I) (position : ℕ) (inst : I) : Option (Block I) :=
  if position < b.instructions.length ∧ (b.instructionLinks[position]?.join).isSome then
    (b.insertInstBefore (asU32 position) inst).map Prod.fst
  else (b.appendInst inst).map Prod.fst

def unlinkInst (b : Block I) (idx : ℕ) : Option (Block I) :=
  match b.instructionLinks[idx]? with
  | some (some link) => do
    let b : Block I := { b with instructionLinks := b.instructionLinks.set idx none }
    let b ← b.setNextOf link.prev link.next
    b.setPrevOf link.next link.prev
  | _ => none

def eraseInst (b : Block I) (idx : ℕ) : Option (Block I) := do
  let b ← b.unlinkInst idx
  if idx < b.instructions.length then some { b with instructions := b.instructions.set idx none }
  else none

def setLink (b : Block I) (idx : ℕ) (link : InstructionLink) : Block I :=
  { b with instructionLinks := b.instructionLinks.set idx (some link) }

def relinkInstBefore (b : Block I) (idx : ℕ) (before : Option ℕ) : Option (Block I) :=
  match b.instructions[idx]?, b.instructionLinks[idx]? with
  | some (some _), some none =>
    match before with
    | some before =>
      match b.instructionLinks[before]? with
      | some (some beforeLink) => do
        let b ← (b.setLink idx ⟨beforeLink.prev, some before⟩).setNextOf beforeLink.prev (some idx)
        b.setPrevOf (some before) (some idx)
      | _ => none
    | none => do
      let prev := b.instructionTail
      let b ← (b.setLink idx ⟨prev, none⟩).setNextOf prev (some idx)
      some { b with instructionTail := some idx }
  | _, _ => none

/-- The slots from `current` on, with their instructions. Each slot takes one unit of fuel. -/
def successors (b : Block I) (direction : InstructionLink → Option ℕ) :
    ℕ → Option ℕ → Option (List (ℕ × I))
  | _, none => some []
  | 0, some _ => none
  | fuel + 1, some index => do
    let inst ← b.instructions[index]?.join
    let link ← b.instructionLinks[index]?
    let rest ← b.successors direction fuel (link.bind direction)
    some ((index, inst) :: rest)

def indexedIter (b : Block I) : Option (List (ℕ × I)) :=
  b.successors Node.next b.instructions.length b.instructionHead

def indexedRevIter (b : Block I) : Option (List (ℕ × I)) :=
  b.successors Node.prev b.instructions.length b.instructionTail

end Block

end Ruzu.Shader
