import Mathlib

/-!
# The flat address space allocator

`FlatAddressSpaceMapBool` and `FlatAllocatorBool` as in `address_space.rs`, over
addresses of `w` bits: a vector of blocks, each valid up to the next one's
address, and edits of it by index. `none` stands for a panic. The allocator
passes no unmap callback, so there is none here.
-/

set_option autoImplicit false

namespace Ruzu.AddressSpace

def wrappingAdd (w a b : ℕ) : ℕ := (a + b) % 2 ^ w
def wrappingSub (w a b : ℕ) : ℕ := (a + (2 ^ w - b)) % 2 ^ w

structure Block where
  virt : ℕ
  mapped : Bool
deriving DecidableEq

/-- `partition_point` for the blocks below an address. -/
def partitionPoint (blocks : List Block) (virt : ℕ) : ℕ :=
  (blocks.takeWhile fun b => b.virt < virt).length

def drain (blocks : List Block) (first stop : ℕ) : List Block :=
  blocks.take first ++ blocks.drop stop

/-- The loops that walk back to the first block at or above `virt`. -/
def walkBack (blocks : List Block) (virt : ℕ) : ℕ → Option ℕ
  | 0 => some 0
  | i+1 => do
    let b ← blocks[i]?
    if virt ≤ b.virt then walkBack blocks virt i else some (i + 1)

def finishMap (blocks : List Block) (virt virtEnd blockEndSuccIdx : ℕ) : Option (List Block) := do
  let startSuccIdx ← walkBack blocks virt blockEndSuccIdx
  let b ← blocks[startSuccIdx]?
  if virtEnd < b.virt then none
  else if b.virt = virtEnd then some (blocks.insertIdx startSuccIdx ⟨virt, true⟩)
  else
    let blocks :=
      if startSuccIdx + 1 < blockEndSuccIdx then drain blocks (startSuccIdx + 1) blockEndSuccIdx
      else blocks
    some (blocks.set startSuccIdx ⟨virt, true⟩)

def mapBlocks (blocks : List Block) (virt virtEnd : ℕ) : Option (List Block) :=
  let blockEndSuccIdx := partitionPoint blocks virtEnd
  if blockEndSuccIdx = 0 then none
  else
    let blockEndPredIdx := blockEndSuccIdx - 1
    do
      let pred ← blocks[blockEndPredIdx]?
      match blocks[blockEndSuccIdx]? with
      | some succ =>
        if succ.virt ≠ virtEnd then
          if 0 < blockEndPredIdx ∧ virt ≤ pred.virt then
            finishMap (blocks.set blockEndPredIdx ⟨virtEnd, pred.mapped⟩) virt virtEnd
              blockEndPredIdx
          else
            some ((blocks.insertIdx blockEndSuccIdx ⟨virtEnd, pred.mapped⟩).insertIdx
              blockEndSuccIdx ⟨virt, true⟩)
        else finishMap blocks virt virtEnd blockEndSuccIdx
      | none =>
        if 0 < blockEndPredIdx ∧ virt ≤ pred.virt then
          finishMap (blocks.set blockEndPredIdx { pred with virt := virtEnd }) virt virtEnd
            blockEndPredIdx
        else
          let blocks := blocks ++ [⟨virtEnd, false⟩]
          some (blocks.insertIdx (blocks.length - 1) ⟨virt, true⟩)

def finishUnmap (blocks : List Block) (virt virtEnd blockEndSuccIdx : ℕ) :
    Option (List Block) := do
  let idx ← walkBack blocks virt blockEndSuccIdx
  let startPredIdx := idx - 1
  let startSuccIdx := startPredIdx + 1
  let pred ← blocks[startPredIdx]?
  match blocks[startSuccIdx]? with
  | some succ =>
    if virtEnd < succ.virt then none
    else if succ.virt = virtEnd then
      if pred.mapped then some (blocks.insertIdx startSuccIdx ⟨virt, false⟩) else some blocks
    else
      let drainEnd := min blockEndSuccIdx blocks.length
      if !pred.mapped then
        if startSuccIdx < drainEnd then some (drain blocks startSuccIdx drainEnd) else some blocks
      else
        let blocks :=
          if startSuccIdx + 1 < drainEnd then drain blocks (startSuccIdx + 1) drainEnd else blocks
        some (blocks.set startSuccIdx ⟨virt, false⟩)
  | none => some blocks

def eraseBlocksWithEndUnmapped (blocks : List Block) (virt unmappedEndIdx : ℕ) :
    Option (List Block) := do
  let idx ← walkBack blocks virt unmappedEndIdx
  let startPredIdx := idx - 1
  let startSuccIdx := startPredIdx + 1
  let pred ← blocks[startPredIdx]?
  let unmappedEnd ← blocks[unmappedEndIdx]?
  let (blocks, eraseEnd) :=
    if !pred.mapped then (blocks, unmappedEndIdx + 1)
    else (blocks.set unmappedEndIdx { unmappedEnd with virt := virt }, unmappedEndIdx)
  let eraseEnd := min eraseEnd blocks.length
  if startSuccIdx < eraseEnd then some (drain blocks startSuccIdx eraseEnd) else some blocks

def unmapBlocks (blocks : List Block) (virt virtEnd : ℕ) : Option (List Block) :=
  let blockEndSuccIdx := partitionPoint blocks virtEnd
  if blockEndSuccIdx = 0 then none
  else
    let blockEndPredIdx := blockEndSuccIdx - 1
    do
      let pred ← blocks[blockEndPredIdx]?
      if !pred.mapped then
        if virt < pred.virt then eraseBlocksWithEndUnmapped blocks virt blockEndPredIdx
        else some blocks
      else
        match blocks[blockEndSuccIdx]? with
        | none => none
        | some succ =>
          if succ.virt = virtEnd ∧ !succ.mapped then
            eraseBlocksWithEndUnmapped blocks virt blockEndSuccIdx
          else if succ.virt ≠ virtEnd then
            if virt ≤ pred.virt then
              finishUnmap (blocks.set blockEndPredIdx ⟨virtEnd, true⟩) virt virtEnd
                blockEndPredIdx
            else
              some ((blocks.insertIdx blockEndSuccIdx ⟨virtEnd, true⟩).insertIdx
                blockEndSuccIdx ⟨virt, false⟩)
          else finishUnmap blocks virt virtEnd blockEndSuccIdx

/-- The map of an address space of `w` bits. -/
structure FlatAddressSpaceMapBool (w : ℕ) where
  blocks : List Block
  vaLimit : ℕ
deriving DecidableEq

namespace FlatAddressSpaceMapBool

variable {w : ℕ}

def new (w vaLimit : ℕ) : FlatAddressSpaceMapBool w := ⟨[⟨0, false⟩], vaLimit⟩

def mapLocked (m : FlatAddressSpaceMapBool w) (virt size : ℕ) :
    Option (FlatAddressSpaceMapBool w) :=
  let virtEnd := wrappingAdd w virt size
  if m.vaLimit < virtEnd then none
  else do
    let blocks ← mapBlocks m.blocks virt virtEnd
    some { m with blocks }

def unmapLocked (m : FlatAddressSpaceMapBool w) (virt size : ℕ) :
    Option (FlatAddressSpaceMapBool w) :=
  let virtEnd := wrappingAdd w virt size
  if m.vaLimit < virtEnd then none
  else do
    let blocks ← unmapBlocks m.blocks virt virtEnd
    some { m with blocks }

end FlatAddressSpaceMapBool

structure FlatAllocatorBool (w : ℕ) where
  inner : FlatAddressSpaceMapBool w
  virtStart : ℕ
  currentLinearAllocEnd : ℕ
  vaLimit : ℕ
deriving DecidableEq

/-- The loop that skips over fixed mappings, from a block and the one behind it. -/
def skipFixed (w size vaLimit : ℕ) : Block → List Block → Option ℕ
  | _, [] => none
  | pred, succ::rest =>
    if size ≤ wrappingSub w succ.virt pred.virt ∧ !pred.mapped then some pred.virt
    else if rest.isEmpty then
      let stop := wrappingAdd w succ.virt size
      if succ.virt ≤ stop ∧ stop ≤ vaLimit then some succ.virt else none
    else skipFixed w size vaLimit succ rest

/-- The loop of the slower pass. -/
def findGap (w size : ℕ) : Block → List Block → Option ℕ
  | _, [] => none
  | pred, succ::rest =>
    if size ≤ wrappingSub w succ.virt pred.virt ∧ !pred.mapped then some pred.virt
    else findGap w size succ rest

namespace FlatAllocatorBool

variable {w : ℕ}

def new (w virtStart vaLimit : ℕ) : FlatAllocatorBool w :=
  ⟨.new w vaLimit, virtStart, virtStart, vaLimit⟩

/-- The fast pass: the address it picks, if it finds one. -/
def linearStart (a : FlatAllocatorBool w) (size : ℕ) : Option (Option ℕ) :=
  let allocEnd := wrappingAdd w a.currentLinearAllocEnd size
  if a.currentLinearAllocEnd ≤ allocEnd ∧ allocEnd ≤ a.vaLimit then
    let succIdx := partitionPoint a.inner.blocks allocEnd
    if succIdx = 0 then none
    else do
      let pred ← a.inner.blocks[succIdx - 1]?
      if pred.virt ≤ a.currentLinearAllocEnd then some (some a.currentLinearAllocEnd)
      else some (skipFixed w size a.vaLimit pred (a.inner.blocks.drop succIdx))
  else some none

def allocate (a : FlatAllocatorBool w) (size : ℕ) : Option (Option ℕ × FlatAllocatorBool w) := do
  match ← a.linearStart size with
  | some start =>
    let inner ← a.inner.mapLocked start size
    some (some start, { a with
      inner := inner
      currentLinearAllocEnd := wrappingAdd w start size })
  | none =>
    match a.inner.blocks with
    | _ :: pred :: succ :: rest =>
      match findGap w size pred (succ :: rest) with
      | some start =>
        let inner ← a.inner.mapLocked start size
        some (some start, { a with inner })
      | none => some (none, a)
    | _ => none

def allocateFixed (a : FlatAllocatorBool w) (virt size : ℕ) : Option (FlatAllocatorBool w) := do
  let inner ← a.inner.mapLocked virt size
  some { a with inner }

def free (a : FlatAllocatorBool w) (virt size : ℕ) : Option (FlatAllocatorBool w) := do
  let inner ← a.inner.unmapLocked virt size
  some { a with inner }

end FlatAllocatorBool
end Ruzu.AddressSpace
