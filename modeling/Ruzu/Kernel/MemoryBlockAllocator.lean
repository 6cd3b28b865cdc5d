import Ruzu.Kernel.MemoryBlockCalls

/-!
# Updates with reserved slab nodes

`k_dynamic_slab_heap.rs`, `k_dynamic_resource_manager.rs` and the updates of
`k_memory_block_manager.rs` that draw the nodes of their splits from an
allocator. An allocator that has run out is a panic.
-/

set_option autoImplicit false

namespace Ruzu.MemoryBlockAllocator
open MemoryBlock MemoryBlockManager MemoryBlockCalls
open KMemoryBlockManager

/-- `KMemoryBlockSlabManager` over its slab heap. `pages` are those left in the page allocator,
if there is one. -/
structure KMemoryBlockSlabManager where
  freeList : List KMemoryBlock
  capacity : ℕ
  used : ℕ
  peak : ℕ
  pages : Option ℕ
  entriesPerPage : ℕ

namespace KMemoryBlockSlabManager

variable (slab : KMemoryBlockSlabManager)

def bumpUsed : KMemoryBlockSlabManager :=
  { slab with used := slab.used + 1, peak := max slab.peak (slab.used + 1) }

/-- A node of the free list, or the first one of a new page. -/
def allocate : Option (KMemoryBlock × KMemoryBlockSlabManager) :=
  match slab.freeList with
  | _::freeList => some (KMemoryBlock.new, { slab with freeList }.bumpUsed)
  | [] =>
    match slab.pages with
    | some (pages + 1) =>
      some (KMemoryBlock.new, { slab with
        pages := some pages
        freeList := List.replicate (slab.entriesPerPage - 1) KMemoryBlock.new
        capacity := slab.capacity + slab.entriesPerPage }.bumpUsed)
    | _ => none

def free (block : KMemoryBlock) : KMemoryBlockSlabManager :=
  { slab with freeList := block::slab.freeList, used := slab.used - 1 }

/-- Nodes one by one, as many as there are. -/
def allocateMany : ℕ → KMemoryBlockSlabManager → List KMemoryBlock × KMemoryBlockSlabManager
  | 0, slab => ([], slab)
  | n + 1, slab =>
    match slab.allocate with
    | none => ([], slab)
    | some (block, slab) =>
      let rest := allocateMany n slab
      (block::rest.1, rest.2)

def freeMany (blocks : List KMemoryBlock) : KMemoryBlockSlabManager := blocks.foldl free slab

end KMemoryBlockSlabManager

def maxBlocks : ℕ := 2

def resultOutOfResource : ℕ := 1 + 103 <<< 9

structure KMemoryBlockManagerUpdateAllocator where
  blocks : List (Option KMemoryBlock)
  index : ℕ
  slabManager : KMemoryBlockSlabManager

namespace KMemoryBlockManagerUpdateAllocator

/-- The allocator and the result code. Too many blocks fail an assertion. -/
def new (slab : KMemoryBlockSlabManager) (numBlocks : ℕ) :
    Option (KMemoryBlockManagerUpdateAllocator × ℕ) :=
  if maxBlocks < numBlocks then none
  else
    let (blocks, slab') := slab.allocateMany numBlocks
    if blocks.length = numBlocks then
      some (⟨List.replicate (maxBlocks - numBlocks) none ++ blocks.map some,
        maxBlocks - numBlocks, slab'⟩, 0)
    else
      some (⟨List.replicate maxBlocks none, maxBlocks, slab'.freeMany blocks⟩, resultOutOfResource)

variable (a : KMemoryBlockManagerUpdateAllocator)

def allocate : Option (KMemoryBlock × KMemoryBlockManagerUpdateAllocator) :=
  match a.blocks[a.index]? with
  | some (some block) =>
    some (block, { a with blocks := a.blocks.set a.index none, index := a.index + 1 })
  | _ => none

/-- A block that is in the slot is lost. -/
def free (block : KMemoryBlock) : KMemoryBlockManagerUpdateAllocator :=
  if a.index = 0 then { a with slabManager := a.slabManager.free block }
  else { a with blocks := a.blocks.set (a.index - 1) (some block), index := a.index - 1 }

/-- The slab after the allocator is dropped. -/
def drop : KMemoryBlockSlabManager := a.slabManager.freeMany (a.blocks.filterMap id)

end KMemoryBlockManagerUpdateAllocator

/-! ### The updates -/

section

variable (m : KMemoryBlockManager) (a : KMemoryBlockManagerUpdateAllocator)

def splitAtWithAllocator (address : ℕ) :
    Option (KMemoryBlockManager × KMemoryBlockManagerUpdateAllocator) :=
  if address = m.mStartAddress ∨ address = m.mEndAddress then some (m, a)
  else
    match m.memoryBlockTree.floor address with
    | some (k, b) =>
      if covers b address ∧ b.mAddress ≠ address then do
        -- `split` writes every field of the node
        let (_, a) ← a.allocate
        let halves := b.split address
        let tree := (m.memoryBlockTree.remove k).insert halves.1.mAddress halves.1
        return ({ m with memoryBlockTree := tree.insert halves.2.mAddress halves.2 }, a)
      else some (m, a)
    | none => some (m, a)

def coalesceStepWithAllocator (currentKey nextKey : ℕ) (next : KMemoryBlock) :
    (KMemoryBlockManager × ℕ) × KMemoryBlockManagerUpdateAllocator :=
  let canMerge := match m.memoryBlockTree.get currentKey with
    | some cur => cur.canMergeWith next
    | none => false
  if canMerge then
    (({ m with memoryBlockTree :=
        (m.memoryBlockTree.remove nextKey).modify currentKey (fun cur => cur.add next) },
      currentKey), a.free next)
  else ((m, nextKey), a)

def coalesceLoopWithAllocator (updateEnd : ℕ) :
    ℕ → KMemoryBlockManager → KMemoryBlockManagerUpdateAllocator → ℕ →
      Option (KMemoryBlockManager × KMemoryBlockManagerUpdateAllocator)
  | 0, _, _, _ => none
  | fuel + 1, m, a, currentKey =>
    match m.memoryBlockTree.succ currentKey with
    | none => some (m, a)
    | some (nextKey, next) =>
      let step := coalesceStepWithAllocator m a currentKey nextKey next
      match step.1.1.memoryBlockTree.get step.1.2 with
      | none => some (step.1.1, step.2)
      | some b =>
        if updateEnd < b.getEndAddress then some (step.1.1, step.2)
        else coalesceLoopWithAllocator updateEnd fuel step.1.1 step.2 step.1.2

def coalesceForUpdateWithAllocator (address numPages : ℕ) :
    Option (KMemoryBlockManager × KMemoryBlockManagerUpdateAllocator) :=
  if m.memoryBlockTree.isEmpty then some (m, a)
  else
    coalesceLoopWithAllocator (address + numPages * pageSize) (m.memoryBlockTree.len + 1) m a
      (m.coalesceStart address)

def isolateStartWithAllocator (curAddress key : ℕ) (info : KMemoryBlock) :
    Option (Isolated × KMemoryBlockManagerUpdateAllocator) :=
  if info.mAddress ≠ curAddress then do
    let (m, a) ← splitAtWithAllocator m a curAddress
    let key ← m.findKeyContaining curAddress
    let info ← m.memoryBlockTree.get key
    return (⟨m, key, info, info.mAddress⟩, a)
  else some (⟨m, key, info, curAddress⟩, a)

def isolateEndWithAllocator (s : Isolated) (remainingSize : ℕ) :
    Option (Isolated × KMemoryBlockManagerUpdateAllocator) :=
  if s.info.getSize > remainingSize then do
    let (m, a) ← splitAtWithAllocator s.manager a (s.curAddress + remainingSize)
    let key ← m.findKeyContaining s.curAddress
    let info ← m.memoryBlockTree.get key
    return (⟨m, key, info, s.curAddress⟩, a)
  else some (s, a)

end

def updateLoopWithAllocator (shouldUpdate : KMemoryBlock → Bool)
    (edit : KMemoryBlock → KMemoryBlock) :
    ℕ → KMemoryBlockManager → KMemoryBlockManagerUpdateAllocator → ℕ → ℕ →
      Option (KMemoryBlockManager × KMemoryBlockManagerUpdateAllocator)
  | 0, m, a, _, remainingPages => if remainingPages = 0 then some (m, a) else none
  | fuel + 1, m, a, curAddress, remainingPages =>
    if remainingPages = 0 then some (m, a)
    else
      let remainingSize := remainingPages * pageSize
      match m.findKeyContaining curAddress with
      | none => some (m, a)
      | some key => do
        let info ← m.memoryBlockTree.get key
        if shouldUpdate info then
          let (s, a) ← isolateStartWithAllocator m a curAddress key info
          let (s, a) ← isolateEndWithAllocator a s remainingSize
          let tree := s.manager.memoryBlockTree.modify s.key edit
          updateLoopWithAllocator shouldUpdate edit fuel { s.manager with memoryBlockTree := tree }
            a (s.curAddress + s.info.getSize) (remainingPages - s.info.mNumPages)
        else if curAddress + remainingSize < info.getEndAddress then
          updateLoopWithAllocator shouldUpdate edit fuel m a (curAddress + remainingSize) 0
        else
          updateLoopWithAllocator shouldUpdate edit fuel m a info.getEndAddress
            ((curAddress + remainingSize - info.getEndAddress) / pageSize)

def updateAttributeLoopWithAllocator (mask attr : KMemoryAttribute) (updateEnd : ℕ) :
    ℕ → KMemoryBlockManager → KMemoryBlockManagerUpdateAllocator → ℕ →
      Option (KMemoryBlockManager × KMemoryBlockManagerUpdateAllocator)
  | 0, m, a, curAddress => if curAddress < updateEnd then none else some (m, a)
  | fuel + 1, m, a, curAddress =>
    if curAddress < updateEnd then
      match m.findKeyContaining curAddress with
      | none => some (m, a)
      | some key => do
        let info ← m.memoryBlockTree.get key
        let remainingSize := updateEnd - curAddress
        if (info.mAttribute &&& mask) ≠ attr then
          let (m, a) ←
            (if info.mAddress ≠ curAddress then splitAtWithAllocator m a curAddress
             else some (m, a))
          let info ← m.memoryBlockTree.get (m.floorKey curAddress)
          let (m, a) ←
            (if info.getSize > remainingSize then splitAtWithAllocator m a updateEnd
             else some (m, a))
          let key := m.floorKey curAddress
          let info ← m.memoryBlockTree.get key
          let tree := m.memoryBlockTree.modify key (fun b => b.updateAttribute mask attr)
          updateAttributeLoopWithAllocator mask attr updateEnd fuel
            { m with memoryBlockTree := tree } a (curAddress + info.getSize)
        else if curAddress + remainingSize < info.getEndAddress then
          updateAttributeLoopWithAllocator mask attr updateEnd fuel m a
            (curAddress + remainingSize)
        else
          updateAttributeLoopWithAllocator mask attr updateEnd fuel m a info.getEndAddress
    else some (m, a)

section

variable (m : KMemoryBlockManager) (a : KMemoryBlockManagerUpdateAllocator)

def updateWithAllocator (address numPages : ℕ) (state : KMemoryState) (perm : KMemoryPermission)
    (attr : KMemoryAttribute)
    (setDisableAttr clearDisableAttr : KMemoryBlockDisableMergeAttribute) :
    Option (KMemoryBlockManager × KMemoryBlockManagerUpdateAllocator) := do
  let (m, a) ← updateLoopWithAllocator (fun b => !b.hasProperties state perm attr)
    (fun b => b.update state perm attr (b.mAddress == address) setDisableAttr clearDisableAttr)
    numPages m a address numPages
  coalesceForUpdateWithAllocator m a address numPages

def updateIfMatchWithAllocator (address numPages : ℕ) (testState : KMemoryState)
    (testPerm : KMemoryPermission) (testAttr : KMemoryAttribute) (state : KMemoryState)
    (perm : KMemoryPermission) (attr : KMemoryAttribute)
    (setDisableAttr clearDisableAttr : KMemoryBlockDisableMergeAttribute) :
    Option (KMemoryBlockManager × KMemoryBlockManagerUpdateAllocator) := do
  let (m, a) ← updateLoopWithAllocator
    (fun b => b.hasProperties testState testPerm testAttr && !b.hasProperties state perm attr)
    (fun b => b.update state perm attr false setDisableAttr clearDisableAttr)
    numPages m a address numPages
  coalesceForUpdateWithAllocator m a address numPages

def updateAttributeWithAllocator (address numPages : ℕ) (mask attr : KMemoryAttribute) :
    Option (KMemoryBlockManager × KMemoryBlockManagerUpdateAllocator) := do
  let updateEnd := address + numPages * pageSize
  let (m, a) ← updateAttributeLoopWithAllocator mask attr updateEnd numPages m a address
  coalesceForUpdateWithAllocator m a address numPages

def updateLockWithAllocator (address numPages : ℕ) (perm : KMemoryPermission)
    (lockFunc : LockFunction) :
    Option (KMemoryBlockManager × KMemoryBlockManagerUpdateAllocator) := do
  let updateEnd := address + numPages * pageSize
  let (m, a) ← splitAtWithAllocator m a address
  let (m, a) ← splitAtWithAllocator m a updateEnd
  let keys := m.keysInRange address updateEnd
  let tree := lockKeys lockFunc perm keys.length keys.zipIdx m.memoryBlockTree
  coalesceForUpdateWithAllocator { m with memoryBlockTree := tree } a address numPages

def runWithAllocator : Call → Option (KMemoryBlockManager × KMemoryBlockManagerUpdateAllocator)
  | .update ad n s p attr sd cd => updateWithAllocator m a ad n s p attr sd cd
  | .updateIfMatch ad n ts tp ta s p attr sd cd =>
    updateIfMatchWithAllocator m a ad n ts tp ta s p attr sd cd
  | .updateAttribute ad n mask attr => updateAttributeWithAllocator m a ad n mask attr
  | .updateLock ad n perm f => updateLockWithAllocator m a ad n perm f.run

end

end Ruzu.MemoryBlockAllocator
