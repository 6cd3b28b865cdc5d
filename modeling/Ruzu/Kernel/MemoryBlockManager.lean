import Mathlib
import Ruzu.Lib.BTreeMap
import Ruzu.Kernel.MemoryBlock

/-!
# The memory block manager

`KMemoryBlockManager` as in `k_memory_block_manager.rs`, on its path without a
slab allocator. A loop carries an explicit fuel; `none` stands for a panic or
for fuel running out, and neither happens on a well-formed tree.
-/

set_option autoImplicit false

namespace Ruzu.MemoryBlockManager
open MemoryBlock

structure KMemoryBlockManager where
  memoryBlockTree : BTreeMap ℕ KMemoryBlock
  mStartAddress : ℕ
  mEndAddress : ℕ

namespace KMemoryBlockManager

def new : KMemoryBlockManager := ⟨BTreeMap.empty, 0, 0⟩

/-- `start_block` is the node the slab handed out, or a new one. -/
def initializeManager (m : KMemoryBlockManager) (st nd : ℕ) (startBlock : KMemoryBlock) :
    KMemoryBlockManager :=
  ⟨m.memoryBlockTree.insert st (startBlock.initializeBlock st ((nd - st) / pageSize)
    KMemoryState.free KMemoryPermission.none KMemoryAttribute.none), st, nd⟩

def covers (b : KMemoryBlock) (address : ℕ) : Prop :=
  b.mAddress ≤ address ∧ address < b.getEndAddress

instance (b : KMemoryBlock) (address : ℕ) : Decidable (covers b address) :=
  inferInstanceAs (Decidable (_ ∧ _))

def findBlock (m : KMemoryBlockManager) (address : ℕ) : Option KMemoryBlock :=
  match m.memoryBlockTree.floor address with
  | some (_,b) => if covers b address then some b else none
  | none => none

def findKeyContaining (m : KMemoryBlockManager) (address : ℕ) : Option ℕ :=
  match m.memoryBlockTree.floor address with
  | some (k,b) => if covers b address then some k else none
  | none => none

def splitAt (m : KMemoryBlockManager) (address : ℕ) : KMemoryBlockManager :=
  if address = m.mStartAddress ∨ address = m.mEndAddress then m
  else match m.memoryBlockTree.floor address with
    | some (k,b) =>
      if covers b address ∧ b.mAddress ≠ address then
        let halves := b.split address
        let tree := (m.memoryBlockTree.remove k).insert halves.1.mAddress halves.1
        { m with memoryBlockTree := tree.insert halves.2.mAddress halves.2 }
      else m
    | none => m

/-- One step of the merging pass: absorb the next block or move on to it. -/
def coalesceStep (m : KMemoryBlockManager) (currentKey nextKey : ℕ) (next : KMemoryBlock) :
    KMemoryBlockManager × ℕ :=
  let canMerge := match m.memoryBlockTree.get currentKey with
    | some cur => cur.canMergeWith next
    | none => false
  if canMerge then
    ({ m with memoryBlockTree :=
        (m.memoryBlockTree.remove nextKey).modify currentKey (fun cur => cur.add next) },
      currentKey)
  else (m, nextKey)

def coalesceLoop (updateEnd : ℕ) : ℕ → KMemoryBlockManager → ℕ → Option KMemoryBlockManager
  | 0, _, _ => none
  | fuel+1, m, currentKey =>
    match m.memoryBlockTree.succ currentKey with
    | none => some m
    | some (nextKey, next) =>
      let step := coalesceStep m currentKey nextKey next
      match step.1.memoryBlockTree.get step.2 with
      | none => some step.1
      | some b =>
        if updateEnd < b.getEndAddress then some step.1
        else coalesceLoop updateEnd fuel step.1 step.2

/-- The block the merging pass starts from: one before the range, if there is one. -/
def coalesceStart (m : KMemoryBlockManager) (address : ℕ) : ℕ :=
  let containing := (m.memoryBlockTree.entries.filter (fun e => e.1 ≤ address)).reverse.find?
    (fun e => covers e.2 address)
  let currentKey := (containing.map Prod.fst).getD address
  if address ≠ m.mStartAddress then
    match m.memoryBlockTree.pred currentKey with
    | some (prevKey,_) => prevKey
    | none => currentKey
  else currentKey

def coalesceForUpdate (m : KMemoryBlockManager) (address numPages : ℕ) :
    Option KMemoryBlockManager :=
  if m.memoryBlockTree.isEmpty then some m
  else coalesceLoop (address + numPages * pageSize) (m.memoryBlockTree.len+1) m
    (m.coalesceStart address)

/-- A block singled out for an edit: the manager after the splits, the key and
contents of the block, and the address it starts at. -/
structure Isolated where
  manager : KMemoryBlockManager
  key : ℕ
  info : KMemoryBlock
  curAddress : ℕ

def isolateStart (m : KMemoryBlockManager) (curAddress key : ℕ) (info : KMemoryBlock) :
    Option Isolated :=
  if info.mAddress ≠ curAddress then do
    let m := m.splitAt curAddress
    let key ← m.findKeyContaining curAddress
    let info ← m.memoryBlockTree.get key
    some ⟨m, key, info, info.mAddress⟩
  else some ⟨m, key, info, curAddress⟩

def isolateEnd (s : Isolated) (remainingSize : ℕ) : Option Isolated :=
  if s.info.getSize > remainingSize then do
    let m := s.manager.splitAt (s.curAddress + remainingSize)
    let key ← m.findKeyContaining s.curAddress
    let info ← m.memoryBlockTree.get key
    some ⟨m, key, info, s.curAddress⟩
  else some s

/-- The loop shared by `update` and `update_if_match`: blocks that pass the
test are cut to the range and edited, the others are stepped over. -/
def updateLoop (shouldUpdate : KMemoryBlock → Bool) (edit : KMemoryBlock → KMemoryBlock) :
    ℕ → KMemoryBlockManager → ℕ → ℕ → Option KMemoryBlockManager
  | 0, m, _, remainingPages => if remainingPages = 0 then some m else none
  | fuel+1, m, curAddress, remainingPages =>
    if remainingPages = 0 then some m
    else
      let remainingSize := remainingPages * pageSize
      match m.findKeyContaining curAddress with
      | none => some m
      | some key => do
        let info ← m.memoryBlockTree.get key
        if shouldUpdate info then
          let s ← isolateStart m curAddress key info
          let s ← isolateEnd s remainingSize
          let tree := s.manager.memoryBlockTree.modify s.key edit
          updateLoop shouldUpdate edit fuel { s.manager with memoryBlockTree := tree }
            (s.curAddress + s.info.getSize) (remainingPages - s.info.mNumPages)
        else if curAddress + remainingSize < info.getEndAddress then
          updateLoop shouldUpdate edit fuel m (curAddress + remainingSize) 0
        else
          updateLoop shouldUpdate edit fuel m info.getEndAddress
            ((curAddress + remainingSize - info.getEndAddress) / pageSize)

def update (m : KMemoryBlockManager) (address numPages : ℕ) (state : KMemoryState)
    (perm : KMemoryPermission) (attr : KMemoryAttribute)
    (setDisableAttr clearDisableAttr : KMemoryBlockDisableMergeAttribute) :
    Option KMemoryBlockManager := do
  let m ← updateLoop (fun b => !b.hasProperties state perm attr)
    (fun b => b.update state perm attr (b.mAddress == address) setDisableAttr clearDisableAttr)
    numPages m address numPages
  m.coalesceForUpdate address numPages

def updateIfMatch (m : KMemoryBlockManager) (address numPages : ℕ) (testState : KMemoryState)
    (testPerm : KMemoryPermission) (testAttr : KMemoryAttribute) (state : KMemoryState)
    (perm : KMemoryPermission) (attr : KMemoryAttribute)
    (setDisableAttr clearDisableAttr : KMemoryBlockDisableMergeAttribute) :
    Option KMemoryBlockManager := do
  let m ← updateLoop
    (fun b => b.hasProperties testState testPerm testAttr && !b.hasProperties state perm attr)
    (fun b => b.update state perm attr false setDisableAttr clearDisableAttr)
    numPages m address numPages
  m.coalesceForUpdate address numPages

/-- `range(..=address).next_back()`, or the address itself when nothing is below it. -/
def floorKey (m : KMemoryBlockManager) (address : ℕ) : ℕ :=
  ((m.memoryBlockTree.floor address).map Prod.fst).getD address

def updateAttributeLoop (mask attr : KMemoryAttribute) (updateEnd : ℕ) :
    ℕ → KMemoryBlockManager → ℕ → Option KMemoryBlockManager
  | 0, m, curAddress => if curAddress < updateEnd then none else some m
  | fuel+1, m, curAddress =>
    if curAddress < updateEnd then
      match m.findKeyContaining curAddress with
      | none => some m
      | some key => do
        let info ← m.memoryBlockTree.get key
        let remainingSize := updateEnd - curAddress
        if (info.mAttribute &&& mask) ≠ attr then
          let m := if info.mAddress ≠ curAddress then m.splitAt curAddress else m
          let info ← m.memoryBlockTree.get (m.floorKey curAddress)
          let m := if info.getSize > remainingSize then m.splitAt updateEnd else m
          let key := m.floorKey curAddress
          let info ← m.memoryBlockTree.get key
          let tree := m.memoryBlockTree.modify key (fun b => b.updateAttribute mask attr)
          updateAttributeLoop mask attr updateEnd fuel { m with memoryBlockTree := tree }
            (curAddress + info.getSize)
        else if curAddress + remainingSize < info.getEndAddress then
          updateAttributeLoop mask attr updateEnd fuel m (curAddress + remainingSize)
        else
          updateAttributeLoop mask attr updateEnd fuel m info.getEndAddress
    else some m

def updateAttribute (m : KMemoryBlockManager) (address numPages : ℕ)
    (mask attr : KMemoryAttribute) : Option KMemoryBlockManager := do
  let updateEnd := address + numPages * pageSize
  let m ← updateAttributeLoop mask attr updateEnd numPages m address
  m.coalesceForUpdate address numPages

abbrev LockFunction := KMemoryBlock → KMemoryPermission → Bool → Bool → KMemoryBlock

/-- The lock function is run on each key in turn with its first/last flags. -/
def lockKeys (lockFunc : LockFunction) (perm : KMemoryPermission) (count : ℕ) :
    List (ℕ × ℕ) → BTreeMap ℕ KMemoryBlock → BTreeMap ℕ KMemoryBlock
  | [], tree => tree
  | (key,i)::rest, tree =>
    lockKeys lockFunc perm count rest
      (tree.modify key (fun b => lockFunc b perm (i == 0) (i == count-1)))

/-- The manager with both ends of the range made block boundaries. -/
def splitRange (m : KMemoryBlockManager) (address updateEnd : ℕ) : KMemoryBlockManager :=
  (m.splitAt address).splitAt updateEnd

def keysInRange (m : KMemoryBlockManager) (address updateEnd : ℕ) : List ℕ :=
  (m.memoryBlockTree.range address updateEnd).map Prod.fst

def updateLock (m : KMemoryBlockManager) (address numPages : ℕ) (perm : KMemoryPermission)
    (lockFunc : LockFunction) : Option KMemoryBlockManager :=
  let updateEnd := address + numPages * pageSize
  let m := m.splitRange address updateEnd
  let keys := m.keysInRange address updateEnd
  let tree := lockKeys lockFunc perm keys.length keys.zipIdx m.memoryBlockTree
  { m with memoryBlockTree := tree }.coalesceForUpdate address numPages

/-- The scan of `check_state` over neighbours. -/
def checkNeighbours : List KMemoryBlock → Bool
  | prev::cur::rest =>
    !prev.canMergeWith cur && prev.getEndAddress == cur.mAddress && checkNeighbours (cur::rest)
  | _ => true

def checkLocks (b : KMemoryBlock) : Bool :=
  (b.mIpcLockCount == 0 ||
    (b.mAttribute &&& KMemoryAttribute.ipcLocked) == KMemoryAttribute.ipcLocked) &&
  (b.mDeviceUseCount == 0 ||
    (b.mAttribute &&& KMemoryAttribute.deviceShared) == KMemoryAttribute.deviceShared)

def checkState (m : KMemoryBlockManager) : Bool :=
  let blocks := m.memoryBlockTree.entries.map Prod.snd
  match blocks.head?, blocks.getLast? with
  | some first, some last =>
    first.mAddress == m.mStartAddress && last.getEndAddress == m.mEndAddress &&
      checkNeighbours blocks && blocks.all checkLocks
  | _, _ => true

end KMemoryBlockManager
end Ruzu.MemoryBlockManager
