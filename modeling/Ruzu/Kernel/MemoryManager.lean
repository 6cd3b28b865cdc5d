import Ruzu.Kernel.PageGroup
import Ruzu.Kernel.PageHeap

/-!
# The physical memory manager

`KMemoryManager` as in `k_memory_manager.rs`: page heaps with reference counts,
linked into one chain a pool. `none` stands for a panic: a failed assertion, a
count that leaves its 16 bits, an index out of bounds, or an address that no
manager contains. The loops over a chain stop with `none` on a cyclic one.
-/

set_option autoImplicit false

namespace Ruzu.MemoryManager
open Ruzu.MemoryBlock (pageSize)
open Ruzu.PageHeap Ruzu.PageGroup

inductive Pool
  | application | applet | system | systemNonSecure
deriving DecidableEq

inductive Direction
  | fromFront | fromBack
deriving DecidableEq

def resultOutOfMemory : ℕ := 1 + 104 <<< 9

structure Impl where
  heap : KPageHeap
  pageReferenceCounts : List ℕ
  pool : Pool
  nextIdx : Option ℕ
  prevIdx : Option ℕ

namespace Impl

def initializeImpl (m : Impl) (address size : ℕ) (pool : Pool) : Option Impl := do
  let heap ← m.heap.initializeHeap address size
  let numPages := size / pageSize
  let heap ← heap.free address numPages
  some { m with
    heap := heap
    pageReferenceCounts := List.replicate numPages 0
    pool := pool }

def getEndAddress (m : Impl) : ℕ := m.heap.getEndAddress
def getPageOffset (m : Impl) (address : ℕ) : ℕ := m.heap.getPageOffset address
def getPageOffsetToEnd (m : Impl) (address : ℕ) : ℕ := m.heap.getPageOffsetToEnd address

def contains (m : Impl) (address : ℕ) : Bool :=
  m.heap.heapAddress ≤ address ∧ address < m.getEndAddress

def allocateAligned (m : Impl) (heapIndex numPages alignPages : ℕ) : Option (ℕ × Impl) := do
  let (addr, heap) ← m.heap.allocateAligned heapIndex numPages alignPages
  some (addr, { m with heap })

def free (m : Impl) (addr numPages : ℕ) : Option Impl := do
  let heap ← m.heap.free addr numPages
  some { m with heap }

/-- The loop of `open_first` and of `open`, over the next `n` counts. -/
def raiseCounts (raise : ℕ → Option ℕ) : ℕ → ℕ → List ℕ → Option (List ℕ)
  | 0, _, counts => some counts
  | n+1, index, counts => do
    let count ← counts[index]?
    let count ← raise count
    raiseCounts raise n (index + 1) (counts.set index count)

/-- One more reference, in 16 bits. -/
def addReference (count : ℕ) : Option ℕ := if count + 1 < 2 ^ 16 then some (count + 1) else none

def firstReference (count : ℕ) : Option ℕ := do
  let count ← addReference count
  if count = 1 then some count else none

def nextReference (count : ℕ) : Option ℕ := do
  let count ← addReference count
  if 1 < count then some count else none

def openFirst (m : Impl) (address numPages : ℕ) : Option Impl := do
  let counts ← raiseCounts firstReference numPages (m.getPageOffset address) m.pageReferenceCounts
  some { m with pageReferenceCounts := counts }

def «open» (m : Impl) (address numPages : ℕ) : Option Impl := do
  let counts ← raiseCounts nextReference numPages (m.getPageOffset address) m.pageReferenceCounts
  some { m with pageReferenceCounts := counts }

/-- Frees the pending batch of pages, if there is one. -/
def flush (m : Impl) (freeStart freeCount : ℕ) : Option Impl :=
  if 0 < freeCount then m.free (m.heap.heapAddress + freeStart * pageSize) freeCount else some m

def closeLoop : ℕ → ℕ → ℕ → ℕ → Impl → Option Impl
  | 0, _, freeStart, freeCount, m => m.flush freeStart freeCount
  | n+1, index, freeStart, freeCount, m => do
    let count ← m.pageReferenceCounts[index]?
    if count = 0 then none
    else
      let m := { m with pageReferenceCounts := m.pageReferenceCounts.set index (count - 1) }
      if count - 1 = 0 then
        if 0 < freeCount then closeLoop n (index + 1) freeStart (freeCount + 1) m
        else closeLoop n (index + 1) index 1 m
      else do
        let m ← m.flush freeStart freeCount
        closeLoop n (index + 1) freeStart 0 m

def close (m : Impl) (address numPages : ℕ) : Option Impl :=
  closeLoop numPages (m.getPageOffset address) 0 0 m

end Impl

structure KMemoryManager where
  managers : List Impl
  poolManagersHead : Pool → Option ℕ
  poolManagersTail : Pool → Option ℕ

def maxManagerCount : ℕ := 10

namespace KMemoryManager

def new : KMemoryManager := ⟨[], fun _ => none, fun _ => none⟩

/-- A manager as `Impl::new` makes it, around the heap `heap`. -/
def newImpl (heap : KPageHeap) : Impl := ⟨heap, [], .application, none, none⟩

def initializePool (mm : KMemoryManager) (heap : KPageHeap) (pool : Pool) (physStart size : ℕ) :
    Option KMemoryManager :=
  if maxManagerCount ≤ mm.managers.length then none
  else do
    let manager ← (newImpl heap).initializeImpl physStart size pool
    let managerIndex := mm.managers.length
    match mm.poolManagersTail pool with
    | none =>
      some
        { managers := mm.managers ++ [manager]
          poolManagersHead := Function.update mm.poolManagersHead pool (some managerIndex)
          poolManagersTail := Function.update mm.poolManagersTail pool (some managerIndex) }
    | some tailIdx => do
      let tail ← mm.managers[tailIdx]?
      some
        { mm with
          managers := mm.managers.set tailIdx { tail with nextIdx := some managerIndex } ++
            [{ manager with prevIdx := some tailIdx }]
          poolManagersTail := Function.update mm.poolManagersTail pool (some managerIndex) }

def getFirstManager (mm : KMemoryManager) (pool : Pool) : Direction → Option ℕ
  | .fromBack => mm.poolManagersTail pool
  | .fromFront => mm.poolManagersHead pool

def nextManager (m : Impl) : Direction → Option ℕ
  | .fromBack => m.prevIdx
  | .fromFront => m.nextIdx

def getPool (option : ℕ) : Option Pool :=
  match (option &&& 0xF0) >>> 4 with
  | 0 => some .application
  | 1 => some .applet
  | 2 => some .system
  | 3 => some .systemNonSecure
  | _ => none

def getDirection (option : ℕ) : Option Direction :=
  match option &&& 0xF with
  | 0 => some .fromFront
  | 1 => some .fromBack
  | _ => none

def decodeOption (option : ℕ) : Option (Pool × Direction) := do
  let pool ← getPool option
  let dir ← getDirection option
  some (pool, dir)

def findManagerIndex (managers : List Impl) (address : ℕ) : Option ℕ :=
  managers.findIdx? fun m => m.contains address

/-- The loop of `open_first`, `open` and `close`: a range is cut where a manager ends. -/
def overManagers (act : Impl → ℕ → ℕ → Option Impl) :
    ℕ → List Impl → ℕ → ℕ → Option (List Impl)
  | 0, managers, _, numPages => if numPages = 0 then some managers else none
  | fuel+1, managers, address, numPages =>
    if numPages = 0 then some managers
    else do
      let idx ← findManagerIndex managers address
      let manager ← managers[idx]?
      let curPages := min numPages (manager.getPageOffsetToEnd address)
      let manager ← act manager address curPages
      overManagers act fuel (managers.set idx manager) (address + curPages * pageSize)
        (numPages - curPages)

def openFirst (mm : KMemoryManager) (address numPages : ℕ) : Option KMemoryManager := do
  let managers ← overManagers Impl.openFirst numPages mm.managers address numPages
  some { mm with managers }

def «open» (mm : KMemoryManager) (address numPages : ℕ) : Option KMemoryManager := do
  let managers ← overManagers Impl.open numPages mm.managers address numPages
  some { mm with managers }

def close (mm : KMemoryManager) (address numPages : ℕ) : Option KMemoryManager := do
  let managers ← overManagers Impl.close numPages mm.managers address numPages
  some { mm with managers }

/-- The walk of a pool's chain for one aligned block; the result names the manager. -/
def allocateContinuous (dir : Direction) (heapIndex numPages alignPages : ℕ) :
    ℕ → Option ℕ → List Impl → Option (Option (ℕ × ℕ) × List Impl)
  | _, none, managers => some (none, managers)
  | 0, some _, _ => none
  | fuel+1, some idx, managers => do
    let m ← managers[idx]?
    let (allocatedBlock, m) ← m.allocateAligned heapIndex numPages alignPages
    let managers := managers.set idx m
    if allocatedBlock ≠ 0 then some (some (idx, allocatedBlock), managers)
    else allocateContinuous dir heapIndex numPages alignPages fuel (nextManager m dir) managers

def allocateAndOpenContinuous (mm : KMemoryManager) (numPages alignPages option : ℕ) :
    Option (ℕ × KMemoryManager) :=
  if numPages = 0 then some (0, mm)
  else do
    let (pool, dir) ← decodeOption option
    match mm.getFirstManager pool dir with
    | none => some (0, mm)
    | some first =>
      let heapIndex ← KPageHeap.getAlignedBlockIndex numPages alignPages
      match ← allocateContinuous dir heapIndex numPages alignPages mm.managers.length (some first)
        mm.managers with
      | (none, managers) => some (0, { mm with managers })
      | (some (idx, allocatedBlock), managers) =>
        let m ← managers[idx]?
        let m ← m.openFirst allocatedBlock numPages
        some (allocatedBlock, { mm with managers := managers.set idx m })

/-- Where the loops of `allocate_page_group_impl` stand: still going with the pages
that remain, or stopped by a block that could not be added. -/
inductive Walk (γ : Type)
  | going (managers : List Impl) (group : γ) (remaining : ℕ)
  | full (managers : List Impl) (group : γ)

section Walk

variable {γ : Type} (add : ℕ → ℕ → ℕ → γ → Option γ) (random : Bool)

/-- The blocks of one size that one manager gives; `add` is told the manager's index. -/
def takeBlocks (index idx : ℕ) : ℕ → List Impl → γ → ℕ → Option (Walk γ)
  | 0, managers, group, remaining => some (.going managers group remaining)
  | fuel+1, managers, group, remaining =>
    let pagesPerAlloc := KPageHeap.getBlockNumPages index
    if pagesPerAlloc ≤ remaining then do
      let m ← managers[idx]?
      let (allocatedBlock, heap) ← m.heap.allocateBlock index random
      let m := { m with heap }
      if allocatedBlock = 0 then some (.going (managers.set idx m) group remaining)
      else
        match add idx allocatedBlock pagesPerAlloc group with
        | none => do
          let m ← m.free allocatedBlock pagesPerAlloc
          some (.full (managers.set idx m) group)
        | some group =>
          takeBlocks index idx fuel (managers.set idx m) group (remaining - pagesPerAlloc)
    else some (.going managers group remaining)

def walkManagers (dir : Direction) (index : ℕ) :
    ℕ → Option ℕ → List Impl → γ → ℕ → Option (Walk γ)
  | _, none, managers, group, remaining => some (.going managers group remaining)
  | 0, some _, _, _, _ => none
  | fuel+1, some idx, managers, group, remaining => do
    match ← takeBlocks add random index idx remaining managers group remaining with
    | .full managers group => some (.full managers group)
    | .going managers group remaining =>
      let m ← managers[idx]?
      walkManagers dir index fuel (nextManager m dir) managers group remaining

/-- Block sizes from the one below the given index down. -/
def walkSizes (dir : Direction) (poolFirst : Option ℕ) :
    ℕ → List Impl → γ → ℕ → Option (Walk γ)
  | 0, managers, group, remaining => some (.going managers group remaining)
  | index+1, managers, group, remaining =>
    if remaining = 0 then some (.going managers group remaining)
    else do
      match ← walkManagers add random dir index managers.length poolFirst managers group
        remaining with
      | .full managers group => some (.full managers group)
      | .going managers group remaining => walkSizes dir poolFirst index managers group remaining

end Walk

/-- Each entry is freed through the manager of its first page. -/
def freePageGroupBlocks : List KBlockInfo → List Impl → Option (List Impl)
  | [], managers => some managers
  | b::rest, managers => do
    let idx ← findManagerIndex managers b.getAddress
    let manager ← managers[idx]?
    let manager ← manager.free b.getAddress
      (min b.numPages (manager.getPageOffsetToEnd b.getAddress))
    freePageGroupBlocks rest (managers.set idx manager)

/-- `add_block` of a page group, which does not look at the manager. -/
def addToGroup (_ addr pages : ℕ) (g : KPageGroup) : Option KPageGroup := g.addBlock addr pages

def allocatePageGroupImpl (managers : List Impl) (poolFirst : Option ℕ) (dir : Direction)
    (outPg : KPageGroup) (numPages : ℕ) (random : Bool) : Option (ℕ × List Impl × KPageGroup) :=
  match KPageHeap.getBlockIndex numPages with
  | none => some (resultOutOfMemory, managers, outPg)
  | some heapIndex => do
    match ← walkSizes addToGroup random dir poolFirst (heapIndex + 1) managers outPg numPages with
    | .full managers outPg =>
      let managers ← freePageGroupBlocks outPg.blocks managers
      some (resultOutOfMemory, managers, outPg.finalize)
    | .going managers outPg remaining =>
      if remaining ≠ 0 then do
        let managers ← freePageGroupBlocks outPg.blocks managers
        some (resultOutOfMemory, managers, outPg.finalize)
      else some (0, managers, outPg)

/-- Opens the first reference on every entry. -/
def openFirstBlocks : List KBlockInfo → List Impl → Option (List Impl)
  | [], managers => some managers
  | b::rest, managers => do
    let managers ← overManagers Impl.openFirst b.numPages managers b.getAddress b.numPages
    openFirstBlocks rest managers

def allocateAndOpen (mm : KMemoryManager) (outPg : KPageGroup) (numPages option : ℕ) :
    Option (ℕ × KMemoryManager × KPageGroup) :=
  if numPages = 0 then some (0, mm, outPg)
  else do
    let (pool, dir) ← decodeOption option
    let (rc, managers, outPg) ← allocatePageGroupImpl mm.managers (mm.getFirstManager pool dir)
      dir outPg numPages true
    if rc ≠ 0 then some (rc, { mm with managers }, outPg)
    else do
      let managers ← openFirstBlocks outPg.blocks managers
      some (0, { mm with managers }, outPg)

def allocateForProcess (mm : KMemoryManager) (outPg : KPageGroup) (numPages option : ℕ) :
    Option (ℕ × KMemoryManager × KPageGroup) :=
  if numPages = 0 then some (0, mm, outPg)
  else do
    let (pool, dir) ← decodeOption option
    let (rc, managers, outPg) ← allocatePageGroupImpl mm.managers (mm.getFirstManager pool dir)
      dir outPg numPages false
    some (rc, { mm with managers }, outPg)

end KMemoryManager
end Ruzu.MemoryManager
