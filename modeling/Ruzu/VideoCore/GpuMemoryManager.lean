import Mathlib
import Ruzu.Common.RangeMap
import Ruzu.Lib.Packed
import Ruzu.Lib.Scatter

/-!
# The GPU address space

`memory_manager.rs`: a table of big pages shadows a table of small ones. A big
page that is free falls through to the small pages under it.
-/

set_option autoImplicit false

namespace Ruzu.Gpu

def cpuPageBits : ℕ := 12
def entriesPerU64 : ℕ := 32
def continuousBits : ℕ := 64
def devicePageSize : ℕ := 2 ^ 12

inductive EntryType
  | free
  | reserved
  | mapped
  deriving DecidableEq

def EntryType.toBits : EntryType → BitVec 64
  | .free => 0
  | .reserved => 1
  | .mapped => 2

def EntryType.ofBits (bits : BitVec 64) : EntryType :=
  if bits = 1 then .reserved else if bits = 2 then .mapped else .free

/-- `PteKind`, a byte. -/
def invalidKind : UInt8 := 0xff

/-- The device memory behind the manager: the host page of each device page, and the host
bytes. -/
structure DeviceMemory where
  hostPage : ℕ → Option ℕ
  host : ℕ → UInt8

namespace DeviceMemory

variable (d : DeviceMemory)

/-- `smmu_get_host_ptr`. -/
def hostAddress (addr : ℕ) : Option ℕ :=
  (d.hostPage (addr / devicePageSize)).map (· + addr % devicePageSize)

def getPointer (addr : ℕ) : ℕ := (d.hostAddress addr).getD 0

def readByte (addr : ℕ) : UInt8 :=
  match d.hostAddress addr with
  | some host => d.host host
  | none => 0

def writeByte (addr : ℕ) (byte : UInt8) : DeviceMemory :=
  match d.hostAddress addr with
  | some host => { d with host := Function.update d.host host byte }
  | none => d

def smmuReadBlockUnsafe (addr n : ℕ) : List UInt8 :=
  (List.range n).map fun i => d.readByte (addr + i)

def smmuWriteBlockUnsafe (addr : ℕ) (data : List UInt8) : DeviceMemory :=
  (List.range data.length).foldl (fun d i => d.writeByte (addr + i) (data.getD i 0)) d

end DeviceMemory

structure Geometry where
  addressSpaceBits : ℕ
  bigPageBits : ℕ
  pageBits : ℕ

namespace Geometry

/-- `GpuMemoryManager::new`. -/
def new : Geometry := ⟨40, 16, 12⟩

variable (g : Geometry)

def addressSpaceSize : ℕ := 2 ^ g.addressSpaceBits
def pageSize : ℕ := 2 ^ g.pageBits
def pageMask : ℕ := g.pageSize - 1
def bigPageSize : ℕ := 2 ^ g.bigPageBits
def bigPageMask : ℕ := g.bigPageSize - 1
def pageTableSize : ℕ := 2 ^ (g.addressSpaceBits - g.pageBits)
def bigPageTableSize : ℕ := 2 ^ (g.addressSpaceBits - g.bigPageBits)
def firstLevelBits : ℕ := g.addressSpaceBits + g.pageBits - 38
def firstLevelShift : ℕ := g.addressSpaceBits - g.firstLevelBits

end Geometry

/-- One of the two tables: the packed entries, and the device page of each page. -/
structure Table where
  entries : List (BitVec 64)
  pages : ℕ → ℕ

namespace Table

def new (size : ℕ) : Table := ⟨List.replicate (size / entriesPerU64) 0, fun _ => 0⟩

variable (t : Table)

/-- `get_entry_big`, `get_entry_small`. -/
def getEntry (bits position : ℕ) : Option EntryType :=
  (Packed.get 2 entriesPerU64 t.entries (position >>> bits)).map EntryType.ofBits

/-- `set_entry_big`, `set_entry_small`. -/
def setEntry (bits position : ℕ) (entry : EntryType) : Option Table :=
  (Packed.put 2 entriesPerU64 t.entries (position >>> bits) entry.toBits).map fun entries =>
    { t with entries }

/-- `page_entry_index_big`, `page_entry_index_small`. -/
def pageEntryIndex (bits size gpuAddr : ℕ) : ℕ := (gpuAddr >>> bits) &&& (size - 1)

def setPage (index devAddr : ℕ) : Table :=
  { t with pages := Function.update t.pages index ((devAddr >>> cpuPageBits) % 2 ^ 32) }

/-- The device address of a page, as far as the table reaches. -/
def pageBase (size index : ℕ) : Option ℕ :=
  if index < size then some (t.pages index <<< cpuPageBits) else none

end Table

inductive RasterizerOp
  | modifyGpuMemory (gpuAddr size : ℕ)
  | unmapMemory (deviceAddr size : ℕ)
  deriving DecidableEq

structure MemoryManager where
  small : Table
  firstLevelMap : List Bool
  big : Table
  bigPageContinuous : List (BitVec 64)
  kindMap : RangeMap UInt8
  rasterizerOps : List RasterizerOp

namespace MemoryManager

variable (g : Geometry)

/-- `with_params_and_device_memory`. -/
def new : MemoryManager where
  small := .new g.pageTableSize
  firstLevelMap := List.replicate (2 ^ g.firstLevelBits) false
  big := .new g.bigPageTableSize
  bigPageContinuous := List.replicate (g.bigPageTableSize / continuousBits) 0
  kindMap := .new invalidKind
  rasterizerOps := []

variable (d : DeviceMemory) (m : MemoryManager)

def notify (op : RasterizerOp) : MemoryManager :=
  { m with rasterizerOps := m.rasterizerOps ++ [op] }

/-- `notify_modify_gpu_memory`, when an entry has changed. -/
def notifyModifyGpuMemory (changed : Bool) (gpuAddr size : ℕ) : MemoryManager :=
  if changed then m.notify (.modifyGpuMemory gpuAddr size) else m

def allocateLevel (level : ℕ) : Option MemoryManager :=
  if level < m.firstLevelMap.length then
    some { m with firstLevelMap := m.firstLevelMap.set level true }
  else none

/-- `MultiLevelPageTable::reserve_range`: the levels of both ends and of all between. -/
def reserveRange (start size : ℕ) : Option MemoryManager :=
  let newStart := start >>> g.firstLevelShift
  let newEnd := (start + size) >>> g.firstLevelShift
  Scatter.loop (newEnd + 1 - newStart) m fun m i => m.allocateLevel (newStart + i)

/-- Only a page that is going to be mapped needs its level. -/
def reserveFor (entryType : EntryType) (start size : ℕ) : Option MemoryManager :=
  if entryType = .mapped then m.reserveRange g start size else some m

def isDeviceBigPageContinuous (currentDevAddr : ℕ) : Bool :=
  let basePtr := d.getPointer currentDevAddr
  basePtr ≠ 0 && (List.range' 1 (g.bigPageSize / g.pageSize - 1)).all fun i =>
    let nextPtr := d.getPointer (currentDevAddr + i * g.pageSize)
    nextPtr ≠ 0 && basePtr + i * g.pageSize = nextPtr

def setBigPageContinuous (index : ℕ) (value : Bool) : Option MemoryManager :=
  (Packed.put 1 continuousBits m.bigPageContinuous index (if value then 1 else 0)).map
    fun bigPageContinuous => { m with bigPageContinuous }

/-- The pages of a size that a range takes. -/
def pageCount (size pageSize : ℕ) : ℕ := (size + pageSize - 1) / pageSize

def setKind (gpuAddr size : ℕ) (kind : UInt8) : MemoryManager :=
  { m with kindMap := m.kindMap.map gpuAddr (gpuAddr + size) kind }

def pageTableStep (entryType : EntryType) (currentGpuAddr currentDevAddr : ℕ) :
    Option MemoryManager := do
  let currentEntryType ← m.small.getEntry g.pageBits currentGpuAddr
  let small ← m.small.setEntry g.pageBits currentGpuAddr entryType
  let m := { m with small }
  let m := m.notifyModifyGpuMemory (currentEntryType ≠ entryType) currentGpuAddr g.pageSize
  if entryType = .mapped then
    let index := Table.pageEntryIndex g.pageBits g.pageTableSize currentGpuAddr
    return { m with small := m.small.setPage index currentDevAddr }
  else return m

def pageTableOp (entryType : EntryType) (gpuAddr devAddr size : ℕ) (kind : UInt8) :
    Option MemoryManager := do
  let m ← m.reserveFor g entryType gpuAddr size
  let m ← Scatter.loop (pageCount size g.pageSize) m fun m i =>
    m.pageTableStep g entryType (gpuAddr + i * g.pageSize) (devAddr + i * g.pageSize)
  return m.setKind gpuAddr size kind

def bigPageTableStep (entryType : EntryType) (currentGpuAddr currentDevAddr : ℕ) :
    Option MemoryManager := do
  let currentEntryType ← m.big.getEntry g.bigPageBits currentGpuAddr
  let big ← m.big.setEntry g.bigPageBits currentGpuAddr entryType
  let m := { m with big }
  let m := m.notifyModifyGpuMemory (currentEntryType ≠ entryType) currentGpuAddr g.bigPageSize
  if entryType = .mapped then
    let index := Table.pageEntryIndex g.bigPageBits g.bigPageTableSize currentGpuAddr
    let m := { m with big := m.big.setPage index currentDevAddr }
    m.setBigPageContinuous index (isDeviceBigPageContinuous g d currentDevAddr)
  else return m

def bigPageTableOp (entryType : EntryType) (gpuAddr devAddr size : ℕ) (kind : UInt8) :
    Option MemoryManager := do
  let m ← Scatter.loop (pageCount size g.bigPageSize) m fun m i =>
    m.bigPageTableStep g d entryType (gpuAddr + i * g.bigPageSize) (devAddr + i * g.bigPageSize)
  return m.setKind gpuAddr size kind

def mapEx (gpuAddr devAddr size : ℕ) (kind : UInt8) (isBigPages : Bool) :
    Option MemoryManager :=
  if isBigPages then m.bigPageTableOp g d .mapped gpuAddr devAddr size kind
  else m.pageTableOp g .mapped gpuAddr devAddr size kind

def mapSparseEx (gpuAddr size : ℕ) (isBigPages : Bool) : Option MemoryManager :=
  if isBigPages then m.bigPageTableOp g d .reserved gpuAddr 0 size invalidKind
  else m.pageTableOp g .reserved gpuAddr 0 size invalidKind

def getPageKind (gpuAddr : ℕ) : UInt8 := m.kindMap.getValueAt gpuAddr

/-- `None` is a fault, `some None` an address that is not mapped. -/
def gpuToCpuAddress (gpuAddr : ℕ) : Option (Option ℕ) :=
  if gpuAddr ≥ g.addressSpaceSize then some none else do
    let bigEntry ← m.big.getEntry g.bigPageBits gpuAddr
    if bigEntry = .mapped then
      let devAddrBase ← m.big.pageBase g.bigPageTableSize
        (Table.pageEntryIndex g.bigPageBits g.bigPageTableSize gpuAddr)
      return some (devAddrBase + (gpuAddr &&& g.bigPageMask))
    else do
      let entry ← m.small.getEntry g.pageBits gpuAddr
      if entry = .mapped then
        let devAddrBase ← m.small.pageBase g.pageTableSize
          (Table.pageEntryIndex g.pageBits g.pageTableSize gpuAddr)
        return some (devAddrBase + (gpuAddr &&& g.pageMask))
      else return none

/-! ### The walk over a range -/

/-- What a walker does with a piece that is mapped and with one that is not. -/
structure Visitor (σ : Type) where
  mapped : σ → (devAddr amount : ℕ) → σ
  hole : σ → (amount : ℕ) → σ

/-- A piece of a small page. -/
def visitSmall {σ : Type} (v : Visitor σ) (entry : EntryType)
    (pageIndex pageOffset copyAmount : ℕ) (s : σ) : Option σ :=
  match entry with
  | .mapped => do
    let devAddrBase ← m.small.pageBase g.pageTableSize pageIndex
    return v.mapped s (devAddrBase + pageOffset) copyAmount
  | _ => return v.hole s copyAmount

/-- The loop over small pages that every walker of a range has. Each turn takes a byte at
least, so as much fuel as there are bytes is enough. -/
def walkSmall {σ : Type} (v : Visitor σ) (fuel : ℕ)
    (remaining pageIndex pageOffset currentAddress : ℕ) (s : σ) : Option σ :=
  if remaining = 0 then some s else
    match fuel with
    | 0 => none
    | fuel + 1 => do
      let copyAmount := min (g.pageSize - pageOffset) remaining
      let entry ← m.small.getEntry g.pageBits currentAddress
      let s ← m.visitSmall g v entry pageIndex pageOffset copyAmount s
      walkSmall v fuel (remaining - copyAmount) (pageIndex + 1) 0 (currentAddress + copyAmount) s

/-- The small pages from an address on. -/
def walkSmallPages {σ : Type} (v : Visitor σ) (base size : ℕ) (s : σ) : Option σ :=
  m.walkSmall g v size size (base >>> g.pageBits) (base &&& g.pageMask) base s

/-- A piece of a big page, or of the small pages under it. -/
def visitBig {σ : Type} (v : Visitor σ) (entry : EntryType)
    (pageIndex pageOffset copyAmount : ℕ) (s : σ) : Option σ :=
  match entry with
  | .mapped => do
    let devAddrBase ← m.big.pageBase g.bigPageTableSize pageIndex
    return v.mapped s (devAddrBase + pageOffset) copyAmount
  | .reserved => return v.hole s copyAmount
  | .free => m.walkSmallPages g v ((pageIndex <<< g.bigPageBits) ||| pageOffset) copyAmount s

/-- The loop over big pages. -/
def walkBig {σ : Type} (v : Visitor σ) (fuel : ℕ)
    (remaining pageIndex pageOffset currentAddress : ℕ) (s : σ) : Option σ :=
  if remaining = 0 then some s else
    match fuel with
    | 0 => none
    | fuel + 1 => do
      let copyAmount := min (g.bigPageSize - pageOffset) remaining
      let entry ← m.big.getEntry g.bigPageBits currentAddress
      let s ← m.visitBig g v entry pageIndex pageOffset copyAmount s
      walkBig v fuel (remaining - copyAmount) (pageIndex + 1) 0 (currentAddress + copyAmount) s

def walk {σ : Type} (v : Visitor σ) (gpuAddr size : ℕ) (s : σ) : Option σ :=
  m.walkBig g v size size (gpuAddr >>> g.bigPageBits) (gpuAddr &&& g.bigPageMask) gpuAddr s

/-- `read_block_impl_unsafe`, `read_small_pages`: what has been read so far. -/
def readVisitor : Visitor (List UInt8) where
  mapped dst devAddr amount := dst ++ d.smmuReadBlockUnsafe devAddr amount
  hole dst amount := dst ++ List.replicate amount 0

def readBlockUnsafe (gpuSrc n : ℕ) : Option (List UInt8) := m.walk g (readVisitor d) gpuSrc n []

/-- `write_block_impl`, `write_small_pages`: the offset in the source and the memory. -/
def writeVisitor (src : List UInt8) : Visitor (ℕ × DeviceMemory) where
  mapped s devAddr amount :=
    (s.1 + amount, s.2.smmuWriteBlockUnsafe devAddr ((src.drop s.1).take amount))
  hole s amount := (s.1 + amount, s.2)

def writeBlockUnsafe (gpuDest : ℕ) (src : List UInt8) : Option DeviceMemory :=
  (m.walk g (writeVisitor src) gpuDest src.length (0, d)).map Prod.snd

/-- The ranges that `get_submapped_device_ranges` has closed, the open one, and the address
that would extend it. -/
structure Submapped where
  result : List (ℕ × ℕ)
  lastSegment : Option (ℕ × ℕ)
  oldPageAddr : Option ℕ

def Submapped.split (s : Submapped) : Submapped :=
  { s with result := s.result ++ s.lastSegment.toList, lastSegment := none }

def submappedVisitor : Visitor Submapped where
  mapped s devAddr amount :=
    let s := if s.oldPageAddr ≠ none ∧ s.oldPageAddr ≠ some devAddr then s.split else s
    { s with
      lastSegment := match s.lastSegment with
        | some seg => some (seg.1, seg.2 + amount)
        | none => some (devAddr, amount)
      oldPageAddr := some (devAddr + amount) }
  hole s _ := { s.split with oldPageAddr := none }

def getSubmappedDeviceRanges (gpuAddr size : ℕ) : Option (List (ℕ × ℕ)) :=
  (m.walk g submappedVisitor gpuAddr size ⟨[], none, none⟩).map fun s => s.split.result

def unmap (gpuAddr size : ℕ) : Option MemoryManager :=
  if size = 0 then some m else do
    let ranges ← m.getSubmappedDeviceRanges g gpuAddr size
    let m := ranges.foldl (fun m r => m.notify (.unmapMemory r.1 r.2)) m
    let m ← m.bigPageTableOp g d .free gpuAddr 0 size invalidKind
    m.pageTableOp g .free gpuAddr 0 size invalidKind

end MemoryManager

end Ruzu.Gpu
