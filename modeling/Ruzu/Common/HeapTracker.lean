import Mathlib
import Ruzu.Lib.BTreeMap

/-!
# The separate heap tracker

Separate heap mappings are host-mapped on demand. The tracker keeps every
mapping by address and the resident ones by the tick of their last fault, and
evicts the oldest half when too many are resident. A panic or an unfinished
walk is `none`.
-/

set_option autoImplicit false

namespace Ruzu

structure MemoryPermission where
  bits : BitVec 32
deriving DecidableEq

/-- The host address space: what each virtual offset is mapped to. -/
abbrev HostMemory := ℕ → Option (ℕ × MemoryPermission)

namespace HostMemory

def map (m : HostMemory) (virtualOffset hostOffset length : ℕ) (perms : MemoryPermission) :
    HostMemory := fun x =>
  if virtualOffset ≤ x ∧ x < virtualOffset+length then some (hostOffset+(x-virtualOffset), perms)
  else m x

def unmap (m : HostMemory) (virtualOffset length : ℕ) : HostMemory := fun x =>
  if virtualOffset ≤ x ∧ x < virtualOffset+length then none else m x

def protect (m : HostMemory) (virtualOffset length : ℕ) (perms : MemoryPermission) :
    HostMemory := fun x =>
  if virtualOffset ≤ x ∧ x < virtualOffset+length then (m x).map (fun e => (e.1, perms)) else m x

end HostMemory

structure SeparateHeapMapData where
  vaddr : ℕ
  paddr : ℕ
  size : ℕ
  tick : ℕ
  perm : MemoryPermission
  isResident : Bool
deriving DecidableEq

structure HeapTrackerState where
  mappings : BTreeMap ℕ SeparateHeapMapData
  residentMappings : BTreeMap (ℕ ×ₗ ℕ) ℕ
  mapCount : ℤ
  residentMapCount : ℤ
  tick : ℕ

structure HeapTracker where
  buffer : HostMemory
  maxResidentMapCount : ℤ
  inner : HeapTrackerState

namespace HeapTracker

/-- The limit for a `max_map_count` of `value`, 65530 where it cannot be read. -/
def getMaxPermissibleResidentMapCount (value : Option ℤ) : ℤ := max (value.getD 65530 - 20000) 0

def new (buffer : HostMemory) (value : Option ℤ) : HeapTracker where
  buffer := buffer
  maxResidentMapCount := getMaxPermissibleResidentMapCount value
  inner := ⟨.empty, .empty, 0, 0, 0⟩

def findMappingAt (s : HeapTrackerState) (offset : ℕ) : Option ℕ :=
  match s.mappings.floor offset with
  | some (vaddr, item) => if offset < vaddr+item.size then some vaddr else none
  | none => none

def leftOf (leftSize : ℕ) (left : SeparateHeapMapData) : SeparateHeapMapData :=
  { left with size := leftSize }

/-- The part of `left` from `offset` on. -/
def rightOf (left : SeparateHeapMapData) (offset : ℕ) : SeparateHeapMapData :=
  let leftSize := offset-left.vaddr
  { left with
    vaddr := left.vaddr+leftSize
    paddr := left.paddr+leftSize
    size := left.size-leftSize }

def cutMapping (s : HeapTrackerState) (key : ℕ) (left right : SeparateHeapMapData)
    (leftSize : ℕ) : HeapTrackerState :=
  { s with
    mappings := (s.mappings.modify key (leftOf leftSize)).insert right.vaddr right
    mapCount := s.mapCount+1
    residentMapCount := if left.isResident then s.residentMapCount+1 else s.residentMapCount
    residentMappings :=
      if left.isResident then s.residentMappings.insert (toLex (right.tick, right.vaddr)) right.vaddr
      else s.residentMappings }

def splitHeapMapLocked (s : HeapTrackerState) (offset : ℕ) : Option HeapTrackerState :=
  match findMappingAt s offset with
  | none => some s
  | some key =>
    if key = offset then some s else
      (s.mappings.get key).map fun left =>
        cutMapping s key left (rightOf left offset) (offset-left.vaddr)

def splitHeapMap (s : HeapTrackerState) (offset size : ℕ) : Option HeapTrackerState :=
  (splitHeapMapLocked s offset).bind fun s => splitHeapMapLocked s (offset+size)

def nonResident (d : SeparateHeapMapData) : SeparateHeapMapData := { d with isResident := false }

def resident (tick : ℕ) (d : SeparateHeapMapData) : SeparateHeapMapData :=
  { d with tick := tick, isResident := true }

def withPerm (perm : MemoryPermission) (d : SeparateHeapMapData) : SeparateHeapMapData :=
  { d with perm := perm }

def dropResident (h : HeapTracker) (key : ℕ ×ₗ ℕ) (vaddr : ℕ) : HeapTracker :=
  { h with
    buffer := (h.inner.mappings.get vaddr).elim h.buffer fun item =>
      h.buffer.unmap item.vaddr item.size
    inner := { h.inner with
      mappings := h.inner.mappings.modify vaddr nonResident
      residentMappings := h.inner.residentMappings.remove key
      residentMapCount := h.inner.residentMapCount-1 } }

/-- Evict one resident mapping. -/
def evict (h : HeapTracker) (key : ℕ ×ₗ ℕ) : Option HeapTracker :=
  (h.inner.residentMappings.get key).bind fun vaddr =>
    if h.inner.residentMapCount-1 < 0 then none else some (dropResident h key vaddr)

def rebuildSeparateHeapAddressSpace (h : HeapTracker) : Option HeapTracker :=
  if h.inner.residentMappings.isEmpty then none else
    let desiredCount := (min h.inner.residentMapCount h.maxResidentMapCount).tdiv 2
    let evictCount := h.inner.residentMapCount-desiredCount
    ((h.inner.residentMappings.entries.map Prod.fst).take evictCount.toNat).foldlM evict h

/-- Map a tracked item and file it under a new tick. -/
def makeResident (h : HeapTracker) (key : ℕ) (item : SeparateHeapMapData) : HeapTracker :=
  let newTick := h.inner.tick
  { h with
    buffer := h.buffer.map item.vaddr item.paddr item.size item.perm
    inner := { h.inner with
      tick := newTick+1
      mappings := h.inner.mappings.modify key (resident newTick)
      residentMapCount := h.inner.residentMapCount+1
      residentMappings := h.inner.residentMappings.insert (toLex (newTick, item.vaddr)) item.vaddr } }

def deferredMapSeparateHeapOffset (h : HeapTracker) (virtualOffset : ℕ) :
    Option (Bool × HeapTracker) :=
  match findMappingAt h.inner virtualOffset with
  | none => some (false, h)
  | some key => (h.inner.mappings.get key).bind fun item =>
    if item.isResident then some (false, h) else
      -- the limit is compared before this mapping is counted
      if h.maxResidentMapCount < h.inner.residentMapCount then
        (rebuildSeparateHeapAddressSpace (makeResident h key item)).map fun h => (true, h)
      else some (true, makeResident h key item)

/-- Track a mapping that is not resident yet. -/
def track (s : HeapTrackerState) (virtualOffset hostOffset length : ℕ) (perm : MemoryPermission) :
    HeapTrackerState :=
  { s with
    tick := s.tick+1
    mapCount := s.mapCount+1
    mappings := s.mappings.insert virtualOffset
      ⟨virtualOffset, hostOffset, length, s.tick, perm, false⟩ }

def map (h : HeapTracker) (virtualOffset hostOffset length : ℕ) (perm : MemoryPermission)
    (isSeparateHeap : Bool) : Option HeapTracker :=
  if isSeparateHeap then
    (deferredMapSeparateHeapOffset
      { h with inner := track h.inner virtualOffset hostOffset length perm } virtualOffset).map
      Prod.snd
  else some { h with buffer := h.buffer.map virtualOffset hostOffset length perm }

def dropMapping (s : HeapTrackerState) (key : ℕ) (item : SeparateHeapMapData) :
    HeapTrackerState :=
  { s with
    mappings := s.mappings.remove key
    mapCount := s.mapCount-1
    residentMapCount := if item.isResident then s.residentMapCount-1 else s.residentMapCount
    residentMappings :=
      if item.isResident then s.residentMappings.remove (toLex (item.tick, item.vaddr))
      else s.residentMappings }

/-- Forget the mapping at `key`; neither counter may fall below zero. -/
def forget (s : HeapTrackerState) (key : ℕ) : Option HeapTrackerState :=
  match s.mappings.get key with
  | none => some s
  | some item =>
    if item.isResident = true ∧ s.residentMapCount-1 < 0 ∨ s.mapCount-1 < 0 then none
    else some (dropMapping s key item)

def untrack (s : HeapTrackerState) (vaddr size : ℕ) : Option HeapTrackerState := do
  let s ← splitHeapMap s vaddr size
  ((s.mappings.range vaddr (vaddr+size)).map Prod.fst).foldlM forget s

def unmap (h : HeapTracker) (virtualOffset size : ℕ) (isSeparateHeap : Bool) :
    Option HeapTracker :=
  (if isSeparateHeap then untrack h.inner virtualOffset size else some h.inner).map fun s =>
    { h with inner := s, buffer := h.buffer.unmap virtualOffset size }

/-- One step of the walk of `protect`: the state, where the walk goes on and
whether the stretch up to there is reprotected on the host. -/
def protectNext (s : HeapTrackerState) (cur stop : ℕ) (perm : MemoryPermission) :
    Option (HeapTrackerState × ℕ × Bool) :=
  match findMappingAt s cur with
  | none =>
    match s.mappings.ceil cur with
    | some (nextVaddr, _) => some (s, if nextVaddr < stop then nextVaddr else stop, true)
    | none => some (s, stop, true)
  | some key => (s.mappings.get key).map fun item =>
    if item.vaddr = cur then
      ({ s with mappings := s.mappings.modify key (withPerm perm) }, cur+item.size,
        item.isResident)
    else (s, item.vaddr, true)

def protectLoop (stop : ℕ) (perm : MemoryPermission) : ℕ → HeapTracker → ℕ → Option HeapTracker
  | 0, h, cur => if cur < stop then none else some h
  | fuel+1, h, cur =>
    if cur < stop then
      (protectNext h.inner cur stop perm).bind fun r =>
        let next := min r.2.1 stop
        if r.2.2 then
          -- the length of the stretch must not be negative
          if next < cur then none else
            protectLoop stop perm fuel
              { h with inner := r.1, buffer := h.buffer.protect cur (next-cur) perm } next
        else protectLoop stop perm fuel { h with inner := r.1 } next
    else some h

def protect (h : HeapTracker) (virtualOffset size : ℕ) (perm : MemoryPermission) :
    Option HeapTracker :=
  (splitHeapMap h.inner virtualOffset size).bind fun s =>
    protectLoop (virtualOffset+size) perm (size+1) { h with inner := s } virtualOffset

end HeapTracker
end Ruzu
