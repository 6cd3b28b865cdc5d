import Ruzu.VideoCore.GpuMemoryManager

/-!
# Queries of a range

`memory_manager.rs`: whether a range can be read through one pointer, how far
its device addresses are consecutive, and the parts of it that are mapped. The
queries that walk the pages share the two loops of the other walkers, but may
leave them early.
-/

set_option autoImplicit false

namespace Ruzu.Gpu

def devicePageMask : ℕ := devicePageSize - 1

namespace MemoryManager

variable (g : Geometry) (m : MemoryManager)

def isBigPageContinuous (index : ℕ) : Option Bool :=
  (Packed.get 1 continuousBits m.bigPageContinuous index).map (· ≠ 0)

def isGranularRange (gpuAddr size : ℕ) : Option Bool := do
  let bigEntry ← m.big.getEntry g.bigPageBits gpuAddr
  if bigEntry = .mapped then do
    let pageIndex := gpuAddr >>> g.bigPageBits
    let continuous ← m.isBigPageContinuous pageIndex
    if continuous then return decide ((pageIndex &&& g.bigPageMask) + size ≤ g.bigPageSize)
    else return decide ((gpuAddr &&& devicePageMask) + size ≤ devicePageSize)
  else do
    let entry ← m.small.getEntry g.pageBits gpuAddr
    if entry ≠ .mapped then return false
    else return decide ((gpuAddr &&& devicePageMask) + size ≤ devicePageSize)

/-- What a query does with a piece that is mapped, at its GPU and its device address, and with one
that is not. The loops go on while it is running. -/
structure RangeVisitor (σ : Type) where
  running : σ → Bool
  mapped : σ → (gpuBase devAddr amount : ℕ) → σ
  hole : σ → (amount : ℕ) → σ

def rangeSmall {σ : Type} (v : RangeVisitor σ) (entry : EntryType)
    (pageIndex pageOffset copyAmount : ℕ) (s : σ) : Option σ :=
  match entry with
  | .mapped => do
    let devAddrBase ← m.small.pageBase g.pageTableSize pageIndex
    return v.mapped s ((pageIndex <<< g.pageBits) + pageOffset) (devAddrBase + pageOffset)
      copyAmount
  | _ => return v.hole s copyAmount

def rangeSmallLoop {σ : Type} (v : RangeVisitor σ) (fuel : ℕ)
    (remaining pageIndex pageOffset currentAddress : ℕ) (s : σ) : Option σ :=
  if remaining = 0 ∨ v.running s = false then some s else
    match fuel with
    | 0 => none
    | fuel + 1 => do
      let copyAmount := min (g.pageSize - pageOffset) remaining
      let entry ← m.small.getEntry g.pageBits currentAddress
      let s ← m.rangeSmall g v entry pageIndex pageOffset copyAmount s
      rangeSmallLoop v fuel (remaining - copyAmount) (pageIndex + 1) 0
        (currentAddress + copyAmount) s

def rangeSmallPages {σ : Type} (v : RangeVisitor σ) (base size : ℕ) (s : σ) : Option σ :=
  m.rangeSmallLoop g v size size (base >>> g.pageBits) (base &&& g.pageMask) base s

def rangeBig {σ : Type} (v : RangeVisitor σ) (entry : EntryType)
    (pageIndex pageOffset copyAmount : ℕ) (s : σ) : Option σ :=
  match entry with
  | .mapped => do
    let devAddrBase ← m.big.pageBase g.bigPageTableSize pageIndex
    return v.mapped s ((pageIndex <<< g.bigPageBits) + pageOffset) (devAddrBase + pageOffset)
      copyAmount
  | .reserved => return v.hole s copyAmount
  | .free => m.rangeSmallPages g v ((pageIndex <<< g.bigPageBits) ||| pageOffset) copyAmount s

def rangeBigLoop {σ : Type} (v : RangeVisitor σ) (fuel : ℕ)
    (remaining pageIndex pageOffset currentAddress : ℕ) (s : σ) : Option σ :=
  if remaining = 0 ∨ v.running s = false then some s else
    match fuel with
    | 0 => none
    | fuel + 1 => do
      let copyAmount := min (g.bigPageSize - pageOffset) remaining
      let entry ← m.big.getEntry g.bigPageBits currentAddress
      let s ← m.rangeBig g v entry pageIndex pageOffset copyAmount s
      rangeBigLoop v fuel (remaining - copyAmount) (pageIndex + 1) 0
        (currentAddress + copyAmount) s

def rangeWalk {σ : Type} (v : RangeVisitor σ) (gpuAddr size : ℕ) (s : σ) : Option σ :=
  m.rangeBigLoop g v size size (gpuAddr >>> g.bigPageBits) (gpuAddr &&& g.bigPageMask) gpuAddr s

/-- The address that would continue the range, and whether all pieces did. -/
structure Continuity where
  oldPageAddr : Option ℕ
  result : Bool

def continuityVisitor : RangeVisitor Continuity where
  running s := s.result
  mapped s _ devAddr amount :=
    if s.oldPageAddr ≠ none ∧ s.oldPageAddr ≠ some devAddr then { s with result := false }
    else { s with oldPageAddr := some (devAddr + amount) }
  hole s _ := { s with result := false }

def isContinuousRange (gpuAddr size : ℕ) : Option Bool :=
  (m.rangeWalk g continuityVisitor gpuAddr size ⟨none, true⟩).map Continuity.result

structure Extent where
  oldPageAddr : Option ℕ
  rangeSoFar : ℕ
  done : Bool

def extentVisitor : RangeVisitor Extent where
  running s := !s.done
  mapped s _ devAddr amount :=
    if s.oldPageAddr ≠ none ∧ s.oldPageAddr ≠ some devAddr then { s with done := true }
    else { s with
      oldPageAddr := some (devAddr + amount)
      rangeSoFar := s.rangeSoFar + amount }
  hole s _ := { s with done := true }

def maxContinuousRange (gpuAddr size : ℕ) : Option ℕ :=
  (m.rangeWalk g extentVisitor gpuAddr size ⟨none, 0, false⟩).map Extent.rangeSoFar

/-- As `submappedVisitor`, with the segments in GPU addresses. -/
def submappedRangeVisitor : RangeVisitor Submapped where
  running _ := true
  mapped s gpuBase devAddr amount :=
    let s := if s.oldPageAddr ≠ none ∧ s.oldPageAddr ≠ some devAddr then s.split else s
    { s with
      lastSegment := match s.lastSegment with
        | some seg => some (seg.1, seg.2 + amount)
        | none => some (gpuBase, amount)
      oldPageAddr := some (devAddr + amount) }
  hole s _ := { s.split with oldPageAddr := none }

def getSubmappedRange (gpuAddr size : ℕ) : Option (List (ℕ × ℕ)) :=
  (m.rangeWalk g submappedRangeVisitor gpuAddr size ⟨[], none, none⟩).map fun s => s.split.result

end MemoryManager

end Ruzu.Gpu
