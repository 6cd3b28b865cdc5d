import Mathlib

/-!
# The buffer queue core

`BufferQueueCoreInner` as in `buffer_queue_core.rs`, with the slots of
`buffer_slot.rs` and the items of `buffer_item.rs`. A buffer is known by the
allocation its `Arc` points to. A queue item's slot is an index in range, as
`queue_buffer` has checked it. `none` stands for a panic.
-/

set_option autoImplicit false

namespace Ruzu.Nvnflinger

abbrev numBufferSlots : ℕ := 64

abbrev SlotIndex := Fin numBufferSlots

def maxReasonableNsec : Int64 := 1000000000

inductive BufferState
  | free | dequeued | queued | acquired
  deriving DecidableEq, Repr

inductive PixelFormat
  | noFormat | rgba8888 | rgbx8888 | rgb888 | rgb565 | bgra8888 | rgba5551 | rgba4444
  deriving DecidableEq, Repr

inductive NativeWindowApi
  | noConnectedApi | egl | cpu | media | camera
  deriving DecidableEq, Repr

inductive NativeWindowScalingMode
  | freeze | scaleToWindow | scaleCrop | noScaleCrop | preserveAspectRatio
  deriving DecidableEq, Repr

inductive Status
  | noError | staleBufferSlot | noBufferAvailable | presentLater | wouldBlock | noMemory
  | busy | noInit | badValue | invalidOperation
  deriving DecidableEq, Repr

def Status.raw : Status → ℤ
  | .noError => 0
  | .staleBufferSlot => 1
  | .noBufferAvailable => 2
  | .presentLater => 3
  | .wouldBlock => -11
  | .noMemory => -12
  | .busy => -16
  | .noInit => -19
  | .badValue => -22
  | .invalidOperation => -38

abbrev StatusCode := BitVec 32

namespace StatusCode

def noError : StatusCode := 0
def bufferNeedsReallocation : StatusCode := 1
def releaseAllBuffers : StatusCode := 2
def ofStatus (status : Status) : StatusCode := BitVec.ofInt 32 status.raw
def contains (code flag : StatusCode) : Bool := code &&& flag != 0

end StatusCode

structure NvFence where
  id : ℤ
  value : ℕ
  deriving DecidableEq, Repr

structure Fence where
  numFences : ℕ
  fences : Vector NvFence 4
  deriving DecidableEq, Repr

namespace Fence

def default : Fence := ⟨0, Vector.replicate 4 ⟨0, 0⟩⟩
def noFence : Fence := ⟨0, Vector.replicate 4 ⟨-1, 0⟩⟩

end Fence

structure Rectangle where
  left : ℤ
  top : ℤ
  right : ℤ
  bottom : ℤ
  deriving DecidableEq, Repr

/-- A shared buffer; `arc` is the allocation. -/
structure GraphicBuffer where
  arc : ℕ
  width : BitVec 32
  height : BitVec 32
  format : PixelFormat
  usage : BitVec 32
  deriving DecidableEq, Repr

structure BufferSlot where
  graphicBuffer : Option GraphicBuffer
  bufferState : BufferState
  requestBufferCalled : Bool
  frameNumber : ℕ
  fence : Fence
  acquireCalled : Bool
  needsCleanupOnRelease : Bool
  attachedByConsumer : Bool
  isPreallocated : Bool
  queueTime : Int64
  presentationTime : Int64

def BufferSlot.default : BufferSlot :=
  ⟨none, .free, false, 0, Fence.default, false, false, false, false, 0, 0⟩

structure BufferItem where
  graphicBuffer : Option GraphicBuffer
  fence : Fence
  crop : Rectangle
  transform : BitVec 32
  scalingMode : NativeWindowScalingMode
  timestamp : Int64
  isAutoTimestamp : Bool
  frameNumber : ℕ
  slot : SlotIndex
  isDroppable : Bool
  acquireCalled : Bool
  transformToDisplayInverse : Bool
  swapInterval : ℤ

abbrev Slots := SlotIndex → BufferSlot

/-- The listeners are kept as whether there is one. -/
structure BufferQueueCoreInner where
  isAbandoned : Bool
  consumerControlledByApp : Bool
  consumerListener : Bool
  consumerUsageBit : BitVec 32
  connectedApi : NativeWindowApi
  connectedProducerListener : Bool
  slots : Slots
  queue : List BufferItem
  overrideMaxBufferCount : ℤ
  useAsyncBuffer : Bool
  dequeueBufferCannotBlock : Bool
  defaultBufferFormat : PixelFormat
  defaultWidth : BitVec 32
  defaultHeight : BitVec 32
  defaultMaxBufferCount : ℤ
  maxAcquiredBufferCount : ℤ
  bufferHasBeenQueued : Bool
  frameCounter : ℕ
  transformHint : BitVec 32
  isAllocating : Bool

/-- An `i32` as a `usize`. -/
def asUsize (n : ℤ) : ℕ := (n % 2 ^ 64).toNat

/-- The slots `low..high`. -/
def slotRange (low high : ℕ) : List SlotIndex :=
  (List.finRange numBufferSlots).filter fun s => low ≤ s.val ∧ s.val < high

/-- A slot number that a check has left in range. -/
def slotIndex (slot : ℤ) : Option SlotIndex :=
  if h : 0 ≤ slot ∧ slot.toNat < numBufferSlots then some ⟨slot.toNat, h.2⟩ else none

def stillTracking (slots : Slots) (item : BufferItem) : Bool :=
  match (slots item.slot).graphicBuffer, item.graphicBuffer with
  | some slotBuf, some itemBuf => slotBuf.arc == itemBuf.arc
  | _, _ => false

namespace BufferQueueCoreInner

def new : BufferQueueCoreInner where
  isAbandoned := false
  consumerControlledByApp := false
  consumerListener := false
  consumerUsageBit := 0
  connectedApi := .noConnectedApi
  connectedProducerListener := false
  slots := fun _ => BufferSlot.default
  queue := []
  overrideMaxBufferCount := 0
  useAsyncBuffer := false
  dequeueBufferCannotBlock := false
  defaultBufferFormat := .rgba8888
  defaultWidth := 1
  defaultHeight := 1
  defaultMaxBufferCount := 2
  maxAcquiredBufferCount := 0
  bufferHasBeenQueued := false
  frameCounter := 0
  transformHint := 0
  isAllocating := false

variable (inner : BufferQueueCoreInner)

def setSlot (s : SlotIndex) (slot : BufferSlot) : BufferQueueCoreInner :=
  { inner with slots := Function.update inner.slots s slot }

@[simp] theorem setSlot_slots (s : SlotIndex) (slot : BufferSlot) :
    (inner.setSlot s slot).slots = Function.update inner.slots s slot := rfl

@[simp] theorem setSlot_queue (s : SlotIndex) (slot : BufferSlot) :
    (inner.setSlot s slot).queue = inner.queue := rfl

@[simp] theorem setSlot_isAbandoned (s : SlotIndex) (slot : BufferSlot) :
    (inner.setSlot s slot).isAbandoned = inner.isAbandoned := rfl

@[simp] theorem setSlot_frameCounter (s : SlotIndex) (slot : BufferSlot) :
    (inner.setSlot s slot).frameCounter = inner.frameCounter := rfl

def getMinUndequeuedBufferCountLocked (asyncFlag : Bool) : ℤ :=
  if !inner.useAsyncBuffer then 0
  else if inner.dequeueBufferCannotBlock || asyncFlag then inner.maxAcquiredBufferCount + 1
  else inner.maxAcquiredBufferCount

def getMinMaxBufferCountLocked (asyncFlag : Bool) : ℤ :=
  inner.getMinUndequeuedBufferCountLocked asyncFlag

def getMaxBufferCountLocked (asyncFlag : Bool) : Option ℤ :=
  let minBufferCount := inner.getMinMaxBufferCountLocked asyncFlag
  let maxBufferCount := max inner.defaultMaxBufferCount minBufferCount
  if inner.overrideMaxBufferCount ≠ 0 then
    if minBufferCount ≤ inner.overrideMaxBufferCount then some inner.overrideMaxBufferCount
    else none
  else
    some ((slotRange (asUsize maxBufferCount) numBufferSlots).foldl (fun count s =>
      if (inner.slots s).bufferState = .queued ∨ (inner.slots s).bufferState = .dequeued
      then s.val + 1 else count) maxBufferCount)

def getPreallocatedBufferCountLocked : ℤ :=
  (List.finRange numBufferSlots).countP fun s => (inner.slots s).isPreallocated

def freedSlot (slot : BufferSlot) : BufferSlot :=
  { slot with
    graphicBuffer := none
    needsCleanupOnRelease :=
      if slot.bufferState = .acquired then true else slot.needsCleanupOnRelease
    bufferState := .free
    frameNumber := 0xFFFFFFFF
    acquireCalled := false
    fence := Fence.noFence }

def freeBufferLocked (slot : SlotIndex) : BufferQueueCoreInner :=
  inner.setSlot slot (freedSlot (inner.slots slot))

def freeAllBuffersLocked : BufferQueueCoreInner :=
  (List.finRange numBufferSlots).foldl freeBufferLocked { inner with bufferHasBeenQueued := false }

end BufferQueueCoreInner

end Ruzu.Nvnflinger
