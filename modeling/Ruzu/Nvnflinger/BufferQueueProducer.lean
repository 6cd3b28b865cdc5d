import Ruzu.Nvnflinger.BufferQueueCore

/-!
# The buffer queue producer

The locked sections of `BufferQueueProducer` as in `buffer_queue_producer.rs`.
A call that has to wait for a free slot gives the mutex up and runs the same
section again; `dequeue_buffer` takes the mutex a second time to store the
buffer it has allocated. `none` stands for a panic, and for a call that waits
until `is_allocating` is false.
-/

set_option autoImplicit false

namespace Ruzu.Nvnflinger

/-- What one pass over the slots finds. -/
structure Scan where
  found : Option SlotIndex
  dequeuedCount : ℤ
  acquiredCount : ℤ

def Scan.visit (slots : Slots) (scan : Scan) (s : SlotIndex) : Scan :=
  match (slots s).bufferState with
  | .dequeued => { scan with dequeuedCount := scan.dequeuedCount + 1 }
  | .acquired => { scan with acquiredCount := scan.acquiredCount + 1 }
  | .free =>
    match scan.found with
    | none => { scan with found := some s }
    | some f =>
      if (slots s).frameNumber < (slots f).frameNumber then { scan with found := some s } else scan
  | .queued => scan

inductive Wait
  | returned (status : Status) (found : Option SlotIndex)
  | waiting

structure DequeueRequest where
  asyncFlag : Bool
  width : BitVec 32
  height : BitVec 32
  format : PixelFormat
  usage : BitVec 32
  deriving DecidableEq

/-- A `dequeue_buffer` between its two sections. -/
structure Allocation where
  slot : SlotIndex
  width : BitVec 32
  height : BitVec 32
  format : PixelFormat
  usage : BitVec 32
  returnFlags : StatusCode
  attachedByConsumer : Bool
  outFence : Fence
  deriving DecidableEq

inductive Dequeue
  | returned (status : StatusCode) (slot : Option SlotIndex) (fence : Fence)
  | waiting (request : DequeueRequest) (returnFlags : StatusCode)
  | allocating (allocation : Allocation)

inductive Attach
  | returned (status : StatusCode) (slot : Option SlotIndex)
  | waiting (buffer : GraphicBuffer) (returnFlags : StatusCode)

structure QueueBufferInput where
  timestamp : Int64
  isAutoTimestamp : ℤ
  crop : Rectangle
  scalingMode : NativeWindowScalingMode
  transform : BitVec 32
  stickyTransform : BitVec 32
  asyncFlag : ℤ
  swapInterval : ℤ
  fence : Fence

structure QueueBufferOutput where
  width : BitVec 32
  height : BitVec 32
  transformHint : BitVec 32
  numPendingBuffers : BitVec 32

namespace QueueBufferOutput

def new : QueueBufferOutput := ⟨0, 0, 0, 0⟩

def inflate (inner : BufferQueueCoreInner) : QueueBufferOutput :=
  ⟨inner.defaultWidth, inner.defaultHeight, inner.transformHint,
    BitVec.ofNat 32 inner.queue.length⟩

end QueueBufferOutput

def inverseDisplay : BitVec 32 := 0x08

namespace BufferQueueCoreInner

variable (inner : BufferQueueCoreInner)

def freeUnused (r : BufferQueueCoreInner × StatusCode) (s : SlotIndex) :
    BufferQueueCoreInner × StatusCode :=
  if (r.1.slots s).graphicBuffer.isSome ∧ (r.1.slots s).bufferState = .free ∧
      (r.1.slots s).isPreallocated = false
  then (r.1.freeBufferLocked s, r.2 ||| StatusCode.releaseAllBuffers)
  else r

def scan (maxBufferCount : ℕ) : Scan :=
  (slotRange 0 maxBufferCount).foldl (Scan.visit inner.slots) ⟨none, 0, 0⟩

/-- What the loop does once the slots have been counted. -/
def chooseSlot (asyncFlag : Bool) (maxBufferCount : ℤ) (scan : Scan) : Wait :=
  if inner.overrideMaxBufferCount = 0 ∧ scan.dequeuedCount ≠ 0 then
    .returned .invalidOperation scan.found
  else if inner.bufferHasBeenQueued ∧ maxBufferCount - (scan.dequeuedCount + 1) <
      inner.getMinUndequeuedBufferCountLocked asyncFlag then
    .returned .invalidOperation scan.found
  else if scan.found = none ∨ asUsize maxBufferCount < inner.queue.length then
    if inner.dequeueBufferCannotBlock ∧ scan.acquiredCount ≤ inner.maxAcquiredBufferCount then
      .returned .wouldBlock scan.found
    else .waiting
  else .returned .noError scan.found

/-- One turn of the loop of `wait_for_free_slot_then_relock`. -/
def waitForFreeSlotThenRelock (asyncFlag : Bool) (returnFlags : StatusCode) :
    Option (BufferQueueCoreInner × StatusCode × Wait) :=
  if inner.isAbandoned then some (inner, returnFlags, .returned .noInit none)
  else
    (inner.getMaxBufferCountLocked asyncFlag).bind fun maxBufferCount =>
      if asyncFlag ∧ inner.overrideMaxBufferCount ≠ 0 ∧
          inner.overrideMaxBufferCount < maxBufferCount then
        some (inner, returnFlags, .returned .badValue none)
      else
        let r := (slotRange (asUsize maxBufferCount) numBufferSlots).foldl freeUnused
          (inner, returnFlags)
        if asUsize maxBufferCount ≤ numBufferSlots then
          some (r.1, r.2,
            r.1.chooseSlot asyncFlag maxBufferCount (r.1.scan (asUsize maxBufferCount)))
        else none

def requestBuffer (slot : ℤ) : BufferQueueCoreInner × Status × Option GraphicBuffer :=
  if inner.isAbandoned then (inner, .noInit, none)
  else
    match slotIndex slot with
    | none => (inner, .badValue, none)
    | some s =>
      if (inner.slots s).bufferState ≠ .dequeued then (inner, .badValue, none)
      else
        (inner.setSlot s { inner.slots s with requestBufferCalled := true }, .noError,
          (inner.slots s).graphicBuffer)

def setBufferCount (bufferCount : ℤ) : Option (BufferQueueCoreInner × Status) :=
  if inner.isAllocating then none
  else if inner.isAbandoned then some (inner, .noInit)
  else if numBufferSlots < bufferCount then some (inner, .badValue)
  else if (List.finRange numBufferSlots).any fun s => (inner.slots s).bufferState == .dequeued then
    some (inner, .badValue)
  else if bufferCount = 0 then some ({ inner with overrideMaxBufferCount := 0 }, .noError)
  else if bufferCount < inner.getMinMaxBufferCountLocked false then some (inner, .badValue)
  else if inner.getPreallocatedBufferCountLocked ≤ 0 then
    some ({ inner.freeAllBuffersLocked with overrideMaxBufferCount := bufferCount }, .noError)
  else some ({ inner with overrideMaxBufferCount := bufferCount }, .noError)

def needsReallocation (slot : BufferSlot) (width height : BitVec 32) (format : PixelFormat)
    (usage : BitVec 32) : Bool :=
  match slot.graphicBuffer with
  | some buffer => buffer.width != width || buffer.height != height || buffer.format != format ||
      buffer.usage &&& usage != usage
  | none => true

/-- The end of `dequeue_buffer`, after its sections. -/
def dequeueReturn (a : Allocation) : Dequeue :=
  .returned (if a.attachedByConsumer then a.returnFlags ||| StatusCode.bufferNeedsReallocation
    else a.returnFlags) (some a.slot) a.outFence

def reallocatedSlot (slot : BufferSlot) : BufferSlot :=
  { slot with
    acquireCalled := false
    graphicBuffer := none
    requestBufferCalled := false
    fence := Fence.noFence }

/-- The first section of `dequeue_buffer` once a slot has been found. -/
def takeSlot (request : DequeueRequest) (returnFlags : StatusCode) (found : SlotIndex) :
    BufferQueueCoreInner × Dequeue :=
  let unsized := request.width = 0 ∧ request.height = 0
  let width := if unsized then inner.defaultWidth else request.width
  let height := if unsized then inner.defaultHeight else request.height
  let dequeued := { inner.slots found with bufferState := .dequeued }
  let reallocate := needsReallocation dequeued width height request.format request.usage
  let slot := if reallocate then reallocatedSlot dequeued else dequeued
  let returnFlags :=
    if reallocate then returnFlags ||| StatusCode.bufferNeedsReallocation else returnFlags
  let allocation : Allocation := ⟨found, width, height, request.format, request.usage, returnFlags,
    (inner.slots found).attachedByConsumer, slot.fence⟩
  (inner.setSlot found { slot with fence := Fence.noFence },
    if returnFlags.contains StatusCode.bufferNeedsReallocation then .allocating allocation
    else dequeueReturn allocation)

/-- The first section of `dequeue_buffer`, from its wait for a slot on. -/
def dequeueSection (request : DequeueRequest) (returnFlags : StatusCode) :
    Option (BufferQueueCoreInner × Dequeue) :=
  (inner.waitForFreeSlotThenRelock request.asyncFlag returnFlags).map fun r =>
    match r.2.2 with
    | .waiting => (r.1, .waiting request r.2.1)
    | .returned .noError (some found) => r.1.takeSlot request r.2.1 found
    | .returned .noError none => (r.1, .returned (.ofStatus .busy) none Fence.default)
    | .returned status _ => (r.1, .returned (.ofStatus status) none Fence.default)

def dequeueBuffer (request : DequeueRequest) : Option (BufferQueueCoreInner × Dequeue) :=
  if (request.width ≠ 0 ∧ request.height = 0) ∨ (request.width = 0 ∧ request.height ≠ 0) then
    some (inner, .returned (.ofStatus .badValue) none Fence.default)
  else if inner.isAllocating then none
  else
    let format :=
      if request.format = .noFormat then inner.defaultBufferFormat else request.format
    inner.dequeueSection
      { request with format := format, usage := request.usage ||| inner.consumerUsageBit }
      StatusCode.noError

/-- The second section of `dequeue_buffer`, which stores the new allocation `arc`. -/
def storeBuffer (a : Allocation) (arc : ℕ) : BufferQueueCoreInner × Dequeue :=
  if inner.isAbandoned then (inner, .returned (.ofStatus .noInit) none Fence.default)
  else
    (inner.setSlot a.slot { inner.slots a.slot with
        frameNumber := 0xFFFFFFFF
        graphicBuffer := some ⟨arc, a.width, a.height, a.format, a.usage⟩ },
      dequeueReturn a)

def detachBuffer (slot : ℤ) : BufferQueueCoreInner × Status :=
  if inner.isAbandoned then (inner, .noInit)
  else
    match slotIndex slot with
    | none => (inner, .badValue)
    | some s =>
      if (inner.slots s).bufferState ≠ .dequeued then (inner, .badValue)
      else if (inner.slots s).requestBufferCalled = false then (inner, .badValue)
      else (inner.freeBufferLocked s, .noError)

/-- The free slot with a buffer of the lowest frame number. -/
def oldestBuffer (slots : Slots) (found : Option SlotIndex) (s : SlotIndex) : Option SlotIndex :=
  if (slots s).bufferState = .free ∧ (slots s).graphicBuffer.isSome then
    match found with
    | none => some s
    | some f => if (slots s).frameNumber < (slots f).frameNumber then some s else some f
  else found

def detachNextBuffer :
    Option (BufferQueueCoreInner × Status × Option GraphicBuffer × Fence) :=
  if inner.isAllocating then none
  else if inner.isAbandoned then some (inner, .noInit, none, Fence.default)
  else
    match (List.finRange numBufferSlots).foldl (oldestBuffer inner.slots) none with
    | none => some (inner, .noMemory, none, Fence.default)
    | some s =>
      some (inner.freeBufferLocked s, .noError, (inner.slots s).graphicBuffer,
        (inner.slots s).fence)

/-- The section of `attach_buffer`, from its wait for a slot on. -/
def attachSection (buffer : GraphicBuffer) (returnFlags : StatusCode) :
    Option (BufferQueueCoreInner × Attach) :=
  (inner.waitForFreeSlotThenRelock false returnFlags).map fun r =>
    match r.2.2 with
    | .waiting => (r.1, .waiting buffer r.2.1)
    | .returned .noError (some found) =>
      (r.1.setSlot found { r.1.slots found with
          graphicBuffer := some buffer
          bufferState := .dequeued
          fence := Fence.noFence
          requestBufferCalled := true },
        .returned r.2.1 (some found))
    | .returned .noError none => (r.1, .returned (.ofStatus .busy) none)
    | .returned status _ => (r.1, .returned (.ofStatus status) none)

def attachBuffer (buffer : Option GraphicBuffer) : Option (BufferQueueCoreInner × Attach) :=
  match buffer with
  | none => some (inner, .returned (.ofStatus .badValue) none)
  | some buffer =>
    if inner.isAllocating then none else inner.attachSection buffer StatusCode.noError

def bufferRect (buffer : GraphicBuffer) : Rectangle := ⟨0, 0, buffer.width.toInt, buffer.height.toInt⟩

def croppedRect (crop bounds : Rectangle) : Rectangle :=
  ⟨max crop.left bounds.left, max crop.top bounds.top, min crop.right bounds.right,
    min crop.bottom bounds.bottom⟩

def queuedSlot (slot : BufferSlot) (frameNumber : ℕ) (input : QueueBufferInput)
    (now : Int64) : BufferSlot :=
  { slot with
    bufferState := .queued
    frameNumber := frameNumber
    queueTime := input.timestamp
    presentationTime := now
    fence := input.fence }

def newItem (s : SlotIndex) (buffer : GraphicBuffer) (frameNumber : ℕ)
    (input : QueueBufferInput) : BufferItem where
  graphicBuffer := some buffer
  fence := input.fence
  crop := input.crop
  transform := input.transform &&& ~~~inverseDisplay
  scalingMode := input.scalingMode
  timestamp := input.timestamp
  isAutoTimestamp := input.isAutoTimestamp ≠ 0
  frameNumber := frameNumber
  slot := s
  isDroppable := inner.dequeueBufferCannotBlock || input.asyncFlag ≠ 0
  acquireCalled := (inner.slots s).acquireCalled
  transformToDisplayInverse := input.transform &&& inverseDisplay = inverseDisplay
  swapInterval := input.swapInterval

/-- The slot of a droppable front, once the front is replaced. -/
def dropFront (front : BufferItem) : BufferQueueCoreInner :=
  if stillTracking inner.slots front then
    inner.setSlot front.slot
      { inner.slots front.slot with bufferState := .free, frameNumber := 0 }
  else inner

/-- Appends the item, or puts it in the place of a droppable front. -/
def pushItem (item : BufferItem) : BufferQueueCoreInner :=
  match inner.queue with
  | [] => { inner with queue := [item] }
  | front::rest =>
    if front.isDroppable then { inner.dropFront front with queue := item::rest }
    else { inner with queue := front::rest ++ [item] }

/-- `queue_buffer` once its checks have passed; `now` is the wall clock. -/
def commitBuffer (s : SlotIndex) (buffer : GraphicBuffer) (input : QueueBufferInput)
    (now : Int64) : BufferQueueCoreInner :=
  let frameNumber := (inner.frameCounter + 1) % 2 ^ 64
  let item := inner.newItem s buffer frameNumber input
  let counted := { inner with frameCounter := frameNumber }
  let marked := counted.setSlot s (queuedSlot (inner.slots s) frameNumber input now)
  { marked.pushItem item with bufferHasBeenQueued := true }

/-- The checks of `queue_buffer`, with the buffer of the slot when they pass. -/
def checkQueue (slot maxBufferCount : ℤ) (input : QueueBufferInput) :
    Option (Option (SlotIndex × GraphicBuffer)) :=
  if (input.asyncFlag ≠ 0 ∧ inner.overrideMaxBufferCount ≠ 0 ∧
      inner.overrideMaxBufferCount < maxBufferCount) ∨ slot < 0 ∨ maxBufferCount ≤ slot then
    some none
  else
    (slotIndex slot).map fun s =>
      if (inner.slots s).bufferState ≠ .dequeued then none
      else if (inner.slots s).requestBufferCalled = false then none
      else
        match (inner.slots s).graphicBuffer with
        | none => none
        | some buffer =>
          if croppedRect input.crop (bufferRect buffer) ≠ input.crop then none
          else some (s, buffer)

def queueBuffer (slot : ℤ) (input : QueueBufferInput) (now : Int64) :
    Option (BufferQueueCoreInner × Status × QueueBufferOutput) :=
  if inner.isAbandoned then some (inner, .noInit, .new)
  else
    (inner.getMaxBufferCountLocked (input.asyncFlag ≠ 0)).bind fun maxBufferCount =>
      (inner.checkQueue slot maxBufferCount input).map fun
        | none => (inner, .badValue, .new)
        | some (s, buffer) =>
          let queued := inner.commitBuffer s buffer input now
          (queued, .noError, .inflate queued)

def cancelBuffer (slot : ℤ) (fence : Fence) : BufferQueueCoreInner :=
  if inner.isAbandoned then inner
  else
    match slotIndex slot with
    | none => inner
    | some s =>
      inner.setSlot s
        { inner.slots s with bufferState := .free, frameNumber := 0, fence := fence }

def connect (listener : Bool) (api : NativeWindowApi) (producerControlledByApp : Bool) :
    BufferQueueCoreInner × Status × QueueBufferOutput :=
  if inner.isAbandoned then (inner, .noInit, .new)
  else if inner.consumerListener = false then (inner, .noInit, .new)
  else if inner.connectedApi ≠ .noConnectedApi then (inner, .badValue, .new)
  else if api = .noConnectedApi then (inner, .badValue, .new)
  else
    let connected : BufferQueueCoreInner := { inner with
      connectedApi := api
      connectedProducerListener := listener
      bufferHasBeenQueued := false
      dequeueBufferCannotBlock := inner.consumerControlledByApp && producerControlledByApp }
    (connected, .noError, .inflate connected)

def producerDisconnect (api : NativeWindowApi) : Option (BufferQueueCoreInner × Status) :=
  if inner.isAllocating then none
  else if inner.isAbandoned then some (inner, .noError)
  else if api = .noConnectedApi then some (inner, .badValue)
  else if inner.connectedApi = api then
    some ({ { inner with queue := [] }.freeAllBuffersLocked with
      connectedProducerListener := false, connectedApi := .noConnectedApi }, .noError)
  else some (inner, .badValue)

end BufferQueueCoreInner

end Ruzu.Nvnflinger
