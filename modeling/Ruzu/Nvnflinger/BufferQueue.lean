import Ruzu.Lib.Transition
import Ruzu.Nvnflinger.BufferQueueConsumer
import Ruzu.Nvnflinger.BufferQueueProducer

/-!
# The buffer queue under its mutex

The state is the core with the producer calls that have given the mutex up:
those that wait for a free slot, and the `dequeue_buffer` calls that are
allocating. A step is one locked section. A wait may end at any time, as the
condition variable and the park of a guest thread both allow. The allocation a
step stores is new: nothing that is alive has it.
-/

set_option autoImplicit false

namespace Ruzu.Nvnflinger

inductive Waiting
  | dequeue (request : DequeueRequest) (returnFlags : StatusCode)
  | attach (buffer : GraphicBuffer) (returnFlags : StatusCode)

structure BufferQueue where
  inner : BufferQueueCoreInner
  waiting : List Waiting
  allocations : List Allocation

inductive Action
  | dequeueBuffer (request : DequeueRequest)
  | attachBuffer (buffer : Option GraphicBuffer)
  | wake (i : ℕ)
  | storeBuffer (i arc : ℕ)
  | requestBuffer (slot : ℤ)
  | setBufferCount (bufferCount : ℤ)
  | queueBuffer (slot : ℤ) (input : QueueBufferInput) (now : Int64)
  | cancelBuffer (slot : ℤ) (fence : Fence)
  | detachBuffer (slot : ℤ)
  | detachNextBuffer
  | connect (listener : Bool) (api : NativeWindowApi) (producerControlledByApp : Bool)
  | producerDisconnect (api : NativeWindowApi)
  | acquireBuffer (expectedPresentNs : Int64)
  | releaseBuffer (slot : ℤ) (frameNumber : ℕ)
  | consumerConnect (controlledByApp : Bool)
  | consumerDisconnect

/-- What a section does to the ownership of slots and frames. -/
inductive Event
  | took (slot : SlotIndex)
  | handed (slot : SlotIndex)
  | queued (slot : SlotIndex) (frame : ℕ) (replaced : Option ℕ)
  | cancelled (slot : SlotIndex)
  | detached (slot : SlotIndex)
  | acquired (slot : SlotIndex) (frame : ℕ) (tracked : Bool) (outdated : List ℕ)
  | postponed (outdated : List ℕ)
  | released (slot : SlotIndex)
  | reset (discarded : List ℕ)
  | other
  deriving DecidableEq

def frames (items : List BufferItem) : List ℕ := items.map (·.frameNumber)

namespace BufferQueueCoreInner

variable (inner : BufferQueueCoreInner)

def bufferArc (buffer : Option GraphicBuffer) (arc : ℕ) : Bool :=
  buffer.any (·.arc == arc)

/-- An item of the queue holds the allocation. -/
def queueHolds (arc : ℕ) : Bool := inner.queue.any fun item => bufferArc item.graphicBuffer arc

def slotsHold (arc : ℕ) : Bool :=
  (List.finRange numBufferSlots).any fun s => bufferArc (inner.slots s).graphicBuffer arc

/-- The frame `queue_buffer` puts a new one in the place of. -/
def replacedFrame : Option ℕ :=
  inner.queue.head?.bind fun front => if front.isDroppable then some front.frameNumber else none

def acquireEvent : Acquire → Event
  | .failed _ => .other
  | .presentLater dropped => .postponed (frames dropped)
  | .acquired item tracked dropped =>
    .acquired item.slot item.frameNumber tracked (frames dropped)

end BufferQueueCoreInner

namespace BufferQueue

variable (sys : BufferQueue)

def afterDequeue (r : BufferQueueCoreInner × Dequeue) : BufferQueue × Event :=
  match r.2 with
  | .returned _ (some s) _ => ({ sys with inner := r.1 }, .handed s)
  | .returned _ none _ => ({ sys with inner := r.1 }, .other)
  | .waiting request flags =>
    ({ sys with inner := r.1, waiting := sys.waiting ++ [.dequeue request flags] }, .other)
  | .allocating a =>
    ({ sys with inner := r.1, allocations := sys.allocations ++ [a] }, .took a.slot)

def afterAttach (r : BufferQueueCoreInner × Attach) : BufferQueue × Event :=
  match r.2 with
  | .returned _ (some s) => ({ sys with inner := r.1 }, .handed s)
  | .returned _ none => ({ sys with inner := r.1 }, .other)
  | .waiting buffer flags =>
    ({ sys with inner := r.1, waiting := sys.waiting ++ [.attach buffer flags] }, .other)

def resume : Waiting → Option (BufferQueue × Event)
  | .dequeue request flags => (sys.inner.dequeueSection request flags).map sys.afterDequeue
  | .attach buffer flags => (sys.inner.attachSection buffer flags).map sys.afterAttach

/-- A section that leaves the calls in progress alone, with the event of its success. -/
def became (inner : BufferQueueCoreInner) (event : Event) : BufferQueue × Event :=
  ({ sys with inner := inner }, event)

def onSuccess (status : Status) (event : Event) : Event :=
  if status = .noError then event else .other

def onSlot (slot : ℤ) (event : SlotIndex → Event) : Event :=
  (slotIndex slot).elim .other event

def step : Action → Option (BufferQueue × Event)
  | .dequeueBuffer request => (sys.inner.dequeueBuffer request).map sys.afterDequeue
  | .attachBuffer buffer => (sys.inner.attachBuffer buffer).map sys.afterAttach
  | .wake i =>
    sys.waiting[i]?.bind fun call =>
      resume { sys with waiting := sys.waiting.eraseIdx i } call
  | .storeBuffer i arc =>
    if sys.inner.slotsHold arc || sys.inner.queueHolds arc then none
    else
      sys.allocations[i]?.map fun a =>
        afterDequeue { sys with allocations := sys.allocations.eraseIdx i }
          (sys.inner.storeBuffer a arc)
  | .requestBuffer slot => some (sys.became (sys.inner.requestBuffer slot).1 .other)
  | .setBufferCount bufferCount =>
    (sys.inner.setBufferCount bufferCount).map fun r =>
      sys.became r.1 (onSuccess r.2
        (if bufferCount ≠ 0 ∧ sys.inner.getPreallocatedBufferCountLocked ≤ 0 then .reset []
          else .other))
  | .queueBuffer slot input now =>
    (sys.inner.queueBuffer slot input now).map fun r =>
      sys.became r.1 (onSuccess r.2.1
        (onSlot slot fun s => .queued s r.1.frameCounter sys.inner.replacedFrame))
  | .cancelBuffer slot fence =>
    some (sys.became (sys.inner.cancelBuffer slot fence)
      (if sys.inner.isAbandoned then .other else onSlot slot .cancelled))
  | .detachBuffer slot =>
    some (sys.became (sys.inner.detachBuffer slot).1
      (onSuccess (sys.inner.detachBuffer slot).2 (onSlot slot .detached)))
  | .detachNextBuffer =>
    sys.inner.detachNextBuffer.map fun r => sys.became r.1 .other
  | .connect listener api producerControlledByApp =>
    some (sys.became (sys.inner.connect listener api producerControlledByApp).1 .other)
  | .producerDisconnect api =>
    (sys.inner.producerDisconnect api).map fun r =>
      sys.became r.1 (if sys.inner.isAbandoned then .other
        else onSuccess r.2 (.reset (frames sys.inner.queue)))
  | .acquireBuffer expectedPresentNs =>
    some (sys.became (sys.inner.acquireBuffer expectedPresentNs).1
      (BufferQueueCoreInner.acquireEvent (sys.inner.acquireBuffer expectedPresentNs).2))
  | .releaseBuffer slot frameNumber =>
    some (sys.became (sys.inner.releaseBuffer slot frameNumber).1
      (onSuccess (sys.inner.releaseBuffer slot frameNumber).2 (onSlot slot .released)))
  | .consumerConnect controlledByApp =>
    some (sys.became (sys.inner.consumerConnect controlledByApp).1 .other)
  | .consumerDisconnect =>
    some (sys.became sys.inner.consumerDisconnect.1
      (onSuccess sys.inner.consumerDisconnect.2 (.reset (frames sys.inner.queue))))

end BufferQueue

/-- A core that no call has used: every slot is free and nothing is queued. -/
structure BufferQueueCoreInner.Idle (inner : BufferQueueCoreInner) : Prop where
  queue : inner.queue = []
  free : ∀ s, (inner.slots s).bufferState = .free

def BufferQueue.start (inner : BufferQueueCoreInner) : BufferQueue := ⟨inner, [], []⟩

end Ruzu.Nvnflinger
