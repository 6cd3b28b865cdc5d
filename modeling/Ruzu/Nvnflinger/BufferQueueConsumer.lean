import Ruzu.Nvnflinger.BufferQueueCore

/-!
# The buffer queue consumer

The locked sections of `BufferQueueConsumer` as in `buffer_queue_consumer.rs`.
-/

set_option autoImplicit false

namespace Ruzu.Nvnflinger

/-- The slots, the queue and the dropped items after the loop over outdated fronts. -/
structure Outdated where
  slots : Slots
  queue : List BufferItem
  dropped : List BufferItem

/-- The loop of `acquire_buffer` that drops old buffers that are past their time. -/
def dropOutdated (expectedPresentNs : Int64) (slots : Slots) : List BufferItem → Outdated
  | front::next::rest =>
    if front.isAutoTimestamp then ⟨slots, front::next::rest, []⟩
    else if next.timestamp < expectedPresentNs - maxReasonableNsec ∨
        expectedPresentNs < next.timestamp then
      ⟨slots, front::next::rest, []⟩
    else
      let freed :=
        if stillTracking slots front then
          Function.update slots front.slot { slots front.slot with bufferState := .free }
        else slots
      let r := dropOutdated expectedPresentNs freed (next::rest)
      { r with dropped := front :: r.dropped }
  | queue => ⟨slots, queue, []⟩

/-- What `acquire_buffer` returns; an item comes with whether its slot was still tracked. -/
inductive Acquire
  | failed (status : Status)
  | presentLater (dropped : List BufferItem)
  | acquired (item : BufferItem) (tracked : Bool) (dropped : List BufferItem)

namespace BufferQueueCoreInner

variable (inner : BufferQueueCoreInner)

def numAcquired : ℤ :=
  (List.finRange numBufferSlots).countP fun s => (inner.slots s).bufferState == .acquired

def acquiredSlot (slot : BufferSlot) : BufferSlot :=
  { slot with acquireCalled := true, needsCleanupOnRelease := false, bufferState := .acquired }

/-- Takes the front off the queue. -/
def takeFront (front : BufferItem) (rest : List BufferItem) : BufferQueueCoreInner :=
  let taken := { inner with queue := rest }
  if stillTracking inner.slots front then
    taken.setSlot front.slot (acquiredSlot (inner.slots front.slot))
  else taken

/-- An item whose buffer the consumer has seen is handed out without it. -/
def outBuffer (front : BufferItem) : BufferItem :=
  if front.acquireCalled then { front with graphicBuffer := none } else front

def dropBefore (expectedPresentNs : Int64) : Outdated :=
  if expectedPresentNs ≠ 0 then dropOutdated expectedPresentNs inner.slots inner.queue
  else ⟨inner.slots, inner.queue, []⟩

def acquireBuffer (expectedPresentNs : Int64) : BufferQueueCoreInner × Acquire :=
  if inner.maxAcquiredBufferCount + 1 ≤ inner.numAcquired then
    (inner, .failed .invalidOperation)
  else
    let r := inner.dropBefore expectedPresentNs
    let left := { inner with slots := r.slots, queue := r.queue }
    match r.queue with
    | [] => (left, .failed .noBufferAvailable)
    | front::rest =>
      if expectedPresentNs ≠ 0 ∧ expectedPresentNs < front.timestamp ∧
          front.timestamp < expectedPresentNs + maxReasonableNsec then
        (left, .presentLater r.dropped)
      else
        (left.takeFront front rest,
          .acquired (outBuffer front) (stillTracking left.slots front) r.dropped)

def releaseBuffer (slot : ℤ) (frameNumber : ℕ) : BufferQueueCoreInner × Status :=
  match slotIndex slot with
  | none => (inner, .badValue)
  | some s =>
    if frameNumber ≠ (inner.slots s).frameNumber then (inner, .staleBufferSlot)
    else if inner.queue.any (·.slot == s) then (inner, .badValue)
    else if (inner.slots s).bufferState = .acquired then
      (inner.setSlot s { inner.slots s with bufferState := .free }, .noError)
    else if (inner.slots s).needsCleanupOnRelease then
      (inner.setSlot s { inner.slots s with needsCleanupOnRelease := false }, .staleBufferSlot)
    else (inner, .badValue)

def consumerConnect (controlledByApp : Bool) : BufferQueueCoreInner × Status :=
  if inner.isAbandoned then (inner, .noInit)
  else
    ({ inner with consumerListener := true, consumerControlledByApp := controlledByApp }, .noError)

def consumerDisconnect : BufferQueueCoreInner × Status :=
  if inner.consumerListener = false then (inner, .badValue)
  else
    ({ inner with
        isAbandoned := true
        consumerListener := false
        queue := [] }.freeAllBuffersLocked, .noError)

end BufferQueueCoreInner

end Ruzu.Nvnflinger
