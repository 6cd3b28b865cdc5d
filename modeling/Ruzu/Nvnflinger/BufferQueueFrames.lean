import Ruzu.Nvnflinger.BufferQueueRuns

/-!
# Frame order

Frames are numbered as they are queued. A queue whose numbers increase is
acquired in order; it stays increasing as long as `queue_buffer` replaces a
droppable front only when nothing stands behind it.
-/

set_option autoImplicit false

namespace Ruzu.Nvnflinger
open BufferQueueCoreInner Transition

def acquiredFrames (es : List Event) : List ℕ :=
  es.filterMap fun | .acquired _ frame _ _ => some frame | _ => none

def queuedFrames (es : List Event) : List ℕ :=
  es.filterMap fun | .queued _ frame _ => some frame | _ => none

/-- The frames a later one has taken the place of. -/
def replacedFrames (es : List Event) : List ℕ :=
  es.filterMap fun | .queued _ _ replaced => replaced | _ => none

def outdatedFrames (es : List Event) : List ℕ :=
  es.flatMap fun | .acquired _ _ _ outdated => outdated | .postponed outdated => outdated | _ => []

def discardedFrames (es : List Event) : List ℕ :=
  es.flatMap fun | .reset discarded => discarded | _ => []

/-- The events that queue no frame and take none from the queue. -/
def Event.Idle : Event → Prop
  | .queued _ _ _ => False
  | .acquired _ _ _ _ => False
  | .postponed _ => False
  | .reset discarded => discarded = []
  | _ => True

/-- What a section does to the queue and to the frame counter. -/
inductive FrameStep (inner inner' : BufferQueueCoreInner) : Event → Prop
  | same {e : Event} (idle : e.Idle) (queue : inner'.queue = inner.queue)
      (counter : inner'.frameCounter = inner.frameCounter) : FrameStep inner inner' e
  | push (s : SlotIndex) (item : BufferItem) (queue : inner'.queue = inner.queue ++ [item])
      (frame : item.frameNumber = inner'.frameCounter)
      (counter : inner'.frameCounter = (inner.frameCounter + 1) % 2 ^ 64) :
      FrameStep inner inner' (.queued s inner'.frameCounter none)
  | replace (s : SlotIndex) (front item : BufferItem) (rest : List BufferItem)
      (old : inner.queue = front::rest) (droppable : front.isDroppable = true)
      (queue : inner'.queue = item::rest) (frame : item.frameNumber = inner'.frameCounter)
      (counter : inner'.frameCounter = (inner.frameCounter + 1) % 2 ^ 64) :
      FrameStep inner inner' (.queued s inner'.frameCounter (some front.frameNumber))
  | drop (dropped : List BufferItem) (queue : inner.queue = dropped ++ inner'.queue)
      (counter : inner'.frameCounter = inner.frameCounter) :
      FrameStep inner inner' (.postponed (frames dropped))
  | acquire (s : SlotIndex) (tracked : Bool) (dropped : List BufferItem) (front : BufferItem)
      (queue : inner.queue = dropped ++ front :: inner'.queue)
      (counter : inner'.frameCounter = inner.frameCounter) :
      FrameStep inner inner' (.acquired s front.frameNumber tracked (frames dropped))
  | clear (queue : inner'.queue = []) (counter : inner'.frameCounter = inner.frameCounter) :
      FrameStep inner inner' (.reset (frames inner.queue))

variable {sys sys' : BufferQueue} {inner inner' : BufferQueueCoreInner} {a : Action} {e : Event}

theorem Quiet.frameStep (hq : Quiet inner inner') (idle : e.Idle) : FrameStep inner inner' e :=
  .same idle hq.queue hq.counter

theorem dequeueSection_frames {request : DequeueRequest} {flags : StatusCode}
    {r : BufferQueueCoreInner × Dequeue} (hr : inner.dequeueSection request flags = some r) :
    FrameStep inner r.1 .other := by
  obtain ⟨⟨inner', flags', w⟩, hw, rfl⟩ := Option.map_eq_some_iff.mp hr
  obtain ⟨hq, -⟩ := waitForFreeSlot_spec hw
  dsimp only
  split
  · exact hq.frameStep trivial
  · exact .same trivial hq.queue hq.counter
  · exact hq.frameStep trivial
  · exact hq.frameStep trivial

theorem attachSection_frames {buffer : GraphicBuffer} {flags : StatusCode}
    {r : BufferQueueCoreInner × Attach} (hr : inner.attachSection buffer flags = some r) :
    FrameStep inner r.1 .other := by
  obtain ⟨⟨inner', flags', w⟩, hw, rfl⟩ := Option.map_eq_some_iff.mp hr
  obtain ⟨hq, -⟩ := waitForFreeSlot_spec hw
  dsimp only
  split
  · exact hq.frameStep trivial
  · exact .same trivial hq.queue hq.counter
  · exact hq.frameStep trivial
  · exact hq.frameStep trivial

theorem FrameStep.afterDequeue (sys : BufferQueue) {r : BufferQueueCoreInner × Dequeue}
    (hs : FrameStep inner r.1 .other) :
    FrameStep inner (sys.afterDequeue r).1.inner (sys.afterDequeue r).2 := by
  obtain ⟨inner', d⟩ := r
  cases hs with
  | same _ queue counter =>
    cases d with
    | returned status slot fence => cases slot <;> exact .same trivial queue counter
    | waiting request flags => exact .same trivial queue counter
    | allocating a => exact .same trivial queue counter

theorem FrameStep.afterAttach (sys : BufferQueue) {r : BufferQueueCoreInner × Attach}
    (hs : FrameStep inner r.1 .other) :
    FrameStep inner (sys.afterAttach r).1.inner (sys.afterAttach r).2 := by
  obtain ⟨inner', d⟩ := r
  cases hs with
  | same _ queue counter =>
    cases d with
    | returned status slot => cases slot <;> exact .same trivial queue counter
    | waiting buffer flags => exact .same trivial queue counter

theorem queueBuffer_frames {slot : ℤ} {input : QueueBufferInput} {now : Int64}
    {r : BufferQueueCoreInner × Status × QueueBufferOutput}
    (hr : inner.queueBuffer slot input now = some r) :
    FrameStep inner r.1 (BufferQueue.onSuccess r.2.1
      (BufferQueue.onSlot slot fun s => .queued s r.1.frameCounter inner.replacedFrame)) := by
  rw [queueBuffer] at hr
  split at hr
  · cases hr
    exact Quiet.refl.frameStep trivial
  obtain ⟨maxBufferCount, -, hr⟩ := Option.bind_eq_some_iff.mp hr
  obtain ⟨checked, hcheck, rfl⟩ := Option.map_eq_some_iff.mp hr
  cases checked with
  | none => exact Quiet.refl.frameStep trivial
  | some found =>
    obtain ⟨s, b⟩ := found
    obtain ⟨hslot, -⟩ := checkQueue_spec hcheck
    dsimp only
    rw [BufferQueue.onSuccess, if_pos rfl, BufferQueue.onSlot, hslot, Option.elim_some]
    let frame := (inner.frameCounter + 1) % 2 ^ 64
    have hcounter : (inner.commitBuffer s b input now).frameCounter = frame := by
      rw [commitBuffer, pushItem]
      split
      · rfl
      split
      · rw [BufferQueueCoreInner.dropFront]
        split <;> rfl
      · rfl
    cases hq : inner.queue with
    | nil =>
      rw [show inner.replacedFrame = none by rw [replacedFrame, hq]; rfl]
      refine .push s (inner.newItem s b frame input) ?_ hcounter.symm hcounter
      rw [commitBuffer, pushItem, setSlot_queue]
      simp only [hq]
      rfl
    | cons front rest =>
      cases hd : front.isDroppable with
      | true =>
        rw [show inner.replacedFrame = some front.frameNumber by
          rw [replacedFrame, hq, List.head?_cons, Option.bind_some, if_pos hd]]
        refine .replace s front (inner.newItem s b frame input) rest hq hd ?_ hcounter.symm hcounter
        rw [commitBuffer, pushItem, setSlot_queue]
        simp only [hq, hd, if_true]
        rfl
      | false =>
        rw [show inner.replacedFrame = none by
          rw [replacedFrame, hq, List.head?_cons, Option.bind_some, if_neg (by rw [hd]; decide)]]
        refine .push s (inner.newItem s b frame input) ?_ hcounter.symm hcounter
        rw [commitBuffer, pushItem, setSlot_queue]
        simp only [hq, hd, Bool.false_eq_true, if_false]
        rfl

theorem dropOutdated_queue (expectedPresentNs : Int64) (slots : Slots) (queue : List BufferItem) :
    (dropOutdated expectedPresentNs slots queue).dropped ++
      (dropOutdated expectedPresentNs slots queue).queue = queue := by
  induction queue generalizing slots with
  | nil => rfl
  | cons front rest ih =>
    cases rest with
    | nil => rfl
    | cons next rest =>
      rw [dropOutdated]
      split
      · rfl
      split
      · rfl
      exact congrArg (front :: ·) (ih _)

theorem dropBefore_queue (inner : BufferQueueCoreInner) (expectedPresentNs : Int64) :
    (inner.dropBefore expectedPresentNs).dropped ++ (inner.dropBefore expectedPresentNs).queue =
      inner.queue := by
  rw [dropBefore]
  split
  · exact dropOutdated_queue expectedPresentNs inner.slots inner.queue
  · rfl

theorem dropOutdated_empty {expectedPresentNs : Int64} {slots : Slots} {queue : List BufferItem}
    (he : (dropOutdated expectedPresentNs slots queue).queue = []) : queue = [] := by
  induction queue generalizing slots with
  | nil => rfl
  | cons front rest ih =>
    cases rest with
    | nil => exact he
    | cons next rest =>
      rw [dropOutdated] at he
      split at he
      · cases he
      split at he
      · cases he
      cases ih he

/-- The loop over outdated fronts leaves the last item. -/
theorem dropBefore_empty {expectedPresentNs : Int64}
    (he : (inner.dropBefore expectedPresentNs).queue = []) : inner.queue = [] := by
  rw [dropBefore] at he
  split at he
  · exact dropOutdated_empty he
  · exact he

theorem acquireBuffer_frames (inner : BufferQueueCoreInner) (expectedPresentNs : Int64) :
    FrameStep inner (inner.acquireBuffer expectedPresentNs).1
      (acquireEvent (inner.acquireBuffer expectedPresentNs).2) := by
  rw [acquireBuffer]
  split
  · exact Quiet.refl.frameStep trivial
  have hqueue := dropBefore_queue inner expectedPresentNs
  dsimp only
  split
  case h_1 hq => exact .same trivial (hq.trans (dropBefore_empty hq).symm) rfl
  case h_2 front rest hq =>
    rw [hq] at hqueue
    split
    · exact .drop _ (by rw [hq]; exact hqueue.symm) rfl
    · rw [acquireEvent, outBuffer_slot, outBuffer_frameNumber, takeFront]
      refine .acquire _ _ _ front ?_ ?_
      · rw [← hqueue]
        split <;> rfl
      · split <;> rfl

theorem setBufferCount_frames {bufferCount : ℤ} {r : BufferQueueCoreInner × Status}
    (hr : inner.setBufferCount bufferCount = some r) (he : e.Idle) : FrameStep inner r.1 e := by
  obtain ⟨-, hqueue, -, hcounter⟩ := freeAllBuffersLocked_spec inner
  rw [setBufferCount] at hr
  split at hr
  · cases hr
  split at hr
  · cases hr
    exact .same he rfl rfl
  split at hr
  · cases hr
    exact .same he rfl rfl
  split at hr
  · cases hr
    exact .same he rfl rfl
  split at hr
  · cases hr
    exact .same he rfl rfl
  split at hr
  · cases hr
    exact .same he rfl rfl
  split at hr
  · cases hr
    exact .same he hqueue hcounter
  · cases hr
    exact .same he rfl rfl

theorem producerDisconnect_frames {api : NativeWindowApi} {r : BufferQueueCoreInner × Status}
    (hr : inner.producerDisconnect api = some r) :
    FrameStep inner r.1 (if inner.isAbandoned then .other
      else BufferQueue.onSuccess r.2 (.reset (frames inner.queue))) := by
  obtain ⟨-, hqueue, -, hcounter⟩ := freeAllBuffersLocked_spec { inner with queue := [] }
  rw [producerDisconnect] at hr
  split at hr
  · cases hr
  split at hr
  case isFalse.isTrue dead =>
    cases hr
    rw [if_pos dead]
    exact Quiet.refl.frameStep trivial
  case isFalse.isFalse live =>
    rw [if_neg live]
    repeat' split at hr
    · cases hr
      exact Quiet.refl.frameStep trivial
    · cases hr
      exact .clear hqueue hcounter
    · cases hr
      exact Quiet.refl.frameStep trivial

theorem consumerDisconnect_frames (inner : BufferQueueCoreInner) :
    FrameStep inner inner.consumerDisconnect.1
      (BufferQueue.onSuccess inner.consumerDisconnect.2 (.reset (frames inner.queue))) := by
  obtain ⟨-, hqueue, -, hcounter⟩ := freeAllBuffersLocked_spec
    { inner with isAbandoned := true, consumerListener := false, queue := [] }
  rw [consumerDisconnect]
  split
  · exact Quiet.refl.frameStep trivial
  · exact .clear hqueue hcounter

theorem onSlot_idle (slot : ℤ) (event : SlotIndex → Event) (he : ∀ s, (event s).Idle) :
    (BufferQueue.onSlot slot event).Idle := by
  rw [BufferQueue.onSlot]
  cases slotIndex slot with
  | none => trivial
  | some s => exact he s

theorem onSuccess_idle (status : Status) (he : e.Idle) :
    (BufferQueue.onSuccess status e).Idle := by
  rw [BufferQueue.onSuccess]
  split
  · exact he
  · trivial

theorem cancelBuffer_frames (slot : ℤ) (fence : Fence) (he : e.Idle) :
    FrameStep inner (inner.cancelBuffer slot fence) e := by
  rw [cancelBuffer]
  repeat' split
  all_goals exact .same he rfl rfl

theorem detachBuffer_frames (slot : ℤ) (he : e.Idle) :
    FrameStep inner (inner.detachBuffer slot).1 e := by
  rw [detachBuffer]
  repeat' split
  all_goals exact .same he rfl rfl

theorem releaseBuffer_frames (slot : ℤ) (frameNumber : ℕ) (he : e.Idle) :
    FrameStep inner (inner.releaseBuffer slot frameNumber).1 e := by
  rw [releaseBuffer]
  repeat' split
  all_goals exact .same he rfl rfl

theorem detachNextBuffer_frames
    {r : BufferQueueCoreInner × Status × Option GraphicBuffer × Fence}
    (hr : inner.detachNextBuffer = some r) : FrameStep inner r.1 .other := by
  rw [detachNextBuffer] at hr
  split at hr
  · cases hr
  split at hr
  · cases hr
    exact .same trivial rfl rfl
  split at hr
  · cases hr
    exact .same trivial rfl rfl
  · cases hr
    exact .same trivial rfl rfl

theorem step_frames (taken : sys.step a = some (sys', e)) : FrameStep sys.inner sys'.inner e := by
  cases a with
  | dequeueBuffer request =>
    obtain ⟨r, hr, he⟩ := Option.map_eq_some_iff.mp taken
    have hs : FrameStep sys.inner r.1 .other := by
      rw [dequeueBuffer] at hr
      split at hr
      · cases hr
        exact Quiet.refl.frameStep trivial
      split at hr
      · cases hr
      · exact dequeueSection_frames hr
    have := hs.afterDequeue sys
    rwa [he] at this
  | attachBuffer buffer =>
    obtain ⟨r, hr, he⟩ := Option.map_eq_some_iff.mp taken
    have hs : FrameStep sys.inner r.1 .other := by
      cases buffer with
      | none =>
        cases hr
        exact Quiet.refl.frameStep trivial
      | some b =>
        rw [attachBuffer] at hr
        split at hr
        · cases hr
        · exact attachSection_frames hr
    have := hs.afterAttach sys
    rwa [he] at this
  | wake i =>
    obtain ⟨call, -, htaken⟩ := Option.bind_eq_some_iff.mp taken
    cases call with
    | dequeue request flags =>
      obtain ⟨r, hr, he⟩ := Option.map_eq_some_iff.mp htaken
      have := (dequeueSection_frames hr).afterDequeue
        { sys with waiting := sys.waiting.eraseIdx i }
      rwa [he] at this
    | attach buffer flags =>
      obtain ⟨r, hr, he⟩ := Option.map_eq_some_iff.mp htaken
      have := (attachSection_frames hr).afterAttach
        { sys with waiting := sys.waiting.eraseIdx i }
      rwa [he] at this
  | storeBuffer i arc =>
    rw [BufferQueue.step] at taken
    split at taken
    · cases taken
    obtain ⟨a, -, he⟩ := Option.map_eq_some_iff.mp taken
    have hs : FrameStep sys.inner (sys.inner.storeBuffer a arc).1 .other := by
      rw [storeBuffer]
      split <;> exact .same trivial rfl rfl
    have := hs.afterDequeue { sys with allocations := sys.allocations.eraseIdx i }
    rwa [he] at this
  | requestBuffer slot =>
    cases taken
    exact (requestBuffer_quiet slot).frameStep trivial
  | setBufferCount bufferCount =>
    obtain ⟨r, hr, he⟩ := Option.map_eq_some_iff.mp taken
    obtain ⟨rfl, rfl⟩ := Prod.mk.inj he
    refine setBufferCount_frames hr (onSuccess_idle _ ?_)
    split
    · exact rfl
    · trivial
  | queueBuffer slot input now =>
    obtain ⟨r, hr, he⟩ := Option.map_eq_some_iff.mp taken
    obtain ⟨rfl, rfl⟩ := Prod.mk.inj he
    exact queueBuffer_frames hr
  | cancelBuffer slot fence =>
    cases taken
    refine cancelBuffer_frames slot fence ?_
    split
    · trivial
    · exact onSlot_idle slot .cancelled fun _ => trivial
  | detachBuffer slot =>
    cases taken
    exact detachBuffer_frames slot (onSuccess_idle _ (onSlot_idle slot .detached fun _ => trivial))
  | detachNextBuffer =>
    obtain ⟨r, hr, he⟩ := Option.map_eq_some_iff.mp taken
    obtain ⟨rfl, rfl⟩ := Prod.mk.inj he
    exact detachNextBuffer_frames hr
  | connect listener api controlled =>
    cases taken
    exact (connect_quiet listener api controlled).frameStep trivial
  | producerDisconnect api =>
    obtain ⟨r, hr, he⟩ := Option.map_eq_some_iff.mp taken
    obtain ⟨rfl, rfl⟩ := Prod.mk.inj he
    exact producerDisconnect_frames hr
  | acquireBuffer expectedPresentNs =>
    cases taken
    exact acquireBuffer_frames sys.inner expectedPresentNs
  | releaseBuffer slot frameNumber =>
    cases taken
    exact releaseBuffer_frames slot frameNumber
      (onSuccess_idle _ (onSlot_idle slot .released fun _ => trivial))
  | consumerConnect controlledByApp =>
    cases taken
    exact (consumerConnect_quiet controlledByApp).frameStep trivial
  | consumerDisconnect =>
    cases taken
    exact consumerDisconnect_frames sys.inner

/-- A call of `queue_buffer` finds no droppable front with items behind it, and the frame counter
does not wrap around. -/
def BufferQueue.inOrder (sys : BufferQueue) : Action → Bool
  | .queueBuffer _ _ _ =>
    (sys.inner.queue.length ≤ 1 || sys.inner.replacedFrame.isNone) &&
      sys.inner.frameCounter + 1 < 2 ^ 64
  | _ => true

/-- The frames acquired and the frames to come, oldest first. -/
structure Increasing (es : List Event) (inner : BufferQueueCoreInner) : Prop where
  sorted : (acquiredFrames es ++ frames inner.queue).Pairwise (· < ·)
  counted : ∀ f ∈ acquiredFrames es ++ frames inner.queue, f ≤ inner.frameCounter

variable {es : List Event}

theorem acquiredFrames_snoc (es : List Event) (e : Event) :
    acquiredFrames (es ++ [e]) = acquiredFrames es ++ acquiredFrames [e] :=
  List.filterMap_append

theorem acquiredFrames_idle (he : e.Idle) : acquiredFrames [e] = [] := by
  cases e <;> first | rfl | exact he.elim

theorem Increasing.sublist (hi : Increasing es inner)
    (counter : inner'.frameCounter = inner.frameCounter)
    (hsub : (acquiredFrames (es ++ [e]) ++ frames inner'.queue).Sublist
      (acquiredFrames es ++ frames inner.queue)) : Increasing (es ++ [e]) inner' where
  sorted := hi.sorted.sublist hsub
  counted f hf := counter ▸ hi.counted f (hsub.subset hf)

/-- The new frame comes last. -/
theorem Increasing.queued (hi : Increasing es inner) {kept : List BufferItem} {item : BufferItem}
    {s : SlotIndex} {replaced : Option ℕ} (hkept : kept.Sublist inner.queue)
    (queue : inner'.queue = kept ++ [item]) (frame : item.frameNumber = inner'.frameCounter)
    (counter : inner'.frameCounter = inner.frameCounter + 1) :
    Increasing (es ++ [.queued s inner'.frameCounter replaced]) inner' := by
  have hlist : acquiredFrames (es ++ [.queued s inner'.frameCounter replaced]) ++
      frames inner'.queue = (acquiredFrames es ++ frames kept) ++ [inner.frameCounter + 1] := by
    rw [acquiredFrames_snoc, queue, frames, frames, List.map_append, List.map_singleton, frame,
      counter]
    simp [acquiredFrames]
  have hsub : (acquiredFrames es ++ frames kept).Sublist
      (acquiredFrames es ++ frames inner.queue) :=
    List.Sublist.append (List.Sublist.refl _) (hkept.map _)
  constructor
  · rw [hlist, List.pairwise_append]
    refine ⟨hi.sorted.sublist hsub, List.pairwise_singleton _ _, fun f hf g hg => ?_⟩
    rw [List.mem_singleton.mp hg]
    exact Nat.lt_succ_of_le (hi.counted f (hsub.subset hf))
  · intro f hf
    rw [hlist] at hf
    rw [counter]
    rcases List.mem_append.mp hf with hf | hf
    · exact Nat.le_succ_of_le (hi.counted f (hsub.subset hf))
    · exact (List.mem_singleton.mp hf).le

theorem afterDequeue_ne (sys : BufferQueue) (r : BufferQueueCoreInner × Dequeue) (s : SlotIndex)
    (f : ℕ) (replaced : Option ℕ) : (sys.afterDequeue r).2 ≠ .queued s f replaced := by
  rw [BufferQueue.afterDequeue]
  split <;> nofun

theorem afterAttach_ne (sys : BufferQueue) (r : BufferQueueCoreInner × Attach) (s : SlotIndex)
    (f : ℕ) (replaced : Option ℕ) : (sys.afterAttach r).2 ≠ .queued s f replaced := by
  rw [BufferQueue.afterAttach]
  split <;> nofun

theorem idle_ne (he : e.Idle) (s : SlotIndex) (f : ℕ) (replaced : Option ℕ) :
    e ≠ .queued s f replaced := by
  rintro rfl
  exact he

/-- Only `queue_buffer` reports a queued frame. -/
theorem queued_action {s : SlotIndex} {f : ℕ} {replaced : Option ℕ}
    (taken : sys.step a = some (sys', .queued s f replaced)) :
    ∃ slot input now, a = .queueBuffer slot input now := by
  cases a with
  | queueBuffer slot input now => exact ⟨slot, input, now, rfl⟩
  | dequeueBuffer request =>
    obtain ⟨r, -, he⟩ := Option.map_eq_some_iff.mp taken
    exact absurd (congrArg Prod.snd he) (afterDequeue_ne sys r s f replaced)
  | attachBuffer buffer =>
    obtain ⟨r, -, he⟩ := Option.map_eq_some_iff.mp taken
    exact absurd (congrArg Prod.snd he) (afterAttach_ne sys r s f replaced)
  | wake i =>
    obtain ⟨call, -, htaken⟩ := Option.bind_eq_some_iff.mp taken
    cases call with
    | dequeue request flags =>
      obtain ⟨r, -, he⟩ := Option.map_eq_some_iff.mp htaken
      exact absurd (congrArg Prod.snd he) (afterDequeue_ne _ r s f replaced)
    | attach buffer flags =>
      obtain ⟨r, -, he⟩ := Option.map_eq_some_iff.mp htaken
      exact absurd (congrArg Prod.snd he) (afterAttach_ne _ r s f replaced)
  | storeBuffer i arc =>
    rw [BufferQueue.step] at taken
    split at taken
    · cases taken
    obtain ⟨a, -, he⟩ := Option.map_eq_some_iff.mp taken
    exact absurd (congrArg Prod.snd he) (afterDequeue_ne _ _ s f replaced)
  | requestBuffer slot => cases taken
  | setBufferCount bufferCount =>
    obtain ⟨r, -, he⟩ := Option.map_eq_some_iff.mp taken
    refine absurd (congrArg Prod.snd he) (idle_ne (onSuccess_idle r.2 ?_) s f replaced)
    split
    · exact rfl
    · trivial
  | cancelBuffer slot fence =>
    refine absurd (congrArg Prod.snd (Option.some.inj taken)) (idle_ne ?_ s f replaced)
    split
    · trivial
    · exact onSlot_idle slot .cancelled fun _ => trivial
  | detachBuffer slot =>
    exact absurd (congrArg Prod.snd (Option.some.inj taken))
      (idle_ne (onSuccess_idle _ (onSlot_idle slot .detached fun _ => trivial))
        s f replaced)
  | detachNextBuffer =>
    obtain ⟨r, -, he⟩ := Option.map_eq_some_iff.mp taken
    cases congrArg Prod.snd he
  | connect listener api controlled => cases taken
  | producerDisconnect api =>
    obtain ⟨r, -, he⟩ := Option.map_eq_some_iff.mp taken
    have hevent := congrArg Prod.snd he
    dsimp only [BufferQueue.became, BufferQueue.onSuccess] at hevent
    split at hevent
    · cases hevent
    · split at hevent <;> cases hevent
  | acquireBuffer expectedPresentNs =>
    have hevent := congrArg Prod.snd (Option.some.inj taken)
    dsimp only [BufferQueue.became, acquireEvent] at hevent
    split at hevent <;> cases hevent
  | releaseBuffer slot frameNumber =>
    exact absurd (congrArg Prod.snd (Option.some.inj taken))
      (idle_ne (onSuccess_idle _ (onSlot_idle slot .released fun _ => trivial)) s f replaced)
  | consumerConnect controlledByApp => cases taken
  | consumerDisconnect =>
    have hevent := congrArg Prod.snd (Option.some.inj taken)
    dsimp only [BufferQueue.became, BufferQueue.onSuccess] at hevent
    split at hevent <;> cases hevent

theorem step_increasing (hi : Increasing es sys.inner) (ok : sys.inOrder a = true)
    (taken : sys.step a = some (sys', e)) : Increasing (es ++ [e]) sys'.inner := by
  have hframes := step_frames taken
  -- only `queue_buffer` reports a queued frame, so the condition applies to it
  have hqueued : ∀ s f r, e = .queued s f r →
      (sys.inner.queue.length ≤ 1 ∨ sys.inner.replacedFrame = none) ∧
        sys.inner.frameCounter + 1 < 2 ^ 64 := by
    rintro s f r rfl
    obtain ⟨slot, input, now, rfl⟩ := queued_action taken
    simpa [BufferQueue.inOrder] using ok
  cases hframes with
  | same idle queue counter =>
    refine hi.sublist counter ?_
    rw [acquiredFrames_snoc, acquiredFrames_idle idle, List.append_nil, queue]
  | push s item queue frame counter =>
    obtain ⟨-, hlt⟩ := hqueued _ _ _ rfl
    exact hi.queued (List.Sublist.refl _) queue frame
      (counter.trans (Nat.mod_eq_of_lt hlt))
  | replace s front item rest old droppable queue frame counter =>
    obtain ⟨hshort, hlt⟩ := hqueued _ _ _ rfl
    have hrest : rest = [] := by
      rcases hshort with hlen | hnone
      · rw [old] at hlen
        exact List.eq_nil_of_length_eq_zero (by simpa using hlen)
      · rw [replacedFrame, old, List.head?_cons, Option.bind_some, if_pos droppable] at hnone
        cases hnone
    subst hrest
    exact hi.queued (List.nil_sublist _) queue frame (counter.trans (Nat.mod_eq_of_lt hlt))
  | drop dropped queue counter =>
    refine hi.sublist counter ?_
    rw [acquiredFrames_snoc, show acquiredFrames [.postponed (frames dropped)] = [] from rfl,
      List.append_nil, queue, frames, frames, List.map_append]
    exact List.Sublist.append (List.Sublist.refl _) (List.sublist_append_right _ _)
  | acquire s tracked dropped front queue counter =>
    refine hi.sublist counter ?_
    rw [acquiredFrames_snoc, show acquiredFrames [.acquired s front.frameNumber tracked
      (frames dropped)] = [front.frameNumber] from rfl, queue, frames, frames, List.map_append,
      List.append_assoc]
    exact List.Sublist.append (List.Sublist.refl _) (List.sublist_append_right _ _)
  | clear queue counter =>
    refine hi.sublist counter ?_
    rw [acquiredFrames_snoc, show acquiredFrames [.reset (frames sys.inner.queue)] = [] from rfl,
      List.append_nil, queue]
    exact List.Sublist.append (List.Sublist.refl _) (List.nil_sublist _)

/-- The frame has been acquired, replaced, dropped or discarded, or it is in the queue. -/
def Accounted (es : List Event) (inner : BufferQueueCoreInner) (f : ℕ) : Prop :=
  f ∈ acquiredFrames es ∨ f ∈ replacedFrames es ∨ f ∈ outdatedFrames es ∨
    f ∈ discardedFrames es ∨ f ∈ frames inner.queue

theorem FrameStep.accounted (hs : FrameStep inner inner' e) {f : ℕ}
    (hf : f ∈ frames inner.queue) : Accounted [e] inner' f := by
  cases hs with
  | same _ queue _ => exact .inr (.inr (.inr (.inr (queue ▸ hf))))
  | push s item queue _ _ =>
    refine .inr (.inr (.inr (.inr ?_)))
    rw [queue, frames, List.map_append]
    exact List.mem_append_left _ hf
  | replace s front item rest old _ queue _ _ =>
    rw [old, frames, List.map_cons] at hf
    rcases List.mem_cons.mp hf with rfl | hf
    · exact .inr (.inl (List.mem_singleton.mpr rfl))
    · refine .inr (.inr (.inr (.inr ?_)))
      rw [queue, frames, List.map_cons]
      exact List.mem_cons_of_mem _ hf
  | drop dropped queue _ =>
    rw [queue, frames, List.map_append] at hf
    rcases List.mem_append.mp hf with hf | hf
    · exact .inr (.inr (.inl (by simpa [outdatedFrames, frames] using hf)))
    · exact .inr (.inr (.inr (.inr hf)))
  | acquire s tracked dropped front queue _ =>
    rw [queue, frames, List.map_append, List.map_cons] at hf
    rcases List.mem_append.mp hf with hf | hf
    · exact .inr (.inr (.inl (by simpa [outdatedFrames, frames] using hf)))
    rcases List.mem_cons.mp hf with rfl | hf
    · exact .inl (List.mem_singleton.mpr rfl)
    · exact .inr (.inr (.inr (.inr hf)))
  | clear _ _ => exact .inr (.inr (.inr (.inl (by simpa [discardedFrames] using hf))))

theorem FrameStep.queued (hs : FrameStep inner inner' e) {f : ℕ} (hf : f ∈ queuedFrames [e]) :
    f ∈ frames inner'.queue := by
  cases hs with
  | same idle _ _ => cases e <;> simp [queuedFrames, Event.Idle] at hf idle
  | push s item queue frame _ =>
    rw [List.mem_singleton.mp hf, queue, frames, List.map_append, ← frame]
    exact List.mem_append_right _ (List.mem_singleton.mpr rfl)
  | replace s front item rest _ _ queue frame _ =>
    rw [List.mem_singleton.mp hf, queue, frames, List.map_cons, ← frame]
    exact List.mem_cons_self
  | drop _ _ _ => cases hf
  | acquire _ _ _ _ _ _ => cases hf
  | clear _ _ => cases hf

theorem Accounted.snoc {f : ℕ} (hs : FrameStep inner inner' e) (ha : Accounted es inner f) :
    Accounted (es ++ [e]) inner' f := by
  rw [Accounted, acquiredFrames, replacedFrames, outdatedFrames, discardedFrames,
    List.filterMap_append, List.filterMap_append, List.flatMap_append, List.flatMap_append]
  simp only [List.mem_append]
  rcases ha with ha | ha | ha | ha | ha
  · exact .inl (.inl ha)
  · exact .inr (.inl (.inl ha))
  · exact .inr (.inr (.inl (.inl ha)))
  · exact .inr (.inr (.inr (.inl (.inl ha))))
  · rcases hs.accounted ha with ha | ha | ha | ha | ha
    · exact .inl (.inr ha)
    · exact .inr (.inl (.inr ha))
    · exact .inr (.inr (.inl (.inr ha)))
    · exact .inr (.inr (.inr (.inl (.inr ha))))
    · exact .inr (.inr (.inr (.inr ha)))

theorem start_increasing {core : BufferQueueCoreInner} (idle : core.Idle) :
    Increasing [] core := by
  have hnone : acquiredFrames [] ++ frames core.queue = [] := by
    rw [idle.queue]
    rfl
  constructor
  · rw [hnone]
    exact List.Pairwise.nil
  · rw [hnone]
    exact fun f hf => absurd hf List.not_mem_nil

theorem run_accounted {ok : BufferQueue → Action → Prop} {start : BufferQueue}
    (run : Run BufferQueue.step ok start es sys) :
    ∀ f ∈ queuedFrames es, Accounted es sys.inner f := by
  refine run.invariant (fun es sys => ∀ f ∈ queuedFrames es, Accounted es sys.inner f)
    (fun f hf => absurd hf List.not_mem_nil) fun es _ _ _ e ih _ taken f hf => ?_
  have hs := step_frames taken
  rw [queuedFrames, List.filterMap_append] at hf
  rcases List.mem_append.mp hf with hf | hf
  · exact (ih f hf).snoc hs
  · exact .inr (.inr (.inr (.inr (hs.queued hf))))

/-- In a run where no `queue_buffer` finds a droppable front with items behind it, frames are
acquired in increasing order; a queued frame is accounted for. -/
theorem frames_acquired_in_order {core : BufferQueueCoreInner} (idle : core.Idle)
    (run : Run BufferQueue.step (fun sys a => sys.inOrder a = true) (BufferQueue.start core) es
      sys) :
    (acquiredFrames es).Pairwise (· < ·) ∧
      ∀ f ∈ queuedFrames es, Accounted es sys.inner f := by
  refine ⟨?_, run_accounted run⟩
  have hi := run.invariant (fun es sys => Increasing es sys.inner) (start_increasing idle)
    fun _ _ _ _ _ hi ok taken => step_increasing hi ok taken
  exact hi.sorted.sublist (List.sublist_append_left _ _)

theorem frames_acquired_in_order_first : ∃ sys,
    Run BufferQueue.step (fun sys a => sys.inOrder a = true) (.start .new) [.other, .other, .took 0,
      .handed 0, .other, .queued 0 1 none, .acquired 0 1 true []] sys ∧
    (acquiredFrames [.other, .other, .took 0, .handed 0, .other, .queued 0 1 none,
      .acquired 0 1 true []]).Pairwise (· < ·) := by
  obtain ⟨sys, run⟩ : ∃ sys, Run BufferQueue.step (fun sys a => sys.inOrder a = true)
      (.start .new) [.other, .other, .took 0, .handed 0, .other, .queued 0 1 none,
        .acquired 0 1 true []] sys :=
    exec_events acquireFirst (by decide +kernel)
  exact ⟨sys, run, (frames_acquired_in_order new_idle run).1⟩

/-- Dequeues a slot, requests its buffer and queues it. -/
def queueSlot (slot arc : ℕ) (asyncFlag : ℤ) : List Action :=
  [.dequeueBuffer ⟨false, 0, 0, .noFormat, 0⟩, .storeBuffer 0 arc, .requestBuffer slot,
    .queueBuffer slot (sampleInput asyncFlag) 0]

/-- Frame 4 takes the place of the droppable frame 2 and overtakes frame 3. -/
theorem frames_out_of_order : ∃ es sys,
    Run BufferQueue.step (fun _ _ => True) (.start .new) es sys ∧
      acquiredFrames es = [1, 4, 3] := by
  obtain ⟨sys, run⟩ : ∃ sys, Run BufferQueue.step (fun _ _ => True) (.start .new)
      [.other, .other, .reset [], .took 0, .handed 0, .other, .queued 0 1 none,
        .took 1, .handed 1, .other, .queued 1 2 none, .took 2, .handed 2, .other, .queued 2 3 none,
        .acquired 0 1 true [], .took 3, .handed 3, .other, .queued 3 4 (some 2), .released 0,
        .acquired 3 4 true [], .released 3, .acquired 2 3 true []] sys :=
    exec_events ([.consumerConnect true, .connect false .egl false, .setBufferCount 4] ++
      queueSlot 0 1 0 ++ queueSlot 1 2 1 ++ queueSlot 2 3 0 ++ [.acquireBuffer 0] ++
      queueSlot 3 4 0 ++ [.releaseBuffer 0 1, .acquireBuffer 0, .releaseBuffer 3 4,
        .acquireBuffer 0]) (by decide +kernel)
  exact ⟨_, sys, run, rfl⟩

end Ruzu.Nvnflinger
