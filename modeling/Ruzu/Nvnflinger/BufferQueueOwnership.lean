import Ruzu.Nvnflinger.BufferQueueTracking

/-!
# Who owns a slot

The history of a buffer queue says for each slot whether the producer or the
consumer holds it. The producer holds what `dequeue_buffer` or `attach_buffer`
has returned until it queues, cancels or detaches it; the consumer holds what
it has acquired until it releases it; a reset of the queue takes everything
back. A slot that `dequeue_buffer` has taken but not returned is held by
nobody yet.
-/

set_option autoImplicit false

namespace Ruzu.Nvnflinger
open BufferQueueCoreInner BufferQueue

inductive Holder
  | nobody | producer | consumer
  deriving DecidableEq

abbrev Holders := SlotIndex → Holder

def Event.settle (h : Holders) : Event → Holders
  | .handed s => Function.update h s .producer
  | .acquired s _ true _ => Function.update h s .consumer
  | .queued s _ _ => Function.update h s .nobody
  | .cancelled s => Function.update h s .nobody
  | .detached s => Function.update h s .nobody
  | .released s => Function.update h s .nobody
  | .reset _ => fun _ => .nobody
  | _ => h

def holder (es : List Event) : Holders := es.foldl Event.settle fun _ => .nobody

theorem holder_snoc (es : List Event) (e : Event) :
    holder (es ++ [e]) = e.settle (holder es) := by
  rw [holder, List.foldl_append]
  rfl

/-- A waiting `dequeue_buffer` has not decided to reallocate. -/
def Waiting.Clear : Waiting → Prop
  | .dequeue _ flags => flags.contains StatusCode.bufferNeedsReallocation = false
  | .attach _ _ => True

/-- The slots of the holders are in the state that goes with them. -/
structure Owned (h : Holders) (sys : BufferQueue) : Prop where
  coherent : Coherent sys.inner.slots sys.inner.queue
  producer : ∀ s, h s = .producer → (sys.inner.slots s).bufferState = .dequeued
  consumer : ∀ s, h s = .consumer → (sys.inner.slots s).bufferState = .acquired
  allocating : sys.inner.isAbandoned = false → ∀ a ∈ sys.allocations,
    (sys.inner.slots a.slot).bufferState = .dequeued ∧
      (sys.inner.slots a.slot).graphicBuffer = none ∧ h a.slot = .nobody
  apart : sys.inner.isAbandoned = false → (sys.allocations.map (·.slot)).Nodup
  clear : ∀ call ∈ sys.waiting, call.Clear

variable {h : Holders} {sys : BufferQueue} {inner inner' : BufferQueueCoreInner}
variable {s : SlotIndex} {x : BufferSlot} {e : Event}

theorem Owned.unheld (ho : Owned h sys)
    (hs : (sys.inner.slots s).bufferState = .free ∨ (sys.inner.slots s).bufferState = .queued) :
    h s = .nobody := by
  cases hh : h s with
  | nobody => rfl
  | producer => rw [ho.producer s hh] at hs; simp at hs
  | consumer => rw [ho.consumer s hh] at hs; simp at hs

/-- A section that trims free slots at most. -/
structure Quiet (inner inner' : BufferQueueCoreInner) : Prop where
  trims : Trims inner.slots inner'.slots
  queue : inner'.queue = inner.queue
  abandoned : inner'.isAbandoned = inner.isAbandoned
  counter : inner'.frameCounter = inner.frameCounter

theorem Quiet.refl : Quiet inner inner := ⟨Trims.refl, rfl, rfl, rfl⟩

theorem Quiet.trans {inner'' : BufferQueueCoreInner} (a : Quiet inner inner')
    (b : Quiet inner' inner'') : Quiet inner inner'' :=
  ⟨a.trims.trans b.trims, b.queue.trans a.queue, b.abandoned.trans a.abandoned,
    b.counter.trans a.counter⟩

theorem Quiet.setSlot (state : x.bufferState = (inner.slots s).bufferState)
    (buffer : x.graphicBuffer = (inner.slots s).graphicBuffer ∨
      (inner.slots s).bufferState = .free ∧ x.graphicBuffer = none) :
    Quiet inner (inner.setSlot s x) :=
  ⟨Trims.update state buffer, rfl, rfl, rfl⟩

theorem Owned.quiet (ho : Owned h sys) (hq : Quiet sys.inner inner') {waiting : List Waiting}
    (clear : ∀ call ∈ waiting, call.Clear) : Owned h ⟨inner', waiting, sys.allocations⟩ where
  coherent := by
    rw [show inner'.queue = sys.inner.queue from hq.queue]
    exact ho.coherent.trims hq.trims
  producer s hs := (hq.trims s).1.trans (ho.producer s hs)
  consumer s hs := (hq.trims s).1.trans (ho.consumer s hs)
  allocating live a ha := by
    obtain ⟨hstate, hbuffer, hnobody⟩ := ho.allocating (hq.abandoned ▸ live) a ha
    obtain ⟨hstate', hbuffer'⟩ := hq.trims.keeps a.slot (.inl hstate)
    exact ⟨hstate'.trans hstate, hbuffer'.trans hbuffer, hnobody⟩
  apart live := ho.apart (hq.abandoned ▸ live)
  clear := clear

/-- One slot outside the queue changes hands. -/
theorem Owned.move (ho : Owned h sys) {waiting : List Waiting} {allocations : List Allocation}
    (slots : inner'.slots = Function.update sys.inner.slots s x)
    (queue : inner'.queue = sys.inner.queue)
    (abandoned : inner'.isAbandoned = sys.inner.isAbandoned)
    (old : (sys.inner.slots s).bufferState ≠ .queued) (new : x.bufferState ≠ .queued)
    (untracked : ∀ item ∈ sys.inner.queue, item.slot = s →
      stillTracking (Function.update sys.inner.slots s x) item = false)
    (others : ∀ t, t ≠ s → e.settle h t = h t)
    (producer : e.settle h s = .producer → x.bufferState = .dequeued)
    (consumer : e.settle h s = .consumer → x.bufferState = .acquired)
    (allocating : sys.inner.isAbandoned = false → ∀ a ∈ allocations,
      a ∈ sys.allocations ∧ a.slot ≠ s ∨
        a.slot = s ∧ x.bufferState = .dequeued ∧ x.graphicBuffer = none ∧
          e.settle h s = .nobody)
    (apart : sys.inner.isAbandoned = false → (allocations.map (·.slot)).Nodup)
    (clear : ∀ call ∈ waiting, call.Clear) :
    Owned (e.settle h) ⟨inner', waiting, allocations⟩ where
  coherent := by
    show Coherent inner'.slots inner'.queue
    rw [slots, queue]
    exact ho.coherent.update old new untracked
  producer t ht := by
    show (inner'.slots t).bufferState = _
    rw [slots]
    rcases eq_or_ne t s with rfl | hne
    · rw [Function.update_self]
      exact producer ht
    · rw [Function.update_of_ne hne]
      exact ho.producer t (others t hne ▸ ht)
  consumer t ht := by
    show (inner'.slots t).bufferState = _
    rw [slots]
    rcases eq_or_ne t s with rfl | hne
    · rw [Function.update_self]
      exact consumer ht
    · rw [Function.update_of_ne hne]
      exact ho.consumer t (others t hne ▸ ht)
  allocating live a ha := by
    have live : sys.inner.isAbandoned = false := abandoned ▸ live
    show (inner'.slots a.slot).bufferState = _ ∧ (inner'.slots a.slot).graphicBuffer = _ ∧ _
    rw [slots]
    rcases allocating live a ha with ⟨hmem, hne⟩ | ⟨rfl, hx⟩
    · rw [Function.update_of_ne hne, others _ hne]
      exact ho.allocating live a hmem
    · rw [Function.update_self]
      exact hx
  apart live := apart (abandoned ▸ live)
  clear := clear

/-- A new state of a slot keeps its buffer, or gives it none. -/
theorem untracked_of_buffer (ho : Owned h sys) (old : (sys.inner.slots s).bufferState ≠ .queued)
    (buffer : x.graphicBuffer = (sys.inner.slots s).graphicBuffer ∨ x.graphicBuffer = none) :
    ∀ item ∈ sys.inner.queue, item.slot = s →
      stillTracking (Function.update sys.inner.slots s x) item = false := by
  rintro item hi rfl
  rcases buffer with hkept | hnone
  · rw [stillTracking_congr (by rw [Function.update_self, hkept])]
    by_contra ht
    exact old (ho.coherent.tracked item hi (by simpa using ht))
  · exact stillTracking_none (by rw [Function.update_self, hnone])

theorem untracked_of_unheld {b : GraphicBuffer} (buffer : x.graphicBuffer = some b)
    (unheld : sys.inner.queueHolds b.arc = false) :
    ∀ item ∈ sys.inner.queue, item.slot = s →
      stillTracking (Function.update sys.inner.slots s x) item = false := by
  rintro item hi rfl
  refine stillTracking_unheld (by rw [Function.update_self, buffer]) ?_
  simp only [queueHolds, List.any_eq_false] at unheld
  simpa using unheld item hi

theorem Owned.reset (inner' : BufferQueueCoreInner)
    (coherent : Coherent inner'.slots inner'.queue) {waiting : List Waiting}
    {allocations : List Allocation} (gone : inner'.isAbandoned = false → allocations = [])
    (clear : ∀ call ∈ waiting, call.Clear) :
    Owned (fun _ => .nobody) ⟨inner', waiting, allocations⟩ where
  coherent := coherent
  producer _ hs := nomatch hs
  consumer _ hs := nomatch hs
  allocating live a ha := by
    rw [show allocations = [] from gone live] at ha
    cases ha
  apart live := by
    rw [show allocations = [] from gone live]
    exact List.nodup_nil
  clear := clear

/-! ### What the parts of the sections do -/

theorem contains_releaseAll (flags : StatusCode) :
    (flags ||| StatusCode.releaseAllBuffers).contains StatusCode.bufferNeedsReallocation =
      flags.contains StatusCode.bufferNeedsReallocation := by
  rw [StatusCode.contains, BitVec.and_or_distrib_right, show
    StatusCode.releaseAllBuffers &&& StatusCode.bufferNeedsReallocation = 0#32 from by decide,
    BitVec.or_zero, StatusCode.contains]

theorem contains_needsReallocation (flags : StatusCode) :
    (flags ||| StatusCode.bufferNeedsReallocation).contains StatusCode.bufferNeedsReallocation =
      true := by
  rw [StatusCode.contains, BitVec.and_or_distrib_right, BitVec.and_self, bne_iff_ne]
  intro hzero
  have hbit := congrArg (·.getLsbD 0) hzero
  simp [StatusCode.bufferNeedsReallocation] at hbit

theorem freeUnused_quiet (r : BufferQueueCoreInner × StatusCode) (s : SlotIndex) :
    Quiet r.1 (freeUnused r s).1 := by
  rw [freeUnused]
  split
  case isTrue hf => exact Quiet.setSlot hf.2.1.symm (.inr ⟨hf.2.1, rfl⟩)
  case isFalse => exact Quiet.refl

theorem foldl_freeUnused_quiet (l : List SlotIndex) (r : BufferQueueCoreInner × StatusCode) :
    Quiet r.1 (l.foldl freeUnused r).1 := by
  induction l generalizing r with
  | nil => exact Quiet.refl
  | cons s l ih => exact (freeUnused_quiet r s).trans (ih (freeUnused r s))

theorem visit_found_free (slots : Slots) (scan : Scan) (t : SlotIndex)
    (hs : ∀ s, scan.found = some s → (slots s).bufferState = .free) :
    ∀ s, (scan.visit slots t).found = some s → (slots s).bufferState = .free := by
  intro s hv
  rw [Scan.visit] at hv
  split at hv
  case h_3 hfree =>
    split at hv
    · exact Option.some.inj hv ▸ hfree
    · split at hv
      · exact Option.some.inj hv ▸ hfree
      · exact hs s hv
  all_goals exact hs s hv

theorem scan_found_free (inner : BufferQueueCoreInner) (maxBufferCount : ℕ) :
    ∀ s, (inner.scan maxBufferCount).found = some s → (inner.slots s).bufferState = .free := by
  refine List.foldlRecOn (motive := fun scan : Scan => ∀ s, scan.found = some s →
    (inner.slots s).bufferState = .free) _ _ (by nofun) ?_
  exact fun scan hs t _ => visit_found_free inner.slots scan t hs

theorem chooseSlot_found {asyncFlag : Bool} {maxBufferCount : ℤ} {scan : Scan}
    {status : Status} (hc : inner.chooseSlot asyncFlag maxBufferCount scan =
      .returned status (some s)) : scan.found = some s := by
  rw [chooseSlot] at hc
  split at hc
  · exact (Wait.returned.inj hc).2
  split at hc
  · exact (Wait.returned.inj hc).2
  split at hc
  · split at hc
    · exact (Wait.returned.inj hc).2
    · cases hc
  · exact (Wait.returned.inj hc).2

theorem foldl_freeUnused_flags (l : List SlotIndex) (r : BufferQueueCoreInner × StatusCode) :
    (l.foldl freeUnused r).2.contains StatusCode.bufferNeedsReallocation =
      r.2.contains StatusCode.bufferNeedsReallocation := by
  induction l generalizing r with
  | nil => rfl
  | cons s l ih =>
    rw [List.foldl_cons, ih, freeUnused]
    split
    · exact contains_releaseAll r.2
    · rfl

theorem waitForFreeSlot_spec {asyncFlag : Bool} {flags flags' : StatusCode} {w : Wait}
    (hw : inner.waitForFreeSlotThenRelock asyncFlag flags = some (inner', flags', w)) :
    Quiet inner inner' ∧
      flags'.contains StatusCode.bufferNeedsReallocation =
        flags.contains StatusCode.bufferNeedsReallocation ∧
      ∀ status s, w = .returned status (some s) → (inner'.slots s).bufferState = .free := by
  rw [waitForFreeSlotThenRelock] at hw
  split at hw
  · cases hw
    exact ⟨Quiet.refl, rfl, nofun⟩
  obtain ⟨maxBufferCount, -, hw⟩ := Option.bind_eq_some_iff.mp hw
  split at hw
  · cases hw
    exact ⟨Quiet.refl, rfl, nofun⟩
  split at hw
  case isFalse => cases hw
  cases hw
  refine ⟨foldl_freeUnused_quiet _ (inner, flags), foldl_freeUnused_flags _ (inner, flags),
    fun status s hs => ?_⟩
  exact scan_found_free _ _ s (chooseSlot_found hs)

theorem freeAllBuffersLocked_spec (inner : BufferQueueCoreInner) :
    (∀ s, (inner.freeAllBuffersLocked.slots s).bufferState = .free ∧
      (inner.freeAllBuffersLocked.slots s).graphicBuffer = none) ∧
      inner.freeAllBuffersLocked.queue = inner.queue ∧
      inner.freeAllBuffersLocked.isAbandoned = inner.isAbandoned ∧
      inner.freeAllBuffersLocked.frameCounter = inner.frameCounter := by
  have hfold : ∀ (l : List SlotIndex) (i : BufferQueueCoreInner),
      (∀ s, (s ∈ l ∨ (i.slots s).bufferState = .free ∧ (i.slots s).graphicBuffer = none) →
        ((l.foldl freeBufferLocked i).slots s).bufferState = .free ∧
          ((l.foldl freeBufferLocked i).slots s).graphicBuffer = none) ∧
      (l.foldl freeBufferLocked i).queue = i.queue ∧
      (l.foldl freeBufferLocked i).isAbandoned = i.isAbandoned ∧
      (l.foldl freeBufferLocked i).frameCounter = i.frameCounter := by
    intro l
    induction l with
    | nil => exact fun i => ⟨fun s hs => hs.resolve_left List.not_mem_nil, rfl, rfl, rfl⟩
    | cons t l ih =>
      intro i
      obtain ⟨hslots, hrest⟩ := ih (i.freeBufferLocked t)
      refine ⟨fun s hs => hslots s ?_, hrest⟩
      rcases eq_or_ne s t with rfl | hne
      · right
        rw [freeBufferLocked, setSlot_slots, Function.update_self]
        exact ⟨rfl, rfl⟩
      · rw [freeBufferLocked, setSlot_slots, Function.update_of_ne hne]
        exact hs.imp_left fun hm => (List.mem_cons.mp hm).resolve_left hne
  obtain ⟨hslots, hrest⟩ := hfold (List.finRange numBufferSlots)
    { inner with bufferHasBeenQueued := false }
  exact ⟨fun s => hslots s (.inl (List.mem_finRange s)), hrest⟩

end Ruzu.Nvnflinger
