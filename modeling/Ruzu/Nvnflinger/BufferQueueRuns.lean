import Ruzu.Nvnflinger.BufferQueueSections

/-!
# Ownership over runs of the buffer queue

In every run whose producer is orderly the queue and the slots agree, and the
producer holds dequeued slots only. What is handed out or acquired is held by
nobody at that time.
-/

set_option autoImplicit false

namespace Ruzu.Nvnflinger
open BufferQueueCoreInner Transition

variable {h : Holders} {sys sys' : BufferQueue} {a : Action} {e : Event}

theorem step_settles (ho : Owned h sys) (orderly : sys.orderly a = true)
    (taken : sys.step a = some (sys', e)) : Settles h (sys', e) := by
  cases a with
  | dequeueBuffer request =>
    obtain ⟨r, hr, he⟩ := Option.map_eq_some_iff.mp taken
    exact he ▸ dequeueBuffer_settles ho hr
  | attachBuffer buffer =>
    obtain ⟨r, hr, he⟩ := Option.map_eq_some_iff.mp taken
    cases buffer with
    | none =>
      cases hr
      exact he ▸ ⟨ho, nofun⟩
    | some b =>
      rw [attachBuffer] at hr
      split at hr
      · cases hr
      · exact he ▸ attachSection_settles ho (by simpa [BufferQueue.orderly] using orderly) hr
  | wake i =>
    obtain ⟨call, hcall, htaken⟩ := Option.bind_eq_some_iff.mp taken
    have hclear : ∀ c ∈ sys.waiting.eraseIdx i, c.Clear :=
      fun c hc => ho.clear c (List.mem_of_mem_eraseIdx hc)
    have ho' : Owned h { sys with waiting := sys.waiting.eraseIdx i } := ho.quiet Quiet.refl hclear
    cases call with
    | dequeue request flags =>
      obtain ⟨r, hr, he⟩ := Option.map_eq_some_iff.mp htaken
      exact he ▸ dequeueSection_settles ho' (ho.clear _ (List.mem_of_getElem? hcall)) hr
    | attach buffer flags =>
      obtain ⟨r, hr, he⟩ := Option.map_eq_some_iff.mp htaken
      rw [BufferQueue.orderly, hcall] at orderly
      exact he ▸ attachSection_settles ho' (by simpa using orderly) hr
  | storeBuffer i arc =>
    rw [BufferQueue.step] at taken
    split at taken
    · cases taken
    case isFalse fresh =>
      obtain ⟨a, ha, he⟩ := Option.map_eq_some_iff.mp taken
      refine he ▸ storeBuffer_settles ho ha ?_
      simp only [Bool.or_eq_true, not_or, Bool.not_eq_true] at fresh
      exact fresh.2
  | requestBuffer slot =>
    cases taken
    exact ho.became_quiet (requestBuffer_quiet slot)
  | setBufferCount bufferCount =>
    obtain ⟨r, hr, he⟩ := Option.map_eq_some_iff.mp taken
    exact he ▸ setBufferCount_settles ho hr
  | queueBuffer slot input now =>
    obtain ⟨r, hr, he⟩ := Option.map_eq_some_iff.mp taken
    exact he ▸ queueBuffer_settles ho hr
  | cancelBuffer slot fence =>
    cases taken
    exact cancelBuffer_settles ho orderly
  | detachBuffer slot =>
    cases taken
    exact detachBuffer_settles ho orderly
  | detachNextBuffer =>
    obtain ⟨r, hr, he⟩ := Option.map_eq_some_iff.mp taken
    exact he ▸ detachNextBuffer_settles ho hr
  | connect listener api controlled =>
    cases taken
    exact ho.became_quiet (connect_quiet listener api controlled)
  | producerDisconnect api =>
    obtain ⟨r, hr, he⟩ := Option.map_eq_some_iff.mp taken
    exact he ▸ producerDisconnect_settles ho orderly hr
  | acquireBuffer expectedPresentNs =>
    cases taken
    exact acquireBuffer_settles ho expectedPresentNs
  | releaseBuffer slot frameNumber =>
    cases taken
    exact releaseBuffer_settles ho slot frameNumber
  | consumerConnect controlledByApp =>
    cases taken
    exact ho.became_quiet (consumerConnect_quiet controlledByApp)
  | consumerDisconnect =>
    cases taken
    exact consumerDisconnect_settles ho

theorem start_owned {core : BufferQueueCoreInner} (idle : core.Idle) :
    Owned (fun _ => .nobody) (BufferQueue.start core) where
  coherent := by
    show Coherent core.slots core.queue
    rw [idle.queue]
    exact Coherent.empty idle.free
  producer _ hs := nomatch hs
  consumer _ hs := nomatch hs
  allocating _ a ha := absurd ha List.not_mem_nil
  apart _ := List.nodup_nil
  clear call hc := absurd hc List.not_mem_nil

/-- The runs of a queue whose producer is orderly. -/
abbrev OrderlyRun (core : BufferQueueCoreInner) : List Event → BufferQueue → Prop :=
  Run BufferQueue.step (fun sys a => sys.orderly a = true) (BufferQueue.start core)

theorem run_owned {core : BufferQueueCoreInner} (idle : core.Idle) {es : List Event}
    (run : OrderlyRun core es sys) : Owned (holder es) sys :=
  run.invariant (fun es sys => Owned (holder es) sys) (start_owned idle)
    fun es _ _ _ e ho orderly taken => by
      rw [holder_snoc]
      exact (step_settles ho orderly taken).owned

/-- An item tracks queued slots only, a queued slot is tracked by one item, and what the producer
holds is dequeued; a slot is handed out or acquired only while nobody holds it. -/
theorem slots_have_one_owner {core : BufferQueueCoreInner} (idle : core.Idle) {es : List Event}
    (run : OrderlyRun core es sys) :
    (∀ item ∈ sys.inner.queue, stillTracking sys.inner.slots item = true →
      (sys.inner.slots item.slot).bufferState = .queued) ∧
    (∀ s, (sys.inner.slots s).bufferState = .queued →
      sys.inner.queue.countP (tracks sys.inner.slots s) = 1) ∧
    (∀ s, holder es s = .producer → (sys.inner.slots s).bufferState = .dequeued) ∧
    ∀ a sys' e, sys.orderly a = true → sys.step a = some (sys', e) → ∀ s, e.Gives s →
      holder es s = .nobody := by
  have ho := run_owned idle run
  exact ⟨ho.coherent.tracked, ho.coherent.queued, ho.producer,
    fun a sys' e orderly taken => (step_settles ho orderly taken).unheld⟩

theorem new_idle : BufferQueueCoreInner.new.Idle := ⟨rfl, fun _ => rfl⟩

def sampleInput (asyncFlag : ℤ) : QueueBufferInput :=
  ⟨0, 0, ⟨0, 0, 0, 0⟩, .freeze, 0, 0, asyncFlag, 0, Fence.default⟩

/-- Connects both sides and takes slot 0 through to the consumer. -/
def acquireFirst : List Action :=
  [.consumerConnect true, .connect false .egl false,
    .dequeueBuffer ⟨false, 0, 0, .noFormat, 0⟩, .storeBuffer 0 1, .requestBuffer 0,
    .queueBuffer 0 (sampleInput 0) 0, .acquireBuffer 0]

theorem slots_have_one_owner_acquired : ∃ sys,
    OrderlyRun .new [.other, .other, .took 0, .handed 0, .other, .queued 0 1 none,
      .acquired 0 1 true []] sys ∧
    ∀ s, (sys.inner.slots s).bufferState = .queued →
      sys.inner.queue.countP (tracks sys.inner.slots s) = 1 := by
  obtain ⟨sys, run⟩ : ∃ sys, OrderlyRun .new [.other, .other, .took 0, .handed 0, .other,
      .queued 0 1 none, .acquired 0 1 true []] sys :=
    exec_events acquireFirst (by decide +kernel)
  exact ⟨sys, run, (slots_have_one_owner new_idle run).2.1⟩

/-- A disconnect takes slot 0 back from the consumer, and the next call hands it out: the consumer
has acquired it and not released it. -/
theorem acquired_slot_handed_out : ∃ sys,
    OrderlyRun .new [.other, .other, .took 0, .handed 0, .other, .queued 0 1 none,
      .acquired 0 1 true [], .reset [], .took 0, .handed 0] sys :=
  exec_events (acquireFirst ++ [.producerDisconnect .egl,
    .dequeueBuffer ⟨false, 0, 0, .noFormat, 0⟩, .storeBuffer 0 2]) (by decide +kernel)

end Ruzu.Nvnflinger
