import Mathlib
import Ruzu.Nvnflinger.BufferQueueOwnership

/-!
# The sections keep ownership

One lemma a section: from an owned state it leads to an owned state, with the
holders its event says. A slot that is handed out or acquired was held by
nobody before.
-/

set_option autoImplicit false

namespace Ruzu.Nvnflinger
open BufferQueueCoreInner BufferQueue

variable {h : Holders} {sys : BufferQueue} {inner inner' : BufferQueueCoreInner}
variable {s : SlotIndex} {x : BufferSlot} {e : Event}

/-- A `dequeue_buffer` is allocating the buffer of the slot. -/
def BufferQueue.allocating (sys : BufferQueue) (s : SlotIndex) : Bool :=
  sys.allocations.any (·.slot == s)

/-- The producer cancels dequeued slots only; it does not cancel, detach or disconnect under a
`dequeue_buffer` that is still allocating, and attaches no buffer that is queued. -/
def BufferQueue.orderly (sys : BufferQueue) : Action → Bool
  | .cancelBuffer slot _ =>
    sys.inner.isAbandoned || (slotIndex slot).all fun s =>
      (sys.inner.slots s).bufferState == .dequeued && !sys.allocating s
  | .detachBuffer slot => (slotIndex slot).all fun s => !sys.allocating s
  | .producerDisconnect _ => sys.allocations.isEmpty
  | .attachBuffer buffer => buffer.all fun b => !sys.inner.queueHolds b.arc
  | .wake i =>
    match sys.waiting[i]? with
    | some (.attach b _) => !sys.inner.queueHolds b.arc
    | _ => true
  | _ => true

/-- The event hands the slot out, or gives it to the consumer. -/
def Event.Gives (s : SlotIndex) : Event → Prop
  | .handed t => t = s
  | .acquired t _ tracked _ => t = s ∧ tracked = true
  | _ => False

/-- What a section has to show. -/
structure Settles (h : Holders) (r : BufferQueue × Event) : Prop where
  owned : Owned (r.2.settle h) r.1
  unheld : ∀ s, r.2.Gives s → h s = .nobody

theorem Owned.became_quiet (ho : Owned h sys) (hq : Quiet sys.inner inner') :
    Settles h (sys.became inner' .other) :=
  ⟨ho.quiet hq ho.clear, nofun⟩

theorem Waiting.clear_snoc {waiting : List Waiting} (hw : ∀ call ∈ waiting, call.Clear)
    (call : Waiting) (hc : call.Clear) : ∀ c ∈ waiting ++ [call], c.Clear := by
  intro c hm
  rcases List.mem_append.mp hm with hm | hm
  · exact hw c hm
  · rw [List.mem_singleton.mp hm]
    exact hc

/-- A free slot is given to the producer. -/
theorem Owned.hand (ho : Owned h sys) (slots : inner'.slots = Function.update sys.inner.slots s x)
    (queue : inner'.queue = sys.inner.queue)
    (abandoned : inner'.isAbandoned = sys.inner.isAbandoned)
    (free : (sys.inner.slots s).bufferState = .free) (dequeued : x.bufferState = .dequeued)
    (untracked : ∀ item ∈ sys.inner.queue, item.slot = s →
      stillTracking (Function.update sys.inner.slots s x) item = false) :
    Settles h ({ sys with inner := inner' }, .handed s) where
  owned := by
    refine ho.move slots queue abandoned (by rw [free]; nofun) (by rw [dequeued]; nofun) untracked
      (fun t hne => Function.update_of_ne hne _ _) (fun _ => dequeued) ?_ ?_ ho.apart ho.clear
    · intro hc
      rw [Event.settle, Function.update_self] at hc
      cases hc
    · intro live a ha
      refine .inl ⟨ha, fun he => ?_⟩
      have hd := (ho.allocating live a ha).1
      rw [he, free] at hd
      cases hd
  unheld t ht := by
    obtain rfl : s = t := ht
    exact ho.unheld (.inl free)

/-- A free slot is taken for an allocation. -/
theorem Owned.take (ho : Owned h sys) {a : Allocation}
    (slots : inner'.slots = Function.update sys.inner.slots a.slot x)
    (queue : inner'.queue = sys.inner.queue)
    (abandoned : inner'.isAbandoned = sys.inner.isAbandoned)
    (free : (sys.inner.slots a.slot).bufferState = .free) (dequeued : x.bufferState = .dequeued)
    (none : x.graphicBuffer = none) :
    Settles h ({ sys with inner := inner', allocations := sys.allocations ++ [a] },
      .took a.slot) where
  owned := by
    have hnobody := ho.unheld (.inl free)
    have hne : sys.inner.isAbandoned = false → ∀ b ∈ sys.allocations, b.slot ≠ a.slot := by
      intro live b hb he
      have hd := (ho.allocating live b hb).1
      rw [he, free] at hd
      cases hd
    refine ho.move (e := .took a.slot) slots queue abandoned (by rw [free]; nofun)
      (by rw [dequeued]; nofun) (untracked_of_buffer ho (by rw [free]; nofun) (.inr none)) (fun _ _ => rfl)
      (fun _ => dequeued) (fun hc => ?_) (fun live b hb => ?_) (fun live => ?_) ho.clear
    · exact absurd (hnobody.symm.trans hc) nofun
    · rcases List.mem_append.mp hb with hb | hb
      · exact .inl ⟨hb, hne live b hb⟩
      · obtain rfl := List.mem_singleton.mp hb
        exact .inr ⟨rfl, dequeued, none, hnobody⟩
    · rw [List.map_append, List.nodup_append]
      refine ⟨ho.apart live, List.nodup_singleton _, fun t ht u hu => ?_⟩
      obtain ⟨b, hb, rfl⟩ := List.mem_map.mp ht
      obtain rfl := List.mem_singleton.mp hu
      exact hne live b hb
  unheld := nofun

theorem takeSlot_settles (ho : Owned h sys) {request : DequeueRequest} {flags : StatusCode}
    (clear : flags.contains StatusCode.bufferNeedsReallocation = false)
    (free : (sys.inner.slots s).bufferState = .free) :
    Settles h (sys.afterDequeue (sys.inner.takeSlot request flags s)) := by
  rw [takeSlot]
  dsimp only
  generalize needsReallocation _ _ _ _ _ = reallocate
  cases reallocate with
  | false =>
    rw [if_neg Bool.false_ne_true, if_neg Bool.false_ne_true, if_neg (by rw [clear]; nofun)]
    exact ho.hand rfl rfl rfl free rfl
      (untracked_of_buffer ho (by rw [free]; nofun) (.inl rfl))
  | true =>
    rw [if_pos rfl, if_pos rfl, if_pos (contains_needsReallocation flags)]
    exact ho.take (a := ⟨s, _, _, _, _, _, _, _⟩) rfl rfl rfl free rfl rfl

theorem dequeueSection_settles (ho : Owned h sys) {request : DequeueRequest} {flags : StatusCode}
    (clear : flags.contains StatusCode.bufferNeedsReallocation = false)
    {r : BufferQueueCoreInner × Dequeue} (hr : sys.inner.dequeueSection request flags = some r) :
    Settles h (sys.afterDequeue r) := by
  obtain ⟨⟨inner', flags', w⟩, hw, rfl⟩ := Option.map_eq_some_iff.mp hr
  obtain ⟨hq, hflags, hfree⟩ := waitForFreeSlot_spec hw
  have ho' : Owned h { sys with inner := inner' } := ho.quiet hq ho.clear
  have hclear := hflags.trans clear
  cases w with
  | waiting => exact ⟨ho.quiet hq (Waiting.clear_snoc ho.clear (.dequeue request flags') hclear), nofun⟩
  | returned status found =>
    cases status with
    | noError =>
      cases found with
      | none => exact ⟨ho', nofun⟩
      | some s => exact takeSlot_settles ho' hclear (hfree _ s rfl)
    | _ => exact ⟨ho', nofun⟩

theorem dequeueBuffer_settles (ho : Owned h sys) {request : DequeueRequest}
    {r : BufferQueueCoreInner × Dequeue} (hr : sys.inner.dequeueBuffer request = some r) :
    Settles h (sys.afterDequeue r) := by
  rw [dequeueBuffer] at hr
  split at hr
  · cases hr
    exact ⟨ho, nofun⟩
  split at hr
  · cases hr
  exact dequeueSection_settles ho (by decide) hr

theorem attachSection_settles (ho : Owned h sys) {buffer : GraphicBuffer} {flags : StatusCode}
    (unheld : sys.inner.queueHolds buffer.arc = false)
    {r : BufferQueueCoreInner × Attach} (hr : sys.inner.attachSection buffer flags = some r) :
    Settles h (sys.afterAttach r) := by
  obtain ⟨⟨inner', flags', w⟩, hw, rfl⟩ := Option.map_eq_some_iff.mp hr
  obtain ⟨hq, -, hfree⟩ := waitForFreeSlot_spec hw
  have ho' : Owned h { sys with inner := inner' } := ho.quiet hq ho.clear
  cases w with
  | waiting => exact ⟨ho.quiet hq (Waiting.clear_snoc ho.clear (.attach buffer flags') trivial),
      fun _ hgives => by cases hgives⟩
  | returned status found =>
    cases status with
    | noError =>
      cases found with
      | none => exact ⟨ho', fun _ hgives => by cases hgives⟩
      | some s =>
        refine ho'.hand rfl rfl rfl (hfree _ s rfl) rfl (untracked_of_unheld rfl ?_)
        rw [queueHolds, show inner'.queue = sys.inner.queue from hq.queue]
        exact unheld
    | _ => exact ⟨ho', fun _ hgives => by cases hgives⟩

theorem storeBuffer_settles (ho : Owned h sys) {i arc : ℕ} {a : Allocation}
    (ha : sys.allocations[i]? = some a) (fresh : sys.inner.queueHolds arc = false) :
    Settles h (afterDequeue { sys with allocations := sys.allocations.eraseIdx i }
      (sys.inner.storeBuffer a arc)) := by
  rw [storeBuffer]
  split
  case isTrue dead =>
    refine ⟨⟨ho.coherent, ho.producer, ho.consumer, fun live => ?_, fun live => ?_, ho.clear⟩,
      nofun⟩
    · rw [show sys.inner.isAbandoned = false from live] at dead
      cases dead
    · rw [show sys.inner.isAbandoned = false from live] at dead
      cases dead
  case isFalse live =>
    have live : sys.inner.isAbandoned = false := by simpa using live
    obtain ⟨hstate, -, hnobody⟩ := ho.allocating live a (List.mem_of_getElem? ha)
    have hnodup := ho.apart live
    have herase : ∀ b ∈ sys.allocations.eraseIdx i, b.slot ≠ a.slot := by
      intro b hb he
      obtain ⟨j, hj, hji⟩ := List.mem_eraseIdx_iff_getElem?.mp hb
      refine hj ?_
      have hmap : ∀ {k : ℕ} {c : Allocation}, sys.allocations[k]? = some c →
          (sys.allocations.map (·.slot))[k]? = some c.slot := fun hc => by
        rw [List.getElem?_map, hc]
        rfl
      have hk := (hmap hji).trans (he ▸ (hmap ha).symm)
      exact (List.getElem?_inj (List.getElem?_eq_some_iff.mp (hmap hji)).1 hnodup).mp hk
    refine ⟨ho.move (s := a.slot) (e := .handed a.slot) rfl rfl rfl (by rw [hstate]; nofun)
      (by rw [show _ = BufferState.dequeued from hstate]; nofun)
      (untracked_of_unheld rfl fresh) (fun t hne => Function.update_of_ne hne _ _)
      (fun _ => hstate) (fun hc => ?_) (fun _ b hb => ?_) (fun _ => ?_) ho.clear, fun t ht => ?_⟩
    · rw [Event.settle, Function.update_self] at hc
      cases hc
    · exact .inl ⟨List.mem_of_mem_eraseIdx hb, herase b hb⟩
    · rw [← List.eraseIdx_map]
      exact hnodup.eraseIdx i
    · obtain rfl : a.slot = t := ht
      exact hnobody

/-- Slots that do not change holder keep what they hold. -/
theorem Owned.exchange (ho : Owned h sys)
    (coherent : Coherent inner'.slots inner'.queue)
    (abandoned : inner'.isAbandoned = sys.inner.isAbandoned)
    (each : ∀ t,
      e.settle h t = h t ∧
        ((sys.inner.slots t).bufferState = .dequeued ∨
          (sys.inner.slots t).bufferState = .acquired →
          (inner'.slots t).bufferState = (sys.inner.slots t).bufferState ∧
            (inner'.slots t).graphicBuffer = (sys.inner.slots t).graphicBuffer) ∨
      e.settle h t ≠ .producer ∧
        (e.settle h t = .consumer → (inner'.slots t).bufferState = .acquired) ∧
        (sys.inner.isAbandoned = false → ∀ a ∈ sys.allocations, a.slot ≠ t)) :
    Owned (e.settle h) { sys with inner := inner' } where
  coherent := coherent
  producer t ht := by
    rcases each t with ⟨hsame, hkept⟩ | ⟨hne, -⟩
    · have hd := ho.producer t (hsame ▸ ht)
      exact (hkept (.inl hd)).1.trans hd
    · exact absurd ht hne
  consumer t ht := by
    rcases each t with ⟨hsame, hkept⟩ | ⟨-, hacquired, -⟩
    · have hd := ho.consumer t (hsame ▸ ht)
      exact (hkept (.inr hd)).1.trans hd
    · exact hacquired ht
  allocating live a ha := by
    have live : sys.inner.isAbandoned = false := abandoned ▸ live
    obtain ⟨hd, hnone, hnobody⟩ := ho.allocating live a ha
    rcases each a.slot with ⟨hsame, hkept⟩ | ⟨-, -, hne⟩
    · obtain ⟨hstate, hbuffer⟩ := hkept (.inl hd)
      exact ⟨hstate.trans hd, hbuffer.trans hnone, hsame.trans hnobody⟩
    · exact absurd rfl (hne live a ha)
  apart live := ho.apart (abandoned ▸ live)
  clear := ho.clear

theorem slotIndex_range {slot : ℤ} (hs : slotIndex slot = some s) : slot = s.val := by
  rw [slotIndex] at hs
  split at hs
  · obtain rfl := Option.some.inj hs
    dsimp only
    omega
  · cases hs

theorem requestBuffer_quiet (slot : ℤ) : Quiet inner (inner.requestBuffer slot).1 := by
  rw [requestBuffer]
  split
  · exact Quiet.refl
  split
  · exact Quiet.refl
  split
  · exact Quiet.refl
  exact Quiet.setSlot rfl (.inl rfl)

theorem connect_quiet (listener : Bool) (api : NativeWindowApi) (controlled : Bool) :
    Quiet inner (inner.connect listener api controlled).1 := by
  rw [connect]
  repeat' split
  all_goals exact ⟨Trims.refl, rfl, rfl, rfl⟩

theorem consumerConnect_quiet (controlledByApp : Bool) :
    Quiet inner (inner.consumerConnect controlledByApp).1 := by
  rw [consumerConnect]
  split
  · exact Quiet.refl
  · exact ⟨Trims.refl, rfl, rfl, rfl⟩

theorem detachNextBuffer_settles (ho : Owned h sys)
    {r : BufferQueueCoreInner × Status × Option GraphicBuffer × Fence}
    (hr : sys.inner.detachNextBuffer = some r) : Settles h (sys.became r.1 .other) := by
  rw [detachNextBuffer] at hr
  split at hr
  · cases hr
  split at hr
  · cases hr
    exact ho.became_quiet Quiet.refl
  split at hr
  · cases hr
    exact ho.became_quiet Quiet.refl
  case h_2 s found =>
    cases hr
    -- the slot it finds is free already
    have hfree : (sys.inner.slots s).bufferState = .free := by
      have hmotive := List.foldlRecOn (motive := fun f : Option SlotIndex => ∀ s, f = some s →
        (sys.inner.slots s).bufferState = .free) (List.finRange numBufferSlots)
        (oldestBuffer sys.inner.slots) (b := none) (by nofun) ?_
      · exact hmotive s found
      intro f hf t _ u hu
      unfold oldestBuffer at hu
      split at hu
      case isTrue hfree =>
        split at hu
        · exact Option.some.inj hu ▸ hfree.1
        · split at hu
          · exact Option.some.inj hu ▸ hfree.1
          · exact hf u hu
      case isFalse => exact hf u hu
    exact ho.became_quiet (Quiet.setSlot hfree.symm (.inr ⟨hfree, rfl⟩))

theorem setBufferCount_settles (ho : Owned h sys) {bufferCount : ℤ}
    {r : BufferQueueCoreInner × Status} (hr : sys.inner.setBufferCount bufferCount = some r) :
    Settles h (sys.became r.1 (onSuccess r.2
      (if bufferCount ≠ 0 ∧ sys.inner.getPreallocatedBufferCountLocked ≤ 0 then .reset []
        else .other))) := by
  rw [setBufferCount] at hr
  split at hr
  · cases hr
  split at hr
  · cases hr
    exact ho.became_quiet Quiet.refl
  split at hr
  · cases hr
    exact ho.became_quiet Quiet.refl
  split at hr
  · cases hr
    exact ho.became_quiet Quiet.refl
  case isFalse.isFalse.isFalse.isFalse live _ hdequeued =>
    split at hr
    case isTrue hzero =>
      cases hr
      rw [onSuccess, if_pos rfl, if_neg (fun hc => hc.1 hzero)]
      exact ho.became_quiet ⟨Trims.refl, rfl, rfl, rfl⟩
    case isFalse hzero =>
      split at hr
      · cases hr
        exact ho.became_quiet Quiet.refl
      split at hr
      case isFalse.isTrue hpre =>
        cases hr
        rw [onSuccess, if_pos rfl, if_pos ⟨hzero, hpre⟩]
        obtain ⟨hslots, -⟩ := freeAllBuffersLocked_spec sys.inner
        refine ⟨Owned.reset { sys.inner.freeAllBuffersLocked with overrideMaxBufferCount := bufferCount }
          (Coherent.cleared (fun s => (hslots s).1) (fun s => (hslots s).2) _) (fun _ => ?_)
          ho.clear, nofun⟩
        -- an allocating call would hold a dequeued slot
        refine List.eq_nil_iff_forall_not_mem.mpr fun a ha => hdequeued ?_
        exact List.any_eq_true.mpr ⟨a.slot, List.mem_finRange _,
          beq_iff_eq.mpr (ho.allocating (by simpa using live) a ha).1⟩
      case isFalse.isFalse hpre =>
        cases hr
        rw [onSuccess, if_pos rfl, if_neg (fun hc => hpre hc.2)]
        exact ho.became_quiet ⟨Trims.refl, rfl, rfl, rfl⟩

theorem checkQueue_spec {slot maxBufferCount : ℤ} {input : QueueBufferInput}
    {b : GraphicBuffer}
    (hc : inner.checkQueue slot maxBufferCount input = some (some (s, b))) :
    slotIndex slot = some s ∧ (inner.slots s).bufferState = .dequeued ∧
      (inner.slots s).graphicBuffer = some b := by
  rw [checkQueue] at hc
  split at hc
  · cases hc
  obtain ⟨t, hslot, hc⟩ := Option.map_eq_some_iff.mp hc
  split at hc
  · cases hc
  case isFalse.isFalse hstate =>
    split at hc
    · cases hc
    split at hc
    · cases hc
    case h_2 hbuffer =>
      split at hc
      · cases hc
      obtain ⟨rfl, rfl⟩ := Prod.mk.inj (Option.some.inj hc)
      exact ⟨hslot, not_not.mp hstate, hbuffer⟩

theorem pushItem_spec {marked : BufferQueueCoreInner} {item : BufferItem}
    (hc : Coherent marked.slots (marked.queue ++ [item])) :
    Coherent (marked.pushItem item).slots (marked.pushItem item).queue ∧
      Keeps marked.slots (marked.pushItem item).slots ∧
      (marked.pushItem item).isAbandoned = marked.isAbandoned := by
  rw [pushItem]
  split
  case h_1 hq =>
    rw [hq] at hc
    exact ⟨hc, Keeps.refl, rfl⟩
  case h_2 front rest hq =>
    rw [hq] at hc
    split
    · have hc' : Coherent marked.slots (front :: item :: rest) :=
        hc.perm (List.Perm.cons front (List.perm_append_singleton item rest))
      have hdrop := hc'.dropFront
        (x := { marked.slots front.slot with bufferState := .free, frameNumber := 0 }) nofun rfl
      have hkeeps := hc'.keeps_dropFront
        (x := { marked.slots front.slot with bufferState := .free, frameNumber := 0 })
      have hslots : (marked.dropFront front).slots = if stillTracking marked.slots front then
          Function.update marked.slots front.slot
            { marked.slots front.slot with bufferState := .free, frameNumber := 0 }
          else marked.slots := by
        rw [BufferQueueCoreInner.dropFront]
        split <;> rfl
      refine ⟨?_, ?_, ?_⟩
      · show Coherent (marked.dropFront front).slots (item :: rest)
        rw [hslots]
        exact hdrop
      · show Keeps marked.slots (marked.dropFront front).slots
        rw [hslots]
        exact hkeeps
      · show (marked.dropFront front).isAbandoned = marked.isAbandoned
        rw [BufferQueueCoreInner.dropFront]
        split <;> rfl
    · exact ⟨hc, Keeps.refl, rfl⟩

theorem queueBuffer_settles (ho : Owned h sys) {slot : ℤ} {input : QueueBufferInput}
    {now : Int64} {r : BufferQueueCoreInner × Status × QueueBufferOutput}
    (hr : sys.inner.queueBuffer slot input now = some r) :
    Settles h (sys.became r.1 (onSuccess r.2.1
      (onSlot slot fun s => .queued s r.1.frameCounter sys.inner.replacedFrame))) := by
  rw [queueBuffer] at hr
  split at hr
  · cases hr
    exact ho.became_quiet Quiet.refl
  obtain ⟨maxBufferCount, -, hr⟩ := Option.bind_eq_some_iff.mp hr
  obtain ⟨checked, hcheck, rfl⟩ := Option.map_eq_some_iff.mp hr
  match checked, hcheck with
  | none, _ => exact ho.became_quiet Quiet.refl
  | some (s, b), hcheck =>
    obtain ⟨hslot, hstate, hbuffer⟩ := checkQueue_spec hcheck
    dsimp only
    rw [onSuccess, if_pos rfl, onSlot, hslot, Option.elim_some]
    refine ⟨?_, nofun⟩
    let frame := (sys.inner.frameCounter + 1) % 2 ^ 64
    let marked := { sys.inner with frameCounter := frame }.setSlot s
      (queuedSlot (sys.inner.slots s) frame input now)
    have hpush : Coherent marked.slots (marked.queue ++ [sys.inner.newItem s b frame input]) :=
      ho.coherent.push (sys.inner.newItem s b frame input)
        (queuedSlot (sys.inner.slots s) frame input now) hstate rfl hbuffer hbuffer rfl
    obtain ⟨hcoherent, hkeeps, habandoned⟩ := pushItem_spec hpush
    refine ho.exchange (e := .queued s (sys.inner.commitBuffer s b input now).frameCounter
      sys.inner.replacedFrame) hcoherent habandoned fun t => ?_
    rcases eq_or_ne t s with rfl | hne
    · right
      rw [show Event.settle h (.queued t _ _) t = .nobody from Function.update_self _ _ _]
      refine ⟨nofun, nofun, fun live a ha he => ?_⟩
      have hnone := (ho.allocating live a ha).2.1
      rw [he, hbuffer] at hnone
      cases hnone
    · left
      refine ⟨Function.update_of_ne hne _ _, fun hs => ?_⟩
      have hsame : marked.slots t = sys.inner.slots t := Function.update_of_ne hne _ _
      have hkept := hkeeps t (by rw [hsame]; exact hs)
      rwa [hsame] at hkept

/-- The producer or the consumer gives a slot back. -/
theorem Owned.giveBack (ho : Owned h sys)
    (slots : inner'.slots = Function.update sys.inner.slots s x)
    (queue : inner'.queue = sys.inner.queue)
    (abandoned : inner'.isAbandoned = sys.inner.isAbandoned)
    (old : (sys.inner.slots s).bufferState ≠ .queued) (free : x.bufferState = .free)
    (buffer : x.graphicBuffer = (sys.inner.slots s).graphicBuffer ∨ x.graphicBuffer = none)
    (settle : e.settle h = Function.update h s .nobody)
    (returned : sys.inner.isAbandoned = false → ∀ a ∈ sys.allocations, a.slot ≠ s) :
    Owned (e.settle h) { sys with inner := inner' } := by
  have hnobody : e.settle h s = .nobody := by
    rw [settle, Function.update_self]
  refine ho.move slots queue abandoned old (by rw [free]; nofun) (untracked_of_buffer ho old buffer)
    (fun t hne => ?_) (fun hc => ?_) (fun hc => ?_) (fun live a ha => .inl ⟨ha, returned live a ha⟩)
    ho.apart ho.clear
  · rw [settle, Function.update_of_ne hne]
  · exact absurd (hnobody.symm.trans hc) nofun
  · exact absurd (hnobody.symm.trans hc) nofun

theorem allocating_false (hs : sys.allocating s = false) : ∀ a ∈ sys.allocations, a.slot ≠ s := by
  intro a ha he
  rw [BufferQueue.allocating, List.any_eq_false] at hs
  exact hs a ha (beq_iff_eq.mpr he)

theorem cancelBuffer_settles (ho : Owned h sys) {slot : ℤ} {fence : Fence}
    (orderly : sys.orderly (.cancelBuffer slot fence) = true) :
    Settles h (sys.became (sys.inner.cancelBuffer slot fence)
      (if sys.inner.isAbandoned then .other else onSlot slot .cancelled)) := by
  rw [cancelBuffer]
  split
  · exact ho.became_quiet Quiet.refl
  case isFalse live =>
    rw [onSlot]
    cases hs : slotIndex slot with
    | none => exact ho.became_quiet Quiet.refl
    | some s =>
      rw [BufferQueue.orderly, hs, Option.all_some, Bool.or_eq_true_iff, Bool.and_eq_true,
        beq_iff_eq, Bool.not_eq_true'] at orderly
      obtain ⟨hstate, hfree⟩ := orderly.resolve_left live
      exact ⟨ho.giveBack rfl rfl rfl (by rw [hstate]; nofun) rfl (.inl rfl) rfl
        (fun _ => allocating_false hfree), nofun⟩

theorem detachBuffer_settles (ho : Owned h sys) {slot : ℤ}
    (orderly : sys.orderly (.detachBuffer slot) = true) :
    Settles h (sys.became (sys.inner.detachBuffer slot).1
      (onSuccess (sys.inner.detachBuffer slot).2 (onSlot slot .detached))) := by
  rw [detachBuffer]
  split
  · exact ho.became_quiet Quiet.refl
  rw [onSlot]
  cases hs : slotIndex slot with
  | none => exact ho.became_quiet Quiet.refl
  | some s =>
    rw [BufferQueue.orderly, hs, Option.all_some, Bool.not_eq_true'] at orderly
    dsimp only
    split
    · exact ho.became_quiet Quiet.refl
    case isFalse hstate =>
      split
      · exact ho.became_quiet Quiet.refl
      exact ⟨ho.giveBack rfl rfl rfl (by rw [not_not.mp hstate]; nofun) rfl (.inr rfl) rfl
        (fun _ => allocating_false orderly), nofun⟩

theorem releaseBuffer_settles (ho : Owned h sys) (slot : ℤ) (frameNumber : ℕ) :
    Settles h (sys.became (sys.inner.releaseBuffer slot frameNumber).1
      (onSuccess (sys.inner.releaseBuffer slot frameNumber).2 (onSlot slot .released))) := by
  rw [releaseBuffer, onSlot]
  cases hs : slotIndex slot with
  | none => exact ho.became_quiet Quiet.refl
  | some s =>
    dsimp only
    split
    · exact ho.became_quiet Quiet.refl
    split
    · exact ho.became_quiet Quiet.refl
    split
    case isTrue hstate =>
      refine ⟨ho.giveBack rfl rfl rfl (by rw [hstate]; nofun) rfl (.inl rfl) rfl
        (fun live a ha he => ?_), nofun⟩
      have hd := (ho.allocating live a ha).1
      rw [he, hstate] at hd
      cases hd
    case isFalse =>
      split
      · exact ho.became_quiet (Quiet.setSlot rfl (.inl rfl))
      · exact ho.became_quiet Quiet.refl

theorem producerDisconnect_settles (ho : Owned h sys) {api : NativeWindowApi}
    (orderly : sys.orderly (.producerDisconnect api) = true)
    {r : BufferQueueCoreInner × Status} (hr : sys.inner.producerDisconnect api = some r) :
    Settles h (sys.became r.1 (if sys.inner.isAbandoned then .other
      else onSuccess r.2 (.reset (frames sys.inner.queue)))) := by
  rw [producerDisconnect] at hr
  split at hr
  · cases hr
  split at hr
  case isFalse.isTrue dead =>
    cases hr
    rw [if_pos dead]
    exact ho.became_quiet Quiet.refl
  case isFalse.isFalse live =>
    rw [if_neg live]
    split at hr
    · cases hr
      exact ho.became_quiet Quiet.refl
    split at hr
    · cases hr
      obtain ⟨hslots, -⟩ := freeAllBuffersLocked_spec { sys.inner with queue := [] }
      refine ⟨Owned.reset _ ?_ (fun _ => List.isEmpty_iff.mp orderly) ho.clear, nofun⟩
      exact Coherent.cleared (fun s => (hslots s).1) (fun s => (hslots s).2) _
    · cases hr
      exact ho.became_quiet Quiet.refl

theorem consumerDisconnect_settles (ho : Owned h sys) :
    Settles h (sys.became sys.inner.consumerDisconnect.1
      (onSuccess sys.inner.consumerDisconnect.2 (.reset (frames sys.inner.queue)))) := by
  rw [consumerDisconnect]
  split
  · exact ho.became_quiet Quiet.refl
  obtain ⟨hslots, -, habandoned, -⟩ := freeAllBuffersLocked_spec
    { sys.inner with isAbandoned := true, consumerListener := false, queue := [] }
  refine ⟨Owned.reset _ (Coherent.cleared (fun s => (hslots s).1) (fun s => (hslots s).2) _)
    (fun live => ?_) ho.clear, nofun⟩
  rw [habandoned] at live
  cases live

theorem outBuffer_slot (front : BufferItem) : (outBuffer front).slot = front.slot := by
  rw [outBuffer]
  split <;> rfl

theorem outBuffer_frameNumber (front : BufferItem) :
    (outBuffer front).frameNumber = front.frameNumber := by
  rw [outBuffer]
  split <;> rfl

theorem dropBefore_spec (ho : Owned h sys) (expectedPresentNs : Int64) :
    Coherent (sys.inner.dropBefore expectedPresentNs).slots
        (sys.inner.dropBefore expectedPresentNs).queue ∧
      Keeps sys.inner.slots (sys.inner.dropBefore expectedPresentNs).slots := by
  rw [dropBefore]
  split
  · exact dropOutdated_spec expectedPresentNs ho.coherent
  · exact ⟨ho.coherent, Keeps.refl⟩

theorem Owned.keep (ho : Owned h sys) (coherent : Coherent inner'.slots inner'.queue)
    (keeps : Keeps sys.inner.slots inner'.slots)
    (abandoned : inner'.isAbandoned = sys.inner.isAbandoned) :
    Owned h { sys with inner := inner' } :=
  ho.exchange (e := .other) coherent abandoned fun t => .inl ⟨rfl, keeps t⟩

theorem takeFront_settles (ho : Owned h sys) {front : BufferItem} {rest dropped : List BufferItem}
    (hq : sys.inner.queue = front::rest) :
    Settles h (sys.became (sys.inner.takeFront front rest) (.acquired front.slot front.frameNumber
      (stillTracking sys.inner.slots front) (frames dropped))) := by
  have hc : Coherent sys.inner.slots (front::rest) := hq ▸ ho.coherent
  have hdrop := hc.dropFront (x := acquiredSlot (sys.inner.slots front.slot)) nofun rfl
  rw [takeFront]
  cases htrack : stillTracking sys.inner.slots front with
  | false =>
    rw [htrack] at hdrop
    exact ⟨ho.keep hdrop Keeps.refl rfl, fun s hs => nomatch hs.2⟩
  | true =>
    rw [htrack] at hdrop
    have hqueued := hc.tracked front List.mem_cons_self htrack
    refine ⟨ho.exchange (e := .acquired front.slot front.frameNumber true (frames dropped)) hdrop
      rfl fun t => ?_, fun s hs => ?_⟩
    · rcases eq_or_ne t front.slot with rfl | hne
      · right
        rw [Event.settle, Function.update_self]
        refine ⟨nofun, fun _ => ?_, fun live a ha he => ?_⟩
        · show (Function.update sys.inner.slots front.slot _ front.slot).bufferState = _
          rw [Function.update_self]
          rfl
        · have hd := (ho.allocating live a ha).1
          rw [he, hqueued] at hd
          cases hd
      · exact .inl ⟨Function.update_of_ne hne _ _, Keeps.update hqueued t⟩
    · obtain rfl : front.slot = s := hs.1
      exact ho.unheld (.inr hqueued)

theorem acquireBuffer_settles (ho : Owned h sys) (expectedPresentNs : Int64) :
    Settles h (sys.became (sys.inner.acquireBuffer expectedPresentNs).1
      (acquireEvent (sys.inner.acquireBuffer expectedPresentNs).2)) := by
  rw [acquireBuffer]
  split
  · exact ho.became_quiet Quiet.refl
  obtain ⟨hcoherent, hkeeps⟩ := dropBefore_spec ho expectedPresentNs
  generalize sys.inner.dropBefore expectedPresentNs = r at hcoherent hkeeps
  dsimp only
  have hleft : Owned h { sys with inner := { sys.inner with slots := r.slots, queue := r.queue } } :=
    ho.keep hcoherent hkeeps rfl
  split
  case h_1 => exact ⟨hleft, nofun⟩
  case h_2 front rest hq =>
    split
    · exact ⟨hleft, nofun⟩
    · rw [acquireEvent, outBuffer_slot, outBuffer_frameNumber]
      exact takeFront_settles hleft hq

end Ruzu.Nvnflinger
