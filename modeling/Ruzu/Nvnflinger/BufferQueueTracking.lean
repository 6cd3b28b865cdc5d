import Ruzu.Nvnflinger.BufferQueue

/-!
# Queue items and the slots they track

The slots and the queue agree when an item tracks queued slots only and each
queued slot is tracked by one item. What the sections do to single slots, to
the front and to the end of the queue keeps this.
-/

set_option autoImplicit false

namespace Ruzu.Nvnflinger

def tracks (slots : Slots) (s : SlotIndex) (item : BufferItem) : Bool :=
  item.slot == s && stillTracking slots item

structure Coherent (slots : Slots) (queue : List BufferItem) : Prop where
  tracked : ∀ item ∈ queue, stillTracking slots item = true →
    (slots item.slot).bufferState = .queued
  queued : ∀ s, (slots s).bufferState = .queued → queue.countP (tracks slots s) = 1

variable {slots slots' : Slots} {queue rest : List BufferItem} {item front : BufferItem}
variable {s : SlotIndex} {x : BufferSlot}

theorem stillTracking_congr
    (h : (slots' item.slot).graphicBuffer = (slots item.slot).graphicBuffer) :
    stillTracking slots' item = stillTracking slots item := by
  rw [stillTracking, stillTracking, h]

theorem stillTracking_none (h : (slots item.slot).graphicBuffer = none) :
    stillTracking slots item = false := by
  rw [stillTracking, h]

theorem stillTracking_self {b : GraphicBuffer} (hi : item.graphicBuffer = some b)
    (hs : (slots item.slot).graphicBuffer = some b) : stillTracking slots item = true := by
  rw [stillTracking, hi, hs]
  exact beq_self_eq_true b.arc

/-- A buffer that no item holds is tracked by none. -/
theorem stillTracking_unheld {b : GraphicBuffer} (hs : (slots item.slot).graphicBuffer = some b)
    (hi : BufferQueueCoreInner.bufferArc item.graphicBuffer b.arc = false) :
    stillTracking slots item = false := by
  rw [stillTracking, hs]
  cases hg : item.graphicBuffer with
  | none => rfl
  | some c =>
    rw [hg] at hi
    simp only [BufferQueueCoreInner.bufferArc, Option.any_some, beq_eq_false_iff_ne] at hi
    exact beq_eq_false_iff_ne.mpr (Ne.symm hi)

theorem tracks_other {t : SlotIndex} (h : item.slot ≠ t) : tracks slots t item = false := by
  simp [tracks, h]

theorem Coherent.congr (h : Coherent slots queue)
    (states : ∀ s, (slots' s).bufferState = .queued ↔ (slots s).bufferState = .queued)
    (buffers : ∀ s, (slots s).bufferState = .queued →
      (slots' s).graphicBuffer = (slots s).graphicBuffer)
    (others : ∀ item ∈ queue, (slots item.slot).bufferState ≠ .queued →
      stillTracking slots' item = false) : Coherent slots' queue where
  tracked item hi ht := by
    by_contra hs
    rw [others item hi (fun hq => hs ((states _).mpr hq))] at ht
    cases ht
  queued s hs := by
    have hq := (states s).mp hs
    rw [← h.queued s hq]
    refine List.countP_congr fun item _ => ?_
    by_cases he : item.slot = s
    · rw [tracks, tracks, stillTracking_congr (he ▸ buffers s hq)]
    · rw [tracks_other he, tracks_other he]

theorem Coherent.update (h : Coherent slots queue) (old : (slots s).bufferState ≠ .queued)
    (new : x.bufferState ≠ .queued)
    (apart : ∀ item ∈ queue, item.slot = s →
      stillTracking (Function.update slots s x) item = false) :
    Coherent (Function.update slots s x) queue := by
  refine h.congr (fun t => ?_) (fun t ht => ?_) fun item hi hn => ?_
  · rcases eq_or_ne t s with rfl | hne
    · simp [old, new]
    · simp [hne]
  · have hne : t ≠ s := by
      rintro rfl
      exact old ht
    rw [Function.update_of_ne hne]
  · by_cases he : item.slot = s
    · exact apart item hi he
    · rw [stillTracking_congr (by rw [Function.update_of_ne he])]
      by_contra ht
      exact hn (h.tracked item hi (by simpa using ht))

theorem Coherent.perm (h : Coherent slots queue) {queue' : List BufferItem}
    (hp : queue.Perm queue') : Coherent slots queue' where
  tracked item hi := h.tracked item (hp.mem_iff.mpr hi)
  queued s hs := (hp.countP_eq _).symm.trans (h.queued s hs)

theorem Coherent.push (h : Coherent slots queue) (item : BufferItem) (x : BufferSlot)
    {b : GraphicBuffer}
    (old : (slots item.slot).bufferState = .dequeued) (new : x.bufferState = .queued)
    (held : (slots item.slot).graphicBuffer = some b) (kept : x.graphicBuffer = some b)
    (hi : item.graphicBuffer = some b) :
    Coherent (Function.update slots item.slot x) (queue ++ [item]) := by
  have same : ∀ i : BufferItem,
      stillTracking (Function.update slots item.slot x) i = stillTracking slots i := by
    intro i
    refine stillTracking_congr ?_
    by_cases he : i.slot = item.slot
    · rw [he, Function.update_self, kept, held]
    · rw [Function.update_of_ne he]
  have itself : stillTracking slots item = true := stillTracking_self hi held
  have apart : ∀ i ∈ queue, tracks slots item.slot i = false := by
    intro i hm
    by_contra ht
    simp only [tracks, Bool.not_eq_false, Bool.and_eq_true, beq_iff_eq] at ht
    have := h.tracked i hm ht.2
    rw [ht.1, old] at this
    cases this
  constructor
  · intro i hm ht
    rw [same] at ht
    rcases List.mem_append.mp hm with hm | hm
    · by_cases he : i.slot = item.slot
      · rw [he, Function.update_self, new]
      · rw [Function.update_of_ne he]
        exact h.tracked i hm ht
    · rw [List.mem_singleton.mp hm, Function.update_self, new]
  · intro t ht
    have hcount : (queue ++ [item]).countP (tracks (Function.update slots item.slot x) t) =
        queue.countP (tracks slots t) + if item.slot = t then 1 else 0 := by
      rw [List.countP_append, List.countP_singleton]
      congr 1
      · exact List.countP_congr fun i _ => by rw [tracks, tracks, same]
      · simp [tracks, same, itself]
    rw [hcount]
    by_cases he : item.slot = t
    · subst he
      rw [List.countP_eq_zero.mpr fun i hm => by simp [apart i hm], if_pos rfl]
    · rw [if_neg he, Nat.add_zero]
      rw [Function.update_of_ne (Ne.symm he)] at ht
      exact h.queued t ht

/-- The front leaves the queue; the slot it tracks leaves the state queued. -/
theorem Coherent.dropFront (h : Coherent slots (front::rest)) (new : x.bufferState ≠ .queued)
    (kept : x.graphicBuffer = (slots front.slot).graphicBuffer) :
    Coherent (if stillTracking slots front then Function.update slots front.slot x else slots)
      rest := by
  by_cases ht : stillTracking slots front = true
  · rw [if_pos ht]
    have hq := h.tracked front List.mem_cons_self ht
    have hzero : rest.countP (tracks slots front.slot) = 0 := by
      have hone := h.queued front.slot hq
      rw [List.countP_cons_of_pos (by simp [tracks, ht])] at hone
      omega
    have same : ∀ i : BufferItem,
        stillTracking (Function.update slots front.slot x) i = stillTracking slots i := by
      intro i
      refine stillTracking_congr ?_
      by_cases he : i.slot = front.slot
      · rw [he, Function.update_self, kept]
      · rw [Function.update_of_ne he]
    constructor
    · intro i hm hi
      rw [same] at hi
      have hne : i.slot ≠ front.slot := fun he =>
        List.countP_eq_zero.mp hzero i hm (by simp [tracks, he, hi])
      rw [Function.update_of_ne hne]
      exact h.tracked i (List.mem_cons_of_mem _ hm) hi
    · intro t hs
      have hne : t ≠ front.slot := by
        rintro rfl
        rw [Function.update_self] at hs
        exact new hs
      rw [Function.update_of_ne hne] at hs
      rw [List.countP_congr (q := tracks slots t) fun i _ => by rw [tracks, tracks, same],
        ← h.queued t hs, List.countP_cons_of_neg (by simp [tracks, Ne.symm hne])]
  · rw [if_neg ht]
    refine ⟨fun i hm => h.tracked i (List.mem_cons_of_mem _ hm), fun t hs => ?_⟩
    rw [← h.queued t hs, List.countP_cons_of_neg (by simp [tracks, ht])]

theorem Coherent.cleared (free : ∀ s, (slots s).bufferState = .free)
    (empty : ∀ s, (slots s).graphicBuffer = none) (queue : List BufferItem) :
    Coherent slots queue where
  tracked item _ ht := by
    rw [stillTracking_none (empty item.slot)] at ht
    cases ht
  queued s hs := by
    rw [free s] at hs
    cases hs

theorem Coherent.empty (free : ∀ s, (slots s).bufferState = .free) : Coherent slots [] where
  tracked item hi := absurd hi List.not_mem_nil
  queued s hs := by
    rw [free s] at hs
    cases hs

/-- Slots outside the queue keep their state when outdated fronts are dropped. -/
def Keeps (slots slots' : Slots) : Prop :=
  ∀ s, (slots s).bufferState = .dequeued ∨ (slots s).bufferState = .acquired →
    (slots' s).bufferState = (slots s).bufferState ∧
      (slots' s).graphicBuffer = (slots s).graphicBuffer

theorem Keeps.refl : Keeps slots slots := fun _ _ => ⟨rfl, rfl⟩

theorem Keeps.trans {slots'' : Slots} (h : Keeps slots slots') (h' : Keeps slots' slots'') :
    Keeps slots slots'' := by
  intro s hs
  obtain ⟨hstate, hbuffer⟩ := h s hs
  obtain ⟨hstate', hbuffer'⟩ := h' s (hstate ▸ hs)
  exact ⟨hstate'.trans hstate, hbuffer'.trans hbuffer⟩

theorem Keeps.update (hs : (slots s).bufferState = .queued) :
    Keeps slots (Function.update slots s x) := by
  intro t ht
  have hne : t ≠ s := by
    rintro rfl
    rw [hs] at ht
    simp at ht
  rw [Function.update_of_ne hne]
  exact ⟨rfl, rfl⟩

theorem Coherent.keeps_dropFront (h : Coherent slots (front::rest)) :
    Keeps slots (if stillTracking slots front then Function.update slots front.slot x
      else slots) := by
  split
  case isTrue ht => exact Keeps.update (h.tracked front List.mem_cons_self ht)
  case isFalse => exact Keeps.refl

theorem dropOutdated_spec (expectedPresentNs : Int64) (h : Coherent slots queue) :
    Coherent (dropOutdated expectedPresentNs slots queue).slots
        (dropOutdated expectedPresentNs slots queue).queue ∧
      Keeps slots (dropOutdated expectedPresentNs slots queue).slots := by
  induction queue generalizing slots with
  | nil => exact ⟨h, Keeps.refl⟩
  | cons front rest ih =>
    cases rest with
    | nil => exact ⟨h, Keeps.refl⟩
    | cons next rest =>
      rw [dropOutdated]
      split
      · exact ⟨h, Keeps.refl⟩
      split
      · exact ⟨h, Keeps.refl⟩
      -- the front is outdated: its slot, if it tracks one, becomes free
      have hdrop := h.dropFront (x := { slots front.slot with bufferState := .free }) nofun rfl
      obtain ⟨hcoherent, hkeeps⟩ := ih hdrop
      exact ⟨hcoherent, h.keeps_dropFront.trans hkeeps⟩

/-- Slots keep their states; a free slot may lose its buffer. -/
def Trims (slots slots' : Slots) : Prop :=
  ∀ s, (slots' s).bufferState = (slots s).bufferState ∧
    ((slots' s).graphicBuffer = (slots s).graphicBuffer ∨
      (slots s).bufferState = .free ∧ (slots' s).graphicBuffer = none)

theorem Trims.refl : Trims slots slots := fun _ => ⟨rfl, .inl rfl⟩

theorem Trims.trans {slots'' : Slots} (h : Trims slots slots') (h' : Trims slots' slots'') :
    Trims slots slots'' := by
  intro s
  obtain ⟨hstate, hbuffer⟩ := h s
  obtain ⟨hstate', hbuffer'⟩ := h' s
  refine ⟨hstate'.trans hstate, ?_⟩
  rw [hstate] at hbuffer'
  rcases hbuffer' with hbuffer' | ⟨hfree, hnone⟩
  · rw [hbuffer']
    exact hbuffer
  · exact .inr ⟨hfree, hnone⟩

theorem Trims.update (state : x.bufferState = (slots s).bufferState)
    (buffer : x.graphicBuffer = (slots s).graphicBuffer ∨
      (slots s).bufferState = .free ∧ x.graphicBuffer = none) :
    Trims slots (Function.update slots s x) := by
  intro t
  rcases eq_or_ne t s with rfl | hne
  · rw [Function.update_self]
    exact ⟨state, buffer⟩
  · rw [Function.update_of_ne hne]
    exact ⟨rfl, .inl rfl⟩

theorem Trims.keeps (h : Trims slots slots') : Keeps slots slots' := by
  intro s hs
  obtain ⟨hstate, hbuffer | ⟨hfree, -⟩⟩ := h s
  · exact ⟨hstate, hbuffer⟩
  · rw [hfree] at hs
    simp at hs

theorem Coherent.trims (h : Coherent slots queue) (ht : Trims slots slots') :
    Coherent slots' queue := by
  refine h.congr (fun s => by rw [(ht s).1]) (fun s hs => ?_) fun item hi hs => ?_
  · rcases (ht s).2 with hbuffer | ⟨hfree, -⟩
    · exact hbuffer
    · rw [hfree] at hs
      cases hs
  · rcases (ht item.slot).2 with hbuffer | ⟨-, hnone⟩
    · rw [stillTracking_congr hbuffer]
      by_contra htrack
      exact hs (h.tracked item hi (by simpa using htrack))
    · exact stillTracking_none hnone

end Ruzu.Nvnflinger
