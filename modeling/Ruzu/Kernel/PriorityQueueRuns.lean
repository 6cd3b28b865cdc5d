import Ruzu.Kernel.PriorityQueueCalls

/-!
# Runs of the priority queue

In a run of calls that say what the queue knows, every list shows the members
whose properties place them there. A call about one member leaves the lists of
all other threads as they were, in the same order, as long as it stays inside
the arrays.
-/

set_option autoImplicit false

namespace Ruzu.PriorityQueue

open DoublyLinked

/-! ### Properties and places -/

/-- What the queue holds about a member: accepted values, and an active core of the mask. -/
structure Proper (props : ThreadProps) : Prop where
  priority : IsValidPriority props.priority
  inRange : InRange props.activeCore props.affinity
  active : ∀ c : Fin numCores, props.activeCore = (c : ℕ) → props.affinity.getLsbD c = true

namespace KPriorityQueue

variable {s s₁ s' : KPriorityQueue} {mem : Membership} {b : Bool} {p : Fin numPriority}
  {c : Fin numCores} {id t : ℕ}

theorem placed_iff {props : ThreadProps} (h : Proper props) :
    placed props b p c ↔
      props.priority = (p : ℕ) ∧ (b, c) ∈ places props.activeCore props.affinity := by
  rw [placed, mem_places]
  by_cases hc : props.activeCore = (c : ℕ)
  · cases b <;> simp [hc, h.active c hc]
  · cases b <;> simp [hc]

/-- The lists that the known properties say. -/
def memOf (s : KPriorityQueue) : Membership := fun b p c t =>
  ∃ props, Knows s t props ∧ placed props b p c

theorem memOf_of_knows {props : ThreadProps} (h : Knows s id props) :
    memOf s b p c id ↔ placed props b p c := by
  constructor
  · rintro ⟨props', hprops', hplaced⟩
    obtain rfl := Option.some.inj (h.symm.trans hprops')
    exact hplaced
  · exact fun hplaced => ⟨props, h, hplaced⟩

theorem not_memOf (h : s.getThreadProps id = none) : ¬memOf s b p c id := by
  rintro ⟨props, hprops, -⟩
  exact Option.some_ne_none _ (hprops.symm.trans h)

theorem SameProps.memOf (h : SameProps s s') : memOf s' b p c t ↔ memOf s b p c t := by
  simp only [KPriorityQueue.memOf, Knows, h t]

structure Inv (s : KPriorityQueue) : Prop where
  holds : s.Holds (memOf s)
  proper : ∀ id props, Knows s id props → Proper props

theorem memOf_agrees (s : KPriorityQueue) (id : ℕ) : s.Agrees (memOf s) id :=
  fun _ _ _ _ _ => Iff.rfl

/-! ### The lists of the others -/

/-- The state holds a relation that is the old one for every thread but the member, in the old
order. -/
structure Follows (s s₁ : KPriorityQueue) (id : ℕ) (mem : Membership) : Prop where
  holds : s₁.Holds mem
  steady : Steady s s₁ id
  props : ∀ t ≠ id, s₁.getThreadProps t = s.getThreadProps t
  others : ∀ b p c, ∀ t ≠ id, mem b p c t ↔ memOf s b p c t

theorem Inv.follows (h : Inv s) (id : ℕ) : Follows s s id (memOf s) :=
  ⟨h.holds, .refl s id, fun _ _ => rfl, fun _ _ _ _ _ => Iff.rfl⟩

theorem Follows.agrees (h : Follows s s₁ id mem) : s₁.Agrees mem id := by
  intro t ht b p c
  rw [h.others b p c t ht, h.props t ht]
  rfl

theorem Follows.congr {mem' : Membership} (h : Follows s s₁ id mem)
    (hm : ∀ b p c t, mem' b p c t ↔ mem b p c t) : Follows s s₁ id mem' :=
  ⟨h.holds.congr hm, h.steady, h.props, fun b p c t ht => (hm b p c t).trans (h.others b p c t ht)⟩

/-- Every thread but the member is in the lists that it was in. -/
def Apart (s s' : KPriorityQueue) (id : ℕ) : Prop :=
  ∀ b p c, ∀ t ≠ id, s'.InQueue b p c t ↔ s.InQueue b p c t

theorem Follows.apart (h : Follows s s' id mem) (hinv : Inv s) : Apart s s' id :=
  fun b p c t ht => (h.holds.inQueue.trans (h.others b p c t ht)).trans hinv.holds.inQueue.symm

/-- The invariant holds again, with the others in their old order. -/
def Keeps (s s' : KPriorityQueue) (id : ℕ) : Prop := Inv s' ∧ Steady s s' id

theorem Inv.keeps (h : Inv s) (id : ℕ) : Keeps s s id := ⟨h, .refl s id⟩

/-- A relation that has the member in the lists of its properties restores the invariant. -/
theorem Follows.keeps (h : Follows s s' id mem) (hinv : Inv s)
    (hproper : ∀ props, Knows s' id props → Proper props)
    (hid : ∀ b p c, mem b p c id ↔ memOf s' b p c id) : Keeps s s' id := by
  refine ⟨⟨h.holds.congr fun b p c t => ?_, fun t props hprops => ?_⟩, h.steady⟩
  · by_cases ht : t = id
    · rw [ht]
      exact (hid b p c).symm
    · exact (h.agrees t ht b p c).symm
  · by_cases ht : t = id
    · exact hproper props (ht ▸ hprops)
    · exact hinv.proper t props ((h.props t ht).symm.trans hprops)

theorem Follows.same (h : Follows s s₁ id mem) (hsame : SameProps s₁ s')
    {mem' : Membership} (hsteady : Steady s₁ s' id) (hholds : s'.Holds mem')
    (hm : ∀ b p c, ∀ t ≠ id, mem' b p c t ↔ mem b p c t) : Follows s s' id mem' :=
  ⟨hholds, h.steady.trans hsteady h.holds, fun t ht => (hsame t).trans (h.props t ht),
    fun b p c t ht => (hm b p c t ht).trans (h.others b p c t ht)⟩

/-- One list of the member changes. -/
theorem Follows.step (h : Follows s s₁ id mem) {f : Bool → ℤ → QueueOp} {v : Bool}
    (hf : StepsTo f p id v) (hready : Ready mem b p c id v)
    (hslot : v = true → (s₁.getThreadProps id).isSome) :
    ∃ s₂, s₁.on b (f b (c : ℕ)) = some s₂ ∧ Follows s s₂ id (assign mem b p c id v) ∧
      SameProps s₁ s₂ := by
  obtain ⟨s₂, hrun, hsteady, hholds, hsame⟩ := hf s₁ mem b c h.holds h.agrees hready hslot
  exact ⟨s₂, hrun, h.same hsame hsteady hholds fun b' p' c' t ht => by
    rw [assign, if_neg fun hall => ht hall.1], hsame⟩

theorem Follows.leave (h : Follows s s₁ id mem) {f : Bool → ℤ → QueueOp} {priority : ℤ}
    (hf : Leaves f id priority) {pl : List (Bool × Fin numCores)}
    (hnodup : (pl.map Prod.snd).Nodup)
    (hid : ∀ b p c, mem b p c id → priority = (p : ℕ) ∧ (b, c) ∈ pl) :
    ∃ s₂, pl.foldlM (fun s x => s.on x.1 (f x.1 (x.2 : ℕ))) s₁ = some s₂ ∧
      Follows s s₂ id (without mem id) ∧ SameProps s₁ s₂ := by
  obtain ⟨s₂, hrun, hsteady, hholds, hsame⟩ := hf.run hnodup h.holds h.agrees hid
  exact ⟨s₂, hrun, h.same hsame hsteady hholds fun b' p' c' t ht => and_iff_right ht, hsame⟩

theorem Follows.join (h : Follows s s₁ id mem) {f : Bool → ℤ → QueueOp} {priority : ℤ}
    (hf : Joins f id priority) {pl : List (Bool × Fin numCores)}
    (hnodup : (pl.map Prod.snd).Nodup) (hid : ∀ b p c, ¬mem b p c id)
    (hslot : (s₁.getThreadProps id).isSome) :
    ∃ s₂, pl.foldlM (fun s x => s.on x.1 (f x.1 (x.2 : ℕ))) s₁ = some s₂ ∧
      Follows s s₂ id (joined mem id priority pl) ∧ SameProps s₁ s₂ := by
  obtain ⟨s₂, hrun, hsteady, hholds, hsame⟩ := hf.run hnodup h.holds h.agrees hid hslot
  exact ⟨s₂, hrun, h.same hsame hsteady hholds fun b' p' c' t ht => by rw [joined, if_neg ht], hsame⟩

/-! ### Slots -/

def withMembers (s : KPriorityQueue) (members : MemberMap) : KPriorityQueue :=
  { s with members := members }

theorem withMembers_root (members : MemberMap) :
    (s.withMembers members).root b p c = s.root b p c := by
  cases b <;> rfl

theorem withMembers_available (members : MemberMap) :
    (s.withMembers members).available b c = s.available b c := by
  cases b <;> rfl

/-- The slots of members in no list do not matter. -/
theorem Holds.withMembers (h : s.Holds mem) {members : MemberMap}
    (hentries : ∀ b p c t, mem b p c t → entryOf c members t = entryOf c s.members t) :
    (s.withMembers members).Holds mem := by
  intro b p c
  obtain ⟨l, hl, hbit, hmem⟩ := h b p c
  refine ⟨l, ?_, ?_, hmem⟩
  · rw [withMembers_root]
    exact hl.congr fun t ht => hentries b p c t ((hmem t).mp ht)
  · rw [withMembers_available, hbit]

theorem Holds.withMembers_steady (h : s.Holds mem) {members : MemberMap}
    (hentries : ∀ b p c t, mem b p c t → entryOf c members t = entryOf c s.members t) (id : ℕ) :
    Steady s (s.withMembers members) id := by
  intro b p c l l' hl hl'
  rw [withMembers_root] at hl'
  have hcongr := hl.congr fun t ht => hentries b p c t (h.inQueue.mp (hl.reaches_iff.mpr ht))
  rw [hl'.unique hcongr]

/-- Another slot for the member: its properties, or all of it when it is in no list. -/
theorem Follows.withMembers (h : Follows s s₁ id mem) {members : MemberMap}
    (hget : ∀ t ≠ id, members.get t = s₁.members.get t)
    (hentries : (∀ b p c, ¬mem b p c id) ∨
      ∀ c, entryOf c members id = entryOf c s₁.members id) :
    Follows s (s₁.withMembers members) id mem := by
  have hkept : ∀ b p c t, mem b p c t → entryOf c members t = entryOf c s₁.members t := by
    intro b p c t hm
    by_cases ht : t = id
    · subst ht
      exact hentries.elim (fun hno => absurd hm (hno b p c)) fun heq => heq c
    · rw [entryOf, entryOf, hget t ht]
  refine ⟨h.holds.withMembers hkept, h.steady.trans (h.holds.withMembers_steady hkept id) h.holds,
    fun t ht => ?_, h.others⟩
  · rw [← h.props t ht, getThreadProps, getThreadProps]
    exact congrArg _ (hget t ht)

/-- The properties of a known member are edited in place. -/
theorem Follows.edit (h : Follows s s₁ id mem) (f : ThreadProps → ThreadProps) :
    Follows s (s₁.withMembers (s₁.members.modify id fun slot =>
      { slot with props := f slot.props })) id mem := by
  refine h.withMembers (fun t ht => ?_) (.inr fun c => ?_)
  · rw [BTreeMap.get_modify, if_neg ht]
  · rw [entryOf, entryOf, BTreeMap.get_modify, if_pos rfl, Option.map_map]
    rfl

theorem edit_getThreadProps (f : ThreadProps → ThreadProps) :
    (s.withMembers (s.members.modify id fun slot =>
      { slot with props := f slot.props })).getThreadProps id =
        (s.getThreadProps id).map f := by
  rw [getThreadProps, withMembers, BTreeMap.get_modify, if_pos rfl, getThreadProps, Option.map_map,
    Option.map_map]
  rfl

/-- The member is in the lists of its new properties. -/
theorem Follows.known_keeps (h : Follows s s' id mem) (hinv : Inv s) {props : ThreadProps}
    (hknows : Knows s' id props) (hproper : Proper props)
    (hid : ∀ b p c, mem b p c id ↔
      props.priority = (p : ℕ) ∧ (b, c) ∈ places props.activeCore props.affinity) : Keeps s s' id := by
  refine h.keeps hinv (fun props' hprops' => ?_) fun b p c => ?_
  · obtain rfl := Option.some.inj (hknows.symm.trans hprops')
    exact hproper
  · rw [memOf_of_knows hknows, placed_iff hproper, hid]

/-! ### Leaving and entering all lists -/

variable {priority activeCore : ℤ} {affinity : BitVec 64} {props : ThreadProps}

theorem Follows.removeImpl (h : Follows s s₁ id mem) (hpriority : IsValidPriority priority)
    (hrange : InRange activeCore affinity) (hid : ∀ b p c, mem b p c id →
      priority = (p : ℕ) ∧ (b, c) ∈ places activeCore affinity) :
    ∃ s₂, s₁.removeImpl priority id activeCore affinity = some s₂ ∧
      Follows s s₂ id (without mem id) ∧ SameProps s₁ s₂ := by
  rw [KPriorityQueue.removeImpl,
    onQueues_eq (fun _ core => KPriorityQueueImpl.remove priority core id) hrange]
  exact h.leave (leaves_remove id hpriority) (nodup_places ..) hid

theorem Follows.pushBackImpl (h : Follows s s₁ id mem) (hpriority : IsValidPriority priority)
    (hrange : InRange activeCore affinity) (hid : ∀ b p c, ¬mem b p c id)
    (hslot : (s₁.getThreadProps id).isSome) :
    ∃ s₂, s₁.pushBackImpl priority id activeCore affinity = some s₂ ∧
      Follows s s₂ id (joined mem id priority (places activeCore affinity)) ∧
      SameProps s₁ s₂ := by
  rw [KPriorityQueue.pushBackImpl,
    onQueues_eq (fun _ core => KPriorityQueueImpl.pushBack priority core id) hrange]
  exact h.join (joins_pushBack id hpriority) (nodup_places ..) hid hslot

theorem Follows.pushFrontImpl (h : Follows s s₁ id mem) (hpriority : IsValidPriority priority)
    (hrange : InRange activeCore affinity) (hid : ∀ b p c, ¬mem b p c id)
    (hslot : (s₁.getThreadProps id).isSome) :
    ∃ s₂, s₁.pushFrontImpl priority id activeCore affinity = some s₂ ∧
      Follows s s₂ id (joined mem id priority (places activeCore affinity)) ∧
      SameProps s₁ s₂ := by
  have hrun := onQueues_eq (fun b core => if b then KPriorityQueueImpl.pushFront priority core id
    else KPriorityQueueImpl.pushBack priority core id) hrange s₁
  simp only [if_true, Bool.false_eq_true, if_false] at hrun
  rw [KPriorityQueue.pushFrontImpl, hrun]
  exact h.join (joins_pushFront id hpriority) (nodup_places ..) hid hslot

theorem Follows.setProps (h : Follows s s₁ id mem) (hid : ∀ b p c, ¬mem b p c id)
    (props : ThreadProps) :
    Follows s (s₁.setProps id props) id mem ∧ Knows (s₁.setProps id props) id props := by
  rw [KPriorityQueue.setProps]
  cases hget : s₁.members.get id with
  | none =>
    refine ⟨h.withMembers (fun t ht => ?_) (.inl hid), ?_⟩
    · rw [BTreeMap.get_insert, if_neg ht]
    · rw [Knows, getThreadProps, BTreeMap.get_insert, if_pos rfl]
      rfl
  | some slot =>
    have hknown : s₁.getThreadProps id = some slot.props := by rw [getThreadProps, hget, Option.map]
    refine ⟨h.edit fun _ => props, (edit_getThreadProps fun _ => props).trans ?_⟩
    rw [hknown, Option.map]

/-- A member in the lists of its properties leaves them, and one that is not known is in none. -/
theorem Inv.enter (h : Inv s) (id : ℕ) (props : ThreadProps) :
    ∃ s₁, s.enter id props = some s₁ ∧ Follows s s₁ id (without (memOf s) id) ∧
      Knows s₁ id props := by
  have hout : ∀ b p c, ¬without (memOf s) id b p c id := fun b p c hm => hm.1 rfl
  rw [KPriorityQueue.enter]
  cases hget : s.getThreadProps id with
  | none =>
    have hfollows : Follows s s id (without (memOf s) id) := (h.follows id).congr fun b p c t => by
      refine and_iff_right_of_imp fun hm => ?_
      rintro rfl
      exact not_memOf hget hm
    exact ⟨_, rfl, hfollows.setProps hout props⟩
  | some existing =>
    have hproper := h.proper id existing hget
    obtain ⟨s₁, hrun, hfollows, -⟩ := (h.follows id).removeImpl hproper.priority hproper.inRange
      fun b p c hm => (placed_iff hproper).mp ((memOf_of_knows hget).mp hm)
    simp only [hrun, Option.bind_eq_bind, Option.bind_some]
    exact ⟨_, rfl, hfollows.setProps hout props⟩

theorem joined_self (pl : List (Bool × Fin numCores)) :
    joined mem id priority pl b p c id ↔ priority = (p : ℕ) ∧ (b, c) ∈ pl := by
  rw [joined, if_pos rfl]

/-! ### The calls keep the invariant -/

variable {isDummy : Bool} {count : Option ℕ}

theorem Inv.pushBack (h : Inv s)
    (hok : (Operation.pushBack id priority activeCore affinity isDummy count).Accepted s)
    (hcaller : (Operation.pushBack id priority activeCore affinity isDummy count).Consistent s)
    (hrun : s.pushBack id priority activeCore affinity isDummy count = some s') : Keeps s s' id := by
  rw [KPriorityQueue.pushBack] at hrun
  split at hrun
  case isTrue => exact Option.some.inj hrun ▸ h.keeps id
  case isFalse hdummy =>
    obtain ⟨hpriority, hrange, -⟩ := hok.resolve_left hdummy
    obtain ⟨s₁, henter, hfollows, hknows⟩ :=
      h.enter id ⟨priority, activeCore, affinity, isDummy, 0, count⟩
    obtain ⟨s₂, hpush, hfollows₂, hsame⟩ := hfollows.pushBackImpl hpriority hrange
      (fun b p c hm => hm.1 rfl) (Option.isSome_of_mem hknows)
    rw [henter, Option.bind_eq_bind, Option.bind_some, hpush] at hrun
    obtain rfl := Option.some.inj hrun
    exact hfollows₂.known_keeps h ((hsame id).trans hknows)
      ⟨hpriority, hrange, hcaller.resolve_left hdummy⟩ fun b p c => joined_self _

theorem Inv.pushFront (h : Inv s)
    (hok : (Operation.pushFront id priority activeCore affinity isDummy count).Accepted s)
    (hcaller : (Operation.pushFront id priority activeCore affinity isDummy count).Consistent s)
    (hrun : s.pushFront id priority activeCore affinity isDummy count = some s') : Keeps s s' id := by
  rw [KPriorityQueue.pushFront] at hrun
  split at hrun
  case isTrue => exact Option.some.inj hrun ▸ h.keeps id
  case isFalse hdummy =>
    obtain ⟨hpriority, hrange, -⟩ := hok.resolve_left hdummy
    obtain ⟨s₁, henter, hfollows, hknows⟩ :=
      h.enter id ⟨priority, activeCore, affinity, isDummy, 0, count⟩
    obtain ⟨s₂, hpush, hfollows₂, hsame⟩ := hfollows.pushFrontImpl hpriority hrange
      (fun b p c hm => hm.1 rfl) (Option.isSome_of_mem hknows)
    rw [henter, Option.bind_eq_bind, Option.bind_some, hpush] at hrun
    obtain rfl := Option.some.inj hrun
    exact hfollows₂.known_keeps h ((hsame id).trans hknows)
      ⟨hpriority, hrange, hcaller.resolve_left hdummy⟩ fun b p c => joined_self _

theorem effective_of_knows (h : Knows s id props) (priority activeCore : ℤ)
    (affinity : BitVec 64) : s.effective id priority activeCore affinity =
      (props.priority, props.activeCore, props.affinity) := by
  rw [effective, show s.getThreadProps id = some props from h]

/-- A removal of all matches finds nothing of a member in no list. -/
theorem Follows.removeAllExpectedImpl (h : Follows s s₁ id mem) {order : List ℕ → List ℕ}
    (hpriority : IsValidPriority priority) (hrange : InRange activeCore affinity)
    (hid : ∀ b p c, ¬mem b p c id) {s₂ : KPriorityQueue}
    (hrun : s₁.removeAllExpectedImpl order priority id activeCore affinity = some s₂) :
    Follows s s₂ id mem ∧ SameProps s₁ s₂ := by
  have hsome := (removeAllExpectedImpl_isSome id order hpriority hrange s₁).mp
    (Option.isSome_of_mem hrun)
  rw [KPriorityQueue.removeAllExpectedImpl, onQueues_eq (fun b core =>
    KPriorityQueueImpl.removeAllMatching order priority core b id) hrange] at hrun
  rcases priority_cases hpriority with ⟨p, rfl⟩ | habove
  · obtain ⟨s₃, hrun₃, hfollows, hsame⟩ := h.leave
      (.inl ⟨p, rfl, stepsTo_removeAllMatching order p id⟩) (nodup_places activeCore affinity)
      fun b p c hm => absurd hm (hid b p c)
    obtain rfl := Option.some.inj (hrun₃.symm.trans hrun)
    refine ⟨hfollows.congr fun b p c t => ?_, hsame⟩
    refine (and_iff_right_of_imp fun hm => ?_).symm
    rintro rfl
    exact hid b p c hm
  · rw [(places_eq_nil hrange).mpr (hsome.resolve_left (not_le.mpr habove))] at hrun
    obtain rfl := Option.some.inj hrun
    exact ⟨h, fun _ => rfl⟩

/-- After a removal the member is in no list and not known. -/
theorem Inv.removed (h : Inv s) {order : List ℕ → List ℕ} (hdummy : ¬isDummy = true)
    (hok : (Operation.remove id priority activeCore affinity isDummy).Accepted s)
    (hrun : s.remove order id priority activeCore affinity isDummy = some s') :
    Follows s s' id (without (memOf s) id) ∧ s'.getThreadProps id = none := by
  rw [remove, if_neg hdummy] at hrun
  have hvalid := hok.resolve_left hdummy
  have hid : ∀ b p c, memOf s b p c id →
      (s.effective id priority activeCore affinity).1 = (p : ℕ) ∧
        (b, c) ∈ places (s.effective id priority activeCore affinity).2.1
          (s.effective id priority activeCore affinity).2.2 := by
    rintro b p c ⟨props, hknows, hplaced⟩
    rw [effective_of_knows hknows]
    exact (placed_iff (h.proper id props hknows)).mp hplaced
  generalize s.effective id priority activeCore affinity = e at hvalid hid hrun
  obtain ⟨priority, activeCore, affinity⟩ := e
  obtain ⟨s₁, hrun₁, hfollows₁, hsame₁⟩ :=
    (h.follows id).removeImpl hvalid.1 hvalid.2 hid
  have hout : ∀ b p c, ¬without (memOf s) id b p c id := fun b p c hm => hm.1 rfl
  simp only [hrun₁, Option.bind_eq_bind, Option.bind_some] at hrun
  obtain ⟨s₂, hrun₂, hend⟩ := Option.bind_eq_some_iff.mp hrun
  obtain ⟨hfollows₂, hsame₂⟩ := hfollows₁.removeAllExpectedImpl hvalid.1 hvalid.2 hout hrun₂
  obtain rfl := Option.some.inj hend
  refine ⟨hfollows₂.withMembers (fun t ht => ?_) (.inl hout), ?_⟩
  · rw [BTreeMap.get_remove, if_neg ht]
  · rw [getThreadProps, BTreeMap.get_remove, if_pos rfl]
    rfl

theorem Inv.remove (h : Inv s) {order : List ℕ → List ℕ}
    (hok : (Operation.remove id priority activeCore affinity isDummy).Accepted s)
    (hrun : s.remove order id priority activeCore affinity isDummy = some s') : Keeps s s' id := by
  by_cases hdummy : isDummy = true
  · rw [KPriorityQueue.remove, if_pos hdummy] at hrun
    exact Option.some.inj hrun ▸ h.keeps id
  · obtain ⟨hfollows, hnone⟩ := h.removed hdummy hok hrun
    refine hfollows.keeps h (fun props hknows => ?_) fun b p c => ?_
    · exact absurd (hknows.symm.trans hnone) (Option.some_ne_none _)
    · exact iff_of_false (fun hm => hm.1 rfl) (not_memOf hnone)

/-! ### Another priority -/

variable {prevPriority newPriority : ℤ} {isRunning : Bool}

theorem Inv.priorityChanged (h : Inv s) (hdummy : ¬isDummy = true) (hknows : Knows s id props)
    (hprev : IsValidPriority prevPriority) (hnew : IsValidPriority newPriority)
    (hmatch : ∀ b p c, memOf s b p c id → prevPriority = (p : ℕ))
    (hrun : s.changePriority prevPriority isRunning id newPriority activeCore affinity isDummy =
      some s') :
    Follows s s' id (joined (without (memOf s) id) id newPriority
        (places props.activeCore props.affinity)) ∧
      Knows s' id { props with priority := newPriority } := by
  have hproper := h.proper id props hknows
  rw [changePriority, if_neg hdummy, effective_of_knows hknows] at hrun
  obtain ⟨s₁, hrun₁, hfollows₁, hsame₁⟩ := (h.follows id).removeImpl hprev hproper.inRange
    fun b p c hm => ⟨hmatch b p c hm,
      ((placed_iff hproper).mp ((memOf_of_knows hknows).mp hm)).2⟩
  have hknows₁ : Knows s₁ id props := (hsame₁ id).trans hknows
  have hout : ∀ b p c, ¬without (memOf s) id b p c id := fun b p c hm => hm.1 rfl
  have hpush : ∃ s₂, (if isRunning = true then
        s₁.pushFrontImpl newPriority id props.activeCore props.affinity
      else s₁.pushBackImpl newPriority id props.activeCore props.affinity) = some s₂ ∧
      Follows s s₂ id (joined (without (memOf s) id) id newPriority
        (places props.activeCore props.affinity)) ∧ SameProps s₁ s₂ := by
    split
    case isTrue =>
      exact hfollows₁.pushFrontImpl hnew hproper.inRange hout (Option.isSome_of_mem hknows₁)
    case isFalse =>
      exact hfollows₁.pushBackImpl hnew hproper.inRange hout (Option.isSome_of_mem hknows₁)
  obtain ⟨s₂, hrun₂, hfollows₂, hsame₂⟩ := hpush
  let edit : ThreadProps → ThreadProps := fun props => { props with priority := newPriority }
  have hend : s' = s₂.withMembers (s₂.members.modify id fun slot =>
      { slot with props := edit slot.props }) := by
    cases isRunning with
    | false =>
      rw [if_neg Bool.false_ne_true] at hrun₂
      simp only [hrun₁, hrun₂, Bool.false_eq_true, if_false, Option.bind_eq_bind,
        Option.bind_some] at hrun
      exact (Option.some.inj hrun).symm
    | true =>
      rw [if_pos rfl] at hrun₂
      simp only [hrun₁, hrun₂, if_true, Option.bind_eq_bind, Option.bind_some] at hrun
      exact (Option.some.inj hrun).symm
  subst hend
  refine ⟨hfollows₂.edit edit, (edit_getThreadProps edit).trans ?_⟩
  rw [hsame₂ id, hknows₁]
  rfl

theorem Inv.changePriority (h : Inv s) (hok : (Operation.changePriority prevPriority isRunning id
      newPriority activeCore affinity isDummy).Accepted s)
    (hcaller : (Operation.changePriority prevPriority isRunning id newPriority activeCore affinity
      isDummy).Consistent s)
    (hrun : s.changePriority prevPriority isRunning id newPriority activeCore affinity isDummy =
      some s') : Keeps s s' id := by
  by_cases hdummy : isDummy = true
  · rw [KPriorityQueue.changePriority, if_pos hdummy] at hrun
    exact Option.some.inj hrun ▸ h.keeps id
  · obtain ⟨props, hknows, rfl⟩ := hcaller.resolve_left hdummy
    obtain ⟨hprev, hnew, -⟩ := hok.resolve_left hdummy
    have hproper := h.proper id props hknows
    obtain ⟨hfollows, hknows'⟩ := h.priorityChanged hdummy hknows hprev hnew
      (fun b p c hm => ((memOf_of_knows hknows).mp hm).1) hrun
    exact hfollows.known_keeps h hknows' ⟨hnew, hproper.inRange, hproper.active⟩
      fun b p c => joined_self _

/-! ### Another mask -/

variable {prevCore newCore : ℤ} {prevAffinity newAffinity : BitVec 64}

theorem Inv.changeAffinityMask (h : Inv s) (hok : (Operation.changeAffinityMask prevCore
      prevAffinity id newCore newAffinity priority isDummy).Accepted s)
    (hcaller : (Operation.changeAffinityMask prevCore prevAffinity id newCore newAffinity priority
      isDummy).Consistent s)
    (hrun : s.changeAffinityMask prevCore prevAffinity id newCore newAffinity priority isDummy =
      some s') : Keeps s s' id := by
  by_cases hdummy : isDummy = true
  · rw [KPriorityQueue.changeAffinityMask, if_pos hdummy] at hrun
    exact Option.some.inj hrun ▸ h.keeps id
  · obtain ⟨⟨props, hknows, rfl, rfl, rfl⟩, hrange, hactive⟩ := hcaller.resolve_left hdummy
    have hproper := h.proper id props hknows
    obtain ⟨s₁, hrun₁, hfollows₁, hsame₁⟩ := (h.follows id).leave
      (leaves_remove id hproper.priority) (nodup_corePlaces props.activeCore props.affinity)
      fun b p c hm => by
        rw [mem_corePlaces hproper.active]
        exact (placed_iff hproper).mp ((memOf_of_knows hknows).mp hm)
    have hknows₁ : Knows s₁ id props := (hsame₁ id).trans hknows
    obtain ⟨s₂, hrun₂, hfollows₂, hsame₂⟩ := hfollows₁.join
      (joins_pushBack id hproper.priority) (nodup_corePlaces newCore newAffinity)
      (fun b p c hm => hm.1 rfl) (Option.isSome_of_mem hknows₁)
    rw [KPriorityQueue.changeAffinityMask, if_neg hdummy, onCores_eq, hrun₁, Option.bind_eq_bind,
      Option.bind_some, onCores_eq, hrun₂] at hrun
    obtain rfl := Option.some.inj hrun
    let edit : ThreadProps → ThreadProps :=
      fun props => { props with activeCore := newCore, affinity := newAffinity }
    have hknows₂ : Knows (s₂.withMembers (s₂.members.modify id fun slot =>
        { slot with props := edit slot.props })) id (edit props) := by
      refine (edit_getThreadProps edit).trans ?_
      rw [hsame₂ id, hknows₁]
      rfl
    refine (hfollows₂.edit edit).known_keeps h hknows₂ ⟨hproper.priority, hrange, hactive⟩
      fun b p c => ?_
    rw [joined_self, mem_corePlaces hactive]

/-! ### Another core -/

/-- The relation with the member in no list of a core. -/
def offCore (mem : Membership) (id : ℕ) (core : ℤ) : Membership := fun b p c t =>
  mem b p c t ∧ ¬(t = id ∧ core = (c : ℕ))

/-- The relation with the member in one list of a core, that of its priority. -/
def onCore (mem : Membership) (id : ℕ) (core priority : ℤ) (side : Bool) : Membership :=
  fun b p c t => if t = id ∧ core = (c : ℕ) then b = side ∧ priority = (p : ℕ) else mem b p c t

theorem onCore_above (hpriority : priority > lowestPriority) {core : ℤ} {side : Bool}
    (hid : ∀ b p (c : Fin numCores), core = (c : ℕ) → ¬mem b p c id) (b : Bool) (p : Fin numPriority)
    (c : Fin numCores) (t : ℕ) : onCore mem id core priority side b p c t ↔ mem b p c t := by
  rw [onCore]
  split
  case isTrue hat =>
    obtain ⟨rfl, hc⟩ := hat
    exact iff_of_false (fun hboth => not_queued hpriority p hboth.2) (hid b p c hc)
  case isFalse => exact Iff.rfl

theorem onCore_neg {core : ℤ} (hcore : core < 0) {side : Bool} (b : Bool) (p : Fin numPriority)
    (c : Fin numCores) (t : ℕ) : onCore mem id core priority side b p c t ↔ mem b p c t := by
  rw [onCore, if_neg fun hat => by have := hat.2; omega]

theorem coe_priority {q : Fin numPriority} : ((p : ℕ) : ℤ) = (q : ℕ) ↔ q = p :=
  ⟨fun heq => Fin.ext (by exact_mod_cast heq.symm), fun heq => by rw [heq]⟩

theorem coe_core {d : Fin numCores} : ((c : ℕ) : ℤ) = (d : ℕ) ↔ d = c :=
  ⟨fun heq => Fin.ext (by exact_mod_cast heq.symm), fun heq => by rw [heq]⟩

theorem onCore_of_assign (hid : ∀ b p, ¬mem b p c id) {side : Bool} (b : Bool)
    (q : Fin numPriority) (d : Fin numCores) (t : ℕ) :
    onCore mem id (c : ℕ) (p : ℕ) side b q d t ↔ assign mem side p c id true b q d t := by
  rw [onCore, assign]
  split
  case isTrue hat =>
    obtain ⟨rfl, hd⟩ := hat
    obtain rfl := coe_core.1 hd
    rw [coe_priority]
    split
    case isTrue hall => exact iff_of_true ⟨hall.2.1, hall.2.2.1⟩ rfl
    case isFalse hnot =>
      exact iff_of_false (fun hboth => hnot ⟨rfl, hboth.1, hboth.2, rfl⟩) (hid b q)
  case isFalse hat => rw [if_neg fun hall => hat ⟨hall.1, coe_core.2 hall.2.2.2⟩]

theorem core_cases {core : ℤ} (h : core < numCores) :
    (∃ c : Fin numCores, core = (c : ℕ)) ∨ core < 0 := by
  rcases lt_or_ge core 0 with hneg | hge
  · exact .inr hneg
  · obtain ⟨c, hc⟩ := Option.isSome_iff_exists.mp (coreIndex_isSome ⟨hge, h⟩)
    exact .inl ⟨c, coreIndex_eq_some.mp hc⟩

/-- The member leaves the scheduled list of a core. -/
theorem Follows.leaveCore (h : Follows s s₁ id mem) {order : List ℕ → List ℕ}
    (hpriority : IsValidPriority priority) (hprev : prevCore < numCores)
    (hid : ∀ b p (c : Fin numCores), prevCore = (c : ℕ) → mem b p c id → priority = (p : ℕ) ∧ b = true)
    {s₂ : KPriorityQueue} (hrun : s₁.leaveCore order priority prevCore id = some s₂) :
    Follows s s₂ id (offCore mem id prevCore) ∧ SameProps s₁ s₂ := by
  have hsome := (leaveCore_isSome id order hpriority hprev s₁).mp (Option.isSome_of_mem hrun)
  rw [KPriorityQueue.leaveCore] at hrun
  rcases core_cases hprev with ⟨c, rfl⟩ | hneg
  · rw [if_pos (Int.natCast_nonneg _)] at hrun
    rcases priority_cases hpriority with ⟨p, rfl⟩ | habove
    · obtain ⟨s₃, hrun₃, hfollows, hsame⟩ := h.step (stepsTo_removeAllMatching order p id)
        (b := true) (c := c) (fun b' p' hm => by
          obtain ⟨hp, hb⟩ := hid b' p' c rfl hm
          exact ⟨rfl, hb, coe_priority.1 hp⟩) fun hv => Bool.noConfusion hv
      obtain rfl := Option.some.inj (hrun₃.symm.trans hrun)
      refine ⟨hfollows.congr fun b p' d t => ?_, hsame⟩
      rw [offCore, assign, coe_core]
      by_cases hat : t = id ∧ d = c
      · obtain ⟨rfl, rfl⟩ := hat
        by_cases hown : b = true ∧ p' = p
        · simp [hown]
        · rw [if_neg fun hall => hown ⟨hall.2.1, hall.2.2.1⟩]
          refine iff_of_false (fun hm => hm.2 ⟨rfl, rfl⟩) fun hm => hown ?_
          obtain ⟨hp, hb⟩ := hid b p' d rfl hm
          exact ⟨hb, coe_priority.1 hp⟩
      · rw [if_neg fun hall => hat ⟨hall.1, hall.2.2.2⟩]
        exact and_iff_left hat
    · have := hsome.resolve_left (not_le.mpr habove)
      omega
  · rw [if_neg (not_le.mpr hneg)] at hrun
    obtain rfl := Option.some.inj hrun
    refine ⟨h.congr fun b p c t => and_iff_left fun hat => ?_, fun _ => rfl⟩
    have := hat.2
    omega

/-- The member moves from the suggested to the scheduled list of a core. -/
theorem Follows.enterCore (h : Follows s s₁ id mem) (hpriority : IsValidPriority priority)
    (hnew : newCore < numCores) (toFront : Bool)
    (hid : ∀ b p (c : Fin numCores), newCore = (c : ℕ) → mem b p c id → priority = (p : ℕ) ∧ b = false)
    (hslot : (s₁.getThreadProps id).isSome) :
    ∃ s₂, s₁.enterCore priority newCore id toFront = some s₂ ∧
      Follows s s₂ id (onCore mem id newCore priority true) ∧ SameProps s₁ s₂ := by
  rw [KPriorityQueue.enterCore]
  rcases core_cases hnew with ⟨c, rfl⟩ | hneg
  · rw [if_pos (Int.natCast_nonneg _)]
    rcases priority_cases hpriority with ⟨p, rfl⟩ | habove
    · obtain ⟨s₂, hrun₂, hfollows₂, hsame₂⟩ := h.step (stepsTo_remove p id) (b := false) (c := c)
        (fun b' p' hm => by
          obtain ⟨hp, hb⟩ := hid b' p' c rfl hm
          exact ⟨rfl, hb, coe_priority.1 hp⟩) fun hv => Bool.noConfusion hv
      have hout : ∀ b' p', ¬assign mem false p c id false b' p' c id := by
        intro b' p' hm
        rw [assign] at hm
        split at hm
        case isTrue => exact Bool.false_ne_true hm
        case isFalse hnot =>
          obtain ⟨hp, hb⟩ := hid b' p' c rfl hm
          exact hnot ⟨rfl, hb, coe_priority.1 hp, rfl⟩
      have hpush : ∃ s₃, s₂.on true (if toFront = true then
            KPriorityQueueImpl.pushFront (p : ℕ) (c : ℕ) id
          else KPriorityQueueImpl.pushBack (p : ℕ) (c : ℕ) id) = some s₃ ∧
          Follows s s₃ id (assign (assign mem false p c id false) true p c id true) ∧
            SameProps s₂ s₃ := by
        have hslot₂ : (s₂.getThreadProps id).isSome := by rwa [hsame₂ id]
        cases toFront with
        | false =>
          rw [if_neg Bool.false_ne_true]
          exact hfollows₂.step (stepsTo_pushBack p id)
            (fun b' p' hm => absurd hm (hout b' p')) fun _ => hslot₂
        | true =>
          exact hfollows₂.step (stepsTo_pushFront p id) (b := true)
            (fun b' p' hm => absurd hm (hout b' p')) fun _ => hslot₂
      obtain ⟨s₃, hrun₃, hfollows₃, hsame₃⟩ := hpush
      refine ⟨s₃, ?_, hfollows₃.congr fun b q d t => ?_, hsame₂.trans hsame₃⟩
      · rw [hrun₂, Option.bind_eq_bind, Option.bind_some, hrun₃]
      · rw [← onCore_of_assign hout, onCore, onCore]
        split
        case isTrue => exact Iff.rfl
        case isFalse hat =>
          rw [assign, if_neg fun hall => hat ⟨hall.1, coe_core.2 hall.2.2.2⟩]
    · refine ⟨s₁, ?_, h.congr (onCore_above habove fun b p d hd hm =>
        not_queued habove p (hid b p d hd hm).1), fun _ => rfl⟩
      rw [on_unchanged (remove_above habove), Option.bind_eq_bind, Option.bind_some]
      cases toFront with
      | false => exact on_unchanged (pushBack_above habove)
      | true => exact on_unchanged (pushFront_above habove)
  · rw [if_neg (not_le.mpr hneg)]
    exact ⟨s₁, rfl, h.congr (onCore_neg hneg), fun _ => rfl⟩

/-- The member joins the suggested list of a core. -/
theorem Follows.suggestCore (h : Follows s s₁ id mem) (hpriority : IsValidPriority priority)
    (hprev : prevCore < numCores) (hid : ∀ b p (c : Fin numCores), prevCore = (c : ℕ) → ¬mem b p c id)
    (hslot : (s₁.getThreadProps id).isSome) :
    ∃ s₂, s₁.suggestCore priority prevCore id = some s₂ ∧
      Follows s s₂ id (onCore mem id prevCore priority false) ∧ SameProps s₁ s₂ := by
  rw [KPriorityQueue.suggestCore]
  rcases core_cases hprev with ⟨c, rfl⟩ | hneg
  · rw [if_pos (Int.natCast_nonneg _)]
    rcases priority_cases hpriority with ⟨p, rfl⟩ | habove
    · obtain ⟨s₂, hrun₂, hfollows₂, hsame₂⟩ := h.step (stepsTo_pushBack p id) (b := false) (c := c)
        (fun b' p' hm => absurd hm (hid b' p' c rfl)) fun _ => hslot
      exact ⟨s₂, hrun₂, hfollows₂.congr (onCore_of_assign fun b p => hid b p c rfl), hsame₂⟩
    · exact ⟨s₁, on_unchanged (pushBack_above habove), h.congr (onCore_above habove hid),
        fun _ => rfl⟩
  · rw [if_neg (not_le.mpr hneg)]
    exact ⟨s₁, rfl, h.congr (onCore_neg hneg), fun _ => rfl⟩

/-- A change of core, for a member that is in lists of its priority only and on the right side of
the two cores. -/
theorem Inv.coreChanged (h : Inv s) {order : List ℕ → List ℕ} {toFront : Bool}
    (hdummy : ¬isDummy = true) (hne : prevCore ≠ newCore) (hknows : Knows s id props)
    (hpriority : IsValidPriority priority) (hprev : prevCore < numCores)
    (hnew : newCore < numCores)
    (hid : ∀ b p (c : Fin numCores), memOf s b p c id → priority = (p : ℕ) ∧
      (prevCore = (c : ℕ) → b = true) ∧ (newCore = (c : ℕ) → b = false))
    (hrun : s.changeCore order prevCore id newCore priority isDummy toFront = some s') :
    Follows s s' id (onCore (onCore (offCore (memOf s) id prevCore) id newCore priority true) id
        prevCore priority false) ∧
      Knows s' id { props with activeCore := newCore } := by
  rw [changeCore, if_neg hdummy, if_neg hne] at hrun
  obtain ⟨s₁, hrun₁, hrest⟩ := Option.bind_eq_some_iff.mp hrun
  obtain ⟨hfollows₁, hsame₁⟩ := (h.follows id).leaveCore hpriority hprev
    (fun b p c hc hm => ⟨(hid b p c hm).1, (hid b p c hm).2.1 hc⟩) hrun₁
  have hknows₁ : Knows s₁ id props := (hsame₁ id).trans hknows
  obtain ⟨s₂, hrun₂, hfollows₂, hsame₂⟩ := hfollows₁.enterCore hpriority hnew toFront
    (fun b p c hc hm => ⟨(hid b p c hm.1).1, (hid b p c hm.1).2.2 hc⟩)
    (Option.isSome_of_mem hknows₁)
  have hknows₂ : Knows s₂ id props := (hsame₂ id).trans hknows₁
  obtain ⟨s₃, hrun₃, hfollows₃, hsame₃⟩ := hfollows₂.suggestCore hpriority hprev
    (fun b p c hc hm => by
      rw [onCore, if_neg fun hat => hne (hc.trans hat.2.symm)] at hm
      exact hm.2 ⟨rfl, hc⟩) (Option.isSome_of_mem hknows₂)
  simp only [hrun₂, hrun₃, Option.bind_eq_bind, Option.bind_some] at hrest
  obtain rfl := Option.some.inj hrest
  let edit : ThreadProps → ThreadProps := fun props => { props with activeCore := newCore }
  refine ⟨hfollows₃.edit edit, (edit_getThreadProps edit).trans ?_⟩
  rw [hsame₃ id, hknows₂]
  rfl

theorem Inv.changeCore (h : Inv s) {order : List ℕ → List ℕ} {toFront : Bool}
    (hok : (Operation.changeCore prevCore id newCore priority isDummy toFront).Accepted s)
    (hcaller : (Operation.changeCore prevCore id newCore priority isDummy toFront).Consistent s)
    (hrun : s.changeCore order prevCore id newCore priority isDummy toFront = some s') :
    Keeps s s' id := by
  by_cases hdummy : isDummy = true
  · rw [KPriorityQueue.changeCore, if_pos hdummy] at hrun
    exact Option.some.inj hrun ▸ h.keeps id
  by_cases hne : prevCore = newCore
  · rw [KPriorityQueue.changeCore, if_neg hdummy, if_pos hne] at hrun
    exact Option.some.inj hrun ▸ h.keeps id
  obtain ⟨hpriority, hprev, hnew⟩ := (hok.resolve_left hdummy).resolve_left hne
  obtain ⟨props, hknows, rfl, rfl, hactive⟩ := hcaller.resolve_left hdummy
  have hproper := h.proper id props hknows
  obtain ⟨hfollows, hknows'⟩ := h.coreChanged hdummy hne hknows hpriority hprev hnew
    (fun b p c hm => by
      have hplaced := (memOf_of_knows hknows).mp hm
      refine ⟨hplaced.1, hplaced.2.2.mp, fun hc => ?_⟩
      by_contra hb
      rw [Bool.not_eq_false] at hb
      exact hne ((hplaced.2.2.mpr hb).trans hc.symm)) hrun
  refine hfollows.keeps h (fun props' hknows₂ => ?_) fun b p c => ?_
  · obtain rfl := Option.some.inj (hknows'.symm.trans hknows₂)
    exact ⟨hproper.priority, ⟨hnew, hproper.inRange.2⟩, hactive⟩
  · rw [memOf_of_knows hknows', onCore, placed]
    by_cases hprevat : props.activeCore = (c : ℕ)
    · have hmask := hproper.active c hprevat
      have hnewat : newCore ≠ (c : ℕ) := fun heq => hne (hprevat.trans heq.symm)
      rw [if_pos ⟨rfl, hprevat⟩]
      cases b <;> simp [hmask, hnewat]
    · rw [if_neg fun hat => hprevat hat.2, onCore]
      by_cases hnewat : newCore = (c : ℕ)
      · rw [if_pos ⟨rfl, hnewat⟩]
        cases b <;> simp [hactive c hnewat, hnewat]
      · rw [if_neg fun hat => hnewat hat.2, offCore, memOf_of_knows hknows, placed]
        simp [hprevat, hnewat]

/-! ### Moves inside a list -/

/-- A list that shows the same members in another order. -/
theorem Holds.reorder (h : s.Holds mem) (hagrees : s.Agrees mem id)
    (honly : ∀ b' p', mem b' p' c id → b' = b ∧ p' = p) {l l' : List ℕ}
    (hl : ∀ t, t ∈ l ↔ mem b p c t) (hbit : (s.available b c).has p = !l.isEmpty)
    {q : KPerCoreQueue} {members : MemberMap}
    (hchange : Changes c id ((s.impl b).queues p) q s.members members l l')
    (hl' : ∀ t, t ∈ l' ↔ t ∈ l) :
    (s.commit b p c q members (s.available b c)).Holds mem ∧
      SameProps s (s.commit b p c q members (s.available b c)) := by
  have hempty : l'.isEmpty = l.isEmpty := by
    rw [Bool.eq_iff_iff, List.isEmpty_iff, List.isEmpty_iff, List.eq_nil_iff_forall_not_mem,
      List.eq_nil_iff_forall_not_mem]
    simp only [hl']
  have hassign : ∀ b' p' c' t, mem b' p' c' t ↔
      assign mem b p c id (decide (id ∈ l)) b' p' c' t := by
    intro b' p' c' t
    rw [assign]
    split
    case isTrue hat =>
      obtain ⟨rfl, rfl, rfl, rfl⟩ := hat
      rw [decide_eq_true_eq, hl]
    case isFalse => exact Iff.rfl
  have hcommit : (s.commit b p c q members (s.available b c)).Holds
      (assign mem b p c id (decide (id ∈ l))) ∧
        SameProps s (s.commit b p c q members (s.available b c)) :=
    h.commit hagrees honly hl hchange (fun t => by rw [hl', hl, hassign]) fun p' => by
      split
      case isTrue heq => rw [heq, hbit, hempty]
      case isFalse => rfl
  exact ⟨hcommit.1.congr hassign, hcommit.2⟩

/-- The member is in the scheduled list of its core, and no unknown member is in a list. -/
theorem Inv.effective_mem (h : Inv s) (hpriority : (s.effective id priority activeCore 0).1 = (p : ℕ))
    (hcore : (s.effective id priority activeCore 0).2.1 = (c : ℕ)) :
    (memOf s true p c id ↔ (s.members.get id).isSome) ∧
      ∀ b' p', memOf s b' p' c id → b' = true ∧ p' = p := by
  cases hget : s.getThreadProps id with
  | none =>
    rw [← getThreadProps_isSome, hget]
    exact ⟨iff_of_false (not_memOf hget) Bool.false_ne_true,
      fun b' p' hm => absurd hm (not_memOf hget)⟩
  | some props =>
    rw [effective_of_knows hget] at hpriority hcore
    have hplaced : placed props true p c :=
      ⟨hpriority, (h.proper id props hget).active c hcore, iff_of_true hcore rfl⟩
    rw [← getThreadProps_isSome, hget, memOf_of_knows hget]
    refine ⟨iff_of_true hplaced rfl, fun b' p' hm => ?_⟩
    obtain ⟨hb, hp⟩ := placed_unique ((memOf_of_knows hget).mp hm) hplaced
    exact ⟨hb, hp⟩

/-- The member goes to an end of its scheduled list. -/
theorem Inv.reinsert (h : Inv s)
    (push : KPerCoreQueue → MemberMap → KPerCoreQueue × MemberMap × Bool)
    (hpriority : (s.effective id priority activeCore 0).1 = (p : ℕ))
    (hcore : (s.effective id priority activeCore 0).2.1 = (c : ℕ))
    (hunknown : ∀ q members, members.get id = none → push q members = (q, members, false))
    (hpush : ∀ q members l, Shows (q.roots c) (entryOf c members) l → id ∉ l →
      (members.get id).isSome → ∃ l', Changes c id q (push q members).1 members (push q members).2.1
        l l' ∧ (∀ t, t ∈ l' ↔ t = id ∨ t ∈ l) ∧ l'.filter (fun t => t ≠ id) = l) :
    let r := ((s.impl true).queues p).remove c id s.members
    Keeps s (s.commit true p c (push r.1 r.2.1).1 (push r.1 r.2.1).2.1 (s.available true c)) id := by
  intro r
  obtain ⟨hslot, honly⟩ := h.effective_mem hpriority hcore
  obtain ⟨l, hl, hbit, hmem⟩ := h.holds true p c
  obtain ⟨l', hchange, hl', horder⟩ := KPerCoreQueue.reinsert_changes hl ((hmem id).trans hslot)
    hunknown hpush
  obtain ⟨hholds, hsame⟩ := h.holds.reorder (memOf_agrees s id) honly hmem hbit hchange hl'
  refine ⟨⟨hholds.congr fun b' p' c' t => ?_, fun t props hknows => ?_⟩,
    h.holds.commit_steady (memOf_agrees s id) honly hl hchange horder⟩
  · exact hsame.memOf
  · exact h.proper t props ((hsame t).symm.trans hknows)

theorem on_moveToFront (s : KPriorityQueue) (p : Fin numPriority) (c : Fin numCores) (id : ℕ) :
    s.on true (KPriorityQueueImpl.moveToFront (p : ℕ) (c : ℕ) id) =
      let r := ((s.impl true).queues p).remove c id s.members
      let r' := r.1.pushFront c id r.2.1
      some (s.commit true p c r'.1 r'.2.1 (s.available true c)) := by
  refine on_commit_keep ?_
  simp only [KPriorityQueueImpl.moveToFront, if_pos (not_lt.mp (not_above p)), priorityIndex_coe,
    coreIndex_coe, Option.bind_eq_bind, Option.bind_some]

theorem Inv.moveToScheduledFront (h : Inv s)
    (hok : (Operation.moveToScheduledFront id priority activeCore isDummy).Accepted s)
    (hrun : s.moveToScheduledFront id priority activeCore isDummy = some s') : Keeps s s' id := by
  rw [KPriorityQueue.moveToScheduledFront] at hrun
  split at hrun
  case isTrue => exact Option.some.inj hrun ▸ h.keeps id
  case isFalse hdummy =>
    obtain ⟨hpriority, hcore⟩ := hok.resolve_left hdummy
    obtain ⟨c, hc⟩ := Option.isSome_iff_exists.mp (coreIndex_isSome hcore)
    have hcore' := coreIndex_eq_some.mp hc
    rcases priority_cases hpriority with ⟨p, hp⟩ | habove
    · dsimp only at hrun
      rw [hp, hcore', on_moveToFront] at hrun
      obtain rfl := Option.some.inj hrun
      exact h.reinsert (fun q members => q.pushFront c id members) hp hcore'
        (fun q members => KPerCoreQueue.pushFront_unknown) fun q members l hl hid hget =>
          ⟨_, (KPerCoreQueue.pushFront_changes hl hid hget).1, fun t => List.mem_cons,
            by simpa using fun t (ht : t ∈ l) (heq : t = id) => hid (heq ▸ ht)⟩
    · have hstay : s.on true (KPriorityQueueImpl.moveToFront
          (s.effective id priority activeCore 0).1 (s.effective id priority activeCore 0).2.1 id) =
            some s := on_unchanged fun _ _ => if_neg (not_le.mpr habove)
      exact Option.some.inj (hstay.symm.trans hrun) ▸ h.keeps id

theorem moveToScheduledBack_queue (hdummy : ¬isDummy = true) :
    (s.moveToScheduledBack id priority activeCore isDummy).map Prod.fst =
      s.on true fun impl members => (KPriorityQueueImpl.moveToBack
        (s.effective id priority activeCore 0).1 (s.effective id priority activeCore 0).2.1 id impl
          members).map Prod.fst := by
  rw [KPriorityQueue.moveToScheduledBack, if_neg hdummy, on]
  generalize s.effective id priority activeCore 0 = e
  obtain ⟨priority, activeCore, affinity⟩ := e
  simp only [impl, if_true]
  cases KPriorityQueueImpl.moveToBack priority activeCore id s.scheduledQueue s.members with
  | none => rfl
  | some r => rfl

theorem on_moveToBack (s : KPriorityQueue) (p : Fin numPriority) (c : Fin numCores) (id : ℕ) :
    (s.on true fun impl members =>
        (KPriorityQueueImpl.moveToBack (p : ℕ) (c : ℕ) id impl members).map Prod.fst) =
      let r := ((s.impl true).queues p).remove c id s.members
      let r' := r.1.pushBack c id r.2.1
      some (s.commit true p c r'.1 r'.2.1 (s.available true c)) := by
  refine on_commit_keep ?_
  simp only [KPriorityQueueImpl.moveToBack, if_pos (not_lt.mp (not_above p)), priorityIndex_coe,
    coreIndex_coe, Option.bind_eq_bind, Option.bind_some, Option.map_some]

theorem Inv.moveToScheduledBack (h : Inv s)
    (hok : (Operation.moveToScheduledBack id priority activeCore isDummy).Accepted s)
    (hrun : (s.moveToScheduledBack id priority activeCore isDummy).map Prod.fst = some s') :
    Keeps s s' id := by
  by_cases hdummy : isDummy = true
  · rw [KPriorityQueue.moveToScheduledBack, if_pos hdummy] at hrun
    exact Option.some.inj hrun ▸ h.keeps id
  obtain ⟨hpriority, hcore⟩ := hok.resolve_left hdummy
  obtain ⟨c, hc⟩ := Option.isSome_iff_exists.mp (coreIndex_isSome hcore)
  have hcore' := coreIndex_eq_some.mp hc
  rw [moveToScheduledBack_queue hdummy] at hrun
  rcases priority_cases hpriority with ⟨p, hp⟩ | habove
  · rw [hp, hcore', on_moveToBack] at hrun
    obtain rfl := Option.some.inj hrun
    exact h.reinsert (fun q members => q.pushBack c id members) hp hcore'
      (fun q members => KPerCoreQueue.pushBack_unknown) fun q members l hl hid hget =>
        ⟨_, (KPerCoreQueue.pushBack_changes hl hid hget).1, fun t => by simp [or_comm],
          by simpa using fun t (ht : t ∈ l) (heq : t = id) => hid (heq ▸ ht)⟩
  · have hstay : (s.on true fun impl members => (KPriorityQueueImpl.moveToBack
        (s.effective id priority activeCore 0).1 (s.effective id priority activeCore 0).2.1 id impl
          members).map Prod.fst) = some s := on_unchanged fun impl members => by
        rw [KPriorityQueueImpl.moveToBack, if_neg (not_le.mpr habove), Option.map]
    exact Option.some.inj (hstay.symm.trans hrun) ▸ h.keeps id

theorem Inv.setLastScheduledTick (h : Inv s) (id : ℕ) (tick : ℤ) :
    Keeps s (s.setLastScheduledTick id tick) id := by
  let edit : ThreadProps → ThreadProps := fun props => { props with lastScheduledTick := tick }
  have hfollows := (h.follows id).edit edit
  have hedit : (s.setLastScheduledTick id tick).getThreadProps id =
      (s.getThreadProps id).map edit := edit_getThreadProps edit
  refine hfollows.keeps h (fun props hknows => ?_) fun b p c => ?_
  · obtain ⟨old, hold, rfl⟩ := Option.map_eq_some_iff.mp (hedit.symm.trans hknows)
    have hproper := h.proper id old hold
    exact ⟨hproper.priority, hproper.inRange, hproper.active⟩
  · cases hget : s.getThreadProps id with
    | none =>
      rw [hget] at hedit
      exact iff_of_false (not_memOf hget) (not_memOf hedit)
    | some props =>
      rw [hget] at hedit
      exact (memOf_of_knows hget).trans (memOf_of_knows hedit).symm

end KPriorityQueue

/-! ### Runs -/

open KPriorityQueue

theorem same_of_query {α : Type} {s s' : KPriorityQueue} {answer : Option α}
    (h : (answer.map fun _ => s) = some s') : s = s' := by
  obtain ⟨_, -, heq⟩ := Option.map_eq_some_iff.mp h
  exact heq

/-- The thread that a call is about; a query is about none. -/
def Operation.member : Operation → Option ℕ
  | .pushBack id .. | .pushFront id .. | .remove id .. | .moveToScheduledFront id ..
  | .moveToScheduledBack id .. | .setLastScheduledTick id .. | .changePriority _ _ id ..
  | .changeAffinityMask _ _ id .. | .changeCore _ id .. => some id
  | .getFront .. | .getFrontAtPriority .. | .getNext .. | .getSamePriorityNext .. => none

/-- A call that says what the queue knows keeps the invariant and the order of all threads that it is
not about, when it stays inside the arrays. -/
theorem Operation.apply_keeps {order : List ℕ → List ℕ} {op : Operation} {s s' : KPriorityQueue}
    (h : Inv s) (hok : op.Accepted s) (hcaller : op.Consistent s)
    (hrun : op.apply order s = some s') :
    (op.member = none ∧ s = s') ∨ ∃ id, op.member = some id ∧ Keeps s s' id := by
  cases op with
  | pushBack => exact .inr ⟨_, rfl, h.pushBack hok hcaller hrun⟩
  | pushFront => exact .inr ⟨_, rfl, h.pushFront hok hcaller hrun⟩
  | remove => exact .inr ⟨_, rfl, h.remove hok hrun⟩
  | moveToScheduledFront => exact .inr ⟨_, rfl, h.moveToScheduledFront hok hrun⟩
  | moveToScheduledBack => exact .inr ⟨_, rfl, h.moveToScheduledBack hok hrun⟩
  | changePriority => exact .inr ⟨_, rfl, h.changePriority hok hcaller hrun⟩
  | changeAffinityMask => exact .inr ⟨_, rfl, h.changeAffinityMask hok hcaller hrun⟩
  | changeCore => exact .inr ⟨_, rfl, h.changeCore hok hcaller hrun⟩
  | getFront => exact .inl ⟨rfl, same_of_query hrun⟩
  | getFrontAtPriority => exact .inl ⟨rfl, same_of_query hrun⟩
  | getNext => exact .inl ⟨rfl, same_of_query hrun⟩
  | getSamePriorityNext => exact .inl ⟨rfl, same_of_query hrun⟩
  | setLastScheduledTick id tick =>
    exact .inr ⟨id, rfl, Option.some.inj hrun ▸ h.setLastScheduledTick id tick⟩

theorem Operation.apply_inv {order : List ℕ → List ℕ} {op : Operation} {s s' : KPriorityQueue}
    (h : Inv s) (hok : op.Accepted s) (hcaller : op.Consistent s)
    (hrun : op.apply order s = some s') : Inv s' := by
  rcases op.apply_keeps h hok hcaller hrun with ⟨-, rfl⟩ | ⟨id, -, hkeeps⟩
  · exact h
  · exact hkeeps.1

/-- The states of the runs of consistent calls; a map may yield its keys in any order. -/
inductive Reachable : KPriorityQueue → Prop
  | new : Reachable .new
  | step {s s' : KPriorityQueue} (order : List ℕ → List ℕ) (op : Operation) (h : Reachable s)
    (ok : op.Accepted s) (caller : op.Consistent s) (run : op.apply order s = some s') :
    Reachable s'

theorem inv_new : Inv .new := by
  refine ⟨fun b p c => ⟨[], ⟨?_, ?_, trivial, List.nodup_nil⟩, ?_, fun t => ?_⟩, nofun⟩
  · cases b <;> rfl
  · cases b <;> rfl
  · cases b <;> simp [available, impl, KPriorityQueue.new, KPriorityQueueImpl.new, BitSet64.new,
      BitSet64.has]
  · exact iff_of_false (List.not_mem_nil) (not_memOf rfl)

theorem Reachable.inv {s : KPriorityQueue} (h : Reachable s) : Inv s := by
  induction h with
  | new => exact inv_new
  | step _ _ _ ok caller run ih => exact Operation.apply_inv ih ok caller run

/-- The queue knows the member at the priority past the lowest. -/
def Unqueued (s : KPriorityQueue) (id : ℕ) : Prop :=
  ∃ props, Knows s id props ∧ props.priority = lowestPriority + 1

theorem Unqueued.not_mem {s : KPriorityQueue} {id : ℕ} (h : Unqueued s id) (b : Bool)
    (p : Fin numPriority) (c : Fin numCores) : ¬memOf s b p c id := by
  obtain ⟨props, hknows, hpriority⟩ := h
  rw [memOf_of_knows hknows, placed, hpriority]
  exact fun hplaced => not_queued (Int.lt_succ lowestPriority) p hplaced.1

theorem apart_refl (s : KPriorityQueue) (id : ℕ) : Apart s s id := fun _ _ _ _ _ => Iff.rfl

/-- Removing a member outside the lists, moving it to another core or changing its priority leaves
the lists of all others alone. -/
theorem Operation.apply_apart {order : List ℕ → List ℕ} {op : Operation} {s s' : KPriorityQueue}
    {id : ℕ} (h : Inv s) (hmoves : op.Moves id) (hunqueued : Unqueued s id) (hok : op.Accepted s)
    (hrun : op.apply order s = some s') : Apart s s' id := by
  have hout := hunqueued.not_mem
  obtain ⟨props, hknows, -⟩ := hunqueued
  cases op with
  | remove member priority activeCore affinity isDummy =>
    obtain rfl : member = id := hmoves
    by_cases hdummy : isDummy = true
    · rw [Operation.apply, KPriorityQueue.remove, if_pos hdummy] at hrun
      exact Option.some.inj hrun ▸ apart_refl s member
    · exact (h.removed hdummy hok hrun).1.apart h
  | changePriority prevPriority isRunning member newPriority activeCore affinity isDummy =>
    obtain rfl : member = id := hmoves
    by_cases hdummy : isDummy = true
    · rw [Operation.apply, KPriorityQueue.changePriority, if_pos hdummy] at hrun
      exact Option.some.inj hrun ▸ apart_refl s member
    · obtain ⟨hprev, hnew, -⟩ := hok.resolve_left hdummy
      exact (h.priorityChanged hdummy hknows hprev hnew
        (fun b p c hm => absurd hm (hout b p c)) hrun).1.apart h
  | changeCore prevCore member newCore priority isDummy toFront =>
    obtain rfl : member = id := hmoves
    by_cases hdummy : isDummy = true
    · rw [Operation.apply, KPriorityQueue.changeCore, if_pos hdummy] at hrun
      exact Option.some.inj hrun ▸ apart_refl s member
    by_cases hne : prevCore = newCore
    · rw [Operation.apply, KPriorityQueue.changeCore, if_neg hdummy, if_pos hne] at hrun
      exact Option.some.inj hrun ▸ apart_refl s member
    · obtain ⟨hpriority, hprev, hnew⟩ := (hok.resolve_left hdummy).resolve_left hne
      exact (h.coreChanged hdummy hne hknows hpriority hprev hnew
        (fun b p c hm => absurd hm (hout b p c)) hrun).1.apart h
  | _ => exact hmoves.elim

/-- One thread of the priority past the lowest, on core 0 and allowed on core 1. -/
def pastLowest : KPriorityQueue :=
  { KPriorityQueue.new with
    members := KPriorityQueue.new.members.insert 7 (.new ⟨64, 0, 3, false, 0, none⟩) }

theorem inRange_of_lt {core : ℤ} {affinity : BitVec 64} (h : core < numCores)
    (haffinity : affinity.toNat < 2 ^ numCores) : InRange core affinity :=
  ⟨h, fun _ hi => Nat.testBit_lt_two_pow
    (haffinity.trans_le (Nat.pow_le_pow_right Nat.two_pos hi))⟩

theorem pastLowest_reachable : Reachable pastLowest :=
  .step id (.pushBack 7 64 0 3 false none) .new
    (.inr ⟨by decide, inRange_of_lt (by decide) (by decide), nofun⟩)
    (.inr fun c hc => by
      rw [show (c : ℕ) = 0 by exact_mod_cast hc.symm]
      rfl) rfl

end Ruzu.PriorityQueue
