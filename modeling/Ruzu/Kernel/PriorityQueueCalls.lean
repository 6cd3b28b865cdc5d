import Ruzu.Kernel.PriorityQueuePlaces

/-!
# The calls of the priority queue

Every operation checks its cores and priorities and then indexes the lists.
The priority past the lowest passes the checks: the lists are not indexed by
it, except where a removal of all matches goes around the operation that looks.
-/

set_option autoImplicit false

namespace Ruzu.PriorityQueue

open DoublyLinked

/-! ### Operations -/

inductive Operation
  | pushBack (id : ℕ) (priority activeCore : ℤ) (affinity : BitVec 64) (isDummy : Bool)
    (processScheduleCount : Option ℕ)
  | pushFront (id : ℕ) (priority activeCore : ℤ) (affinity : BitVec 64) (isDummy : Bool)
    (processScheduleCount : Option ℕ)
  | remove (id : ℕ) (priority activeCore : ℤ) (affinity : BitVec 64) (isDummy : Bool)
  | moveToScheduledFront (id : ℕ) (priority activeCore : ℤ) (isDummy : Bool)
  | moveToScheduledBack (id : ℕ) (priority activeCore : ℤ) (isDummy : Bool)
  | changePriority (prevPriority : ℤ) (isRunning : Bool) (id : ℕ) (newPriority activeCore : ℤ)
    (affinity : BitVec 64) (isDummy : Bool)
  | changeAffinityMask (prevCore : ℤ) (prevAffinity : BitVec 64) (id : ℕ) (newCore : ℤ)
    (newAffinity : BitVec 64) (priority : ℤ) (isDummy : Bool)
  | changeCore (prevCore : ℤ) (id : ℕ) (newCore priority : ℤ) (isDummy toFront : Bool)
  | getFront (scheduled : Bool) (core : ℤ)
  | getFrontAtPriority (scheduled : Bool) (core priority : ℤ)
  | getNext (scheduled : Bool) (core : ℤ) (id : ℕ) (memberPriority : ℤ)
  | getSamePriorityNext (core : ℤ) (id : ℕ)
  | setLastScheduledTick (id : ℕ) (tick : ℤ)

/-- Whom the queue knows, with what it knows about them. -/
def Knows (s : KPriorityQueue) (id : ℕ) (props : ThreadProps) : Prop :=
  s.getThreadProps id = some props

namespace Operation

/-- The state after the operation; `none` when it indexes outside an array. -/
def apply (order : List ℕ → List ℕ) (s : KPriorityQueue) : Operation → Option KPriorityQueue
  | .pushBack id priority activeCore affinity isDummy processScheduleCount =>
    s.pushBack id priority activeCore affinity isDummy processScheduleCount
  | .pushFront id priority activeCore affinity isDummy processScheduleCount =>
    s.pushFront id priority activeCore affinity isDummy processScheduleCount
  | .remove id priority activeCore affinity isDummy =>
    s.remove order id priority activeCore affinity isDummy
  | .moveToScheduledFront id priority activeCore isDummy =>
    s.moveToScheduledFront id priority activeCore isDummy
  | .moveToScheduledBack id priority activeCore isDummy =>
    (s.moveToScheduledBack id priority activeCore isDummy).map Prod.fst
  | .changePriority prevPriority isRunning id newPriority activeCore affinity isDummy =>
    s.changePriority prevPriority isRunning id newPriority activeCore affinity isDummy
  | .changeAffinityMask prevCore prevAffinity id newCore newAffinity priority isDummy =>
    s.changeAffinityMask prevCore prevAffinity id newCore newAffinity priority isDummy
  | .changeCore prevCore id newCore priority isDummy toFront =>
    s.changeCore order prevCore id newCore priority isDummy toFront
  | .getFront scheduled core => (s.getFront scheduled core).map fun _ => s
  | .getFrontAtPriority scheduled core priority =>
    (s.getFrontAtPriority scheduled core priority).map fun _ => s
  | .getNext scheduled core id memberPriority =>
    (s.getNext scheduled core id memberPriority).map fun _ => s
  | .getSamePriorityNext core id => (s.getSamePriorityNext core id).map fun _ => s
  | .setLastScheduledTick id tick => some (s.setLastScheduledTick id tick)

/-- The checks of the operation hold of the values that it works with: its arguments, or what the
queue knows about the member where that goes first. -/
def Accepted (s : KPriorityQueue) : Operation → Prop
  | .pushBack id priority activeCore affinity isDummy _
  | .pushFront id priority activeCore affinity isDummy _ =>
    isDummy = true ∨ IsValidPriority priority ∧ InRange activeCore affinity ∧
      ∀ props, Knows s id props →
        IsValidPriority props.priority ∧ InRange props.activeCore props.affinity
  | .remove id priority activeCore affinity isDummy =>
    let e := s.effective id priority activeCore affinity
    isDummy = true ∨ IsValidPriority e.1 ∧ InRange e.2.1 e.2.2
  | .moveToScheduledFront id priority activeCore isDummy
  | .moveToScheduledBack id priority activeCore isDummy =>
    let e := s.effective id priority activeCore 0
    isDummy = true ∨ IsValidPriority e.1 ∧ IsValidCore e.2.1
  | .changePriority prevPriority _ id newPriority activeCore affinity isDummy =>
    let e := s.effective id prevPriority activeCore affinity
    isDummy = true ∨
      IsValidPriority prevPriority ∧ IsValidPriority newPriority ∧ InRange e.2.1 e.2.2
  | .changeAffinityMask _ _ _ _ _ priority isDummy => isDummy = true ∨ IsValidPriority priority
  | .changeCore prevCore _ newCore priority isDummy _ =>
    isDummy = true ∨ prevCore = newCore ∨
      IsValidPriority priority ∧ prevCore < numCores ∧ newCore < numCores
  | .getFront _ core => IsValidCore core
  | .getFrontAtPriority _ core priority => IsValidCore core ∧ IsValidPriority priority
  | .getNext _ core _ memberPriority => IsValidCore core ∧ IsValidPriority memberPriority
  | .getSamePriorityNext core _ => IsValidCore core
  | .setLastScheduledTick .. => True

/-- The caller says about a member what the queue knows, and an active core is in its mask. -/
def Consistent (s : KPriorityQueue) : Operation → Prop
  | .pushBack _ _ activeCore affinity isDummy _ | .pushFront _ _ activeCore affinity isDummy _ =>
    isDummy = true ∨ ∀ c : Fin numCores, activeCore = (c : ℕ) → affinity.getLsbD c = true
  | .changePriority prevPriority _ id _ _ _ isDummy =>
    isDummy = true ∨ ∃ props, Knows s id props ∧ prevPriority = props.priority
  | .changeAffinityMask prevCore prevAffinity id newCore newAffinity priority isDummy =>
    isDummy = true ∨ (∃ props, Knows s id props ∧ prevCore = props.activeCore ∧
      prevAffinity = props.affinity ∧ priority = props.priority) ∧ InRange newCore newAffinity ∧
        ∀ c : Fin numCores, newCore = (c : ℕ) → newAffinity.getLsbD c = true
  | .changeCore prevCore id newCore priority isDummy _ =>
    isDummy = true ∨ ∃ props, Knows s id props ∧ prevCore = props.activeCore ∧
      priority = props.priority ∧
        ∀ c : Fin numCores, newCore = (c : ℕ) → props.affinity.getLsbD c = true
  | _ => True

/-- The operation does not take a member of the priority past the lowest out of its lists by
indexing them: it is not a removal of such a member with a core, nor its move off a core. -/
def Guarded (s : KPriorityQueue) : Operation → Prop
  | .remove id priority activeCore affinity isDummy =>
    let e := s.effective id priority activeCore affinity
    isDummy = true ∨ e.1 ≤ lowestPriority ∨ e.2.1 < 0 ∧ e.2.2 = 0
  | .changeCore prevCore _ newCore priority isDummy _ =>
    isDummy = true ∨ prevCore = newCore ∨ priority ≤ lowestPriority ∨ prevCore < 0
  | _ => True

/-- Removing the thread, moving it to another core or changing its priority. -/
def Moves (id : ℕ) : Operation → Prop
  | .remove member .. => member = id
  | .changePriority _ _ member .. => member = id
  | .changeCore _ member .. => member = id
  | _ => False

end Operation

/-! ### Indices -/

section Indices

theorem coreIndex_isSome {core : ℤ} (h : IsValidCore core) : (coreIndex core).isSome := by
  rw [coreIndex, dif_pos ⟨h.1, h.2⟩]
  rfl

theorem priorityIndex_isSome {priority : ℤ} (h : IsValidPriority priority)
    (hlow : priority ≤ lowestPriority) : (priorityIndex priority).isSome := by
  rw [priorityIndex, dif_pos ⟨h.1, by rw [lowestPriority] at hlow; rw [numPriority]; omega⟩]
  rfl

theorem isValidCore_coe (c : Fin numCores) : IsValidCore (c : ℕ) :=
  ⟨Int.natCast_nonneg _, by exact_mod_cast c.isLt⟩

variable {s : KPriorityQueue} {priority core : ℤ} {id : ℕ}

/-- An operation on the lists that never indexes outside them. -/
def Total (op : QueueOp) : Prop := ∀ impl members, (op impl members).isSome

theorem total_of_indices {op : QueueOp} {f : Fin numPriority → Fin numCores → QueueOp}
    (hpriority : IsValidPriority priority) (hcore : IsValidCore core)
    (hop : ∀ impl members, op impl members = if priority > lowestPriority then
      some (impl, members) else (priorityIndex priority).bind fun p =>
        (coreIndex core).bind fun c => f p c impl members)
    (hf : ∀ p c, Total (f p c)) : Total op := by
  intro impl members
  rw [hop]
  split
  case isTrue => rfl
  case isFalse hlow =>
    obtain ⟨p, hp⟩ := Option.isSome_iff_exists.mp (priorityIndex_isSome hpriority (not_lt.mp hlow))
    obtain ⟨c, hc⟩ := Option.isSome_iff_exists.mp (coreIndex_isSome hcore)
    rw [hp, hc]
    exact hf p c impl members

theorem total_ite {flag : Bool} {x y : KPriorityQueueImpl × MemberMap} :
    (if flag then some x else some y).isSome := by
  cases flag <;> rfl

theorem total_pushBack (hpriority : IsValidPriority priority) (hcore : IsValidCore core) :
    Total (KPriorityQueueImpl.pushBack priority core id) :=
  total_of_indices hpriority hcore (fun _ _ => rfl) fun _ _ _ _ => total_ite

theorem total_pushFront (hpriority : IsValidPriority priority) (hcore : IsValidCore core) :
    Total (KPriorityQueueImpl.pushFront priority core id) :=
  total_of_indices hpriority hcore (fun _ _ => rfl) fun _ _ _ _ => total_ite

theorem total_remove (hpriority : IsValidPriority priority) (hcore : IsValidCore core) :
    Total (KPriorityQueueImpl.remove priority core id) :=
  total_of_indices hpriority hcore (fun _ _ => rfl) fun _ _ _ _ => total_ite

theorem total_removeAllMatching (order : List ℕ → List ℕ) (scheduled : Bool)
    (hpriority : IsValidPriority priority) (hlow : priority ≤ lowestPriority)
    (hcore : IsValidCore core) :
    Total (KPriorityQueueImpl.removeAllMatching order priority core scheduled id) := by
  intro impl members
  obtain ⟨p, hp⟩ := Option.isSome_iff_exists.mp (priorityIndex_isSome hpriority hlow)
  obtain ⟨c, hc⟩ := Option.isSome_iff_exists.mp (coreIndex_isSome hcore)
  simp only [KPriorityQueueImpl.removeAllMatching, hp, hc, Option.bind_eq_bind, Option.bind_some]
  exact total_ite

/-- The unchecked index fails at the priority past the lowest. -/
theorem removeAllMatching_above (order : List ℕ → List ℕ) (scheduled : Bool)
    (hlow : ¬priority ≤ lowestPriority) (impl : KPriorityQueueImpl) (members : MemberMap) :
    KPriorityQueueImpl.removeAllMatching order priority core scheduled id impl members = none := by
  have hnone : priorityIndex priority = none := by
    rw [priorityIndex, dif_neg]
    rw [lowestPriority] at hlow
    rw [numPriority]
    omega
  rw [KPriorityQueueImpl.removeAllMatching, hnone]
  rfl

namespace KPriorityQueue

theorem on_isSome {op : QueueOp} (h : Total op) (b : Bool) (s : KPriorityQueue) :
    (s.on b op).isSome := by
  obtain ⟨⟨impl, members⟩, hop⟩ := Option.isSome_iff_exists.mp (h (s.impl b) s.members)
  rw [on, hop]
  cases b <;> rfl

theorem foldlM_isSome {α : Type} {g : KPriorityQueue → α → Option KPriorityQueue} (l : List α)
    (h : ∀ s, ∀ x ∈ l, (g s x).isSome) (s : KPriorityQueue) : (l.foldlM g s).isSome := by
  induction l generalizing s with
  | nil => rfl
  | cons x l ih =>
    obtain ⟨s', hs'⟩ := Option.isSome_iff_exists.mp (h s x (List.mem_cons_self ..))
    rw [List.foldlM_cons, hs']
    exact ih (fun s y hy => h s y (List.mem_cons_of_mem _ hy)) s'

theorem onQueues_isSome (f : Bool → ℤ → QueueOp) {activeCore : ℤ} {affinity : BitVec 64}
    (h : InRange activeCore affinity) (hf : ∀ b core, IsValidCore core → Total (f b core))
    (s : KPriorityQueue) : (s.onQueues (f true) (f false) activeCore affinity).isSome := by
  rw [onQueues_eq f h]
  exact foldlM_isSome _ (fun s x _ => on_isSome (hf x.1 _ (isValidCore_coe x.2)) x.1 s) s

theorem onCores_isSome {op : ℤ → QueueOp} (activeCore : ℤ) (affinity : BitVec 64)
    (hop : ∀ core, IsValidCore core → Total (op core)) (s : KPriorityQueue) :
    (s.onCores op activeCore affinity).isSome := by
  rw [onCores_eq]
  exact foldlM_isSome _ (fun s x _ => on_isSome (hop _ (isValidCore_coe x.2)) x.1 s) s

theorem enter_isSome {props : ThreadProps} (h : ∀ existing, Knows s id existing →
    IsValidPriority existing.priority ∧ InRange existing.activeCore existing.affinity) :
    (s.enter id props).isSome := by
  rw [enter]
  cases hget : s.getThreadProps id with
  | none => rfl
  | some existing =>
    obtain ⟨hpriority, hrange⟩ := h existing hget
    obtain ⟨s', hs'⟩ := Option.isSome_iff_exists.mp
      (onQueues_isSome (fun _ core => KPriorityQueueImpl.remove existing.priority core id) hrange
        (fun _ _ hcore => total_remove hpriority hcore) s)
    simp only [removeImpl, hs', Option.bind_eq_bind, Option.bind_some, Option.isSome_some]

theorem pushBackImpl_isSome (id : ℕ) {activeCore : ℤ} {affinity : BitVec 64}
    (hpriority : IsValidPriority priority) (h : InRange activeCore affinity)
    (s : KPriorityQueue) : (s.pushBackImpl priority id activeCore affinity).isSome :=
  onQueues_isSome (fun _ core => KPriorityQueueImpl.pushBack priority core id) h
    (fun _ _ hcore => total_pushBack hpriority hcore) s

theorem pushFrontImpl_isSome (id : ℕ) {activeCore : ℤ} {affinity : BitVec 64}
    (hpriority : IsValidPriority priority) (h : InRange activeCore affinity)
    (s : KPriorityQueue) : (s.pushFrontImpl priority id activeCore affinity).isSome := by
  refine onQueues_isSome (fun b core => if b then KPriorityQueueImpl.pushFront priority core id
    else KPriorityQueueImpl.pushBack priority core id) h (fun b core hcore => ?_) s
  cases b with
  | false => exact total_pushBack hpriority hcore
  | true => exact total_pushFront hpriority hcore

theorem removeImpl_isSome (id : ℕ) {activeCore : ℤ} {affinity : BitVec 64}
    (hpriority : IsValidPriority priority) (h : InRange activeCore affinity)
    (s : KPriorityQueue) : (s.removeImpl priority id activeCore affinity).isSome :=
  onQueues_isSome (fun _ core => KPriorityQueueImpl.remove priority core id) h
    (fun _ _ hcore => total_remove hpriority hcore) s

theorem places_eq_nil {activeCore : ℤ} {affinity : BitVec 64} (h : InRange activeCore affinity) :
    places activeCore affinity = [] ↔ activeCore < 0 ∧ affinity = 0 := by
  constructor
  · intro hnil
    have hout : ∀ b c, (b, c) ∉ places activeCore affinity := fun b c hin => by
      rw [hnil] at hin
      cases hin
    have hneg : activeCore < 0 := by
      by_contra hge
      obtain ⟨c, hc⟩ := Option.isSome_iff_exists.mp (coreIndex_isSome ⟨not_lt.mp hge, h.1⟩)
      exact hout true c (mem_places.mpr (.inl ⟨rfl, coreIndex_eq_some.mp hc⟩))
    refine ⟨hneg, BitVec.eq_of_getLsbD_eq fun i hi => ?_⟩
    rw [show (0 : BitVec 64).getLsbD i = false from BitVec.getLsbD_zero]
    by_contra hbit
    rcases Nat.lt_or_ge i numCores with hlt | hge
    · exact hout false ⟨i, hlt⟩ (mem_places.mpr (.inr ⟨rfl, by simpa using hbit, by omega⟩))
    · exact hbit (h.2 i hge)
  · rintro ⟨hneg, rfl⟩
    refine List.eq_nil_iff_forall_not_mem.mpr fun ⟨b, c⟩ hin => ?_
    rcases mem_places.mp hin with ⟨-, hc⟩ | ⟨-, hc, -⟩
    · omega
    · exact absurd hc (by simp)

/-- A removal of all matches at any priority: it fails past the lowest one, if there is a list. -/
theorem removeAllExpectedImpl_isSome (id : ℕ) (order : List ℕ → List ℕ) {activeCore : ℤ}
    {affinity : BitVec 64} (hpriority : IsValidPriority priority)
    (h : InRange activeCore affinity) (s : KPriorityQueue) :
    (s.removeAllExpectedImpl order priority id activeCore affinity).isSome ↔
      priority ≤ lowestPriority ∨ activeCore < 0 ∧ affinity = 0 := by
  by_cases hlow : priority ≤ lowestPriority
  · refine iff_of_true ?_ (.inl hlow)
    exact onQueues_isSome (fun b core => KPriorityQueueImpl.removeAllMatching order priority core b
      id) h (fun b _ hcore => total_removeAllMatching order b hpriority hlow hcore) s
  · rw [or_iff_right hlow, ← places_eq_nil h, removeAllExpectedImpl,
      onQueues_eq (fun b core => KPriorityQueueImpl.removeAllMatching order priority core b id) h]
    cases places activeCore affinity with
    | nil => exact iff_of_true rfl rfl
    | cons x l =>
      refine iff_of_false ?_ (List.cons_ne_nil x l)
      rw [List.foldlM_cons, on, removeAllMatching_above order x.1 hlow]
      exact Bool.false_ne_true

theorem total_moveToFront (hpriority : IsValidPriority priority) (hcore : IsValidCore core) :
    Total (KPriorityQueueImpl.moveToFront priority core id) := by
  intro impl members
  rw [KPriorityQueueImpl.moveToFront]
  split
  case isTrue hlow =>
    obtain ⟨p, hp⟩ := Option.isSome_iff_exists.mp (priorityIndex_isSome hpriority hlow)
    obtain ⟨c, hc⟩ := Option.isSome_iff_exists.mp (coreIndex_isSome hcore)
    simp only [hp, hc, Option.bind_eq_bind, Option.bind_some, Option.isSome_some]
  case isFalse => rfl

theorem moveToBack_isSome (id : ℕ) (hpriority : IsValidPriority priority) (hcore : IsValidCore core)
    (impl : KPriorityQueueImpl) (members : MemberMap) :
    (KPriorityQueueImpl.moveToBack priority core id impl members).isSome := by
  rw [KPriorityQueueImpl.moveToBack]
  split
  case isTrue hlow =>
    obtain ⟨p, hp⟩ := Option.isSome_iff_exists.mp (priorityIndex_isSome hpriority hlow)
    obtain ⟨c, hc⟩ := Option.isSome_iff_exists.mp (coreIndex_isSome hcore)
    simp only [hp, hc, Option.bind_eq_bind, Option.bind_some, Option.isSome_some]
  case isFalse => rfl

/-! ### The calls -/

variable {activeCore newPriority prevCore newCore : ℤ} {affinity newAffinity : BitVec 64}
  {isDummy : Bool}

theorem pushBack_isSome {count : Option ℕ} (h : (Operation.pushBack id priority activeCore
    affinity isDummy count).Accepted s) :
    (s.pushBack id priority activeCore affinity isDummy count).isSome := by
  rw [pushBack]
  split
  case isTrue => rfl
  case isFalse hdummy =>
    obtain ⟨hpriority, hrange, hexisting⟩ := h.resolve_left hdummy
    have hsome : (s.enter id ⟨priority, activeCore, affinity, isDummy, 0, count⟩).isSome :=
      enter_isSome hexisting
    obtain ⟨s', hs'⟩ := Option.isSome_iff_exists.mp hsome
    rw [hs', Option.bind_eq_bind, Option.bind_some]
    exact pushBackImpl_isSome id hpriority hrange s'

theorem pushFront_isSome {count : Option ℕ} (h : (Operation.pushFront id priority activeCore
    affinity isDummy count).Accepted s) :
    (s.pushFront id priority activeCore affinity isDummy count).isSome := by
  rw [pushFront]
  split
  case isTrue => rfl
  case isFalse hdummy =>
    obtain ⟨hpriority, hrange, hexisting⟩ := h.resolve_left hdummy
    have hsome : (s.enter id ⟨priority, activeCore, affinity, isDummy, 0, count⟩).isSome :=
      enter_isSome hexisting
    obtain ⟨s', hs'⟩ := Option.isSome_iff_exists.mp hsome
    rw [hs', Option.bind_eq_bind, Option.bind_some]
    exact pushFrontImpl_isSome id hpriority hrange s'

theorem remove_isSome (order : List ℕ → List ℕ) (h : (Operation.remove id priority activeCore
    affinity isDummy).Accepted s) :
    (s.remove order id priority activeCore affinity isDummy).isSome ↔
      (Operation.remove id priority activeCore affinity isDummy).Guarded s := by
  rw [remove]
  split
  case isTrue hdummy => exact iff_of_true rfl (.inl hdummy)
  case isFalse hdummy =>
    have hvalid := h.resolve_left hdummy
    rw [Operation.Guarded, or_iff_right hdummy]
    generalize s.effective id priority activeCore affinity = e at hvalid ⊢
    obtain ⟨priority, activeCore, affinity⟩ := e
    obtain ⟨hpriority, hrange⟩ := hvalid
    obtain ⟨s', hs'⟩ := Option.isSome_iff_exists.mp
      (removeImpl_isSome id hpriority hrange s)
    rw [← removeAllExpectedImpl_isSome id order hpriority hrange s']
    simp only [hs', Option.bind_eq_bind, Option.bind_some]
    cases s'.removeAllExpectedImpl order priority id activeCore affinity with
    | none => exact Iff.rfl
    | some => exact Iff.rfl

theorem moveToScheduledFront_isSome (h : (Operation.moveToScheduledFront id priority activeCore
    isDummy).Accepted s) : (s.moveToScheduledFront id priority activeCore isDummy).isSome := by
  rw [moveToScheduledFront]
  split
  case isTrue => rfl
  case isFalse hdummy =>
    obtain ⟨hpriority, hcore⟩ := h.resolve_left hdummy
    exact on_isSome (total_moveToFront hpriority hcore) true s

theorem moveToScheduledBack_isSome (h : (Operation.moveToScheduledBack id priority activeCore
    isDummy).Accepted s) : (s.moveToScheduledBack id priority activeCore isDummy).isSome := by
  rw [moveToScheduledBack]
  split
  case isTrue => rfl
  case isFalse hdummy =>
    have hvalid := h.resolve_left hdummy
    generalize s.effective id priority activeCore 0 = e at hvalid ⊢
    obtain ⟨priority, activeCore, affinity⟩ := e
    obtain ⟨r, hr⟩ := Option.isSome_iff_exists.mp
      (moveToBack_isSome id hvalid.1 hvalid.2 s.scheduledQueue s.members)
    simp only [hr, Option.bind_eq_bind, Option.bind_some, Option.isSome_some]

theorem changePriority_isSome {isRunning : Bool} (h : (Operation.changePriority priority isRunning
    id newPriority activeCore affinity isDummy).Accepted s) :
    (s.changePriority priority isRunning id newPriority activeCore affinity isDummy).isSome := by
  rw [changePriority]
  split
  case isTrue => rfl
  case isFalse hdummy =>
    have hvalid := h.resolve_left hdummy
    generalize s.effective id priority activeCore affinity = e at hvalid ⊢
    obtain ⟨effectivePriority, activeCore, affinity⟩ := e
    obtain ⟨hpriority, hnew, hrange⟩ := hvalid
    obtain ⟨s₁, hs₁⟩ := Option.isSome_iff_exists.mp
      (removeImpl_isSome id hpriority hrange s)
    obtain ⟨s₂, hs₂⟩ := Option.isSome_iff_exists.mp
      (pushFrontImpl_isSome id hnew hrange s₁)
    obtain ⟨s₃, hs₃⟩ := Option.isSome_iff_exists.mp
      (pushBackImpl_isSome id hnew hrange s₁)
    cases isRunning <;>
      simp only [hs₁, hs₂, hs₃, Option.bind_eq_bind, Option.bind_some, if_true,
        Bool.false_eq_true, if_false, Option.isSome_some]

theorem changeAffinityMask_isSome (h : (Operation.changeAffinityMask prevCore affinity id newCore
    newAffinity priority isDummy).Accepted s) :
    (s.changeAffinityMask prevCore affinity id newCore newAffinity priority isDummy).isSome := by
  rw [changeAffinityMask]
  split
  case isTrue => rfl
  case isFalse hdummy =>
    have hpriority := h.resolve_left hdummy
    have hremove : ∀ core, IsValidCore core →
        Total (KPriorityQueueImpl.remove priority core id) := fun _ => total_remove hpriority
    have hpush : ∀ core, IsValidCore core →
        Total (KPriorityQueueImpl.pushBack priority core id) := fun _ => total_pushBack hpriority
    obtain ⟨s₁, hs₁⟩ := Option.isSome_iff_exists.mp (onCores_isSome prevCore affinity hremove s)
    obtain ⟨s₂, hs₂⟩ := Option.isSome_iff_exists.mp (onCores_isSome newCore newAffinity hpush s₁)
    simp only [hs₁, hs₂, Option.bind_eq_bind, Option.bind_some, Option.isSome_some]

/-- Leaving the scheduled list of a core fails past the lowest priority. -/
theorem leaveCore_isSome (id : ℕ) (order : List ℕ → List ℕ) (hpriority : IsValidPriority priority)
    (hprev : prevCore < numCores) (s : KPriorityQueue) :
    (s.leaveCore order priority prevCore id).isSome ↔
      priority ≤ lowestPriority ∨ prevCore < 0 := by
  rw [leaveCore]
  split
  case isTrue hge =>
    rw [or_iff_left (not_lt.mpr hge)]
    by_cases hlow : priority ≤ lowestPriority
    · exact iff_of_true (on_isSome
        (total_removeAllMatching order true hpriority hlow ⟨hge, hprev⟩) true s) hlow
    · refine iff_of_false ?_ hlow
      rw [on, removeAllMatching_above order true hlow]
      exact Bool.false_ne_true
  case isFalse hlt => exact iff_of_true rfl (.inr (not_le.mp hlt))

theorem enterCore_isSome (id : ℕ) (hpriority : IsValidPriority priority) (hnew : newCore < numCores)
    (toFront : Bool) (s : KPriorityQueue) :
    (s.enterCore priority newCore id toFront).isSome := by
  rw [enterCore]
  split
  case isTrue hge =>
    have hremove : Total (KPriorityQueueImpl.remove priority newCore id) :=
      total_remove hpriority ⟨hge, hnew⟩
    obtain ⟨s', hs'⟩ := Option.isSome_iff_exists.mp (on_isSome hremove false s)
    rw [hs', Option.bind_eq_bind, Option.bind_some]
    refine on_isSome ?_ true s'
    cases toFront with
    | false => exact total_pushBack hpriority ⟨hge, hnew⟩
    | true => exact total_pushFront hpriority ⟨hge, hnew⟩
  case isFalse => rfl

theorem suggestCore_isSome (id : ℕ) (hpriority : IsValidPriority priority) (hprev : prevCore < numCores)
    (s : KPriorityQueue) : (s.suggestCore priority prevCore id).isSome := by
  rw [suggestCore]
  split
  case isTrue hge => exact on_isSome (total_pushBack hpriority ⟨hge, hprev⟩) false s
  case isFalse => rfl

theorem changeCore_isSome (order : List ℕ → List ℕ) {toFront : Bool}
    (h : (Operation.changeCore prevCore id newCore priority isDummy toFront).Accepted s) :
    (s.changeCore order prevCore id newCore priority isDummy toFront).isSome ↔
      (Operation.changeCore prevCore id newCore priority isDummy toFront).Guarded s := by
  rw [changeCore]
  split
  case isTrue hdummy => exact iff_of_true rfl (.inl hdummy)
  case isFalse hdummy =>
    split
    case isTrue hsame => exact iff_of_true rfl (.inr (.inl hsame))
    case isFalse hdiff =>
      obtain ⟨hpriority, hprev, hnew⟩ := (h.resolve_left hdummy).resolve_left hdiff
      rw [Operation.Guarded, or_iff_right hdummy, or_iff_right hdiff]
      have hrest : ∀ s₁ : KPriorityQueue, ∃ s₂ s₃,
          s₁.enterCore priority newCore id toFront = some s₂ ∧
            s₂.suggestCore priority prevCore id = some s₃ := fun s₁ => by
        obtain ⟨s₂, hs₂⟩ := Option.isSome_iff_exists.mp
          (enterCore_isSome id hpriority hnew toFront s₁)
        obtain ⟨s₃, hs₃⟩ := Option.isSome_iff_exists.mp
          (suggestCore_isSome id hpriority hprev s₂)
        exact ⟨s₂, s₃, hs₂, hs₃⟩
      rw [← leaveCore_isSome id order hpriority hprev s]
      cases s.leaveCore order priority prevCore id with
      | none => exact Iff.rfl
      | some s₁ =>
        obtain ⟨s₂, s₃, hs₂, hs₃⟩ := hrest s₁
        simp only [hs₂, hs₃, Option.bind_eq_bind, Option.bind_some, Option.isSome_some]

theorem getFront_isSome {scheduled : Bool} (hcore : IsValidCore core) :
    (s.getFront scheduled core).isSome := by
  obtain ⟨c, hc⟩ := Option.isSome_iff_exists.mp (coreIndex_isSome hcore)
  rw [getFront, KPriorityQueueImpl.getFront, hc, Option.bind_eq_bind, Option.bind_some]
  dsimp only
  split
  case isTrue hlow =>
    obtain ⟨p, hp⟩ := Option.isSome_iff_exists.mp
      (priorityIndex_isSome ⟨Int.natCast_nonneg _, hlow.trans (Int.le_add_one le_rfl)⟩ hlow)
    rw [hp]
    rfl
  case isFalse => rfl

theorem getFrontAtPriority_isSome {scheduled : Bool} (hcore : IsValidCore core)
    (hpriority : IsValidPriority priority) :
    (s.getFrontAtPriority scheduled core priority).isSome := by
  rw [getFrontAtPriority, KPriorityQueueImpl.getFrontAtPriority]
  split
  case isTrue hlow =>
    obtain ⟨c, hc⟩ := Option.isSome_iff_exists.mp (coreIndex_isSome hcore)
    obtain ⟨p, hp⟩ := Option.isSome_iff_exists.mp (priorityIndex_isSome hpriority hlow)
    rw [hc, hp]
    rfl
  case isFalse => rfl

theorem getNext_isSome {scheduled : Bool} {memberPriority : ℤ} (hcore : IsValidCore core) :
    (s.getNext scheduled core id memberPriority).isSome := by
  obtain ⟨c, hc⟩ := Option.isSome_iff_exists.mp (coreIndex_isSome hcore)
  rw [getNext, KPriorityQueueImpl.getNext, hc, Option.bind_eq_bind, Option.bind_some]
  cases (entryOf c s.members id).bind Node.next with
  | some => rfl
  | none =>
    dsimp only
    split
    case isTrue hlow =>
      obtain ⟨p, hp⟩ := Option.isSome_iff_exists.mp
        (priorityIndex_isSome ⟨Int.natCast_nonneg _, hlow.trans (Int.le_add_one le_rfl)⟩ hlow)
      rw [hp]
      rfl
    case isFalse => rfl

theorem getSamePriorityNext_isSome (hcore : IsValidCore core) :
    (s.getSamePriorityNext core id).isSome := by
  rw [getSamePriorityNext]
  cases s.members.get id with
  | none => rfl
  | some slot =>
    dsimp only
    rw [Option.isSome_map]
    exact coreIndex_isSome hcore

end KPriorityQueue

/-- An operation that its checks accept stays inside the arrays just when it is guarded. -/
theorem Operation.apply_isSome (order : List ℕ → List ℕ) (op : Operation) (h : op.Accepted s) :
    (op.apply order s).isSome ↔ op.Guarded s := by
  cases op with
  | pushBack => exact iff_of_true (KPriorityQueue.pushBack_isSome h) trivial
  | pushFront => exact iff_of_true (KPriorityQueue.pushFront_isSome h) trivial
  | remove => exact KPriorityQueue.remove_isSome order h
  | moveToScheduledFront => exact iff_of_true (KPriorityQueue.moveToScheduledFront_isSome h) trivial
  | moveToScheduledBack =>
    refine iff_of_true ?_ trivial
    rw [Operation.apply, Option.isSome_map]
    exact KPriorityQueue.moveToScheduledBack_isSome h
  | changePriority => exact iff_of_true (KPriorityQueue.changePriority_isSome h) trivial
  | changeAffinityMask => exact iff_of_true (KPriorityQueue.changeAffinityMask_isSome h) trivial
  | changeCore => exact KPriorityQueue.changeCore_isSome order h
  | getFront =>
    refine iff_of_true ?_ trivial
    rw [Operation.apply, Option.isSome_map]
    exact KPriorityQueue.getFront_isSome h
  | getFrontAtPriority =>
    refine iff_of_true ?_ trivial
    rw [Operation.apply, Option.isSome_map]
    exact KPriorityQueue.getFrontAtPriority_isSome h.1 h.2
  | getNext =>
    refine iff_of_true ?_ trivial
    rw [Operation.apply, Option.isSome_map]
    exact KPriorityQueue.getNext_isSome h.1
  | getSamePriorityNext =>
    refine iff_of_true ?_ trivial
    rw [Operation.apply, Option.isSome_map]
    exact KPriorityQueue.getSamePriorityNext_isSome h
  | setLastScheduledTick => exact iff_of_true rfl trivial

end Indices

end Ruzu.PriorityQueue
