import Mathlib
import Ruzu.Kernel.PriorityQueueLists

/-!
# Who is in which list

The lists of all cores and priorities hold a membership relation when every
list shows just the members of the relation and every available bit tells
whether its list has one. An operation on one list changes the relation at that
list and for its member only.
-/

set_option autoImplicit false

namespace Ruzu.PriorityQueue

open DoublyLinked

/-! ### Bits -/

namespace BitSet64

def has (b : BitSet64) (bit : ℕ) : Bool := b.bits.getLsbD (63 - bit)

theorem one_shift {i j : ℕ} (hi : i < 64) (hj : j < 64) :
    (1#64 <<< (63 - i)).getLsbD (63 - j) = decide (i = j) := by
  rw [BitVec.getLsbD_shiftLeft, BitVec.getLsbD_one]
  by_cases heq : i = j
  · subst heq
    simp
    omega
  · simp only [heq, decide_false]
    simp
    omega

theorem has_setBit (b : BitSet64) {i j : ℕ} (hi : i < 64) (hj : j < 64) :
    (b.setBit i).has j = (b.has j || decide (i = j)) := by
  rw [has, setBit, BitVec.getLsbD_or, one_shift hi hj]
  rfl

theorem has_clearBit (b : BitSet64) {i j : ℕ} (hi : i < 64) (hj : j < 64) :
    (b.clearBit i).has j = (b.has j && !decide (i = j)) := by
  rw [has, clearBit, BitVec.getLsbD_and, BitVec.getLsbD_not, one_shift hi hj,
    decide_eq_true (show 63 - j < 64 by omega), Bool.true_and]
  rfl

end BitSet64

/-! ### Membership -/

/-- For the scheduled or the suggested lists: who is in the list of a priority and a core. -/
abbrev Membership := Bool → Fin numPriority → Fin numCores → ℕ → Prop

namespace KPriorityQueue

def root (s : KPriorityQueue) (b : Bool) (p : Fin numPriority) (c : Fin numCores) : QueueEntry :=
  ((s.impl b).queues p).roots c

def available (s : KPriorityQueue) (b : Bool) (c : Fin numCores) : BitSet64 :=
  (s.impl b).availablePriorities c

/-- Every list shows its members, and its bit tells whether there are any. -/
def Holds (s : KPriorityQueue) (mem : Membership) : Prop :=
  ∀ b p c, ∃ l, Shows (s.root b p c) (entryOf c s.members) l ∧
    (s.available b c).has p = !l.isEmpty ∧ ∀ t, t ∈ l ↔ mem b p c t

/-- The thread is found in the list from its root on. -/
def InQueue (s : KPriorityQueue) (b : Bool) (p : Fin numPriority) (c : Fin numCores) (t : ℕ) :
    Prop :=
  Reaches (s.root b p c) (entryOf c s.members) t

variable {s s' : KPriorityQueue} {mem mem' : Membership} {b : Bool} {p : Fin numPriority}
  {c : Fin numCores} {id t : ℕ}

theorem Holds.inQueue (h : s.Holds mem) : s.InQueue b p c t ↔ mem b p c t := by
  obtain ⟨l, hl, -, hmem⟩ := h b p c
  exact hl.reaches_iff.trans (hmem t)

theorem Holds.congr (h : s.Holds mem) (hm : ∀ b p c t, mem' b p c t ↔ mem b p c t) :
    s.Holds mem' := by
  intro b p c
  obtain ⟨l, hl, hbit, hmem⟩ := h b p c
  exact ⟨l, hl, hbit, fun t => (hmem t).trans (hm b p c t).symm⟩

/-- The properties of a member place it in one list of each core of its mask. -/
def placed (props : ThreadProps) : Bool → Fin numPriority → Fin numCores → Prop := fun b p c =>
  props.priority = (p : ℕ) ∧ props.affinity.getLsbD c = true ∧
    (props.activeCore = (c : ℕ) ↔ b = true)

theorem belongs_iff (slot : MemberSlot) :
    KPerCoreQueue.belongs c (p : ℕ) b slot = true ↔ placed slot.props b p c := by
  simp only [KPerCoreQueue.belongs, placed, Bool.and_eq_true, decide_eq_true_eq, beq_iff_eq,
    and_assoc]
  cases b <;> simp

/-- All members but one are in the lists that their properties say. -/
def Agrees (s : KPriorityQueue) (mem : Membership) (id : ℕ) : Prop :=
  ∀ t ≠ id, ∀ b p c, mem b p c t ↔ ∃ props, s.getThreadProps t = some props ∧ placed props b p c

def SameProps (s s' : KPriorityQueue) : Prop := ∀ x, s'.getThreadProps x = s.getThreadProps x

theorem SameProps.trans {s'' : KPriorityQueue} (h : SameProps s s') (h' : SameProps s' s'') :
    SameProps s s'' :=
  fun x => (h' x).trans (h x)

/-- The threads other than the member have kept their order. -/
def Steady (s s' : KPriorityQueue) (id : ℕ) : Prop :=
  ∀ b p c l l', Shows (s.root b p c) (entryOf c s.members) l →
    Shows (s'.root b p c) (entryOf c s'.members) l' →
      l'.filter (fun t => t ≠ id) = l.filter fun t => t ≠ id

theorem Steady.refl (s : KPriorityQueue) (id : ℕ) : Steady s s id := by
  intro b p c l l' h h'
  rw [h.unique h']

theorem Steady.trans {s₁ : KPriorityQueue} (h : Steady s s₁ id) (h' : Steady s₁ s' id)
    (hholds : s₁.Holds mem) : Steady s s' id := by
  intro b p c l l' hl hl'
  obtain ⟨r, hr, -⟩ := hholds b p c
  rw [h' b p c r l' hr hl', h b p c l r hl hr]

theorem placed_unique {props : ThreadProps} {b b' : Bool} {p p' : Fin numPriority}
    (h : placed props b p c) (h' : placed props b' p' c) : b = b' ∧ p = p' := by
  have hb : b = true ↔ b' = true := h.2.2.symm.trans h'.2.2
  have hp : ((p : ℕ) : ℤ) = (p' : ℕ) := h.1.symm.trans h'.1
  refine ⟨?_, Fin.ext (by exact_mod_cast hp)⟩
  cases b <;> cases b' <;> simp_all

/-- A thread other than the member is in one list of a core at most. -/
theorem Agrees.unique (h : s.Agrees mem id) (ht : t ≠ id) {b b' : Bool} {p p' : Fin numPriority}
    (hm : mem b p c t) (hm' : mem b' p' c t) : b = b' ∧ p = p' := by
  obtain ⟨props, hprops, hplaced⟩ := (h t ht b p c).mp hm
  obtain ⟨props', hprops', hplaced'⟩ := (h t ht b' p' c).mp hm'
  obtain rfl := Option.some.inj (hprops.symm.trans hprops')
  exact placed_unique hplaced hplaced'

/-! ### One list changes -/

/-- The state with a new list, new entries and new bits of one core. -/
def commit (s : KPriorityQueue) (b : Bool) (p : Fin numPriority) (c : Fin numCores)
    (q : KPerCoreQueue) (members : MemberMap) (bits : BitSet64) : KPriorityQueue :=
  let impl := ((s.impl b).setQueue p q).setAvailable c bits
  if b then { s with scheduledQueue := impl, members := members }
  else { s with suggestedQueue := impl, members := members }

variable {q : KPerCoreQueue} {members : MemberMap} {bits : BitSet64}

theorem commit_members : (s.commit b p c q members bits).members = members := by
  cases b <;> rfl

theorem commit_impl : (s.commit b p c q members bits).impl b =
    ((s.impl b).setQueue p q).setAvailable c bits := by
  cases b <;> rfl

theorem commit_impl_of_ne {b' : Bool} (hb : b' ≠ b) :
    (s.commit b p c q members bits).impl b' = s.impl b' := by
  cases b <;> cases b' <;> first | rfl | exact absurd rfl hb

theorem commit_root (b' : Bool) (p' : Fin numPriority) (c' : Fin numCores) :
    (s.commit b p c q members bits).root b' p' c' =
      if b' = b ∧ p' = p then q.roots c' else s.root b' p' c' := by
  by_cases hb : b' = b
  · subst hb
    rw [root, commit_impl]
    by_cases hp : p' = p
    · subst hp
      simp [KPriorityQueueImpl.setAvailable, KPriorityQueueImpl.setQueue]
    · simp [KPriorityQueueImpl.setAvailable, KPriorityQueueImpl.setQueue, hp, root]
  · rw [root, commit_impl_of_ne hb, if_neg fun h => hb h.1]
    rfl

theorem commit_available (b' : Bool) (c' : Fin numCores) :
    (s.commit b p c q members bits).available b' c' =
      if b' = b ∧ c' = c then bits else s.available b' c' := by
  by_cases hb : b' = b
  · subst hb
    rw [available, commit_impl]
    by_cases hc : c' = c
    · subst hc
      simp [KPriorityQueueImpl.setAvailable]
    · simp [KPriorityQueueImpl.setAvailable, KPriorityQueueImpl.setQueue, hc, available]
  · rw [available, commit_impl_of_ne hb, if_neg fun h => hb h.1]
    rfl

/-- The relation with the member in or out of one list. -/
def assign (mem : Membership) (b : Bool) (p : Fin numPriority) (c : Fin numCores) (id : ℕ)
    (v : Bool) : Membership := fun b' p' c' t =>
  if t = id ∧ b' = b ∧ p' = p ∧ c' = c then v = true else mem b' p' c' t

/-- The member is in no list of the core, or just in the list that it leaves. -/
def Ready (mem : Membership) (b : Bool) (p : Fin numPriority) (c : Fin numCores) (id : ℕ)
    (v : Bool) : Prop :=
  ∀ b' p', mem b' p' c id → v = false ∧ b' = b ∧ p' = p

/-- A change of one list that takes its member in or out changes the relation there. -/
theorem Holds.commit (h : s.Holds mem) (hagrees : s.Agrees mem id) {v : Bool}
    (honly : ∀ b' p', mem b' p' c id → b' = b ∧ p' = p) {l l' : List ℕ}
    (hl : ∀ t, t ∈ l ↔ mem b p c t)
    (hchange : Changes c id ((s.impl b).queues p) q s.members members l l')
    (hl' : ∀ t, t ∈ l' ↔ assign mem b p c id v b p c t)
    (hbits : ∀ p' : Fin numPriority, bits.has p' =
      if p' = p then !l'.isEmpty else (s.available b c).has p') :
    (s.commit b p c q members bits).Holds (assign mem b p c id v) ∧
      SameProps s (s.commit b p c q members bits) := by
  refine ⟨fun b' p' c' => ?_, fun x => ?_⟩
  · rw [commit_root, commit_available, commit_members]
    by_cases hc : c' = c
    · subst hc
      by_cases hown : b' = b ∧ p' = p
      · obtain ⟨rfl, rfl⟩ := hown
        refine ⟨l', ?_, ?_, hl'⟩
        · rw [if_pos ⟨rfl, rfl⟩]
          exact hchange.own
        · rw [if_pos ⟨rfl, rfl⟩, hbits, if_pos rfl]
      · -- another list of the core
        obtain ⟨r, hr, hbit, hmem⟩ := h b' p' c'
        refine ⟨r, ?_, ?_, fun t => ?_⟩
        · rw [if_neg hown]
          refine hchange.apart _ _ hr fun t ht => ?_
          have hid : t ≠ id := by
            rintro rfl
            exact hown (honly b' p' ((hmem t).mp ht))
          exact ⟨fun hin => hown (hagrees.unique hid ((hmem t).mp ht) ((hl t).mp hin)), hid⟩
        · rw [← hbit]
          by_cases hb : b' = b
          · subst hb
            rw [if_pos ⟨rfl, rfl⟩, hbits, if_neg fun hp => hown ⟨rfl, hp⟩]
          · rw [if_neg fun hboth => hb hboth.1]
        · rw [hmem, assign, if_neg fun hall => hown ⟨hall.2.1, hall.2.2.1⟩]
    · -- another core
      obtain ⟨r, hr, hbit, hmem⟩ := h b' p' c'
      refine ⟨r, ?_, ?_, fun t => ?_⟩
      · rw [hchange.entries c' hc]
        split
        case isTrue hown =>
          obtain ⟨rfl, rfl⟩ := hown
          rw [hchange.roots c' hc]
          exact hr
        case isFalse => exact hr
      · rw [if_neg fun hboth => hc hboth.2, hbit]
      · rw [hmem, assign, if_neg fun hall => hc hall.2.2.2]
  · have hprops := hchange.props x
    rw [propsOf, propsOf] at hprops
    rw [getThreadProps, getThreadProps, commit_members, hprops]

/-- The change leaves the order of the others when the new list does. -/
theorem Holds.commit_steady (h : s.Holds mem) (hagrees : s.Agrees mem id)
    (honly : ∀ b' p', mem b' p' c id → b' = b ∧ p' = p) {l l' : List ℕ}
    (hl : Shows (s.root b p c) (entryOf c s.members) l)
    (hchange : Changes c id ((s.impl b).queues p) q s.members members l l')
    (horder : l'.filter (fun t => t ≠ id) = l.filter fun t => t ≠ id) :
    Steady s (s.commit b p c q members bits) id := by
  intro b' p' c' r r' hr hr'
  rw [commit_root, commit_members] at hr'
  by_cases hc : c' = c
  · subst hc
    by_cases hown : b' = b ∧ p' = p
    · obtain ⟨rfl, rfl⟩ := hown
      rw [if_pos ⟨rfl, rfl⟩] at hr'
      rw [hr.unique hl, hr'.unique hchange.own, horder]
    · -- another list of the core
      rw [if_neg hown] at hr'
      have hmem : ∀ t, t ∈ r → mem b' p' c' t := fun t ht => h.inQueue.mp (hr.reaches_iff.mpr ht)
      have happart := hchange.apart _ _ hr fun t ht => by
        have hid : t ≠ id := by
          rintro rfl
          exact hown (honly b' p' (hmem t ht))
        exact ⟨fun hin => hown (hagrees.unique hid (hmem t ht)
          (h.inQueue.mp (hl.reaches_iff.mpr hin))), hid⟩
      rw [hr'.unique happart]
  · -- another core
    rw [hchange.entries c' hc] at hr'
    split at hr'
    case isTrue hown =>
      obtain ⟨rfl, rfl⟩ := hown
      rw [hchange.roots c' hc] at hr'
      rw [hr.unique hr']
    case isFalse => rw [hr.unique hr']

/-- A list that loses the member. -/
theorem Holds.commit_out (h : s.Holds mem) (hagrees : s.Agrees mem id)
    (hready : Ready mem b p c id false) {l : List ℕ} (hl : ∀ t, t ∈ l ↔ mem b p c t)
    (hbit : (s.available b c).has p = !l.isEmpty) {flag : Bool}
    (hchange : Changes c id ((s.impl b).queues p) q s.members members l
      (l.filter fun t => t ≠ id) ∧ flag = (l.filter fun t => t ≠ id).isEmpty) :
    (s.commit b p c q members
      (if flag then (s.available b c).clearBit p else s.available b c)).Holds
        (assign mem b p c id false) ∧
      SameProps s (s.commit b p c q members
        (if flag then (s.available b c).clearBit p else s.available b c)) := by
  obtain ⟨hlists, rfl⟩ := hchange
  refine h.commit hagrees (fun b' p' hm => (hready b' p' hm).2) hl hlists (fun t => ?_) fun p' => ?_
  · rw [List.mem_filter, hl, assign]
    by_cases ht : t = id <;> simp [ht]
  · cases hempty : (l.filter fun t => t ≠ id).isEmpty with
    | true =>
      rw [if_pos rfl, BitSet64.has_clearBit _ p.isLt p'.isLt]
      by_cases hp : p' = p
      · simp [hp]
      · have hval : (p : ℕ) ≠ p' := fun heq => hp (Fin.ext heq).symm
        simp [hp, hval]
    | false =>
      rw [if_neg Bool.false_ne_true]
      split
      case isTrue hp =>
        subst hp
        have hne : l.isEmpty = false := by
          cases l with
          | nil => simp at hempty
          | cons => rfl
        rw [hbit, hne]
      case isFalse => rfl

/-- A list that gains the member. -/
theorem Holds.commit_in (h : s.Holds mem) (hagrees : s.Agrees mem id)
    (hready : Ready mem b p c id true) {l l' : List ℕ} (hl : ∀ t, t ∈ l ↔ mem b p c t)
    (hbit : (s.available b c).has p = !l.isEmpty) {flag : Bool}
    (hchange : Changes c id ((s.impl b).queues p) q s.members members l l' ∧ flag = l.isEmpty)
    (hl' : ∀ t, t ∈ l' ↔ t = id ∨ t ∈ l) :
    (s.commit b p c q members
      (if flag then (s.available b c).setBit p else s.available b c)).Holds
        (assign mem b p c id true) ∧
      SameProps s (s.commit b p c q members
        (if flag then (s.available b c).setBit p else s.available b c)) := by
  obtain ⟨hlists, rfl⟩ := hchange
  refine h.commit hagrees (fun b' p' hm => (hready b' p' hm).2) hl hlists (fun t => ?_) fun p' => ?_
  · rw [hl', hl, assign]
    by_cases ht : t = id <;> simp [ht]
  · have hne : l'.isEmpty = false :=
      List.isEmpty_eq_false_iff_exists_mem.mpr ⟨id, (hl' id).mpr (.inl rfl)⟩
    rw [hne]
    cases hempty : l.isEmpty with
    | true =>
      rw [if_pos rfl, BitSet64.has_setBit _ p.isLt p'.isLt]
      by_cases hp : p' = p
      · simp [hp]
      · have hval : (p : ℕ) ≠ p' := fun heq => hp (Fin.ext heq).symm
        simp [hp, hval]
    | false =>
      rw [if_neg Bool.false_ne_true]
      split
      case isTrue hp =>
        subst hp
        rw [hbit, hempty]
      case isFalse => rfl

/-! ### The operations -/

theorem priorityIndex_coe (p : Fin numPriority) : priorityIndex (p : ℕ) = some p := by
  have hlt := p.isLt
  rw [priorityIndex, dif_pos ⟨by omega, by exact_mod_cast hlt⟩]
  congr 1

theorem coreIndex_coe (c : Fin numCores) : coreIndex (c : ℕ) = some c := by
  have hlt := c.isLt
  rw [coreIndex, dif_pos ⟨by omega, by exact_mod_cast hlt⟩]
  congr 1

theorem not_above (p : Fin numPriority) : ¬((p : ℕ) : ℤ) > lowestPriority := by
  have hlt : (p : ℕ) < 64 := p.isLt
  rw [lowestPriority]
  omega

theorem setAvailable_self (impl : KPriorityQueueImpl) (p : Fin numPriority) (q : KPerCoreQueue)
    (c : Fin numCores) :
    (impl.setQueue p q).setAvailable c (impl.availablePriorities c) = impl.setQueue p q := by
  simp [KPriorityQueueImpl.setAvailable, KPriorityQueueImpl.setQueue]

/-- An operation that ends with a bit of its list. -/
theorem on_commit {op : QueueOp} {flag : Bool}
    (hop : op (s.impl b) s.members = if flag then
      some (((s.impl b).setQueue p q).setAvailable c bits, members)
      else some ((s.impl b).setQueue p q, members)) :
    s.on b op = some (s.commit b p c q members (if flag then bits else s.available b c)) := by
  have hend : op (s.impl b) s.members = some (((s.impl b).setQueue p q).setAvailable c
      (if flag then bits else s.available b c), members) := by
    rw [hop]
    cases flag with
    | true => rfl
    | false => rw [if_neg Bool.false_ne_true, if_neg Bool.false_ne_true, available,
        setAvailable_self]
  rw [on, hend]
  cases b <;> rfl

theorem on_commit_keep {op : QueueOp}
    (hop : op (s.impl b) s.members = some ((s.impl b).setQueue p q, members)) :
    s.on b op = some (s.commit b p c q members (s.available b c)) := by
  have hend : op (s.impl b) s.members = if false = true then
      some (((s.impl b).setQueue p q).setAvailable c (s.available b c), members)
      else some ((s.impl b).setQueue p q, members) := hop
  exact on_commit hend

theorem on_pushBack (s : KPriorityQueue) (b : Bool) (p : Fin numPriority) (c : Fin numCores)
    (id : ℕ) : s.on b (KPriorityQueueImpl.pushBack (p : ℕ) (c : ℕ) id) =
      let r := ((s.impl b).queues p).pushBack c id s.members
      some (s.commit b p c r.1 r.2.1
        (if r.2.2 then (s.available b c).setBit p else s.available b c)) := by
  refine on_commit ?_
  simp only [KPriorityQueueImpl.pushBack, if_neg (not_above p), priorityIndex_coe, coreIndex_coe,
    Option.bind_eq_bind, Option.bind_some]
  rfl

theorem on_pushFront (s : KPriorityQueue) (b : Bool) (p : Fin numPriority) (c : Fin numCores)
    (id : ℕ) : s.on b (KPriorityQueueImpl.pushFront (p : ℕ) (c : ℕ) id) =
      let r := ((s.impl b).queues p).pushFront c id s.members
      some (s.commit b p c r.1 r.2.1
        (if r.2.2 then (s.available b c).setBit p else s.available b c)) := by
  refine on_commit ?_
  simp only [KPriorityQueueImpl.pushFront, if_neg (not_above p), priorityIndex_coe, coreIndex_coe,
    Option.bind_eq_bind, Option.bind_some]
  rfl

theorem on_remove (s : KPriorityQueue) (b : Bool) (p : Fin numPriority) (c : Fin numCores)
    (id : ℕ) : s.on b (KPriorityQueueImpl.remove (p : ℕ) (c : ℕ) id) =
      let r := ((s.impl b).queues p).remove c id s.members
      some (s.commit b p c r.1 r.2.1
        (if r.2.2 then (s.available b c).clearBit p else s.available b c)) := by
  refine on_commit ?_
  simp only [KPriorityQueueImpl.remove, if_neg (not_above p), priorityIndex_coe, coreIndex_coe,
    Option.bind_eq_bind, Option.bind_some]
  rfl

theorem on_removeAllMatching (order : List ℕ → List ℕ) (s : KPriorityQueue) (b scheduled : Bool)
    (p : Fin numPriority) (c : Fin numCores) (id : ℕ) :
    s.on b (KPriorityQueueImpl.removeAllMatching order (p : ℕ) (c : ℕ) scheduled id) =
      let r := ((s.impl b).queues p).removeAllMatching order c (p : ℕ) scheduled id s.members
      some (s.commit b p c r.1 r.2.1
        (if r.2.2 then (s.available b c).clearBit p else s.available b c)) := by
  refine on_commit ?_
  simp only [KPriorityQueueImpl.removeAllMatching, priorityIndex_coe, coreIndex_coe,
    Option.bind_eq_bind, Option.bind_some]
  rfl

/-- The operation takes the member in or out of one list and leaves the order of all others. -/
def StepsTo (f : Bool → ℤ → QueueOp) (p : Fin numPriority) (id : ℕ) (v : Bool) : Prop :=
  ∀ (s : KPriorityQueue) (mem : Membership) (b : Bool) (c : Fin numCores), s.Holds mem →
    s.Agrees mem id → Ready mem b p c id v → (v = true → (s.getThreadProps id).isSome) →
    ∃ s', s.on b (f b (c : ℕ)) = some s' ∧ Steady s s' id ∧ s'.Holds (assign mem b p c id v) ∧
      SameProps s s'

theorem Ready.only {v : Bool} (h : Ready mem b p c id v) (b' : Bool) (p' : Fin numPriority)
    (hm : mem b' p' c id) : b' = b ∧ p' = p :=
  (h b' p' hm).2

theorem stepsTo_remove (p : Fin numPriority) (id : ℕ) :
    StepsTo (fun _ core => KPriorityQueueImpl.remove (p : ℕ) core id) p id false := by
  intro s mem b c h hagrees hready _
  obtain ⟨l, hl, hbit, hmem⟩ := h b p c
  exact ⟨_, on_remove s b p c id,
    h.commit_steady hagrees hready.only hl (KPerCoreQueue.remove_changes hl).1
      (KPerCoreQueue.filter_twice l id),
    h.commit_out hagrees hready hmem hbit (KPerCoreQueue.remove_changes hl)⟩

theorem getThreadProps_isSome (s : KPriorityQueue) (id : ℕ) :
    (s.getThreadProps id).isSome = (s.members.get id).isSome := by
  rw [getThreadProps, Option.isSome_map]

theorem Ready.not_mem (hready : Ready mem b p c id true) : ¬mem b p c id := fun hm =>
  Bool.noConfusion (hready b p hm).1

theorem stepsTo_pushBack (p : Fin numPriority) (id : ℕ) :
    StepsTo (fun _ core => KPriorityQueueImpl.pushBack (p : ℕ) core id) p id true := by
  intro s mem b c h hagrees hready hslot
  rw [getThreadProps_isSome] at hslot
  obtain ⟨l, hl, hbit, hmem⟩ := h b p c
  have hid : id ∉ l := fun hin => hready.not_mem ((hmem id).mp hin)
  have hchange := KPerCoreQueue.pushBack_changes hl hid (hslot rfl)
  exact ⟨_, on_pushBack s b p c id,
    h.commit_steady hagrees hready.only hl hchange.1 (by simp),
    h.commit_in hagrees hready hmem hbit hchange fun t => by simp [or_comm]⟩

/-- The front of the scheduled lists, the back of the suggested ones. -/
theorem stepsTo_pushFront (p : Fin numPriority) (id : ℕ) :
    StepsTo (fun b core => if b then KPriorityQueueImpl.pushFront (p : ℕ) core id
      else KPriorityQueueImpl.pushBack (p : ℕ) core id) p id true := by
  intro s mem b c h hagrees hready hslot
  cases b with
  | false => exact stepsTo_pushBack p id s mem false c h hagrees hready hslot
  | true =>
    rw [getThreadProps_isSome] at hslot
    obtain ⟨l, hl, hbit, hmem⟩ := h true p c
    have hid : id ∉ l := fun hin => hready.not_mem ((hmem id).mp hin)
    have hchange := KPerCoreQueue.pushFront_changes hl hid (hslot rfl)
    exact ⟨_, on_pushFront s true p c id,
      h.commit_steady hagrees hready.only hl hchange.1 (by simp),
      h.commit_in hagrees hready hmem hbit hchange fun t => by simp⟩

theorem stepsTo_removeAllMatching (order : List ℕ → List ℕ) (p : Fin numPriority) (id : ℕ) :
    StepsTo (fun b core => KPriorityQueueImpl.removeAllMatching order (p : ℕ) core b id)
      p id false := by
  intro s mem b c h hagrees hready _
  obtain ⟨l, hl, hbit, hmem⟩ := h b p c
  have hchange := KPerCoreQueue.removeAllMatching_changes order hl fun t (ht : t ≠ id) => by
    rw [hmem, hagrees t ht b p c]
    constructor
    · rintro ⟨props, hprops, hplaced⟩
      obtain ⟨slot, hget, rfl⟩ := Option.map_eq_some_iff.mp hprops
      exact ⟨slot, hget, (belongs_iff slot).mpr hplaced⟩
    · rintro ⟨slot, hget, hb⟩
      exact ⟨slot.props, Option.map_eq_some_iff.mpr ⟨slot, hget, rfl⟩, (belongs_iff slot).mp hb⟩
  exact ⟨_, on_removeAllMatching order s b b p c id,
    h.commit_steady hagrees hready.only hl hchange.1 (KPerCoreQueue.filter_twice l id),
    h.commit_out hagrees hready hmem hbit hchange⟩

/-! ### Several lists -/

/-- The relation with the member in or out of several lists of one priority. -/
def assignAll (mem : Membership) (pl : List (Bool × Fin numCores)) (p : Fin numPriority) (id : ℕ)
    (v : Bool) : Membership := fun b' p' c' t =>
  if t = id ∧ p' = p ∧ (b', c') ∈ pl then v = true else mem b' p' c' t

theorem foldlM_steps {f : Bool → ℤ → QueueOp} {v : Bool} (hsteps : StepsTo f p id v)
    (pl : List (Bool × Fin numCores)) (hnodup : (pl.map Prod.snd).Nodup) (h : s.Holds mem)
    (hagrees : s.Agrees mem id) (hready : ∀ x ∈ pl, Ready mem x.1 p x.2 id v)
    (hslot : v = true → (s.getThreadProps id).isSome) :
    ∃ s', pl.foldlM (fun s x => s.on x.1 (f x.1 (x.2 : ℕ))) s = some s' ∧
      Steady s s' id ∧ s'.Holds (assignAll mem pl p id v) ∧ SameProps s s' := by
  induction pl generalizing s mem with
  | nil =>
    exact ⟨s, rfl, .refl s id, h.congr fun b p c t => by simp [assignAll], fun _ => rfl⟩
  | cons x pl ih =>
    rw [List.map_cons, List.nodup_cons] at hnodup
    obtain ⟨s₁, hrun, hsteady, hholds, hsame⟩ :=
      hsteps s mem x.1 x.2 h hagrees (hready x (List.mem_cons_self ..)) hslot
    have hagrees₁ : s₁.Agrees (assign mem x.1 p x.2 id v) id := by
      intro t ht b' p' c'
      rw [assign, if_neg fun hall => ht hall.1, hagrees t ht, hsame t]
    have hready₁ : ∀ y ∈ pl, Ready (assign mem x.1 p x.2 id v) y.1 p y.2 id v := by
      -- the lists of the other cores are not touched
      intro y hy b' p' hm
      have hc : y.2 ≠ x.2 := fun heq => hnodup.1 (heq ▸ List.mem_map_of_mem hy)
      rw [assign, if_neg fun hall => hc hall.2.2.2] at hm
      exact hready y (List.mem_cons_of_mem _ hy) b' p' hm
    obtain ⟨s', hrest, hsteady', hholds', hsame'⟩ := ih hnodup.2 hholds hagrees₁ hready₁
      fun hv => by rw [hsame id]; exact hslot hv
    refine ⟨s', ?_, hsteady.trans hsteady' hholds, hholds'.congr fun b' p' c' t => ?_,
      hsame.trans hsame'⟩
    · rw [List.foldlM_cons, hrun]
      exact hrest
    · simp only [assignAll, assign, List.mem_cons, Prod.ext_iff]
      by_cases ht : t = id <;> by_cases hp : p' = p <;> by_cases hin : (b', c') ∈ pl <;>
        simp [ht, hp, hin]

end KPriorityQueue

end Ruzu.PriorityQueue
