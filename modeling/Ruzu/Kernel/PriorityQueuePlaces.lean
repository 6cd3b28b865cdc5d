import Ruzu.Kernel.PriorityQueueMembers

/-!
# The lists of a thread

The loops over an affinity mask visit each core once: the scheduled list of the
active core, the suggested lists of the others. A removal of all of them leaves
the thread in no list, a push puts it in the lists of its priority.
-/

set_option autoImplicit false

namespace Ruzu.PriorityQueue

open DoublyLinked

/-! ### Masks -/

/-- What the checks of the cores accept: no active core or a core of the machine, and a mask of
such cores. -/
def InRange (activeCore : ℤ) (affinity : BitVec 64) : Prop :=
  activeCore < numCores ∧ ∀ i, numCores ≤ i → affinity.getLsbD i = false

def maskCores (affinity : BitVec 64) : List (Fin numCores) :=
  (List.finRange numCores).filter fun c => affinity.getLsbD c

theorem mem_maskCores {affinity : BitVec 64} {c : Fin numCores} :
    c ∈ maskCores affinity ↔ affinity.getLsbD c = true := by
  simp [maskCores]

theorem nodup_maskCores (affinity : BitVec 64) : (maskCores affinity).Nodup :=
  (List.nodup_finRange numCores).filter _

theorem range_eq_finRange : List.range numCores = (List.finRange numCores).map Fin.val :=
  (List.map_coe_finRange_eq_range ..).symm

theorem coresOf_eq {affinity : BitVec 64} (h : ∀ i, numCores ≤ i → affinity.getLsbD i = false) :
    coresOf affinity = (maskCores affinity).map fun (c : Fin numCores) => ((c : ℕ) : ℤ) := by
  have hlow : (List.range 64).filter (fun i => affinity.getLsbD i) =
      (List.range numCores).filter fun i => affinity.getLsbD i := by
    have hrange : List.range 64 = List.range numCores ++ (List.range 60).map (numCores + ·) :=
      List.range_add (n := 4) (m := 60)
    have hhigh : ((List.range 60).map (numCores + ·)).filter (fun i => affinity.getLsbD i) = [] := by
      refine List.filter_eq_nil_iff.mpr fun i hi => ?_
      obtain ⟨k, -, rfl⟩ := List.mem_map.mp hi
      rw [h _ (Nat.le_add_right _ _)]
      exact Bool.false_ne_true
    rw [hrange, List.filter_append, hhigh, List.append_nil]
  rw [coresOf, hlow, range_eq_finRange, List.filter_map, List.map_map]
  rfl

theorem getLsbD_clearAffinityBit (affinity : BitVec 64) {core : ℤ} (hcore : core < numCores)
    {i : ℕ} (hi : i < 64) :
    (clearAffinityBit affinity core).getLsbD i = (affinity.getLsbD i && i ≠ core.toNat) := by
  have hlt : core.toNat < 64 := by
    rw [numCores] at hcore
    omega
  rw [clearAffinityBit, BitVec.getLsbD_and, BitVec.getLsbD_not, BitVec.getLsbD_shiftLeft,
    BitVec.getLsbD_one]
  by_cases heq : i = core.toNat
  · subst heq
    simp
  · simp [heq, hi]
    omega

/-- The scheduled list of the active core, the suggested lists of the other cores of the mask. -/
def places (activeCore : ℤ) (affinity : BitVec 64) : List (Bool × Fin numCores) :=
  (coreIndex activeCore).toList.map (fun (c : Fin numCores) => (true, c)) ++
    ((maskCores affinity).filter fun (c : Fin numCores) => activeCore ≠ (c : ℕ)).map
      fun (c : Fin numCores) => (false, c)

theorem coreIndex_eq_some {core : ℤ} {c : Fin numCores} :
    coreIndex core = some c ↔ core = (c : ℕ) := by
  constructor
  · intro h
    rw [coreIndex] at h
    split at h
    case isTrue hin =>
      obtain rfl := Option.some.inj h
      exact (Int.toNat_of_nonneg hin.1).symm
    case isFalse => cases h
  · rintro rfl
    exact KPriorityQueue.coreIndex_coe c

theorem mem_places {activeCore : ℤ} {affinity : BitVec 64} {b : Bool} {c : Fin numCores} :
    (b, c) ∈ places activeCore affinity ↔
      b = true ∧ activeCore = (c : ℕ) ∨
        b = false ∧ affinity.getLsbD c = true ∧ activeCore ≠ (c : ℕ) := by
  simp only [places, List.mem_append, List.mem_map, Option.mem_toList,
    coreIndex_eq_some, List.mem_filter, mem_maskCores, decide_eq_true_eq, Prod.mk.injEq]
  constructor
  · rintro (⟨x, hx, rfl, rfl⟩ | ⟨x, ⟨hx, hne⟩, rfl, rfl⟩)
    · exact .inl ⟨rfl, hx⟩
    · exact .inr ⟨rfl, hx, hne⟩
  · rintro (⟨rfl, hx⟩ | ⟨rfl, hx, hne⟩)
    · exact .inl ⟨c, hx, rfl, rfl⟩
    · exact .inr ⟨c, ⟨hx, hne⟩, rfl, rfl⟩

theorem nodup_places (activeCore : ℤ) (affinity : BitVec 64) :
    ((places activeCore affinity).map Prod.snd).Nodup := by
  rw [places, List.map_append, List.map_map, List.map_map]
  have hid : ∀ (b : Bool) (l : List (Fin numCores)),
      l.map (Prod.snd ∘ fun c => (b, c)) = l := fun b l => List.map_id' l
  rw [hid, hid, List.nodup_append]
  refine ⟨?_, (nodup_maskCores affinity).filter _, ?_⟩
  · cases coreIndex activeCore <;> simp
  · rintro c hc d hd rfl
    rw [Option.mem_toList, coreIndex_eq_some] at hc
    have hne := (List.mem_filter.mp hd).2
    rw [decide_eq_true_eq] at hne
    exact hne hc

namespace KPriorityQueue

variable {s : KPriorityQueue}

theorem foldlM_filter {α : Type} (f : KPriorityQueue → α → Option KPriorityQueue) (p : α → Bool)
    (l : List α) (s : KPriorityQueue) :
    l.foldlM (fun s a => if p a then f s a else some s) s = (l.filter p).foldlM f s := by
  induction l generalizing s with
  | nil => rfl
  | cons a l ih =>
    by_cases ha : p a = true
    · rw [List.foldlM_cons, if_pos ha, List.filter_cons_of_pos ha, List.foldlM_cons]
      simp only [ih]
    · rw [List.foldlM_cons, if_neg ha, List.filter_cons_of_neg ha]
      exact ih s

/-- The loop over a mask, list by list. -/
theorem onQueues_eq (f : Bool → ℤ → QueueOp) {activeCore : ℤ} {affinity : BitVec 64}
    (h : InRange activeCore affinity) (s : KPriorityQueue) :
    s.onQueues (f true) (f false) activeCore affinity =
      (places activeCore affinity).foldlM (fun s x => s.on x.1 (f x.1 (x.2 : ℕ))) s := by
  have hcores : coresOf (if activeCore ≥ 0 then clearAffinityBit affinity activeCore
      else affinity) = ((maskCores affinity).filter fun (c : Fin numCores) => activeCore ≠ (c : ℕ)).map
        fun (c : Fin numCores) => ((c : ℕ) : ℤ) := by
    rw [coresOf_eq]
    · congr 1
      rw [maskCores, maskCores, List.filter_filter]
      refine List.filter_congr fun c _ => ?_
      have hc : (c : ℕ) < 4 := c.isLt
      split
      case isTrue hge =>
        rw [getLsbD_clearAffinityBit affinity h.1 (by omega), Bool.and_comm]
        congr 1
        rw [decide_eq_decide]
        omega
      case isFalse hlt =>
        rw [decide_eq_true (show activeCore ≠ (c : ℕ) by omega), Bool.true_and]
    · intro i hi
      split
      case isTrue =>
        rcases Nat.lt_or_ge i 64 with hlt | hge
        · rw [getLsbD_clearAffinityBit affinity h.1 hlt, h.2 i hi, Bool.false_and]
        · exact BitVec.getLsbD_of_ge _ _ hge
      case isFalse => exact h.2 i hi
  simp only [onQueues, hcores, places, List.foldlM_append, List.foldlM_map]
  split
  case isTrue hge =>
    have hindex : coreIndex activeCore = some ⟨activeCore.toNat, by have := h.1; omega⟩ := by
      rw [coreIndex_eq_some]
      exact (Int.toNat_of_nonneg hge).symm
    have hcore : ((activeCore.toNat : ℕ) : ℤ) = activeCore := Int.toNat_of_nonneg hge
    rw [hindex]
    simp only [Option.toList_some, List.foldlM_cons, List.foldlM_nil, hcore, bind_pure]
  case isFalse hlt =>
    have hindex : coreIndex activeCore = none := by
      rw [coreIndex, dif_neg fun hin => hlt hin.1]
    rw [hindex]
    simp only [Option.toList_none, List.foldlM_nil]
    rfl

/-- The places of the loop over all cores. -/
def corePlaces (activeCore : ℤ) (affinity : BitVec 64) : List (Bool × Fin numCores) :=
  (maskCores affinity).map fun (c : Fin numCores) => (decide (((c : ℕ) : ℤ) = activeCore), c)

theorem nodup_corePlaces (activeCore : ℤ) (affinity : BitVec 64) :
    ((corePlaces activeCore affinity).map Prod.snd).Nodup := by
  rw [corePlaces, List.map_map]
  exact (List.map_id' (maskCores affinity)).symm ▸ nodup_maskCores affinity

/-- An active core of the mask makes no difference between the two loops. -/
theorem mem_corePlaces {activeCore : ℤ} {affinity : BitVec 64}
    (hactive : ∀ c : Fin numCores, activeCore = (c : ℕ) → affinity.getLsbD c = true) {b : Bool}
    {c : Fin numCores} : (b, c) ∈ corePlaces activeCore affinity ↔
      (b, c) ∈ places activeCore affinity := by
  rw [mem_places, corePlaces]
  simp only [List.mem_map, mem_maskCores, Prod.mk.injEq]
  constructor
  · rintro ⟨d, hd, rfl, rfl⟩
    by_cases heq : ((d : ℕ) : ℤ) = activeCore
    · exact .inl ⟨decide_eq_true heq, heq.symm⟩
    · exact .inr ⟨decide_eq_false heq, hd, fun h => heq h.symm⟩
  · rintro (⟨rfl, heq⟩ | ⟨rfl, hc, hne⟩)
    · exact ⟨c, hactive c heq, decide_eq_true heq.symm, rfl⟩
    · exact ⟨c, hc, decide_eq_false fun h => hne h.symm, rfl⟩

theorem onCores_eq (op : ℤ → QueueOp) (activeCore : ℤ) (affinity : BitVec 64)
    (s : KPriorityQueue) : s.onCores op activeCore affinity =
      (corePlaces activeCore affinity).foldlM (fun s x => s.on x.1 (op (x.2 : ℕ))) s := by
  rw [onCores, range_eq_finRange, List.foldlM_map, corePlaces, List.foldlM_map, maskCores,
    ← foldlM_filter]

/-! ### Priorities -/

theorem priority_cases {priority : ℤ} (h : IsValidPriority priority) :
    (∃ p : Fin numPriority, priority = (p : ℕ)) ∨ priority > lowestPriority := by
  by_cases habove : priority > lowestPriority
  · exact .inr habove
  · have hge : 0 ≤ priority := h.1
    rw [lowestPriority] at habove
    exact .inl ⟨⟨priority.toNat, by rw [numPriority]; omega⟩, (Int.toNat_of_nonneg hge).symm⟩

theorem not_queued {priority : ℤ} (h : priority > lowestPriority) (p : Fin numPriority) :
    priority ≠ (p : ℕ) := by
  have hlt : (p : ℕ) < 64 := p.isLt
  rw [lowestPriority] at h
  omega

theorem on_unchanged {op : QueueOp} {b : Bool} (h : ∀ impl members, op impl members =
    some (impl, members)) : s.on b op = some s := by
  rw [on, h]
  cases b <;> rfl

theorem pushBack_above {priority core : ℤ} {id : ℕ} (h : priority > lowestPriority)
    (impl : KPriorityQueueImpl) (members : MemberMap) :
    KPriorityQueueImpl.pushBack priority core id impl members = some (impl, members) :=
  if_pos h

theorem pushFront_above {priority core : ℤ} {id : ℕ} (h : priority > lowestPriority)
    (impl : KPriorityQueueImpl) (members : MemberMap) :
    KPriorityQueueImpl.pushFront priority core id impl members = some (impl, members) :=
  if_pos h

theorem remove_above {priority core : ℤ} {id : ℕ} (h : priority > lowestPriority)
    (impl : KPriorityQueueImpl) (members : MemberMap) :
    KPriorityQueueImpl.remove priority core id impl members = some (impl, members) :=
  if_pos h

theorem foldlM_unchanged {α : Type} {g : KPriorityQueue → α → Option KPriorityQueue}
    (l : List α) (h : ∀ x ∈ l, g s x = some s) : l.foldlM g s = some s := by
  induction l with
  | nil => rfl
  | cons x l ih =>
    rw [List.foldlM_cons, h x (List.mem_cons_self ..)]
    exact ih fun y hy => h y (List.mem_cons_of_mem _ hy)

/-! ### Leaving and joining the lists -/

section Moves

variable {mem : Membership} {id : ℕ} {priority : ℤ} {pl : List (Bool × Fin numCores)}

/-- The relation without the member. -/
def without (mem : Membership) (id : ℕ) : Membership := fun b p c t => t ≠ id ∧ mem b p c t

/-- The relation with the member at some places of a priority. -/
def joined (mem : Membership) (id : ℕ) (priority : ℤ) (pl : List (Bool × Fin numCores)) :
    Membership := fun b p c t =>
  if t = id then priority = (p : ℕ) ∧ (b, c) ∈ pl else mem b p c t

/-- What the operations on all lists of a member do at any valid priority. -/
def Leaves (f : Bool → ℤ → QueueOp) (id : ℕ) (priority : ℤ) : Prop :=
  (∃ p : Fin numPriority, priority = (p : ℕ) ∧ StepsTo f p id false) ∨
    priority > lowestPriority ∧ ∀ b core impl members, f b core impl members = some (impl, members)

def Joins (f : Bool → ℤ → QueueOp) (id : ℕ) (priority : ℤ) : Prop :=
  (∃ p : Fin numPriority, priority = (p : ℕ) ∧ StepsTo f p id true) ∨
    priority > lowestPriority ∧ ∀ b core impl members, f b core impl members = some (impl, members)

theorem leaves_remove (id : ℕ) (h : IsValidPriority priority) :
    Leaves (fun _ core => KPriorityQueueImpl.remove priority core id) id priority := by
  rcases priority_cases h with ⟨p, rfl⟩ | habove
  · exact .inl ⟨p, rfl, stepsTo_remove p id⟩
  · exact .inr ⟨habove, fun _ _ => remove_above habove⟩

theorem joins_pushBack (id : ℕ) (h : IsValidPriority priority) :
    Joins (fun _ core => KPriorityQueueImpl.pushBack priority core id) id priority := by
  rcases priority_cases h with ⟨p, rfl⟩ | habove
  · exact .inl ⟨p, rfl, stepsTo_pushBack p id⟩
  · exact .inr ⟨habove, fun _ _ => pushBack_above habove⟩

theorem joins_pushFront (id : ℕ) (h : IsValidPriority priority) :
    Joins (fun b core => if b then KPriorityQueueImpl.pushFront priority core id
      else KPriorityQueueImpl.pushBack priority core id) id priority := by
  rcases priority_cases h with ⟨p, rfl⟩ | habove
  · exact .inl ⟨p, rfl, stepsTo_pushFront p id⟩
  · refine .inr ⟨habove, fun b core impl members => ?_⟩
    cases b with
    | false => exact pushBack_above habove impl members
    | true => exact pushFront_above habove impl members

/-- The member is taken out of all its lists. -/
theorem Leaves.run {f : Bool → ℤ → QueueOp} (hf : Leaves f id priority)
    (hnodup : (pl.map Prod.snd).Nodup) (h : s.Holds mem) (hagrees : s.Agrees mem id)
    (hid : ∀ b p c, mem b p c id → priority = (p : ℕ) ∧ (b, c) ∈ pl) :
    ∃ s', pl.foldlM (fun s x => s.on x.1 (f x.1 (x.2 : ℕ))) s = some s' ∧
      Steady s s' id ∧ s'.Holds (without mem id) ∧ SameProps s s' := by
  rcases hf with ⟨p, rfl, hsteps⟩ | ⟨habove, hf⟩
  · have hpriority : ∀ {b p' c}, mem b p' c id → p' = p ∧ (b, c) ∈ pl := by
      intro b p' c hm
      obtain ⟨hp, hin⟩ := hid b p' c hm
      exact ⟨Fin.ext (by exact_mod_cast hp.symm), hin⟩
    obtain ⟨s', hrun, hsteady, hholds, hsame⟩ := foldlM_steps hsteps pl hnodup h hagrees
      (fun x hx b' p' hm => by
        obtain ⟨rfl, hin⟩ := hpriority hm
        have heq := List.inj_on_of_nodup_map hnodup hin hx rfl
        exact ⟨rfl, congrArg Prod.fst heq, rfl⟩) fun hv => Bool.noConfusion hv
    refine ⟨s', hrun, hsteady, hholds.congr fun b p' c t => ?_, hsame⟩
    rw [without, assignAll]
    split
    case isTrue hall => simp [hall.1]
    case isFalse hnot =>
      refine ⟨And.right, fun hm => ⟨?_, hm⟩⟩
      rintro rfl
      exact hnot ⟨rfl, hpriority hm⟩
  · refine ⟨s, foldlM_unchanged pl fun x _ => on_unchanged (hf x.1 _), .refl s id,
      h.congr fun b p c t => ?_, fun _ => rfl⟩
    refine ⟨And.right, fun hm => ⟨?_, hm⟩⟩
    rintro rfl
    exact not_queued habove p (hid b p c hm).1

/-- A member in no list joins its lists. -/
theorem Joins.run {f : Bool → ℤ → QueueOp} (hf : Joins f id priority)
    (hnodup : (pl.map Prod.snd).Nodup) (h : s.Holds mem) (hagrees : s.Agrees mem id)
    (hid : ∀ b p c, ¬mem b p c id) (hslot : (s.getThreadProps id).isSome) :
    ∃ s', pl.foldlM (fun s x => s.on x.1 (f x.1 (x.2 : ℕ))) s = some s' ∧
      Steady s s' id ∧ s'.Holds (joined mem id priority pl) ∧ SameProps s s' := by
  rcases hf with ⟨p, rfl, hsteps⟩ | ⟨habove, hf⟩
  · obtain ⟨s', hrun, hsteady, hholds, hsame⟩ := foldlM_steps hsteps pl hnodup h hagrees
      (fun x _ b' p' hm => absurd hm (hid b' p' x.2)) fun _ => hslot
    refine ⟨s', hrun, hsteady, hholds.congr fun b p' c t => ?_, hsame⟩
    have hval : ((p : ℕ) : ℤ) = (p' : ℕ) ↔ p' = p :=
      ⟨fun heq => Fin.ext (by exact_mod_cast heq.symm), fun heq => by rw [heq]⟩
    rw [joined, assignAll, hval]
    by_cases ht : t = id
    · rw [if_pos ht]
      by_cases hin : p' = p ∧ (b, c) ∈ pl
      · simp [ht, hin]
      · rw [if_neg fun hall => hin hall.2, ht]
        exact ⟨fun hboth => absurd hboth hin, fun hm => absurd hm (hid b p' c)⟩
    · rw [if_neg ht, if_neg fun hall => ht hall.1]
  · refine ⟨s, foldlM_unchanged pl fun x _ => on_unchanged (hf x.1 _), .refl s id,
      h.congr fun b p c t => ?_, fun _ => rfl⟩
    rw [joined]
    split
    case isTrue ht =>
      subst ht
      exact ⟨fun hboth => absurd hboth.1 (not_queued habove p), fun hm => absurd hm (hid b p c)⟩
    case isFalse => exact Iff.rfl

end Moves

end KPriorityQueue

end Ruzu.PriorityQueue
