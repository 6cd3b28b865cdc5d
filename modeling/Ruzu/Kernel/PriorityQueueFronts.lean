import Mathlib
import Ruzu.Kernel.PriorityQueueRuns

/-!
# The order of the lists

The lists of one core, joined from the numerically lowest priority on. The
fronts and the successors that the scheduler asks for walk this one list, and
no call changes the order of the threads that it is not about.
-/

set_option autoImplicit false

namespace Ruzu

namespace PriorityQueue

open DoublyLinked

/-! ### The first bit -/

namespace BitSet64

/-- The bit is the first one from another on, 64 when there is none. -/
structure First (b : BitSet64) (start n : ℕ) : Prop where
  start_le : start ≤ n
  le : n ≤ 64
  has : n < 64 → b.has n = true
  before : ∀ j, start ≤ j → j < n → b.has j = false

theorem leadingZeros_spec {bits : BitVec 64} (h : bits ≠ 0) :
    leadingZeros bits < 64 ∧ bits.getLsbD (63 - leadingZeros bits) = true ∧
      ∀ j < leadingZeros bits, bits.getLsbD (63 - j) = false := by
  have hne : bits.toNat ≠ 0 := fun heq => h (BitVec.eq_of_toNat_eq heq)
  have hlog : bits.toNat.log2 < 64 := (Nat.log2_lt hne).2 bits.isLt
  rw [leadingZeros]
  refine ⟨by omega, ?_, fun j hj => ?_⟩
  · rw [show 63 - (63 - bits.toNat.log2) = bits.toNat.log2 by omega]
    exact Nat.testBit_log2 hne
  · exact Nat.testBit_lt_two_pow (Nat.lt_log2_self.trans_le
      (Nat.pow_le_pow_right Nat.two_pos (by omega)))

theorem countLeadingZero_first (b : BitSet64) : b.First 0 b.countLeadingZero := by
  rw [countLeadingZero]
  split
  case isTrue h =>
    refine ⟨Nat.zero_le _, le_rfl, fun hlt => absurd hlt (lt_irrefl _), fun j _ _ => ?_⟩
    simp [has, h]
  case isFalse h =>
    obtain ⟨hlt, hset, hclear⟩ := leadingZeros_spec h
    exact ⟨Nat.zero_le _, hlt.le, fun _ => hset, fun j _ hj => hclear j hj⟩

/-- The mask keeps the bits after one of them. -/
theorem getLsbD_mask (bits : BitVec 64) {shift i : ℕ} (hshift : shift < 64) :
    (bits &&& (1#64 <<< shift - 1)).getLsbD i = (bits.getLsbD i && decide (i < shift)) := by
  have hmask : (1#64 <<< shift - 1).toNat = 2 ^ shift - 1 := by
    have hle : 2 ^ shift ≤ 2 ^ 63 := Nat.pow_le_pow_right Nat.two_pos (by omega)
    have hpos := Nat.two_pow_pos shift
    have hone : (1#64 <<< shift).toNat = 2 ^ shift := by
      rw [BitVec.toNat_shiftLeft, Nat.shiftLeft_eq, BitVec.toNat_ofNat]
      omega
    have h1 : (1 : BitVec 64).toNat = 1 := rfl
    rw [BitVec.toNat_sub, hone, h1]
    omega
  rw [BitVec.getLsbD_and, BitVec.getLsbD, BitVec.getLsbD, hmask, Nat.testBit_two_pow_sub_one]

theorem getNextSet_first (b : BitSet64) {i : ℕ} (hi : i < 64) :
    b.First (i + 1) (b.getNextSet i) := by
  rw [getNextSet]
  by_cases hlast : i = 63
  · subst hlast
    rw [if_pos (show 63 - ((63 : ℕ) : ℤ) ≤ 0 by omega), if_pos rfl]
    exact ⟨le_rfl, le_rfl, fun hlt => absurd hlt (lt_irrefl _), fun j hj hj' => by omega⟩
  have hshift : (63 - (i : ℤ)).toNat = 63 - i := by omega
  rw [if_neg (show ¬63 - (i : ℤ) ≤ 0 by omega), hshift]
  have hkept : ∀ j, i < j → j < 64 →
      (b.bits &&& (1#64 <<< (63 - i) - 1)).getLsbD (63 - j) = b.has j := by
    intro j hj hj'
    rw [getLsbD_mask _ (by omega), decide_eq_true (show 63 - j < 63 - i by omega), Bool.and_true,
      has]
  generalize hmasked : b.bits &&& (1#64 <<< (63 - i) - 1) = masked at hkept
  split
  case isTrue h =>
    refine ⟨by omega, le_rfl, fun hlt => absurd hlt (lt_irrefl _), fun j hj hj' => ?_⟩
    rw [← hkept j (by omega) hj', h]
    simp
  case isFalse h =>
    obtain ⟨hlt, hset, hclear⟩ := leadingZeros_spec h
    have hafter : i < leadingZeros masked := by
      rw [← hmasked, getLsbD_mask _ (by omega), Bool.and_eq_true, decide_eq_true_eq, hmasked] at hset
      omega
    refine ⟨hafter, hlt.le, fun _ => ?_, fun j hj hj' => ?_⟩
    · rw [← hkept _ hafter hlt, hset]
    · rw [← hkept j hj (hj'.trans hlt), hclear j hj']

end BitSet64

/-! ### Joined lists -/

section Joined

variable (L : Fin numPriority → List ℕ)

/-- The lists from a priority on. -/
def laterLists (n : ℕ) : List ℕ := ((List.finRange numPriority).drop n).flatMap L

theorem laterLists_eq (p : Fin numPriority) :
    laterLists L p = L p ++ laterLists L (p + 1) := by
  have hlt : (p : ℕ) < (List.finRange numPriority).length := by
    rw [List.length_finRange]
    exact p.isLt
  rw [laterLists, List.drop_eq_getElem_cons hlt, List.flatMap_cons, List.getElem_finRange]
  rfl

theorem laterLists_end : laterLists L numPriority = [] := by
  rw [laterLists, List.drop_eq_nil_of_le (List.length_finRange ..).le, List.flatMap_nil]

/-- Empty lists are passed. -/
theorem laterLists_skip {n m : ℕ} (hnm : n ≤ m) (hm : m ≤ numPriority)
    (hempty : ∀ p : Fin numPriority, n ≤ p → (p : ℕ) < m → L p = []) :
    laterLists L n = laterLists L m := by
  induction m, hnm using Nat.le_induction with
  | base => rfl
  | succ m hnm ih =>
    rw [ih (by omega) fun p hp hp' => hempty p hp (by omega)]
    have hlist := laterLists_eq L ⟨m, by omega⟩
    rwa [hempty ⟨m, by omega⟩ hnm (Nat.lt_succ_self m), List.nil_append] at hlist

theorem mem_laterLists {n t : ℕ} : t ∈ laterLists L n ↔ ∃ p : Fin numPriority, n ≤ p ∧ t ∈ L p := by
  rw [laterLists, List.mem_flatMap]
  constructor
  · rintro ⟨p, hp, ht⟩
    obtain ⟨i, hi, heq⟩ := List.mem_iff_getElem.1 hp
    rw [List.getElem_drop, List.getElem_finRange] at heq
    exact ⟨p, by simp [← heq], ht⟩
  · rintro ⟨p, hp, ht⟩
    refine ⟨p, List.mem_iff_getElem.2 ⟨p - n, ?_, ?_⟩, ht⟩
    · rw [List.length_drop, List.length_finRange]
      omega
    · rw [List.getElem_drop, List.getElem_finRange]
      ext
      simp
      omega

/-- A cut of the joined lists is a cut of one of them. -/
theorem laterLists_cut {n t : ℕ} {pre post : List ℕ} (hn : n ≤ numPriority)
    (h : laterLists L n = pre ++ t :: post) : ∃ (p : Fin numPriority) (before after : List ℕ),
      L p = before ++ t :: after ∧ post = after ++ laterLists L (p + 1) := by
  induction hk : numPriority - n generalizing n pre with
  | zero =>
    rw [show n = numPriority by omega, laterLists_end] at h
    simp at h
  | succ k ih =>
    have hlist := laterLists_eq L ⟨n, by omega⟩
    rw [h] at hlist
    rcases List.append_eq_append_iff.1 hlist with ⟨a, hL, hrest⟩ | ⟨a, hpre, hrest⟩
    · cases a with
      | nil =>
        have hnext : laterLists L (n + 1) = [] ++ t :: post := by simpa using hrest.symm
        exact ih (by omega) hnext (by omega)
      | cons x a =>
        obtain ⟨rfl, rfl⟩ := List.cons_eq_cons.1 (by simpa using hrest)
        exact ⟨_, pre, a, hL, rfl⟩
    · have hnext : laterLists L (n + 1) = a ++ t :: post := hrest
      exact ih (by omega) hnext (by omega)

end Joined

/-! ### Walks -/

namespace KPriorityQueue

variable {s s' : KPriorityQueue} {b : Bool} {p : Fin numPriority} {c : Fin numCores}
  {id t : ℕ} {props : ThreadProps} {l : List ℕ}

/-- The lists of a core, one priority after the other. -/
def Walk (s : KPriorityQueue) (b : Bool) (c : Fin numCores) (l : List ℕ) : Prop :=
  ∃ L : Fin numPriority → List ℕ,
    (∀ p, Shows (s.root b p c) (entryOf c s.members) (L p)) ∧ l = laterLists L 0

theorem Inv.walk (h : Inv s) (b : Bool) (c : Fin numCores) : ∃ l, s.Walk b c l := by
  choose L hL using fun p => h.holds b p c
  exact ⟨laterLists L 0, L, fun p => (hL p).1, rfl⟩

theorem Inv.mem_list (h : Inv s) (hl : Shows (s.root b p c) (entryOf c s.members) l) :
    t ∈ l ↔ memOf s b p c t :=
  hl.reaches_iff.symm.trans h.holds.inQueue

theorem Inv.available_list (h : Inv s) (hl : Shows (s.root b p c) (entryOf c s.members) l) :
    (s.available b c).has p = !l.isEmpty := by
  obtain ⟨r, hr, hbit, -⟩ := h.holds b p c
  rw [hbit, hr.unique hl]

theorem Walk.mem_iff (h : s.Walk b c l) (hinv : Inv s) : t ∈ l ↔ ∃ p, memOf s b p c t := by
  obtain ⟨L, hL, rfl⟩ := h
  rw [mem_laterLists]
  exact exists_congr fun p => by simp [hinv.mem_list (hL p)]

theorem placed_priority {props : ThreadProps} (h : placed props b p c) :
    props.priority = (p : ℕ) :=
  h.1

/-- The threads of the joined lists are in the order of their priorities. -/
theorem Walk.sorted (h : s.Walk b c l) (hinv : Inv s) :
    l.Pairwise fun t u => ∀ props props', Knows s t props → Knows s u props' →
      props.priority ≤ props'.priority := by
  obtain ⟨L, hL, rfl⟩ := h
  have hmem : ∀ {p t props}, t ∈ L p → Knows s t props → props.priority = (p : ℕ) := by
    intro p t props ht hprops
    exact placed_priority ((memOf_of_knows hprops).1 ((hinv.mem_list (hL p)).1 ht))
  rw [laterLists, List.drop_zero, List.pairwise_flatMap]
  refine ⟨fun p _ => ?_, ?_⟩
  · refine (List.pairwise_of_forall_mem_list fun t ht u hu props props' hprops hprops' => ?_)
    rw [hmem ht hprops, hmem hu hprops']
  · refine (List.pairwise_lt_finRange _).imp fun {p q} hpq t ht u hu props props' hprops hprops' => ?_
    rw [hmem ht hprops, hmem hu hprops']
    exact_mod_cast hpq.le

theorem Walk.nodup (h : s.Walk b c l) (hinv : Inv s) : l.Nodup := by
  obtain ⟨L, hL, rfl⟩ := h
  rw [laterLists, List.drop_zero, List.nodup_flatMap]
  refine ⟨fun p _ => (hL p).nodup, ?_⟩
  refine (List.pairwise_lt_finRange _).imp fun {p q} hpq t ht hu => ?_
  obtain ⟨props, hprops, hplaced⟩ := (hinv.mem_list (hL p)).1 ht
  have hplaced' := (memOf_of_knows hprops).1 ((hinv.mem_list (hL q)).1 hu)
  exact hpq.ne (placed_unique hplaced hplaced').2

/-- The first non-empty list from a priority on, as its bit tells. -/
theorem front_of_first {L : Fin numPriority → List ℕ} (hinv : Inv s)
    (hL : ∀ p, Shows (s.root b p c) (entryOf c s.members) (L p)) {start n : ℕ}
    (h : (s.available b c).First start n) :
    (if ((n : ℕ) : ℤ) ≤ lowestPriority then do
      let p ← priorityIndex (n : ℕ)
      some (((s.impl b).queues p).getFront c)
    else some none) = some (laterLists L start).head? := by
  have hskip : laterLists L start = laterLists L n :=
    laterLists_skip L h.start_le h.le fun p hp hp' => by
      have hbit := hinv.available_list (hL p)
      rw [h.before p hp hp'] at hbit
      simpa using hbit.symm
  rw [hskip]
  by_cases hn : n < numPriority
  · have hbit := hinv.available_list (hL ⟨n, hn⟩)
    rw [h.has hn] at hbit
    have hlist := laterLists_eq L ⟨n, hn⟩
    have hindex := priorityIndex_coe ⟨n, hn⟩
    rw [hlist, if_pos (not_lt.1 (not_above ⟨n, hn⟩)), hindex, Option.bind_eq_bind, Option.bind_some,
      List.head?_append_of_ne_nil _ (by simpa using hbit.symm)]
    exact congrArg some (hL ⟨n, hn⟩).head
  · obtain rfl : n = numPriority := le_antisymm h.le (not_lt.1 hn)
    rw [laterLists_end, if_neg (by decide)]
    rfl

theorem Walk.front (h : s.Walk b c l) (hinv : Inv s) : s.getFront b (c : ℕ) = some l.head? := by
  obtain ⟨L, hL, rfl⟩ := h
  rw [getFront, KPriorityQueueImpl.getFront, coreIndex_coe, Option.bind_eq_bind, Option.bind_some]
  exact front_of_first hinv hL (BitSet64.countLeadingZero_first _)

theorem entry_of_cut {pre post : List ℕ}
    (h : Shows (s.root b p c) (entryOf c s.members) (pre ++ t :: post)) :
    (entryOf c s.members t).bind Node.next = post.head? := by
  rw [h.chained.at_cut]
  simp

/-- The successor of a thread, asked for with its priority. -/
theorem Walk.next (h : s.Walk b c l) (hinv : Inv s) {pre post : List ℕ}
    (hl : l = pre ++ t :: post) (hprops : Knows s t props) :
    s.getNext b (c : ℕ) t props.priority = some post.head? := by
  obtain ⟨L, hL, rfl⟩ := h
  obtain ⟨p, before, after, hcut, rfl⟩ := laterLists_cut L (Nat.zero_le _) hl
  have hin : t ∈ L p := by simp [hcut]
  have hpriority : props.priority = (p : ℕ) :=
    placed_priority ((memOf_of_knows hprops).1 ((hinv.mem_list (hL p)).1 hin))
  have hentry := entry_of_cut (hcut ▸ hL p)
  rw [getNext, KPriorityQueueImpl.getNext, coreIndex_coe, Option.bind_eq_bind, Option.bind_some,
    hpriority, hentry]
  cases after with
  | cons u after => rfl
  | nil => exact front_of_first hinv hL (BitSet64.getNextSet_first _ p.isLt)

/-- The threads that a core may be asked for: not past the lowest priority, with the core in their
mask, and active there or elsewhere. -/
def Offered (b : Bool) (c : Fin numCores) (props : ThreadProps) : Prop :=
  props.priority ≤ lowestPriority ∧ props.affinity.getLsbD c = true ∧
    (props.activeCore = (c : ℕ) ↔ b = true)

theorem Inv.offered_iff (h : Inv s) (hknows : Knows s t props) :
    Offered b c props ↔ ∃ p, memOf s b p c t := by
  simp only [memOf_of_knows hknows, placed, Offered]
  constructor
  · rintro ⟨hlow, hrest⟩
    rcases priority_cases (h.proper t props hknows).priority with ⟨p, hp⟩ | habove
    · exact ⟨p, hp, hrest⟩
    · exact absurd hlow (not_le.2 habove)
  · rintro ⟨p, hp, hrest⟩
    exact ⟨hp ▸ not_lt.1 (not_above p), hrest⟩

theorem Walk.mem_offered (h : s.Walk b c l) (hinv : Inv s) :
    t ∈ l ↔ ∃ props, Knows s t props ∧ Offered b c props := by
  rw [h.mem_iff hinv]
  constructor
  · rintro ⟨p, hm⟩
    obtain ⟨props, hknows, hplaced⟩ := hm
    exact ⟨props, hknows, (hinv.offered_iff hknows).2 ⟨p, (memOf_of_knows hknows).2 hplaced⟩⟩
  · rintro ⟨props, hknows, hoffered⟩
    exact (hinv.offered_iff hknows).1 hoffered

end KPriorityQueue

open KPriorityQueue

/-- From the front of a core on, the successors pass every thread that is offered to it once, in the
order of the priorities. -/
theorem fronts_in_order {s : KPriorityQueue} (h : Reachable s) (b : Bool) (c : Fin numCores) :
    ∃ l : List ℕ, l.Nodup ∧ (∀ t, t ∈ l ↔ ∃ props, Knows s t props ∧ Offered b c props) ∧
      (l.Pairwise fun t u => ∀ props props', Knows s t props → Knows s u props' →
        props.priority ≤ props'.priority) ∧
      s.getFront b (c : ℕ) = some l.head? ∧
      ∀ pre t post props, l = pre ++ t :: post → Knows s t props →
        s.getNext b (c : ℕ) t props.priority = some post.head? := by
  obtain ⟨l, hl⟩ := h.inv.walk b c
  exact ⟨l, hl.nodup h.inv, fun _ => hl.mem_offered h.inv, hl.sorted h.inv, hl.front h.inv,
    fun pre t post props hcut hknows => hl.next h.inv hcut hknows⟩

/-- Two threads on core 0, the second of the better priority. -/
def twoQueued : KPriorityQueue :=
  ((KPriorityQueue.new.pushBack 7 10 0 3 false none).bind fun s =>
    s.pushBack 8 4 0 1 false none).getD .new

theorem fresh_pushBack {s : KPriorityQueue} {id : ℕ} (h : s.getThreadProps id = none)
    (priority core : ℤ) (affinity : BitVec 64) (count : Option ℕ)
    (hpriority : IsValidPriority priority) (hcore : core < numCores)
    (haffinity : affinity.toNat < 2 ^ numCores)
    (hactive : ∀ c : Fin numCores, core = (c : ℕ) → affinity.getLsbD c = true) :
    (Operation.pushBack id priority core affinity false count).Accepted s ∧
      (Operation.pushBack id priority core affinity false count).Consistent s :=
  ⟨.inr ⟨hpriority, inRange_of_lt hcore haffinity, fun props hknows => by
    rw [Knows, h] at hknows
    cases hknows⟩, .inr hactive⟩

theorem twoQueued_reachable : Reachable twoQueued := by
  have hnew : KPriorityQueue.new.getThreadProps 7 = none := rfl
  obtain ⟨hok, hcaller⟩ := fresh_pushBack hnew 10 0 3 none (by decide) (by decide) (by decide)
    (by decide)
  have hfirst : Reachable ((KPriorityQueue.new.pushBack 7 10 0 3 false none).getD .new) :=
    .step id _ .new hok hcaller rfl
  have hnext : ((KPriorityQueue.new.pushBack 7 10 0 3 false none).getD .new).getThreadProps 8 =
      none := rfl
  obtain ⟨hok', hcaller'⟩ := fresh_pushBack hnext 4 0 1 none (by decide) (by decide) (by decide)
    (by decide)
  exact .step id _ hfirst hok' hcaller' rfl

theorem fronts_in_order_twoQueued : ∃ l : List ℕ, l.Nodup ∧ l.head? = some 8 ∧
    ∀ t, t ∈ l ↔ ∃ props, Knows twoQueued t props ∧ Offered true ⟨0, by decide⟩ props := by
  obtain ⟨l, hnodup, hmem, -, hfront, -⟩ :=
    fronts_in_order twoQueued_reachable true ⟨0, by decide⟩
  have heval : twoQueued.getFront true 0 = some (some 8) := rfl
  exact ⟨l, hnodup, Option.some.inj (hfront.symm.trans heval), hmem⟩

/-! ### Runs -/

namespace KPriorityQueue

variable {s s' : KPriorityQueue} {b : Bool} {c : Fin numCores} {id : ℕ} {l l' : List ℕ}
  {named : Finset ℕ}

theorem Steady.walk (h : Steady s s' id) (hl : s.Walk b c l) (hl' : s'.Walk b c l') :
    l'.filter (fun t => t ≠ id) = l.filter fun t => t ≠ id := by
  obtain ⟨L, hL, rfl⟩ := hl
  obtain ⟨L', hL', rfl⟩ := hl'
  rw [laterLists, laterLists, List.filter_flatMap, List.filter_flatMap]
  exact List.flatMap_congr fun p _ => h b p c _ _ (hL p) (hL' p)

theorem Walk.unique (h : s.Walk b c l) (h' : s.Walk b c l') : l = l' := by
  obtain ⟨L, hL, rfl⟩ := h
  obtain ⟨L', hL', rfl⟩ := h'
  rw [show L = L' from funext fun p => (hL p).unique (hL' p)]

theorem filter_named (hid : id ∈ named)
    (h : l'.filter (fun t => t ≠ id) = l.filter fun t => t ≠ id) :
    l'.filter (fun t => t ∉ named) = l.filter fun t => t ∉ named := by
  have hsplit : ∀ r : List ℕ, r.filter (fun t => t ∉ named) =
      (r.filter fun t => t ≠ id).filter fun t => t ∉ named := by
    intro r
    rw [List.filter_filter]
    refine List.filter_congr fun t _ => ?_
    by_cases ht : t = id <;> simp [ht, hid]
  rw [hsplit, hsplit l, h]

/-- Runs of consistent calls about some threads only, with queries between them. -/
inductive Run (named : Finset ℕ) (s : KPriorityQueue) : KPriorityQueue → Prop
  | refl : Run named s s
  | step {s₁ s' : KPriorityQueue} (order : List ℕ → List ℕ) (op : Operation) (h : Run named s s₁)
    (about : ∀ id, op.member = some id → id ∈ named) (ok : op.Accepted s₁)
    (caller : op.Consistent s₁) (run : op.apply order s₁ = some s') : Run named s s'

theorem Run.inv (h : Run named s s') (hinv : Inv s) : Inv s' := by
  induction h with
  | refl => exact hinv
  | step _ _ _ _ ok caller run ih => exact Operation.apply_inv ih ok caller run

theorem Run.walk (h : Run named s s') (hinv : Inv s) (hl : s.Walk b c l) (hl' : s'.Walk b c l') :
    l'.filter (fun t => t ∉ named) = l.filter fun t => t ∉ named := by
  induction h generalizing l' with
  | refl => rw [hl.unique hl']
  | step order op h about ok caller run ih =>
    have hinv₁ := h.inv hinv
    rcases op.apply_keeps hinv₁ ok caller run with ⟨-, rfl⟩ | ⟨id, hid, hkeeps⟩
    · exact ih hl'
    · obtain ⟨l₁, hl₁⟩ := hinv₁.walk b c
      rw [← ih hl₁]
      exact filter_named (about id hid) (hkeeps.2.walk hl₁ hl')

end KPriorityQueue

/-- The threads that no call of a run is about are passed in their old order, none of them lost and
none added. -/
theorem run_keeps_order {s s' : KPriorityQueue} {named : Finset ℕ} (h : Reachable s)
    (hrun : Run named s s') (b : Bool) (c : Fin numCores) :
    ∃ l l' : List ℕ, s.Walk b c l ∧ s'.Walk b c l' ∧ s.getFront b (c : ℕ) = some l.head? ∧
      s'.getFront b (c : ℕ) = some l'.head? ∧
      l'.filter (fun t => t ∉ named) = l.filter fun t => t ∉ named := by
  have hinv' := hrun.inv h.inv
  obtain ⟨l, hl⟩ := h.inv.walk b c
  obtain ⟨l', hl'⟩ := hinv'.walk b c
  exact ⟨l, l', hl, hl', hl.front h.inv, hl'.front hinv', hrun.walk h.inv hl hl'⟩

/-- A third thread of the better priority. -/
def threeQueued : KPriorityQueue := (twoQueued.pushBack 9 4 0 1 false none).getD .new

/-- It goes behind the second. -/
theorem run_keeps_order_threeQueued : ∃ l l' : List ℕ, twoQueued.Walk true ⟨0, by decide⟩ l ∧
    threeQueued.Walk true ⟨0, by decide⟩ l' ∧ l.head? = some 8 ∧ l'.head? = some 8 ∧
    l'.filter (fun t => t ∉ ({9} : Finset ℕ)) = l.filter fun t => t ∉ ({9} : Finset ℕ) := by
  have hnew : twoQueued.getThreadProps 9 = none := rfl
  obtain ⟨hok, hcaller⟩ := fresh_pushBack hnew 4 0 1 none (by decide) (by decide) (by decide)
    (by decide)
  have hrun : Run {9} twoQueued threeQueued :=
    .step id _ .refl (fun member hmember => by simpa using (Option.some.inj hmember).symm) hok
      hcaller rfl
  obtain ⟨l, l', hl, hl', hfront, hfront', horder⟩ :=
    run_keeps_order twoQueued_reachable hrun true ⟨0, by decide⟩
  have heval : twoQueued.getFront true 0 = some (some 8) := rfl
  have heval' : threeQueued.getFront true 0 = some (some 8) := rfl
  exact ⟨l, l', hl, hl', Option.some.inj (hfront.symm.trans heval),
    Option.some.inj (hfront'.symm.trans heval'), horder⟩

end PriorityQueue

end Ruzu
