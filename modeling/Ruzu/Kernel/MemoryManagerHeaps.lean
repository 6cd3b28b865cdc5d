import Ruzu.Kernel.MemoryManager
import Ruzu.Kernel.PageHeapRuns
import Ruzu.Lib.Linked

/-!
# The managers and their free pages

The managers hold disjoint regions, so one set of pages says what is free in
all of them. Operations on one manager keep its region, its links and the other
managers; the pages of a pool's regions have 32-bit numbers, as a block info
stores them.
-/

set_option autoImplicit false

namespace Ruzu.MemoryManager
open Ruzu.MemoryBlock (pageSize)
open Ruzu.PageHeap Ruzu.PageGroup Finset

namespace Impl

def first (m : Impl) : ℕ := m.heap.heapAddress / pageSize
def stop (m : Impl) : ℕ := (m.heap.heapAddress + m.heap.heapSize) / pageSize
def pages (m : Impl) : Finset ℕ := Ico m.first m.stop

/-- `m'` is `m` with another state of its heap. -/
def Same (m m' : Impl) : Prop :=
  ∃ h, m' = { m with heap := h } ∧ h.heapAddress = m.heap.heapAddress ∧
    h.heapSize = m.heap.heapSize

theorem Same.refl (m : Impl) : Same m m := ⟨m.heap, rfl, rfl, rfl⟩

theorem Same.trans {a b c : Impl} (h : Same a b) (k : Same b c) : Same a c := by
  obtain ⟨h₁, rfl, ha, hs⟩ := h
  obtain ⟨h₂, rfl, ka, ks⟩ := k
  exact ⟨h₂, rfl, ka.trans ha, ks.trans hs⟩

variable {m m' : Impl}

theorem Same.first (h : Same m m') : m'.first = m.first := by
  obtain ⟨h, rfl, ha, _⟩ := h
  rw [Impl.first, Impl.first, ha]

theorem Same.stop (h : Same m m') : m'.stop = m.stop := by
  obtain ⟨h, rfl, ha, hs⟩ := h
  rw [Impl.stop, Impl.stop, ha, hs]

theorem Same.pages (h : Same m m') : m'.pages = m.pages := by
  rw [Impl.pages, Impl.pages, h.first, h.stop]

theorem Same.counts (h : Same m m') : m'.pageReferenceCounts = m.pageReferenceCounts := by
  obtain ⟨h, rfl, _⟩ := h
  rfl

theorem Same.next (h : Same m m') (dir : Direction) :
    KMemoryManager.nextManager m' dir = KMemoryManager.nextManager m dir := by
  obtain ⟨h, rfl, _⟩ := h
  cases dir with
  | fromFront => rfl
  | fromBack => rfl

end Impl

open Impl (Same)

/-- The pages `G` are free in the managers `ms`. -/
structure Managed (ms : List Impl) (G : Finset ℕ) : Prop where
  free : ∀ (i : ℕ) (m : Impl), ms[i]? = some m → Free m.heap m.first m.stop (G ∩ m.pages)
  counts : ∀ (i : ℕ) (m : Impl), ms[i]? = some m → m.pageReferenceCounts.length = m.stop - m.first
  below : ∀ (i : ℕ) (m : Impl), ms[i]? = some m → m.stop ≤ 2^32
  apart : ∀ (i j : ℕ) (m m' : Impl), ms[i]? = some m → ms[j]? = some m' → i ≠ j → Disjoint m.pages m'.pages
  sub : ∀ p ∈ G, ∃ (i : ℕ) (m : Impl), ms[i]? = some m ∧ p ∈ m.pages

variable {ms ms' : List Impl} {G : Finset ℕ} {i : ℕ} {m m' : Impl}

theorem getElem?_set_cases {j : ℕ} {x : Impl} (h : (ms.set i m')[j]? = some x) :
    (j = i ∧ x = m' ∧ i < ms.length) ∨ (j ≠ i ∧ ms[j]? = some x) := by
  rw [List.getElem?_set] at h
  by_cases hij : i = j
  · subst hij
    rw [if_pos rfl] at h
    by_cases hlt : i < ms.length
    · rw [if_pos hlt] at h
      exact .inl ⟨rfl, (Option.some.inj h).symm, hlt⟩
    · rw [if_neg hlt] at h
      exact absurd h (by simp)
  · rw [if_neg hij] at h
    exact .inr ⟨Ne.symm hij, h⟩

theorem getElem?_set_other {j : ℕ} (h : j ≠ i) : (ms.set i m')[j]? = ms[j]? := by
  rw [List.getElem?_set, if_neg (Ne.symm h)]

theorem getElem?_set_self (h : ms[i]? = some m) : (ms.set i m')[i]? = some m' := by
  have hlt : i < ms.length := (List.getElem?_eq_some_iff.mp h).1
  rw [List.getElem?_set, if_pos rfl, if_pos hlt]

/-- Replacing one manager by one over the same region, with the free pages changed there only. -/
theorem Managed.set (h : Managed ms G) (hm : ms[i]? = some m) {G' : Finset ℕ}
    (hfirst : m'.first = m.first) (hstop : m'.stop = m.stop)
    (hfree : Free m'.heap m.first m.stop (G' ∩ m.pages))
    (hcounts : m'.pageReferenceCounts.length = m.pageReferenceCounts.length)
    (hout : ∀ p, p ∉ m.pages → (p ∈ G' ↔ p ∈ G)) : Managed (ms.set i m') G' := by
  have hpages : m'.pages = m.pages := by rw [Impl.pages, Impl.pages, hfirst, hstop]
  constructor
  · intro j x hx
    rcases getElem?_set_cases hx with ⟨rfl, rfl, _⟩ | ⟨hj, hx⟩
    · rw [hfirst, hstop, hpages]
      exact hfree
    · have heq : G' ∩ x.pages = G ∩ x.pages := by
        ext p
        rw [mem_inter, mem_inter]
        apply and_congr_left
        intro hp
        exact hout p fun hpm => disjoint_left.mp (h.apart j i x m hx hm hj) hp hpm
      rw [heq]
      exact h.free j x hx
  · intro j x hx
    rcases getElem?_set_cases hx with ⟨rfl, rfl, _⟩ | ⟨hj, hx⟩
    · rw [hcounts, hfirst, hstop]
      exact h.counts j m hm
    · exact h.counts j x hx
  · intro j x hx
    rcases getElem?_set_cases hx with ⟨rfl, rfl, _⟩ | ⟨hj, hx⟩
    · rw [hstop]
      exact h.below j m hm
    · exact h.below j x hx
  · intro j k x y hx hy hjk
    rcases getElem?_set_cases hx with ⟨rfl, rfl, _⟩ | ⟨_, hx'⟩
    · rcases getElem?_set_cases hy with ⟨rfl, rfl, _⟩ | ⟨_, hy'⟩
      · exact absurd rfl hjk
      · rw [hpages]
        exact h.apart j k m y hm hy' hjk
    · rcases getElem?_set_cases hy with ⟨rfl, rfl, _⟩ | ⟨_, hy'⟩
      · rw [hpages]
        exact h.apart j k x m hx' hm hjk
      · exact h.apart j k x y hx' hy' hjk
  · intro p hp
    by_cases hpm : p ∈ m.pages
    · exact ⟨i, m', getElem?_set_self hm, by rwa [hpages]⟩
    · obtain ⟨j, x, hx, hpx⟩ := h.sub p ((hout p hpm).mp hp)
      have hj : j ≠ i := by
        rintro rfl
        rw [hm] at hx
        cases hx
        exact hpm hpx
      exact ⟨j, x, by rw [getElem?_set_other hj]; exact hx, hpx⟩

theorem Managed.address (h : Managed ms G) (hm : ms[i]? = some m) :
    m.heap.heapAddress = m.first*pageSize ∧
      m.heap.heapAddress+m.heap.heapSize = m.stop*pageSize ∧ m.first ≤ m.stop := by
  have hf := h.free i m hm
  have h1 := hf.address
  have h2 := hf.extent
  have h3 : m.stop = (m.heap.heapAddress+m.heap.heapSize)/pageSize := rfl
  simp only [pageSize] at h1 h2 h3 ⊢
  omega

theorem Managed.same_of_free (h : Managed ms G) (hm : ms[i]? = some m) {k : KPageHeap}
    {F : Finset ℕ} (hk : Free k m.first m.stop F) : Same m { m with heap := k } := by
  have hf := h.free i m hm
  exact ⟨k, rfl, hk.address.trans hf.address.symm, hk.extent.trans hf.extent.symm⟩

/-- The address of page `p` is in the manager exactly when the page is. -/
theorem Managed.contains_iff (h : Managed ms G) (hm : ms[i]? = some m) (p : ℕ) :
    m.contains (p*pageSize) = true ↔ p ∈ m.pages := by
  obtain ⟨h1, h2, _⟩ := h.address hm
  rw [Impl.contains, Impl.getEndAddress, KPageHeap.getEndAddress, h2, h1, decide_eq_true_eq,
    Impl.pages, mem_Ico]
  simp only [pageSize]
  omega

theorem Managed.findManagerIndex (h : Managed ms G) (hm : ms[i]? = some m) {p : ℕ}
    (hp : p ∈ m.pages) : KMemoryManager.findManagerIndex ms (p*pageSize) = some i := by
  rw [KMemoryManager.findManagerIndex, List.findIdx?_eq_some_iff_getElem]
  obtain ⟨hi, hget⟩ := List.getElem?_eq_some_iff.mp hm
  refine ⟨hi, ?_, ?_⟩
  · rw [hget]
    exact (h.contains_iff hm p).mpr hp
  · intro j hj
    have hj' : ms[j]? = some ms[j] := List.getElem?_eq_getElem (by omega)
    intro hc
    have hpj := (h.contains_iff hj' p).mp hc
    exact disjoint_left.mp (h.apart j i _ m hj' hm (by omega)) hpj hp

theorem Managed.pageOffset (h : Managed ms G) (hm : ms[i]? = some m) {p : ℕ}
    (hp : p ∈ m.pages) : m.getPageOffset (p*pageSize) = p - m.first ∧
      m.getPageOffsetToEnd (p*pageSize) = m.stop - p := by
  obtain ⟨h1, h2, _⟩ := h.address hm
  rw [Impl.pages, mem_Ico] at hp
  rw [Impl.getPageOffset, KPageHeap.getPageOffset, Impl.getPageOffsetToEnd,
    KPageHeap.getPageOffsetToEnd, KPageHeap.getEndAddress, h1, ← h1, h2, h1]
  simp only [pageSize]
  omega

theorem inter_union_of_subset {A B C : Finset ℕ} (h : B ⊆ C) : (A ∪ B) ∩ C = A ∩ C ∪ B := by
  rw [union_inter_distrib_right, inter_eq_left.mpr h]

theorem Managed.freePages (h : Managed ms G) (hm : ms[i]? = some m) (p n : ℕ)
    (hin : Ico p (p+n) ⊆ m.pages) (hd : Disjoint G (Ico p (p+n))) :
    ∃ m', m.free (p*pageSize) n = some m' ∧ Same m m' ∧
      Managed (ms.set i m') (G ∪ Ico p (p+n)) := by
  obtain ⟨k, hk, hf⟩ := free_free (h.free i m hm) p n hin
    (disjoint_of_subset_left inter_subset_left hd)
  have hsame := h.same_of_free hm hf
  refine ⟨{ m with heap := k }, ?_, hsame, ?_⟩
  · rw [Impl.free, hk]
    rfl
  · apply h.set hm hsame.first hsame.stop
    · rwa [inter_union_of_subset hin]
    · rfl
    · intro q hq
      rw [mem_union]
      exact or_iff_left fun hqp => hq (hin hqp)

/-- What a heap hands out is a free range of its manager. -/
theorem Managed.granted (h : Managed ms G) (hm : ms[i]? = some m) {n align r : ℕ} {k : KPageHeap}
    (hg : Granted m.first m.stop (G ∩ m.pages) n align r k) :
    Same m { m with heap := k } ∧
    ((r = 0 ∧ Managed (ms.set i { m with heap := k }) G) ∨
      ∃ p, r = p*pageSize ∧ r ≠ 0 ∧ Ico p (p+n) ⊆ m.pages ∧ Ico p (p+n) ⊆ G ∧
        Managed (ms.set i { m with heap := k }) (G \ Ico p (p+n))) := by
  rcases hg with ⟨hr, hf⟩ | ⟨p, hr, hr0, _, hsub, hf⟩
  · have hsame := h.same_of_free hm hf
    exact ⟨hsame, .inl ⟨hr, h.set hm hsame.first hsame.stop hf rfl fun _ _ => Iff.rfl⟩⟩
  · have hsame := h.same_of_free hm hf
    refine ⟨hsame, .inr ⟨p, hr, hr0, hsub.trans inter_subset_right,
      hsub.trans inter_subset_left, ?_⟩⟩
    apply h.set hm hsame.first hsame.stop
    · have heq : (G \ Ico p (p+n)) ∩ m.pages = (G ∩ m.pages) \ Ico p (p+n) := by
        ext q
        simp only [mem_inter, mem_sdiff]
        tauto
      rwa [heq]
    · rfl
    · intro q hq
      rw [mem_sdiff]
      constructor
      · exact And.left
      · intro hqG
        exact ⟨hqG, fun hqp => hq (hsub.trans inter_subset_right hqp)⟩

/-- The managers `ms'` are `ms` with other states of their heaps. -/
def SameAll (ms ms' : List Impl) : Prop := List.Forall₂ Same ms ms'

theorem SameAll.refl (ms : List Impl) : SameAll ms ms := by
  induction ms with
  | nil => exact .nil
  | cons m ms ih => exact .cons (Same.refl m) ih

theorem SameAll.trans {a b c : List Impl} (h : SameAll a b) (k : SameAll b c) : SameAll a c := by
  induction h generalizing c with
  | nil => exact k
  | cons h _ ih =>
    cases k with
    | cons k ks => exact .cons (h.trans k) (ih ks)

theorem SameAll.set (h : SameAll ms ms') {x y : Impl} (hx : ms'[i]? = some x) (hxy : Same x y) :
    SameAll ms (ms'.set i y) := by
  induction h generalizing i with
  | nil => exact .nil
  | @cons a b as bs hab hs ih =>
    cases i with
    | zero =>
      rw [List.getElem?_cons_zero] at hx
      cases hx
      exact .cons (hab.trans hxy) hs
    | succ i => exact .cons hab (ih hx)

theorem SameAll.get (h : SameAll ms ms') (hm : ms[i]? = some m) :
    ∃ m', ms'[i]? = some m' ∧ Same m m' := by
  induction h generalizing i with
  | nil => exact absurd hm (by simp)
  | @cons a b as bs hab hs ih =>
    cases i with
    | zero =>
      rw [List.getElem?_cons_zero] at hm
      cases hm
      exact ⟨b, rfl, hab⟩
    | succ i => exact ih hm

theorem SameAll.get' (h : SameAll ms ms') (hm : ms'[i]? = some m') :
    ∃ m, ms[i]? = some m ∧ Same m m' := by
  induction h generalizing i with
  | nil => exact absurd hm (by simp)
  | @cons a b as bs hab hs ih =>
    cases i with
    | zero =>
      rw [List.getElem?_cons_zero] at hm
      cases hm
      exact ⟨a, rfl, hab⟩
    | succ i => exact ih hm

theorem SameAll.length (h : SameAll ms ms') : ms'.length = ms.length :=
  (List.Forall₂.length_eq h).symm

/-- The manager after `i` in a direction. -/
def link (ms : List Impl) (dir : Direction) (i : ℕ) : Option ℕ :=
  ms[i]?.bind fun m => KMemoryManager.nextManager m dir

theorem SameAll.link (h : SameAll ms ms') (dir : Direction) : link ms' dir = link ms dir := by
  funext i
  rw [MemoryManager.link, MemoryManager.link]
  cases hm : ms[i]? with
  | none =>
    have hlen := h.length
    rw [List.getElem?_eq_none_iff] at hm
    rw [List.getElem?_eq_none (by omega)]
  | some m =>
    obtain ⟨m', hm', hs⟩ := h.get hm
    rw [hm', Option.bind_some, Option.bind_some, hs.next]

/-- Page `p` is free in the `i`-th manager. -/
def freeIn (ms : List Impl) (i p : ℕ) : Prop :=
  ∃ m : Impl, ms[i]? = some m ∧ ∃ k < 7, freeAt m.heap k p

theorem Managed.freeIn_iff (h : Managed ms G) (i p : ℕ) :
    freeIn ms i p ↔ ∃ m, ms[i]? = some m ∧ p ∈ G ∧ p ∈ m.pages := by
  apply exists_congr
  intro m
  apply and_congr_right
  intro hm
  rw [← (h.free i m hm).mem_iff p, mem_inter]

/-- The managers agree on every free page exactly when the sets of free pages are equal. -/
theorem Managed.free_eq_iff {G' : Finset ℕ} (h : Managed ms G) (h' : Managed ms' G')
    (hs : SameAll ms ms') : (∀ i p, freeIn ms' i p ↔ freeIn ms i p) ↔ G' = G := by
  constructor
  · intro heq
    ext p
    constructor
    · intro hp
      obtain ⟨i, m', hm', hpm⟩ := h'.sub p hp
      obtain ⟨_, _, hpG, _⟩ := (h.freeIn_iff i p).mp
        ((heq i p).mp ((h'.freeIn_iff i p).mpr ⟨m', hm', hp, hpm⟩))
      exact hpG
    · intro hp
      obtain ⟨i, m, hm, hpm⟩ := h.sub p hp
      obtain ⟨_, _, hpG, _⟩ := (h'.freeIn_iff i p).mp
        ((heq i p).mpr ((h.freeIn_iff i p).mpr ⟨m, hm, hp, hpm⟩))
      exact hpG
  · rintro rfl i p
    rw [h'.freeIn_iff, h.freeIn_iff]
    constructor
    · rintro ⟨m', hm', hp, hpm⟩
      obtain ⟨m, hm, hmm⟩ := hs.get' hm'
      exact ⟨m, hm, hp, by rwa [← hmm.pages]⟩
    · rintro ⟨m, hm, hp, hpm⟩
      obtain ⟨m', hm', hmm⟩ := hs.get hm
      exact ⟨m', hm', hp, by rwa [hmm.pages]⟩

/-- A pool's managers are one chain, read from its head and from its tail. -/
structure Pooled (mm : KMemoryManager) (pool : Pool) (is : List ℕ) : Prop where
  front : Linked.Chain (link mm.managers .fromFront) (mm.poolManagersHead pool) is
  back : Linked.Chain (link mm.managers .fromBack) (mm.poolManagersTail pool) is.reverse
  members : ∀ i ∈ is, ∃ m, mm.managers[i]? = some m ∧ m.pool = pool

structure Coherent (mm : KMemoryManager) (G : Finset ℕ) : Prop where
  managed : Managed mm.managers G
  chains : ∀ pool, ∃ is, Pooled mm pool is

/-- The chain of a pool in either direction. -/
theorem Coherent.chain {mm : KMemoryManager} (h : Coherent mm G) (pool : Pool) (dir : Direction) :
    ∃ is, Linked.Chain (link mm.managers dir) (mm.getFirstManager pool dir) is ∧
      ∀ i ∈ is, i < mm.managers.length := by
  obtain ⟨is, hp⟩ := h.chains pool
  have hlt : ∀ i ∈ is, i < mm.managers.length := by
    intro i hi
    obtain ⟨m, hm, _⟩ := hp.members i hi
    exact (List.getElem?_eq_some_iff.mp hm).1
  cases dir with
  | fromFront => exact ⟨is, hp.front, hlt⟩
  | fromBack => exact ⟨is.reverse, hp.back, fun i hi => hlt i (List.mem_reverse.mp hi)⟩

/-- A chain visits no manager twice, so it is no longer than the list of managers. -/
theorem chain_length {dir : Direction} {first : Option ℕ} {is : List ℕ}
    (hc : Linked.Chain (link ms dir) first is) (hi : ∀ i ∈ is, i < ms.length) :
    is.length ≤ ms.length := by
  have hnd := Linked.chain_nodup hc
  have hsub : is.toFinset ⊆ range ms.length := by
    intro i h
    rw [List.mem_toFinset] at h
    rw [mem_range]
    exact hi i h
  have := card_le_card hsub
  rwa [List.toFinset_card_of_nodup hnd, card_range] at this

end Ruzu.MemoryManager
