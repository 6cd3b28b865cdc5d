import Ruzu.Kernel.MemoryManagerHeaps

/-!
# Setting up the pools

A manager starts with no pools; `initialize_pool` adds one region, all of it
free, behind the last manager of its pool.
-/

set_option autoImplicit false

namespace Ruzu.MemoryManager
open Ruzu.MemoryBlock (pageSize)
open Ruzu.PageHeap Ruzu.PageGroup Finset KMemoryManager
open Impl (Same)

variable {ms : List Impl} {G : Finset ℕ} {m : Impl}

theorem getElem?_snoc_cases {i : ℕ} {x : Impl} (h : (ms ++ [m])[i]? = some x) :
    ms[i]? = some x ∨ (i = ms.length ∧ x = m) := by
  rw [List.getElem?_append] at h
  split at h
  · exact .inl h
  · rename_i hlt
    right
    have hi : i - ms.length = 0 := by
      by_contra hne
      rw [List.getElem?_eq_none (by simp; omega)] at h
      simp at h
    rw [hi] at h
    exact ⟨by omega, (Option.some.inj h).symm⟩

theorem getElem?_snoc_old {i : ℕ} {x : Impl} (h : ms[i]? = some x) :
    (ms ++ [m])[i]? = some x := by
  rw [List.getElem?_append_left (List.getElem?_eq_some_iff.mp h).1, h]

theorem getElem?_snoc_new : (ms ++ [m])[ms.length]? = some m := by simp

/-- One more manager, free on its whole region. -/
theorem Managed.snoc (h : Managed ms G) (hf : Free m.heap m.first m.stop m.pages)
    (hcounts : m.pageReferenceCounts.length = m.stop - m.first) (hbelow : m.stop ≤ 2^32)
    (hapart : ∀ (i : ℕ) (x : Impl), ms[i]? = some x → Disjoint x.pages m.pages) :
    Managed (ms ++ [m]) (G ∪ m.pages) := by
  have hG : Disjoint G m.pages := by
    rw [disjoint_left]
    intro p hp hpm
    obtain ⟨i, x, hx, hpx⟩ := h.sub p hp
    exact disjoint_left.mp (hapart i x hx) hpx hpm
  constructor
  · intro i x hx
    rcases getElem?_snoc_cases hx with hx | ⟨_, rfl⟩
    · have heq : (G ∪ m.pages) ∩ x.pages = G ∩ x.pages := by
        rw [union_inter_distrib_right, disjoint_iff_inter_eq_empty.mp (hapart i x hx).symm,
          union_empty]
      rw [heq]
      exact h.free i x hx
    · rwa [union_inter_cancel_right]
  · intro i x hx
    rcases getElem?_snoc_cases hx with hx | ⟨_, rfl⟩
    · exact h.counts i x hx
    · exact hcounts
  · intro i x hx
    rcases getElem?_snoc_cases hx with hx | ⟨_, rfl⟩
    · exact h.below i x hx
    · exact hbelow
  · intro i j x y hx hy hij
    rcases getElem?_snoc_cases hx with hx | ⟨hi, hxm⟩
    · rcases getElem?_snoc_cases hy with hy | ⟨_, hym⟩
      · exact h.apart i j x y hx hy hij
      · rw [hym]
        exact hapart i x hx
    · rcases getElem?_snoc_cases hy with hy | ⟨hj, _⟩
      · rw [hxm]
        exact (hapart j y hy).symm
      · omega
  · intro p hp
    rcases mem_union.mp hp with hp | hp
    · obtain ⟨i, x, hx, hpx⟩ := h.sub p hp
      exact ⟨i, x, getElem?_snoc_old hx, hpx⟩
    · exact ⟨ms.length, m, getElem?_snoc_new, hp⟩

theorem initializeImpl_free {m m' : Impl} {g : Region} {pool : Pool}
    (h : m.initializeImpl g.heapAddress g.heapSize pool = some m') :
    m'.first = g.heapAddress/pageSize ∧ m'.stop = (g.heapAddress+g.heapSize)/pageSize ∧
      m'.pages = g.pages ∧ Free m'.heap m'.first m'.stop m'.pages ∧
      m'.pageReferenceCounts = List.replicate (m'.stop - m'.first) 0 ∧ m'.pool = pool ∧
      m'.nextIdx = m.nextIdx ∧ m'.prevIdx = m.prevIdx := by
  unfold Impl.initializeImpl at h
  cases h₁ : m.heap.initializeHeap g.heapAddress g.heapSize with
  | none =>
    rw [h₁] at h
    exact absurd h (by simp [bind])
  | some k₁ =>
    simp only [h₁, bind, Option.bind_some] at h
    cases h₂ : k₁.free g.heapAddress (g.heapSize/pageSize) with
    | none =>
      rw [h₂] at h
      exact absurd h (by simp)
    | some k =>
      rw [h₂, Option.bind_some] at h
      cases h
      have hf := region_free g h₁ h₂
      obtain ⟨_, _, hbase, hsize, hcount⟩ := g.bounds
      have hfirst : k.heapAddress/pageSize = g.heapAddress/pageSize := by
        rw [hf.address, hbase]
      have hstop : (k.heapAddress+k.heapSize)/pageSize =
          (g.heapAddress+g.heapSize)/pageSize := by
        rw [hf.address, hf.extent, hbase, hsize]
      refine ⟨hfirst, hstop, ?_, ?_, ?_, rfl, rfl, rfl⟩
      · change Ico (k.heapAddress/pageSize) ((k.heapAddress+k.heapSize)/pageSize) = _
        rw [hfirst, hstop]
        rfl
      · change Free k (k.heapAddress/pageSize) ((k.heapAddress+k.heapSize)/pageSize)
          (Ico (k.heapAddress/pageSize) ((k.heapAddress+k.heapSize)/pageSize))
        rw [hfirst, hstop]
        exact hf
      · change _ = List.replicate ((k.heapAddress+k.heapSize)/pageSize - k.heapAddress/pageSize) 0
        rw [hfirst, hstop, hcount]

theorem new_coherent : Coherent new ∅ := by
  constructor
  · constructor
    · intro i m hm
      simp [new] at hm
    · intro i m hm
      simp [new] at hm
    · intro i m hm
      simp [new] at hm
    · intro i j m m' hm
      simp [new] at hm
    · intro p hp
      exact absurd hp (notMem_empty p)
  · intro pool
    exact ⟨[], rfl, rfl, fun i hi => absurd hi (by simp)⟩

theorem link_snoc_old (dir : Direction) {i : ℕ} (hi : i < ms.length) :
    link (ms ++ [m]) dir i = link ms dir i := by
  rw [link, link, List.getElem?_append_left hi]

theorem link_snoc_new (dir : Direction) : link (ms ++ [m]) dir ms.length = nextManager m dir := by
  rw [link, getElem?_snoc_new, Option.bind_some]

/-- The chains of a pool whose managers keep their links. -/
theorem Pooled.keep {mm mm' : KMemoryManager} {pool : Pool} {is : List ℕ} (h : Pooled mm pool is)
    (hhead : mm'.poolManagersHead pool = mm.poolManagersHead pool)
    (htail : mm'.poolManagersTail pool = mm.poolManagersTail pool)
    (hlink : ∀ dir, ∀ i ∈ is, link mm'.managers dir i = link mm.managers dir i)
    (hmem : ∀ i ∈ is, ∃ m, mm'.managers[i]? = some m ∧ m.pool = pool) : Pooled mm' pool is := by
  constructor
  · rw [hhead]
    exact Linked.chain_congr h.front (hlink .fromFront)
  · rw [htail]
    exact Linked.chain_congr h.back fun i hi => hlink .fromBack i (List.mem_reverse.mp hi)
  · exact hmem

/-- The first manager of a pool: nothing is linked to it. -/
theorem initializePool_first {mm : KMemoryManager} (h : Coherent mm G) {pool : Pool}
    (htail : mm.poolManagersTail pool = none) (hpool : m.pool = pool) (hnext : m.nextIdx = none)
    (hprev : m.prevIdx = none) {p : Pool} :
    ∃ is, Pooled ⟨mm.managers ++ [m],
      Function.update mm.poolManagersHead pool (some mm.managers.length),
      Function.update mm.poolManagersTail pool (some mm.managers.length)⟩ p is := by
  by_cases hp : p = pool
  · subst hp
    refine ⟨[mm.managers.length], ?_, ?_, ?_⟩
    · refine ⟨Function.update_self _ _ _, ?_⟩
      change link (mm.managers ++ [m]) .fromFront mm.managers.length = none
      rw [link_snoc_new]
      exact hnext
    · refine ⟨Function.update_self _ _ _, ?_⟩
      change link (mm.managers ++ [m]) .fromBack mm.managers.length = none
      rw [link_snoc_new]
      exact hprev
    · intro i hi
      rw [List.mem_singleton] at hi
      subst hi
      exact ⟨m, getElem?_snoc_new, hpool⟩
  · obtain ⟨is, hpo⟩ := h.chains p
    refine ⟨is, hpo.keep (Function.update_of_ne hp _ _) (Function.update_of_ne hp _ _) ?_ ?_⟩
    · intro dir i hi
      obtain ⟨x, hx, _⟩ := hpo.members i hi
      exact link_snoc_old dir (List.getElem?_eq_some_iff.mp hx).1
    · intro i hi
      obtain ⟨x, hx, hxp⟩ := hpo.members i hi
      exact ⟨x, getElem?_snoc_old hx, hxp⟩

/-- A further manager of a pool, behind the one at the tail. -/
theorem initializePool_next {mm : KMemoryManager} (h : Coherent mm G) {pool : Pool} {t : ℕ}
    {tail : Impl} (htail : mm.poolManagersTail pool = some t) (hget : mm.managers[t]? = some tail)
    (hpool : m.pool = pool) (hnext : m.nextIdx = none) (hprev : m.prevIdx = some t) {p : Pool} :
    ∃ is, Pooled ⟨mm.managers.set t { tail with nextIdx := some mm.managers.length } ++ [m],
      mm.poolManagersHead,
      Function.update mm.poolManagersTail pool (some mm.managers.length)⟩ p is := by
  generalize hms : mm.managers.set t { tail with nextIdx := some mm.managers.length } = ms
  have hlen : ms.length = mm.managers.length := by rw [← hms, List.length_set]
  have ht : ms[t]? = some { tail with nextIdx := some mm.managers.length } := by
    rw [← hms]
    exact getElem?_set_self hget
  have hother : ∀ i, i ≠ t → ms[i]? = mm.managers[i]? := by
    intro i hi
    rw [← hms]
    exact getElem?_set_other hi
  have hold : ∀ (dir : Direction) (i : ℕ) (x : Impl), mm.managers[i]? = some x → (i ≠ t ∨ dir = .fromBack) →
      link (ms ++ [m]) dir i = link mm.managers dir i := by
    intro dir i x hx hor
    have hi : i < ms.length := by
      rw [hlen]
      exact (List.getElem?_eq_some_iff.mp hx).1
    rw [link_snoc_old dir hi, link, link]
    by_cases hit : i = t
    · subst hit
      rcases hor with hne | rfl
      · exact absurd rfl hne
      · rw [ht, hget]
        rfl
    · rw [hother i hit]
  have hmem : ∀ (i : ℕ) (x : Impl), mm.managers[i]? = some x → ∃ y : Impl, (ms ++ [m])[i]? = some y ∧ y.pool = x.pool := by
    intro i x hx
    by_cases hit : i = t
    · subst hit
      rw [hget] at hx
      cases hx
      exact ⟨_, getElem?_snoc_old ht, rfl⟩
    · rw [← hother i hit] at hx
      exact ⟨x, getElem?_snoc_old hx, rfl⟩
  obtain ⟨is, hpo⟩ := h.chains p
  by_cases hp : p = pool
  · subst hp
    have hback := hpo.back
    rw [htail] at hback
    obtain ⟨is', rfl⟩ : ∃ is', is = is' ++ [t] := by
      cases hr : is.reverse with
      | nil =>
        rw [hr] at hback
        exact absurd hback (by simp [Linked.Chain])
      | cons j js =>
        rw [hr] at hback
        have hj : j = t := (Option.some.inj hback.1).symm
        rw [hj] at hr
        exact ⟨js.reverse, by rw [← List.reverse_reverse is, hr, List.reverse_cons]⟩
    have hnd := Linked.chain_nodup hpo.front
    have hne : ∀ i ∈ is', i ≠ t := by
      intro i hi heq
      rw [heq] at hi
      rw [List.nodup_append] at hnd
      exact hnd.2.2 t hi t (by simp) rfl
    refine ⟨is' ++ [t] ++ [mm.managers.length], ?_, ?_, ?_⟩
    · apply Linked.chain_snoc hpo.front
      · intro i hi
        obtain ⟨x, hx, _⟩ := hpo.members i (by simp [hi])
        exact hold .fromFront i x hx (.inl (hne i hi))
      · change link (ms ++ [m]) .fromFront t = _
        rw [link, getElem?_snoc_old ht]
        rfl
      · change link (ms ++ [m]) .fromFront mm.managers.length = _
        rw [← hlen, link_snoc_new]
        exact hnext
    · rw [List.reverse_append]
      refine ⟨Function.update_self _ _ _, ?_⟩
      change Linked.Chain (link (ms ++ [m]) .fromBack)
        (link (ms ++ [m]) .fromBack mm.managers.length) (is' ++ [t]).reverse
      rw [← hlen, link_snoc_new]
      change Linked.Chain _ m.prevIdx _
      rw [hprev]
      apply Linked.chain_congr hback
      intro i hi
      obtain ⟨x, hx, _⟩ := hpo.members i (List.mem_reverse.mp hi)
      exact hold .fromBack i x hx (.inr rfl)
    · intro i hi
      rcases List.mem_append.mp hi with hi | hi
      · obtain ⟨x, hx, hxp⟩ := hpo.members i hi
        obtain ⟨y, hy, hyp⟩ := hmem i x hx
        exact ⟨y, hy, hyp.trans hxp⟩
      · rw [List.mem_singleton] at hi
        subst hi
        rw [← hlen]
        exact ⟨m, getElem?_snoc_new, hpool⟩
  · obtain ⟨ispool, hpool'⟩ := h.chains pool
    have htmem : tail.pool = pool := by
      have hback := hpool'.back
      rw [htail] at hback
      cases hr : ispool.reverse with
      | nil =>
        rw [hr] at hback
        exact absurd hback (by simp [Linked.Chain])
      | cons j js =>
        rw [hr] at hback
        have hj : j = t := (Option.some.inj hback.1).symm
        obtain ⟨x, hx, hxp⟩ := hpool'.members j (by rw [← List.mem_reverse, hr]; simp)
        rw [hj, hget] at hx
        cases hx
        exact hxp
    refine ⟨is, hpo.keep rfl (Function.update_of_ne hp _ _) ?_ ?_⟩
    · intro dir i hi
      obtain ⟨x, hx, hxp⟩ := hpo.members i hi
      apply hold dir i x hx
      left
      rintro rfl
      rw [hget] at hx
      cases hx
      exact hp (hxp.symm.trans htmem)
    · intro i hi
      obtain ⟨x, hx, hxp⟩ := hpo.members i hi
      obtain ⟨y, hy, hyp⟩ := hmem i x hx
      exact ⟨y, hy, hyp.trans hxp⟩

/-- The manager `initialize_pool` adds, as the first of its pool or behind the tail. -/
theorem initializePool_cases {mm mm' : KMemoryManager} {heap : KPageHeap} {pool : Pool}
    {address size : ℕ} (hinit : mm.initializePool heap pool address size = some mm') :
    ∃ m, (newImpl heap).initializeImpl address size pool = some m ∧
      ((mm.poolManagersTail pool = none ∧ mm' = ⟨mm.managers ++ [m],
        Function.update mm.poolManagersHead pool (some mm.managers.length),
        Function.update mm.poolManagersTail pool (some mm.managers.length)⟩) ∨
      ∃ t tail, mm.poolManagersTail pool = some t ∧ mm.managers[t]? = some tail ∧
        mm' = ⟨mm.managers.set t { tail with nextIdx := some mm.managers.length } ++
            [{ m with prevIdx := some t }], mm.poolManagersHead,
          Function.update mm.poolManagersTail pool (some mm.managers.length)⟩) := by
  unfold initializePool at hinit
  split at hinit
  · exact absurd hinit (by simp)
  · simp only [bind, Option.bind_eq_some_iff] at hinit
    obtain ⟨m, hm, hinit⟩ := hinit
    refine ⟨m, hm, ?_⟩
    cases ht : mm.poolManagersTail pool with
    | none =>
      rw [ht] at hinit
      cases hinit
      exact .inl ⟨rfl, rfl⟩
    | some t =>
      rw [ht] at hinit
      dsimp only at hinit
      rw [Option.bind_eq_some_iff] at hinit
      obtain ⟨tail, hget, hinit⟩ := hinit
      cases hinit
      exact .inr ⟨t, tail, rfl, hget, rfl⟩

/-- `initialize_pool` over a region apart from the others. -/
theorem initializePool_coherent {mm mm' : KMemoryManager} (h : Coherent mm G) {heap : KPageHeap}
    {pool : Pool} {g : Region} (hbelow : (g.heapAddress+g.heapSize)/pageSize ≤ 2^32)
    (hapart : ∀ (i : ℕ) (x : Impl), mm.managers[i]? = some x → Disjoint x.pages g.pages)
    (hinit : mm.initializePool heap pool g.heapAddress g.heapSize = some mm') :
    Coherent mm' (G ∪ g.pages) := by
  obtain ⟨m, hm, hcases⟩ := initializePool_cases hinit
  obtain ⟨hfirst, hstop, hpages, hfree, hcounts, hpool, hnext, hprev⟩ := initializeImpl_free hm
  have hlen : m.pageReferenceCounts.length = m.stop - m.first := by
    rw [hcounts, List.length_replicate]
  rw [← hstop] at hbelow
  rw [← hpages] at hapart ⊢
  rcases hcases with ⟨ht, rfl⟩ | ⟨t, tail, ht, hget, rfl⟩
  · constructor
    · exact h.managed.snoc hfree hlen hbelow hapart
    · intro p
      exact initializePool_first h ht hpool hnext hprev
  · have hset : Managed (mm.managers.set t { tail with nextIdx := some mm.managers.length }) G :=
      h.managed.set hget rfl rfl (h.managed.free t tail hget) rfl fun _ _ => Iff.rfl
    constructor
    · apply hset.snoc (m := { m with prevIdx := some t }) hfree hlen hbelow
      intro i x hx
      rcases getElem?_set_cases hx with ⟨_, rfl, _⟩ | ⟨_, hx⟩
      · exact hapart t tail hget
      · exact hapart i x hx
    · intro p
      exact initializePool_next (m := { m with prevIdx := some t }) h ht hget hpool hnext rfl

/-- The managers afterwards: the old ones with their counts, and one with no references. -/
theorem initializePool_counts {mm mm' : KMemoryManager} {heap : KPageHeap} {pool : Pool}
    {g : Region} (hinit : mm.initializePool heap pool g.heapAddress g.heapSize = some mm')
    {i : ℕ} {x : Impl} (hx : mm'.managers[i]? = some x) :
    (∃ y, mm.managers[i]? = some y ∧ x.first = y.first ∧ x.stop = y.stop ∧
        x.pageReferenceCounts = y.pageReferenceCounts) ∨
      (i = mm.managers.length ∧ x.pages = g.pages ∧
        x.pageReferenceCounts = List.replicate (x.stop - x.first) 0) := by
  obtain ⟨m, hm, hcases⟩ := initializePool_cases hinit
  obtain ⟨_, _, hpages, _, hcounts, _⟩ := initializeImpl_free hm
  rcases hcases with ⟨_, rfl⟩ | ⟨t, tail, _, hget, rfl⟩
  · rcases getElem?_snoc_cases hx with hx | ⟨rfl, rfl⟩
    · exact .inl ⟨x, hx, rfl, rfl, rfl⟩
    · exact .inr ⟨rfl, hpages, hcounts⟩
  · rcases getElem?_snoc_cases hx with hx | ⟨rfl, rfl⟩
    · rcases getElem?_set_cases hx with ⟨rfl, rfl, _⟩ | ⟨_, hx⟩
      · exact .inl ⟨tail, hget, rfl, rfl, rfl⟩
      · exact .inl ⟨x, hx, rfl, rfl, rfl⟩
    · exact .inr ⟨List.length_set, hpages, hcounts⟩

/-- Every old manager is still there, and the new one is behind them. -/
theorem initializePool_kept {mm mm' : KMemoryManager} {heap : KPageHeap} {pool : Pool}
    {g : Region} (hinit : mm.initializePool heap pool g.heapAddress g.heapSize = some mm') :
    (∀ (i : ℕ) (y : Impl), mm.managers[i]? = some y →
      ∃ x : Impl, mm'.managers[i]? = some x ∧ x.pages = y.pages) ∧
    ∃ (i : ℕ) (x : Impl), mm'.managers[i]? = some x ∧ x.pages = g.pages := by
  obtain ⟨m, hm, hcases⟩ := initializePool_cases hinit
  obtain ⟨_, _, hpages, _⟩ := initializeImpl_free hm
  rcases hcases with ⟨_, rfl⟩ | ⟨t, tail, _, hget, rfl⟩
  · exact ⟨fun i y hy => ⟨y, getElem?_snoc_old hy, rfl⟩, _, m, getElem?_snoc_new, hpages⟩
  · refine ⟨?_, _, _, getElem?_snoc_new, hpages⟩
    intro i y hy
    by_cases hi : i = t
    · subst hi
      rw [hget] at hy
      cases hy
      exact ⟨_, getElem?_snoc_old (getElem?_set_self hget), rfl⟩
    · refine ⟨y, getElem?_snoc_old ?_, rfl⟩
      rwa [getElem?_set_other hi]

end Ruzu.MemoryManager
