import Ruzu.Kernel.MemoryManagerReferences

/-!
# Ranges that span managers

The state of all managers is the set of free pages with one reference count a
page. A range is cut where a manager ends; each part moves the counts of its
own pages, so the whole range does.
-/

set_option autoImplicit false

namespace Ruzu.MemoryManager
open Ruzu.MemoryBlock (pageSize)
open Ruzu.PageHeap Finset KMemoryManager
open Impl (Movable MovedTo Released)

variable {ms ms' : List Impl} {G : Finset ℕ} {c : ℕ → ℕ} {i : ℕ} {m m' : Impl}
variable {act : Impl → ℕ → ℕ → Option Impl} {move : ℕ → Option ℕ} {gives : Bool}

/-- The reference counts after a move of those of the pages `R`. -/
def moveOn (move : ℕ → Option ℕ) (R : Finset ℕ) (c : ℕ → ℕ) (p : ℕ) : ℕ :=
  if p ∈ R then (move (c p)).getD (c p) else c p

/-- The pages of `R` that `close` gives back: those with one reference. -/
def released (gives : Bool) (R : Finset ℕ) (c : ℕ → ℕ) : Finset ℕ :=
  R.filter fun p => gives = true ∧ c p = 1

/-- The managers `ms` have the free pages `G` and the reference counts `c`. -/
structure Holding (ms : List Impl) (G : Finset ℕ) (c : ℕ → ℕ) : Prop where
  managed : Managed ms G
  counts : ∀ (i : ℕ) (m : Impl), ms[i]? = some m → ∀ p ∈ m.pages,
    m.pageReferenceCounts[p - m.first]? = some (c p)

/-- What no call changes: the region, the pool and the links. -/
def Impl.frame (m : Impl) : ℕ × ℕ × Pool × Option ℕ × Option ℕ :=
  (m.first, m.stop, m.pool, m.nextIdx, m.prevIdx)

def frames (ms : List Impl) : List (ℕ × ℕ × Pool × Option ℕ × Option ℕ) := ms.map Impl.frame

theorem frames_set (hm : ms[i]? = some m) (h : m'.frame = m.frame) :
    frames (ms.set i m') = frames ms := by
  apply List.ext_getElem?
  intro j
  rw [frames, frames, List.getElem?_map, List.getElem?_map]
  by_cases hj : j = i
  · rw [hj, getElem?_set_self hm, hm, Option.map_some, Option.map_some, h]
  · rw [getElem?_set_other hj]

theorem frames_get (h : frames ms' = frames ms) (hm : ms[i]? = some m) :
    ∃ m', ms'[i]? = some m' ∧ m'.frame = m.frame := by
  have hget : (frames ms')[i]? = (frames ms)[i]? := by rw [h]
  rw [frames, frames, List.getElem?_map, List.getElem?_map, hm, Option.map_some,
    Option.map_eq_some_iff] at hget
  exact hget

theorem frame_pages (h : m'.frame = m.frame) : m'.pages = m.pages := by
  simp only [Impl.frame, Prod.mk.injEq] at h
  rw [Impl.pages, Impl.pages, h.1, h.2.1]

theorem SameAll.frames (h : SameAll ms ms') : frames ms' = frames ms := by
  induction h with
  | nil => rfl
  | @cons a b as bs hab _ ih =>
    rw [MemoryManager.frames, MemoryManager.frames, List.map_cons, List.map_cons]
    apply congrArg₂ List.cons
    · rw [Impl.frame, Impl.frame, hab.first, hab.stop]
      obtain ⟨h, rfl, _⟩ := hab
      rfl
    · exact ih

/-- The call `act` moves the counts of a range, and frees what is released if it `gives`. -/
structure Moves (act : Impl → ℕ → ℕ → Option Impl) (move : ℕ → Option ℕ) (gives : Bool) :
    Prop where
  needs : ∀ (m m' : Impl) (address n : ℕ), act m address n = some m' →
    Movable move m.pageReferenceCounts (m.getPageOffset address) n
  acts : ∀ (m : Impl) (F : Finset ℕ) (address n : ℕ), Free m.heap m.first m.stop F →
    m.first+m.getPageOffset address+n ≤ m.stop →
    Movable move m.pageReferenceCounts (m.getPageOffset address) n →
    (gives = true → ∀ p,
      Released m.first m.pageReferenceCounts 0 0 (m.getPageOffset address) n p → p ∉ F) →
    ∃ k counts F', act m address n = some { m with heap := k, pageReferenceCounts := counts } ∧
      MovedTo move m.pageReferenceCounts (m.getPageOffset address) n counts ∧
      Free k m.first m.stop F' ∧
      ∀ p, p ∈ F' ↔ p ∈ F ∨ (gives = true ∧
        Released m.first m.pageReferenceCounts 0 0 (m.getPageOffset address) n p)

theorem raise_moves (hact : ∀ m address n, act m address n =
    (Impl.raiseCounts move n (m.getPageOffset address) m.pageReferenceCounts).map fun counts =>
      { m with pageReferenceCounts := counts }) : Moves act move false := by
  constructor
  · intro m m' address n h
    rw [hact, Option.map_eq_some_iff] at h
    obtain ⟨counts, h, _⟩ := h
    exact Impl.raiseCounts_movable n _ _ h
  · intro m F address n hf _ hmov _
    obtain ⟨counts, h, hmoved⟩ := Impl.raiseCounts_moved n _ _ hmov
    refine ⟨m.heap, counts, F, ?_, hmoved, hf, ?_⟩
    · rw [hact, h]
      rfl
    · simp

theorem openFirst_moves : Moves Impl.openFirst Impl.firstReference false :=
  raise_moves fun m address n => by
    rw [Impl.openFirst]
    cases Impl.raiseCounts Impl.firstReference n (m.getPageOffset address)
      m.pageReferenceCounts <;> rfl

theorem open_moves : Moves Impl.open Impl.nextReference false :=
  raise_moves fun m address n => by
    rw [Impl.open]
    cases Impl.raiseCounts Impl.nextReference n (m.getPageOffset address)
      m.pageReferenceCounts <;> rfl

theorem close_moves : Moves Impl.close Impl.lastReference true := by
  constructor
  · intro m m' address n h
    exact Impl.closeLoop_movable n _ 0 0 m m' h
  · intro m F address n hf hend hmov hfree
    obtain ⟨k, counts, F', h, hmoved, hf', hF'⟩ := Impl.closeLoop_free n (m.getPageOffset address)
      0 0 m F hf (fun h => absurd h (by omega)) hend hmov (hfree rfl)
    refine ⟨k, counts, F', h, hmoved, hf', ?_⟩
    intro p
    rw [hF' p, and_iff_right rfl]

theorem released_sub {R : Finset ℕ} : released gives R c ⊆ R := filter_subset _ _

/-- A range of one manager. -/
theorem Holding.move_range (hs : Moves act move gives) (h : Holding ms G c) (hm : ms[i]? = some m)
    {address n p : ℕ} (hoff : m.getPageOffset address = p - m.first) (hp : p ∈ m.pages)
    (hin : p+n ≤ m.stop) (hmov : ∀ q ∈ Ico p (p+n), (move (c q)).isSome)
    (hfree : gives = true → ∀ q ∈ Ico p (p+n), c q = 1 → q ∉ G) :
    ∃ m', act m address n = some m' ∧ m'.frame = m.frame ∧
      Holding (ms.set i m') (G ∪ released gives (Ico p (p+n)) c)
        (moveOn move (Ico p (p+n)) c) := by
  rw [Impl.pages, mem_Ico] at hp
  have hsub : Ico p (p+n) ⊆ m.pages := by
    intro q hq
    rw [mem_Ico] at hq
    rw [Impl.pages, mem_Ico]
    omega
  have hget : ∀ q ∈ Ico p (p+n), m.pageReferenceCounts[q - m.first]? = some (c q) :=
    fun q hq => h.counts i m hm q (hsub hq)
  have hmovable : Movable move m.pageReferenceCounts (m.getPageOffset address) n := by
    intro j h₁ h₂
    rw [hoff] at h₁ h₂
    have hq : m.first+j ∈ Ico p (p+n) := by
      rw [mem_Ico]
      omega
    have hj := hget _ hq
    rw [Nat.add_sub_cancel_left] at hj
    obtain ⟨k, hk⟩ := Option.isSome_iff_exists.mp (hmov _ hq)
    exact ⟨_, k, hj, hk⟩
  have hrel : ∀ q, Released m.first m.pageReferenceCounts 0 0 (m.getPageOffset address) n q ↔
      q ∈ Ico p (p+n) ∧ c q = 1 := by
    intro q
    rw [Released, hoff, or_iff_right (by omega)]
    constructor
    · rintro ⟨j, h₁, h₂, rfl, hj⟩
      have hq : m.first+j ∈ Ico p (p+n) := by
        rw [mem_Ico]
        omega
      have hc := hget _ hq
      rw [Nat.add_sub_cancel_left, hj, Option.some.injEq] at hc
      exact ⟨hq, hc.symm⟩
    · rintro ⟨hq, hc⟩
      have hj := hget q hq
      rw [mem_Ico] at hq
      rw [hc] at hj
      exact ⟨q - m.first, by omega, by omega, by omega, hj⟩
  obtain ⟨k, counts, F', hact, hmoved, hf, hF'⟩ := hs.acts m _ address n (h.managed.free i m hm)
    (by rw [hoff]; omega) hmovable (by
      intro hg q hq hqF
      obtain ⟨hqR, hc⟩ := (hrel q).mp hq
      exact hfree hg q hqR hc (mem_inter.mp hqF).1)
  have hF : F' = (G ∪ released gives (Ico p (p+n)) c) ∩ m.pages := by
    ext q
    rw [hF', hrel, mem_inter, mem_inter, mem_union, released, mem_filter]
    have := @hsub q
    tauto
  rw [hF] at hf
  have hfirst : k.heapAddress/pageSize = m.first := by
    rw [hf.address, Nat.mul_div_cancel _ (by decide)]
  have hstop : (k.heapAddress+k.heapSize)/pageSize = m.stop := by
    rw [hf.address, hf.extent, ← Nat.add_mul, Nat.mul_div_cancel _ (by decide)]
    omega
  refine ⟨_, hact, ?_, ?_, ?_⟩
  · rw [Impl.frame, Impl.frame, Impl.first, Impl.stop]
    simp only [hfirst, hstop]
  · change Impl.first { m with heap := k, pageReferenceCounts := counts } = m.first at hfirst
    apply h.managed.set hm hfirst hstop hf hmoved.1
    intro q hq
    rw [mem_union]
    exact or_iff_left fun hr => hq (hsub (released_sub hr))
  · intro j x hx q hq
    rcases getElem?_set_cases hx with ⟨rfl, rfl, _⟩ | ⟨hj, hx⟩
    · have hpages : q ∈ m.pages := by
        rw [Impl.pages, mem_Ico] at hq ⊢
        rw [← hfirst, ← hstop]
        exact hq
      have hc := h.counts _ m hm q hpages
      change counts[q - k.heapAddress/pageSize]? = _
      rw [hfirst, hmoved.2, hoff, hc, moveOn]
      rw [Impl.pages, mem_Ico] at hpages
      by_cases hr : q ∈ Ico p (p+n)
      · obtain ⟨x, hx⟩ := Option.isSome_iff_exists.mp (hmov q hr)
        rw [if_pos hr, hx]
        rw [mem_Ico] at hr
        rw [if_pos (by omega), Option.bind_some, hx]
        rfl
      · rw [if_neg hr]
        rw [mem_Ico] at hr
        rw [if_neg (by omega)]
    · have hnot : q ∉ Ico p (p+n) := fun hr =>
        disjoint_left.mp (h.managed.apart j i x m hx hm hj) hq (hsub hr)
      rw [moveOn, if_neg hnot]
      exact h.counts j x hx q hq

/-- The manager an address lies in. -/
theorem Managed.find (h : Managed ms G) {address : ℕ}
    (hfind : KMemoryManager.findManagerIndex ms address = some i) :
    ∃ m : Impl, ms[i]? = some m ∧ address/pageSize ∈ m.pages ∧
      m.getPageOffset address = address/pageSize - m.first ∧
      address/pageSize+m.getPageOffsetToEnd address ≤ m.stop := by
  rw [KMemoryManager.findManagerIndex, List.findIdx?_eq_some_iff_getElem] at hfind
  obtain ⟨hi, hcontains, _⟩ := hfind
  have hm := List.getElem?_eq_getElem hi
  refine ⟨ms[i], hm, ?_⟩
  obtain ⟨h₁, h₂, _⟩ := h.address hm
  rw [Impl.contains, Impl.getEndAddress, KPageHeap.getEndAddress, h₂, h₁, decide_eq_true_eq]
    at hcontains
  rw [Impl.pages, mem_Ico, Impl.getPageOffset, KPageHeap.getPageOffset, Impl.getPageOffsetToEnd,
    KPageHeap.getPageOffsetToEnd, KPageHeap.getEndAddress, h₂, h₁]
  simp only [pageSize] at hcontains ⊢
  omega

theorem moveOn_union {R S : Finset ℕ} (h : Disjoint R S) :
    moveOn move S (moveOn move R c) = moveOn move (R ∪ S) c := by
  funext p
  simp only [moveOn, mem_union]
  by_cases hR : p ∈ R
  · rw [if_neg (disjoint_left.mp h hR), if_pos hR, if_pos (.inl hR)]
  · by_cases hS : p ∈ S
    · rw [if_pos hS, if_neg hR, if_pos (.inr hS)]
    · rw [if_neg hS, if_neg hR, if_neg (by tauto)]

theorem moveOn_other {R : Finset ℕ} {p : ℕ} (h : p ∉ R) : moveOn move R c p = c p := if_neg h

theorem released_union {R S : Finset ℕ} (h : Disjoint R S) :
    released gives R c ∪ released gives S (moveOn move R c) = released gives (R ∪ S) c := by
  ext p
  simp only [released, mem_union, mem_filter]
  by_cases hR : p ∈ R
  · have hS := disjoint_left.mp h hR
    tauto
  · rw [moveOn_other hR]
    tauto

theorem Ico_split {p n k : ℕ} (h : k ≤ n) :
    Ico p (p+k) ∪ Ico (p+k) (p+k+(n - k)) = Ico p (p+n) ∧
      Disjoint (Ico p (p+k)) (Ico (p+k) (p+k+(n - k))) := by
  constructor
  · rw [Ico_union_Ico_eq_Ico (by omega) (by omega)]
    congr 1
    omega
  · exact Ico_disjoint_Ico_consecutive _ _ _

theorem add_mul_page (address n : ℕ) :
    (address+n*pageSize)/pageSize = address/pageSize+n :=
  Nat.add_mul_div_right _ _ (by decide)

/-- A call over a range, when it returns. -/
theorem overManagers_holding (hs : Moves act move gives) (fuel : ℕ) :
    ∀ (ms : List Impl) (G : Finset ℕ) (c : ℕ → ℕ) (address n : ℕ) (ms' : List Impl),
      Holding ms G c →
      (gives = true → ∀ q ∈ Ico (address/pageSize) (address/pageSize+n), c q = 1 → q ∉ G) →
      overManagers act fuel ms address n = some ms' →
      (∀ q ∈ Ico (address/pageSize) (address/pageSize+n), (move (c q)).isSome ∧
        ∃ (i : ℕ) (m : Impl), ms[i]? = some m ∧ q ∈ m.pages) ∧
      Holding ms' (G ∪ released gives (Ico (address/pageSize) (address/pageSize+n)) c)
        (moveOn move (Ico (address/pageSize) (address/pageSize+n)) c) ∧
      frames ms' = frames ms := by
  induction fuel with
  | zero =>
    intro ms G c address n ms' h _ hrun
    rw [overManagers] at hrun
    split at hrun
    · rename_i hn
      subst hn
      cases hrun
      have hc : moveOn move ∅ c = c := funext fun p => moveOn_other (notMem_empty p)
      simpa [hc, released] using h
    · exact absurd hrun (by simp)
  | succ fuel ih =>
    intro ms G c address n ms' h hfree hrun
    rw [overManagers] at hrun
    by_cases hn : n = 0
    · subst hn
      rw [if_pos rfl] at hrun
      cases hrun
      have hc : moveOn move ∅ c = c := funext fun p => moveOn_other (notMem_empty p)
      simpa [hc, released] using h
    · rw [if_neg hn] at hrun
      simp only [bind, Option.bind_eq_some_iff] at hrun
      obtain ⟨i, hfind, m, hm, m', hact, hrun⟩ := hrun
      obtain ⟨x, hx, hpage, hoff, hend⟩ := h.managed.find hfind
      rw [hm] at hx
      cases hx
      generalize hk : min n (m.getPageOffsetToEnd address) = k at hact hrun
      generalize hp : address/pageSize = p at hpage hoff hend hfree ⊢
      have hneeds := hs.needs m m' address k hact
      have hmov : ∀ q ∈ Ico p (p+k), (move (c q)).isSome := by
        intro q hq
        rw [mem_Ico] at hq
        have hpage' := hpage
        rw [Impl.pages, mem_Ico] at hpage'
        obtain ⟨x, x', hx, hx'⟩ := hneeds (q - m.first) (by omega) (by omega)
        have hq' := h.counts i m hm q (by rw [Impl.pages, mem_Ico]; omega)
        rw [hx, Option.some.injEq] at hq'
        rw [← hq', hx']
        rfl
      have hleft : Ico p (p+k) ⊆ Ico p (p+n) := Ico_subset_Ico le_rfl (by omega)
      obtain ⟨x, hx, hframe, hnext⟩ := h.move_range hs hm hoff hpage (by omega) hmov
        fun hg q hq => hfree hg q (hleft hq)
      rw [hact] at hx
      cases hx
      obtain ⟨hunion, hdis⟩ := Ico_split (p := p) (n := n) (k := k) (by omega)
      have hpage₂ : (address+k*pageSize)/pageSize = p+k := by rw [add_mul_page, hp]
      have hrest := ih _ _ _ (address+k*pageSize) (n - k) ms' hnext (by
        rw [hpage₂]
        intro hg q hq hc hqG
        have hqp := disjoint_right.mp hdis hq
        rw [moveOn_other hqp] at hc
        rw [mem_union] at hqG
        rcases hqG with hqG | hqG
        · exact hfree hg q (hunion ▸ mem_union_right _ hq) hc hqG
        · exact hqp (released_sub hqG)) hrun
      rw [hpage₂, union_assoc, released_union hdis, moveOn_union hdis, hunion] at hrest
      obtain ⟨hpages, hholding, hframes⟩ := hrest
      refine ⟨?_, hholding, hframes.trans (frames_set hm hframe)⟩
      intro q hq
      rw [← hunion, mem_union] at hq
      rcases hq with hq | hq
      · refine ⟨hmov q hq, i, m, hm, ?_⟩
        rw [Impl.pages, mem_Ico] at hpage ⊢
        rw [mem_Ico] at hq
        omega
      · obtain ⟨hsome, j, x, hx, hqx⟩ := hpages q hq
        rw [moveOn_other (disjoint_right.mp hdis hq)] at hsome
        obtain ⟨y, hy, hyx⟩ := frames_get (frames_set hm hframe).symm hx
        exact ⟨hsome, j, y, hy, by rwa [frame_pages hyx]⟩

/-- A call over a range that it can move returns. -/
theorem overManagers_some (hs : Moves act move gives) (fuel : ℕ) :
    ∀ (ms : List Impl) (G : Finset ℕ) (c : ℕ → ℕ) (p n : ℕ), Holding ms G c → n ≤ fuel →
      (gives = true → ∀ q ∈ Ico p (p+n), c q = 1 → q ∉ G) →
      (∀ q ∈ Ico p (p+n), (move (c q)).isSome ∧
        ∃ (i : ℕ) (m : Impl), ms[i]? = some m ∧ q ∈ m.pages) →
      ∃ ms', overManagers act fuel ms (p*pageSize) n = some ms' := by
  induction fuel with
  | zero =>
    intro ms G c p n _ hn _ _
    exact ⟨ms, if_pos (by omega)⟩
  | succ fuel ih =>
    intro ms G c p n h hfuel hfree hmov
    by_cases hn : n = 0
    · exact ⟨ms, if_pos hn⟩
    · obtain ⟨_, i, m, hm, hp⟩ := hmov p (by rw [mem_Ico]; omega)
      obtain ⟨hoff, hend⟩ := h.managed.pageOffset hm hp
      generalize hk : min n (m.stop - p) = k
      have hpos : 0 < k := by
        rw [Impl.pages, mem_Ico] at hp
        omega
      obtain ⟨hunion, hdis⟩ := Ico_split (p := p) (n := n) (k := k) (by omega)
      obtain ⟨m', hact, hframe, hnext⟩ := h.move_range hs (n := k) hm hoff hp
        (by rw [Impl.pages, mem_Ico] at hp; omega)
        (fun q hq => (hmov q (hunion ▸ mem_union_left _ hq)).1)
        fun hg q hq => hfree hg q (hunion ▸ mem_union_left _ hq)
      obtain ⟨ms', hrun⟩ := ih _ _ _ (p+k) (n - k) hnext (by omega)
        (by
          intro hg q hq hc hqG
          have hqp := disjoint_right.mp hdis hq
          rw [moveOn_other hqp] at hc
          rcases mem_union.mp hqG with hqG | hqG
          · exact hfree hg q (hunion ▸ mem_union_right _ hq) hc hqG
          · exact hqp (released_sub hqG))
        (by
          intro q hq
          obtain ⟨hsome, j, x, hx, hqx⟩ := hmov q (hunion ▸ mem_union_right _ hq)
          obtain ⟨y, hy, hyx⟩ := frames_get (frames_set hm hframe) hx
          refine ⟨?_, j, y, hy, by rwa [frame_pages hyx]⟩
          rwa [moveOn_other (disjoint_right.mp hdis hq)])
      refine ⟨ms', ?_⟩
      rw [overManagers, if_neg hn, h.managed.findManagerIndex hm hp]
      simp only [bind, Option.bind_some, hm, hend, hk, hact]
      rw [← Nat.add_mul]
      exact hrun

end Ruzu.MemoryManager
