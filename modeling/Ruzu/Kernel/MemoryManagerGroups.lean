import Mathlib
import Ruzu.Kernel.MemoryManagerHeaps

/-!
# Page groups taken from a pool

The walk of a pool is read with the blocks the heaps hand out, in their order.
A group's entries are those blocks, joined where one continues the one before;
an entry lies in a single manager exactly when no join crosses into another.
-/

set_option autoImplicit false

namespace Ruzu.MemoryManager
open Ruzu.MemoryBlock (pageSize)
open Ruzu.PageHeap Ruzu.PageGroup Finset
open Impl (Same)

/-- One block as a heap handed it out, with the index of its manager. -/
structure Handed where
  idx : ℕ
  address : ℕ
  numPages : ℕ
deriving DecidableEq

namespace Handed

def first (b : Handed) : ℕ := b.address / pageSize
def pages (b : Handed) : Finset ℕ := Ico b.first (b.first+b.numPages)

end Handed

/-- `add_block`, keeping also what was handed out. -/
def record (idx addr pages : ℕ) (s : KPageGroup × List Handed) :
    Option (KPageGroup × List Handed) :=
  (KMemoryManager.addToGroup idx addr pages s.1).map fun g => (g, s.2 ++ [⟨idx, addr, pages⟩])

/-- The blocks that the heaps hand out for a group of `numPages` pages, in order. -/
def handed (managers : List Impl) (poolFirst : Option ℕ) (dir : Direction) (outPg : KPageGroup)
    (numPages : ℕ) (random : Bool) : List Handed :=
  match KPageHeap.getBlockIndex numPages with
  | none => []
  | some heapIndex =>
    match KMemoryManager.walkSizes record random dir poolFirst (heapIndex+1) managers (outPg, [])
      numPages with
    | some (.going _ s _) => s.2
    | some (.full _ s) => s.2
    | none => []

/-- No block is followed by one of another manager that starts where it ends. -/
def Seamless (l : List Handed) : Prop :=
  l.IsChain fun b c => b.address+b.numPages*pageSize = c.address → b.idx = c.idx

def handedPages (l : List Handed) : ℕ := (l.map Handed.numPages).sum

/-- The pages of an entry. -/
def entryPages (e : KBlockInfo) : Finset ℕ := Ico e.pageIndex (e.pageIndex+e.numPages)

/-- The entry lies in one manager. -/
def Single (ms : List Impl) (e : KBlockInfo) : Prop :=
  ∃ (i : ℕ) (m : Impl), ms[i]? = some m ∧ entryPages e ⊆ m.pages

variable {ms ms' : List Impl} {G : Finset ℕ}

theorem Managed.index_eq (h : Managed ms G) {i j p : ℕ} {m m' : Impl} (hm : ms[i]? = some m)
    (hm' : ms[j]? = some m') (hp : p ∈ m.pages) (hp' : p ∈ m'.pages) : i = j := by
  by_contra hij
  exact disjoint_left.mp (h.apart i j m m' hm hm' hij) hp hp'

/-- A block that was free in its manager when it was handed out. -/
structure Fair (ms : List Impl) (G : Finset ℕ) (b : Handed) : Prop where
  aligned : b.address = b.first*pageSize
  positive : 0 < b.numPages
  manager : ∃ m : Impl, ms[b.idx]? = some m ∧ b.pages ⊆ m.pages
  free : b.pages ⊆ G

/-- The entries `es` join the blocks `l`. -/
structure Grouped (ms : List Impl) (es : List KBlockInfo) (l : List Handed) : Prop where
  union : ∀ p, (∃ e ∈ es, p ∈ entryPages e) ↔ ∃ b ∈ l, p ∈ b.pages
  apart : es.Pairwise fun e e' => Disjoint (entryPages e) (entryPages e')
  starts : ∀ e ∈ es, 0 < e.numPages ∧ ∃ (i : ℕ) (m : Impl), ms[i]? = some m ∧ e.pageIndex ∈ m.pages
  ends : (es = [] ∧ l = []) ∨ ∃ es' e l' b, es = es' ++ [e] ∧ l = l' ++ [b] ∧
    e.pageIndex+e.numPages = b.first+b.numPages ∧ e.pageIndex ≤ b.first
  single : (∀ e ∈ es, Single ms e) ↔ Seamless l

theorem grouped_nil : Grouped ms [] [] := by
  constructor
  · simp
  · exact List.Pairwise.nil
  · simp
  · exact .inl ⟨rfl, rfl⟩
  · simp [Seamless]

theorem seamless_snoc (l : List Handed) (c b : Handed) :
    Seamless (l ++ [c] ++ [b]) ↔
      Seamless (l ++ [c]) ∧ (c.address+c.numPages*pageSize = b.address → c.idx = b.idx) := by
  rw [Seamless, List.isChain_append]
  simp [Seamless]

theorem mem_entryPages {e : KBlockInfo} {p : ℕ} :
    p ∈ entryPages e ↔ e.pageIndex ≤ p ∧ p < e.pageIndex+e.numPages := mem_Ico

theorem Handed.mem_pages {b : Handed} {p : ℕ} :
    p ∈ b.pages ↔ b.first ≤ p ∧ p < b.first+b.numPages := mem_Ico

theorem Handed.first_mem {b : Handed} (h : 0 < b.numPages) : b.first ∈ b.pages := by
  rw [mem_pages]
  omega

/-- A block that starts a new entry. -/
theorem Grouped.push {es : List KBlockInfo} {l : List Handed} {b : Handed} {e : KBlockInfo}
    (h : Grouped ms es l) (hb : Fair ms G b)
    (hnew : ∀ c ∈ l, Disjoint c.pages b.pages) (he : e = ⟨b.first, b.numPages⟩)
    (hseam : ∀ l' c, l = l' ++ [c] → c.address+c.numPages*pageSize ≠ b.address) :
    Grouped ms (es ++ [e]) (l ++ [b]) := by
  obtain ⟨m, hm, hbm⟩ := hb.manager
  have hpages : entryPages e = b.pages := by
    rw [he]
    rfl
  have hsingle : Single ms e := ⟨b.idx, m, hm, by rwa [hpages]⟩
  constructor
  · intro p
    have hu := h.union p
    simp only [List.mem_append, List.mem_singleton, or_and_right, exists_or, exists_eq_left]
    rw [hu, hpages]
  · rw [List.pairwise_append]
    refine ⟨h.apart, List.pairwise_singleton _ _, ?_⟩
    intro x hx y hy
    rw [List.mem_singleton] at hy
    subst hy
    rw [disjoint_left]
    intro p hpx hpy
    obtain ⟨c, hc, hpc⟩ := (h.union p).mp ⟨x, hx, hpx⟩
    rw [hpages] at hpy
    exact disjoint_left.mp (hnew c hc) hpc hpy
  · intro x hx
    rcases List.mem_append.mp hx with hx | hx
    · exact h.starts x hx
    · rw [List.mem_singleton] at hx
      subst hx
      rw [he]
      exact ⟨hb.positive, b.idx, m, hm, hbm (Handed.first_mem hb.positive)⟩
  · refine .inr ⟨es, e, l, b, rfl, rfl, ?_⟩
    rw [he]
    exact ⟨rfl, le_rfl⟩
  · have hleft : (∀ x ∈ es ++ [e], Single ms x) ↔ ∀ x ∈ es, Single ms x := by
      constructor
      · intro hx x hxe
        exact hx x (List.mem_append_left _ hxe)
      · intro hx x hxe
        rcases List.mem_append.mp hxe with hxe | hxe
        · exact hx x hxe
        · rw [List.mem_singleton] at hxe
          subst hxe
          exact hsingle
    rw [hleft, h.single]
    rcases h.ends with ⟨_, rfl⟩ | ⟨_, _, l', c, _, rfl, _⟩
    · simp [Seamless]
    · rw [seamless_snoc]
      constructor
      · intro hs
        exact ⟨hs, fun heq => absurd heq (hseam l' c rfl)⟩
      · exact And.left

/-- A block that the last entry takes in. -/
theorem Grouped.join (hM : Managed ms G) {G' : Finset ℕ} {es : List KBlockInfo} {l : List Handed}
    {b : Handed} {e : KBlockInfo} (h : Grouped ms (es ++ [e]) l) (hb : Fair ms G' b)
    (hl : ∀ c ∈ l, Fair ms G' c) (hnew : ∀ c ∈ l, Disjoint c.pages b.pages)
    (hend : b.first = e.pageIndex+e.numPages) :
    Grouped ms (es ++ [⟨e.pageIndex, e.numPages+b.numPages⟩]) (l ++ [b]) := by
  obtain ⟨m, hm, hbm⟩ := hb.manager
  obtain ⟨he0, i, mi, hmi, hei⟩ := h.starts e (by simp)
  have hpages : ∀ p, p ∈ entryPages ⟨e.pageIndex, e.numPages+b.numPages⟩ ↔
      p ∈ entryPages e ∨ p ∈ b.pages := by
    intro p
    rw [mem_entryPages, mem_entryPages, Handed.mem_pages, hend]
    dsimp only
    omega
  rcases h.ends with ⟨habs, _⟩ | ⟨es', e', l', c, hes, rfl, hce, hcf⟩
  · simp at habs
  obtain ⟨rfl, heq⟩ := List.append_inj' hes rfl
  cases heq
  have hc := hl c (by simp)
  obtain ⟨mc, hmc, hcm⟩ := hc.manager
  have hcsub : c.pages ⊆ entryPages e := by
    intro p hp
    rw [Handed.mem_pages] at hp
    rw [mem_entryPages]
    omega
  have hseam : c.address+c.numPages*pageSize = b.address := by
    rw [hc.aligned, hb.aligned, hend, hce]
    ring
  constructor
  · intro p
    have hu := h.union p
    simp only [List.mem_append, List.mem_singleton, or_and_right, exists_or, exists_eq_left] at hu ⊢
    rw [hpages, ← or_assoc, hu]
  · have ha := h.apart
    rw [List.pairwise_append] at ha ⊢
    refine ⟨ha.1, List.pairwise_singleton _ _, ?_⟩
    intro x hx y hy
    rw [List.mem_singleton] at hy
    subst hy
    rw [disjoint_left]
    intro p hpx hpy
    rw [hpages] at hpy
    rcases hpy with hpy | hpy
    · exact disjoint_left.mp (ha.2.2 x hx e (by simp)) hpx hpy
    · obtain ⟨d, hd, hpd⟩ := (h.union p).mp ⟨x, by simp [hx], hpx⟩
      exact disjoint_left.mp (hnew d hd) hpd hpy
  · intro x hx
    rcases List.mem_append.mp hx with hx | hx
    · exact h.starts x (by simp [hx])
    · rw [List.mem_singleton] at hx
      subst hx
      exact ⟨Nat.add_pos_left he0 _, i, mi, hmi, hei⟩
  · refine .inr ⟨es, _, l' ++ [c], b, rfl, rfl, ?_, ?_⟩
    · dsimp only
      omega
    · dsimp only
      omega
  · rw [seamless_snoc, ← h.single]
    constructor
    · intro hall
      obtain ⟨j, mj, hmj, hsub⟩ := hall ⟨e.pageIndex, e.numPages+b.numPages⟩ (by simp)
      have hesub : entryPages e ⊆ mj.pages := fun p hp => hsub ((hpages p).mpr (.inl hp))
      refine ⟨?_, ?_⟩
      · intro x hx
        rcases List.mem_append.mp hx with hx | hx
        · exact hall x (by simp [hx])
        · rw [List.mem_singleton] at hx
          subst hx
          exact ⟨j, mj, hmj, hesub⟩
      · intro _
        have h1 := hM.index_eq hmc hmj (hcm (Handed.first_mem hc.positive))
          (hesub (hcsub (Handed.first_mem hc.positive)))
        have h2 := hM.index_eq hm hmj (hbm (Handed.first_mem hb.positive))
          (hsub ((hpages _).mpr (.inr (Handed.first_mem hb.positive))))
        rw [h1, h2]
    · rintro ⟨hall, hidx⟩ x hx
      rcases List.mem_append.mp hx with hx | hx
      · exact hall x (by simp [hx])
      · rw [List.mem_singleton] at hx
        subst hx
        obtain ⟨j, mj, hmj, hsub⟩ := hall e (by simp)
        have h1 := hM.index_eq hmc hmj (hcm (Handed.first_mem hc.positive))
          (hsub (hcsub (Handed.first_mem hc.positive)))
        refine ⟨j, mj, hmj, ?_⟩
        intro p hp
        rw [hpages] at hp
        rcases hp with hp | hp
        · exact hsub hp
        · rw [← hidx hseam, h1, hmj] at hm
          cases hm
          exact hbm hp

/-- `add_block` on a group that joins what was handed out so far. -/
theorem Grouped.add (hM : Managed ms G) {G' : Finset ℕ} {g g' : KPageGroup} {l : List Handed}
    {b : Handed} (h : Grouped ms g.blocks l) (hb : Fair ms G' b) (hl : ∀ c ∈ l, Fair ms G' c)
    (hnew : ∀ c ∈ l, Disjoint c.pages b.pages)
    (hadd : g.addBlock b.address b.numPages = some g') : Grouped ms g'.blocks (l ++ [b]) := by
  obtain ⟨m, hm, hbm⟩ := hb.manager
  have hlow := (hM.free b.idx m hm).pos
  have hmax := hM.below b.idx m hm
  have hfirst := hbm (Handed.first_mem hb.positive)
  have hlast : b.first+b.numPages ≤ m.stop := by
    have hmem : b.first+b.numPages-1 ∈ b.pages := by
      rw [Handed.mem_pages]
      have := hb.positive
      omega
    have := hbm hmem
    rw [Impl.pages, mem_Ico] at this
    omega
  rw [Impl.pages, mem_Ico] at hfirst
  have hinfo : KBlockInfo.ofBlock b.address b.numPages = ⟨b.first, b.numPages⟩ := by
    rw [KBlockInfo.ofBlock]
    change KBlockInfo.mk (b.first % 2^32) _ = _
    rw [Nat.mod_eq_of_lt (by omega), Nat.mod_eq_of_lt (by omega)]
  have hpush : ∀ hseam : ∀ l' c, l = l' ++ [c] → c.address+c.numPages*pageSize ≠ b.address,
      g.pushBlock b.address b.numPages = some g' → Grouped ms g'.blocks (l ++ [b]) := by
    intro hseam hp
    rw [KPageGroup.pushBlock] at hp
    split at hp
    · cases hp
      exact h.push hb hnew hinfo hseam
    · exact absurd hp (by simp)
  rw [KPageGroup.addBlock, if_neg (by have := hb.positive; omega)] at hadd
  rcases List.eq_nil_or_concat g.blocks with hnil | ⟨es, e, hes⟩
  · rw [hnil] at hadd
    apply hpush _ hadd
    intro l' c hlc
    rcases h.ends with ⟨_, hl0⟩ | ⟨es', e', _, _, hes, _⟩
    · rw [hl0] at hlc
      simp at hlc
    · rw [hnil] at hes
      simp at hes
  · rw [List.concat_eq_append] at hes
    rw [hes] at hadd h
    obtain ⟨he0, i, mi, hmi, hei⟩ := h.starts e (by simp)
    have hepos : 0 < e.pageIndex := by
      have := (hM.free i mi hmi).pos
      rw [Impl.pages, mem_Ico] at hei
      omega
    simp only [List.getLast?_append, List.getLast?_singleton, Option.some_or] at hadd
    by_cases hjoin : b.address ≠ 0 ∧ b.address = e.getEndAddress
    · rw [KBlockInfo.tryConcatenate, if_pos hjoin] at hadd
      have hend : b.first = e.pageIndex+e.numPages := by
        rw [Handed.first, hjoin.2, KBlockInfo.getEndAddress, Nat.mul_div_cancel _ (by decide)]
      cases hadd
      have hsum : (e.numPages+b.numPages % 2^32) % 2^32 = e.numPages+b.numPages := by
        rw [Nat.mod_eq_of_lt (show b.numPages < 2^32 by omega), Nat.mod_eq_of_lt (by omega)]
      simp only [List.dropLast_concat, hsum]
      exact h.join hM hb hl hnew hend
    · rw [KBlockInfo.tryConcatenate, if_neg hjoin] at hadd
      have h' := h
      rw [← hes] at h'
      apply hpush _ hadd
      intro l' c hlc heq
      rcases h.ends with ⟨habs, _⟩ | ⟨es', e', l'', c', hes', hl', hce, _⟩
      · simp at habs
      · obtain ⟨rfl, he⟩ := List.append_inj' hes' rfl
        cases he
        rw [hl'] at hlc
        obtain ⟨_, hc⟩ := List.append_inj' hlc rfl
        cases hc
        apply hjoin
        have hc := hl c (by rw [hl']; simp)
        constructor
        · rw [hb.aligned]
          exact Nat.mul_ne_zero (by omega) (by decide)
        · rw [← heq, hc.aligned, ← Nat.add_mul, ← hce]
          rfl

end Ruzu.MemoryManager
