import Ruzu.Kernel.MemoryManagerPools
import Ruzu.Kernel.MemoryManagerRollback

/-!
# What a failed group allocation leaves behind

A group allocation that fails gives back everything it took exactly when it
joined no two blocks across the end of a manager. The pools whose managers are
apart are the ones where this cannot happen.
-/

set_option autoImplicit false

namespace Ruzu.MemoryManager
open Ruzu.MemoryBlock (pageSize)
open Ruzu.PageHeap Ruzu.PageGroup Finset KMemoryManager
open Impl (Same)

variable {ms₀ ms ms' : List Impl} {G G' : Finset ℕ} {random : Bool} {mm : KMemoryManager}

theorem getBlockIndexLoop_some {n : ℕ} (hn : 0 < n) (k : ℕ) :
    ∃ i < k+1, KPageHeap.getBlockIndexLoop n (k+1) = some i := by
  induction k with
  | zero =>
    refine ⟨0, by omega, ?_⟩
    rw [KPageHeap.getBlockIndexLoop]
    exact if_pos hn
  | succ k ih =>
    rw [KPageHeap.getBlockIndexLoop]
    split
    · exact ⟨k+1, by omega, rfl⟩
    · obtain ⟨i, hi, hloop⟩ := ih
      exact ⟨i, by omega, hloop⟩

theorem getBlockIndex_some {n : ℕ} (hn : 0 < n) : ∃ i < 7, KPageHeap.getBlockIndex n = some i :=
  getBlockIndexLoop_some hn 6

theorem getBlockIndex_pos {n i : ℕ} (h : KPageHeap.getBlockIndex n = some i) : 0 < n := by
  apply Nat.pos_of_ne_zero
  rintro rfl
  revert h
  decide +revert

/-- The walk of a group allocation, with the blocks it was handed. -/
theorem walk_taken (hM : Managed ms₀ G) {dir : Direction} {poolFirst : Option ℕ} {is : List ℕ}
    (hc : Linked.Chain (link ms₀ dir) poolFirst is) (hi : ∀ i ∈ is, i < ms₀.length)
    {g : KPageGroup} (hg : g.blocks = []) {n index : ℕ} (hindex : index < 7)
    (hblock : KPageHeap.getBlockIndex n = some index) (random : Bool) :
    ∃ w, walkSizes record random dir poolFirst (index+1) ms₀ (g, []) n = some w ∧
      Taken ms₀ G n w ∧
      ((∃ ms s r, w = .going ms s r ∧ handed ms₀ poolFirst dir g n random = s.2) ∨
        ∃ ms s, w = .full ms s ∧ handed ms₀ poolFirst dir g n random = s.2) := by
  have hstart : Taking ms₀ G ms₀ (g, []) := by
    constructor
    · exact SameAll.refl ms₀
    · change Managed ms₀ (G \ ∅)
      rwa [sdiff_empty]
    · intro b hb
      exact absurd hb (by simp)
    · rw [hg]
      exact grouped_nil
  obtain ⟨w, hw, htaken⟩ := walkSizes_taken (n := n) random hM hc hi (index+1) (by omega) ms₀ (g, []) n
    hstart (Nat.zero_add n)
  refine ⟨w, hw, htaken, ?_⟩
  rw [handed, hblock]
  dsimp only
  rw [hw]
  cases w with
  | going ms s r => exact .inl ⟨ms, s, r, rfl, rfl⟩
  | full ms s => exact .inr ⟨ms, s, rfl, rfl⟩

/-- The result of a group allocation that was handed the blocks `l`. -/
def Outcome (ms₀ : List Impl) (G : Finset ℕ) (n : ℕ) (l : List Handed)
    (r : ℕ × List Impl × KPageGroup) : Prop :=
  (r.1 = 0 ∧ handedPages l = n ∧ Taking ms₀ G r.2.1 (r.2.2, l)) ∨
    (r.1 = resultOutOfMemory ∧ handedPages l < n ∧ r.2.2.blocks = [] ∧
      ∃ G', SameAll ms₀ r.2.1 ∧ Managed r.2.1 G' ∧ G' ⊆ G ∧ (G' = G ↔ Seamless l))

theorem allocatePageGroupImpl_outcome (hM : Managed ms₀ G) {dir : Direction}
    {poolFirst : Option ℕ} {is : List ℕ} (hc : Linked.Chain (link ms₀ dir) poolFirst is)
    (hi : ∀ i ∈ is, i < ms₀.length) {g : KPageGroup} (hg : g.blocks = []) {n : ℕ} (hn : 0 < n)
    (random : Bool) :
    ∃ r, allocatePageGroupImpl ms₀ poolFirst dir g n random = some r ∧
      Outcome ms₀ G n (handed ms₀ poolFirst dir g n random) r := by
  obtain ⟨index, hindex, hblock⟩ := getBlockIndex_some hn
  obtain ⟨w, hw, htaken, hl⟩ := walk_taken hM hc hi hg hindex hblock random
  have hsim : walkSizes addToGroup random dir poolFirst (index+1) ms₀ g n =
      (walkSizes record random dir poolFirst (index+1) ms₀ (g, []) n).map (Walk.map Prod.fst) :=
    walkSizes_map record_fst dir poolFirst (index+1) ms₀ (g, []) n
  rw [hw] at hsim
  rw [allocatePageGroupImpl, hblock]
  dsimp only
  rw [hsim]
  rcases hl with ⟨ms, s, r, rfl, hl⟩ | ⟨ms, s, rfl, hl⟩
  · obtain ⟨ht, hsum⟩ := htaken
    rw [hl]
    simp only [bind, Option.map_some, Option.bind_some, Walk.map]
    by_cases hr : r = 0
    · rw [if_neg (not_not.mpr hr)]
      exact ⟨_, rfl, .inl ⟨rfl, by omega, ht⟩⟩
    · obtain ⟨ms', G', hfree, hs, hM', hsub, hiff⟩ := rollback_restores hM ht
      rw [if_pos hr, hfree]
      exact ⟨_, rfl, .inr ⟨rfl, by omega, rfl, G', hs, hM', hsub, hiff⟩⟩
  · obtain ⟨ht, hsum⟩ := htaken
    obtain ⟨ms', G', hfree, hs, hM', hsub, hiff⟩ := rollback_restores hM ht
    rw [hl]
    simp only [bind, Option.map_some, Option.bind_some, Walk.map]
    rw [hfree]
    exact ⟨_, rfl, .inr ⟨rfl, hsum, rfl, G', hs, hM', hsub, hiff⟩⟩

/-- The blocks that the heaps hand out for a call. -/
def handedFor (mm : KMemoryManager) (outPg : KPageGroup) (numPages option : ℕ) (random : Bool) :
    List Handed :=
  match decodeOption option with
  | none => []
  | some (pool, dir) => handed mm.managers (mm.getFirstManager pool dir) dir outPg numPages random

/-- The blocks make up the whole request, or no two of them meet where a manager ends. -/
def Unbroken (mm : KMemoryManager) (outPg : KPageGroup) (numPages option : ℕ) (random : Bool) :
    Prop :=
  handedPages (handedFor mm outPg numPages option random) = numPages ∨
    Seamless (handedFor mm outPg numPages option random)

/-- Every manager has the free pages and the reference counts it had. -/
structure Restored (mm mm' : KMemoryManager) : Prop where
  free : ∀ i p, freeIn mm'.managers i p ↔ freeIn mm.managers i p
  counts : mm'.managers.map Impl.pageReferenceCounts = mm.managers.map Impl.pageReferenceCounts

/-- An error leaves the managers as they were and the group empty. -/
def Undamaged (mm : KMemoryManager) (result : Option (ℕ × KMemoryManager × KPageGroup)) : Prop :=
  ∀ rc mm' outPg, result = some (rc, mm', outPg) → rc ≠ 0 → Restored mm mm' ∧ outPg.blocks = []

theorem SameAll.counts (h : SameAll ms ms') :
    ms'.map Impl.pageReferenceCounts = ms.map Impl.pageReferenceCounts := by
  induction h with
  | nil => rfl
  | cons hs _ ih => rw [List.map_cons, List.map_cons, ih, hs.counts]

theorem undamaged_error (hM : Managed mm.managers G) (hs : SameAll mm.managers ms')
    (hM' : Managed ms' G') {g : KPageGroup} (hg : g.blocks = []) :
    Undamaged mm (some (resultOutOfMemory, { mm with managers := ms' }, g)) ↔ G' = G := by
  rw [← hM.free_eq_iff hM' hs]
  constructor
  · intro hu
    exact (hu _ _ _ rfl (by decide)).1.free
  · intro hfree rc mm' outPg heq _
    cases heq
    exact ⟨⟨hfree, hs.counts⟩, hg⟩

theorem undamaged_ok {result : Option (ℕ × KMemoryManager × KPageGroup)}
    (h : ∀ r, result = some r → r.1 = 0) : Undamaged mm result := by
  intro rc mm' outPg heq hrc
  exact absurd (h _ heq) hrc

/-- A call that passes the outcome of the group allocation on, whatever it does on success. -/
theorem undamaged_iff (h : Coherent mm G) {outPg : KPageGroup} (hg : outPg.blocks = [])
    {numPages option : ℕ} (random : Bool)
    (finish : ℕ × List Impl × KPageGroup → Option (ℕ × KMemoryManager × KPageGroup))
    (hok : ∀ ms g r, finish (0, ms, g) = some r → r.1 = 0)
    (herror : ∀ ms g, finish (resultOutOfMemory, ms, g) =
      some (resultOutOfMemory, { mm with managers := ms }, g)) :
    Undamaged mm
      (if numPages = 0 then some (0, mm, outPg)
        else (decodeOption option).bind fun (pool, dir) =>
          (allocatePageGroupImpl mm.managers (mm.getFirstManager pool dir) dir outPg numPages
            random).bind finish) ↔ Unbroken mm outPg numPages option random := by
  rw [Unbroken, handedFor]
  by_cases h0 : numPages = 0
  · rw [if_pos h0]
    subst h0
    refine iff_of_true ?_ (.inl ?_)
    · apply undamaged_ok
      intro r hr
      cases hr
      rfl
    · cases decodeOption option with
      | none => rfl
      | some o => rfl
  · rw [if_neg h0]
    cases hdec : decodeOption option with
    | none => exact iff_of_true (undamaged_ok fun r hr => absurd hr (by simp)) (.inr .nil)
    | some o =>
      obtain ⟨pool, dir⟩ := o
      obtain ⟨is, hc, hi⟩ := h.chain pool dir
      obtain ⟨⟨rc, ms, g⟩, hr, hout⟩ := allocatePageGroupImpl_outcome h.managed hc hi hg
        (Nat.pos_of_ne_zero h0) random
      dsimp only
      rw [Option.bind_some]
      dsimp only
      rw [hr, Option.bind_some]
      rcases hout with ⟨hrc, hn, _⟩ | ⟨hrc, hn, hg', G', hs, hM', _, hiff⟩
      · dsimp only at hrc
        subst hrc
        exact iff_of_true (undamaged_ok fun r hr => hok ms g r hr) (.inl hn)
      · dsimp only at hrc
        subst hrc
        rw [herror, undamaged_error h.managed hs hM' hg', hiff, or_iff_right (by omega)]

/-- No manager ends where another one starts. -/
def Separate (mm : KMemoryManager) : Prop :=
  ∀ (i j : ℕ) (m m' : Impl), mm.managers[i]? = some m → mm.managers[j]? = some m' → i ≠ j →
    m.getEndAddress ≠ m'.heap.heapAddress

theorem seamless_of_separate (hM : Managed mm.managers G) (hsep : Separate mm) {l : List Handed}
    (hl : ∀ b ∈ l, Fair mm.managers G b) : Seamless l := by
  induction l with
  | nil => exact .nil
  | cons b l ih =>
    have hrest := ih fun c hc => hl c (by simp [hc])
    cases l with
    | nil => exact .singleton b
    | cons c l =>
      refine .cons_cons ?_ hrest
      intro hmeet
      have hb := hl b (by simp)
      have hc := hl c (by simp)
      obtain ⟨m, hm, hbm⟩ := hb.manager
      obtain ⟨m', hm', hcm⟩ := hc.manager
      by_contra hidx
      have hapart := hM.apart _ _ m m' hm hm' hidx
      have hfirst : c.first = b.first+b.numPages := by
        rw [hb.aligned, hc.aligned, ← Nat.add_mul] at hmeet
        exact (Nat.eq_of_mul_eq_mul_right (by decide) hmeet).symm
      have hpos := hb.positive
      -- the last page of `b` and the first page of `c` lie on the two sides of the seam
      have hlast : c.first - 1 ∈ m.pages := hbm (by rw [Handed.mem_pages]; omega)
      have hstart : c.first ∈ m'.pages := hcm (Handed.first_mem hc.positive)
      have hlast' := disjoint_left.mp hapart hlast
      have hstart' := disjoint_right.mp hapart hstart
      obtain ⟨_, hend, _⟩ := hM.address hm
      obtain ⟨hbase, _, _⟩ := hM.address hm'
      apply hsep _ _ m m' hm hm' hidx
      rw [Impl.getEndAddress, KPageHeap.getEndAddress, hend, hbase]
      rw [Impl.pages, mem_Ico] at hlast hstart hlast' hstart'
      have hseam : m.stop = m'.first := by omega
      rw [hseam]

theorem handedFor_fair (h : Coherent mm G) {outPg : KPageGroup} (hg : outPg.blocks = [])
    (numPages option : ℕ) (random : Bool) :
    ∀ b ∈ handedFor mm outPg numPages option random, Fair mm.managers G b := by
  intro b hb
  rw [handedFor] at hb
  cases hdec : decodeOption option with
  | none =>
    rw [hdec] at hb
    exact absurd hb (by simp)
  | some o =>
    rw [hdec] at hb
    obtain ⟨pool, dir⟩ := o
    change b ∈ handed mm.managers (mm.getFirstManager pool dir) dir outPg numPages random at hb
    obtain ⟨is, hc, hi⟩ := h.chain pool dir
    cases hblock : KPageHeap.getBlockIndex numPages with
    | none =>
      simp only [handed, hblock] at hb
      exact absurd hb (by simp)
    | some index =>
      obtain ⟨i, hindex, hblock'⟩ := getBlockIndex_some (getBlockIndex_pos hblock)
      rw [hblock] at hblock'
      cases hblock'
      obtain ⟨w, _, htaken, hl⟩ := walk_taken h.managed hc hi hg hindex hblock random
      rcases hl with ⟨ms, s, r, rfl, hl⟩ | ⟨ms, s, rfl, hl⟩
      · rw [hl] at hb
        exact htaken.1.fair b hb
      · rw [hl] at hb
        exact htaken.1.fair b hb

instance decidableFreeAt (h : KPageHeap) (k p : ℕ) : Decidable (freeAt h k p) :=
  inferInstanceAs (Decidable (_ ∧ _))

def isFreeIn (ms : List Impl) (i p : ℕ) : Bool :=
  ms[i]?.any fun m => (List.range 7).any fun k => freeAt m.heap k p

theorem isFreeIn_iff (ms : List Impl) (i p : ℕ) : isFreeIn ms i p = true ↔ freeIn ms i p := by
  rw [isFreeIn, freeIn]
  cases ms[i]? with
  | none => simp
  | some m => simp

def newGroup : KPageGroup := ⟨[], fun _ => true, 0⟩

/-- The application pool of two managers of one page, the first one page 16. -/
def pairAt (address : ℕ) : Option KMemoryManager := do
  let mm ← new.initializePool newHeap .application 0x10000 0x1000
  mm.initializePool newHeap .application address 0x1000

theorem pairFirst_ne_zero : 0x10000 ≠ 0 := by decide

theorem pairFirst_aligned : 0x10000 % pageSize = 0 := by decide

def pairFirst : Region :=
  ⟨0x10000, 0x1000, pairFirst_ne_zero, by decide, pairFirst_aligned, by decide⟩

/-- The two calls behind a pair, the second one over a region apart from the first. -/
theorem pairAt_steps {g : Region} (hsize : g.heapSize = 0x1000) (hlow : 0x11000 ≤ g.heapAddress)
    (h : pairAt g.heapAddress = some mm) :
    ∃ mm₁, new.initializePool newHeap .application pairFirst.heapAddress pairFirst.heapSize =
        some mm₁ ∧
      mm₁.initializePool newHeap .application g.heapAddress g.heapSize = some mm ∧
      ∀ (i : ℕ) (x : Impl), mm₁.managers[i]? = some x → Disjoint x.pages g.pages := by
  rw [pairAt, ← hsize] at h
  obtain ⟨mm₁, h₁, h₂⟩ := Option.bind_eq_some_iff.mp h
  refine ⟨mm₁, by rwa [hsize] at h₁, h₂, ?_⟩
  intro i x hx
  rw [hsize] at h₁
  rcases initializePool_counts (g := pairFirst) h₁ hx with ⟨y, hy, _⟩ | ⟨_, hpages, _⟩
  · simp [new] at hy
  · rw [hpages, disjoint_left]
    intro p hp hq
    rw [Region.pages, mem_Ico] at hp hq
    simp only [pairFirst, pageSize] at hp hq
    omega

theorem pairAt_coherent {g : Region} (hsize : g.heapSize = 0x1000)
    (hlow : 0x11000 ≤ g.heapAddress) (hhigh : g.heapAddress < 2^40)
    (h : pairAt g.heapAddress = some mm) : ∃ G, Coherent mm G := by
  obtain ⟨mm₁, h₁, h₂, hapart⟩ := pairAt_steps hsize hlow h
  have hfirst := initializePool_coherent new_coherent (by decide)
    (fun i x hx => by simp [new] at hx) h₁
  refine ⟨_, initializePool_coherent hfirst ?_ hapart h₂⟩
  rw [hsize]
  simp only [pageSize]
  omega

/-- The page behind the first manager. -/
def pairNext : Region := ⟨0x11000, 0x1000, by decide, by decide, by decide, by decide⟩

/-- A page further away. -/
def pairApart : Region := ⟨0x20000, 0x1000, by decide, by decide, by decide, by decide⟩

end Ruzu.MemoryManager
