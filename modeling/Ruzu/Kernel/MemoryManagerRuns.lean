import Ruzu.Kernel.MemoryManagerErrors
import Ruzu.Kernel.MemoryManagerRanges

/-!
# Runs of the memory manager

In a run whose group allocations lose no page on an error, the free pages are
those without references: allocations take pages whose count is 0, and a close
gives back the pages whose last reference it takes.
-/

set_option autoImplicit false

namespace Ruzu.MemoryManager
open Ruzu.MemoryBlock (pageSize)
open Ruzu.PageHeap Ruzu.PageGroup Finset KMemoryManager

variable {ms ms₀ ms' : List Impl} {G G' : Finset ℕ} {c : ℕ → ℕ} {mm mm' : KMemoryManager}

/-- Page `p` belongs to a manager. -/
def Owned (ms : List Impl) (p : ℕ) : Prop := ∃ (i : ℕ) (m : Impl), ms[i]? = some m ∧ p ∈ m.pages

theorem owned_frames (h : frames ms' = frames ms) (p : ℕ) : Owned ms' p ↔ Owned ms p := by
  constructor
  · rintro ⟨i, m, hm, hp⟩
    obtain ⟨x, hx, hxm⟩ := frames_get h.symm hm
    exact ⟨i, x, hx, by rwa [frame_pages hxm]⟩
  · rintro ⟨i, m, hm, hp⟩
    obtain ⟨x, hx, hxm⟩ := frames_get h hm
    exact ⟨i, x, hx, by rwa [frame_pages hxm]⟩

theorem link_frames (h : frames ms' = frames ms) (dir : Direction) :
    link ms' dir = link ms dir := by
  funext i
  rw [link, link]
  cases hm : ms[i]? with
  | none =>
    have hlen : ms'.length = ms.length := by
      have := congrArg List.length h
      rwa [frames, frames, List.length_map, List.length_map] at this
    rw [List.getElem?_eq_none_iff] at hm
    rw [List.getElem?_eq_none (by omega)]
  | some m =>
    obtain ⟨m', hm', hframe⟩ := frames_get h hm
    simp only [Impl.frame, Prod.mk.injEq] at hframe
    rw [hm', Option.bind_some, Option.bind_some]
    cases dir with
    | fromFront => exact hframe.2.2.2.1
    | fromBack => exact hframe.2.2.2.2

theorem Coherent.frames (h : Coherent mm G) (hf : frames ms' = frames mm.managers)
    (hm : Managed ms' G') : Coherent { mm with managers := ms' } G' := by
  constructor
  · exact hm
  · intro pool
    obtain ⟨is, hp⟩ := h.chains pool
    refine ⟨is, ?_, ?_, ?_⟩
    · change Linked.Chain (link ms' .fromFront) _ is
      rw [link_frames hf]
      exact hp.front
    · change Linked.Chain (link ms' .fromBack) _ is.reverse
      rw [link_frames hf]
      exact hp.back
    · intro i hi
      obtain ⟨m, hm, hpool⟩ := hp.members i hi
      obtain ⟨m', hm', hframe⟩ := frames_get hf hm
      simp only [Impl.frame, Prod.mk.injEq] at hframe
      exact ⟨m', hm', hframe.2.2.1.trans hpool⟩

/-- The free pages `G` are the ones without references. -/
structure Accounted (mm : KMemoryManager) (G : Finset ℕ) (c : ℕ → ℕ) : Prop where
  coherent : Coherent mm G
  holding : Holding mm.managers G c
  zero : ∀ p, p ∈ G ↔ Owned mm.managers p ∧ c p = 0

theorem Accounted.count (h : Accounted mm G c) {p : ℕ} (hp : p ∈ G) : c p = 0 :=
  ((h.zero p).mp hp).2

theorem Accounted.of_frames (h : Accounted mm G c) {c' : ℕ → ℕ}
    (hf : frames ms' = frames mm.managers) (hh : Holding ms' G' c')
    (hz : ∀ p, Owned mm.managers p → (p ∈ G' ↔ c' p = 0)) (hsub : ∀ p ∈ G', Owned mm.managers p) :
    Accounted { mm with managers := ms' } G' c' := by
  refine ⟨h.coherent.frames hf hh.managed, hh, ?_⟩
  intro p
  change p ∈ G' ↔ Owned ms' p ∧ c' p = 0
  rw [owned_frames hf]
  constructor
  · intro hp
    exact ⟨hsub p hp, (hz p (hsub p hp)).mp hp⟩
  · rintro ⟨ho, hp⟩
    exact (hz p ho).mpr hp

theorem released_false {R : Finset ℕ} : released false R c = ∅ := by
  simp [released]

theorem isSome_lastReference {k : ℕ} : (Impl.lastReference k).isSome ↔ 0 < k := by
  rw [Impl.lastReference]
  split
  · simp
    omega
  · simp
    omega

theorem moveOn_eq {move : ℕ → Option ℕ} {R : Finset ℕ} {p k : ℕ} (hp : p ∈ R)
    (h : move (c p) = some k) : moveOn move R c p = k := by
  rw [moveOn, if_pos hp, h]
  rfl

/-- `open` adds a reference to every page of the range. -/
theorem open_accounted (h : Accounted mm G c) {address n : ℕ}
    (hrun : mm.open address n = some mm') :
    (∀ q ∈ pagesAt address n, Owned mm.managers q ∧ 0 < c q ∧ c q+1 < 2^16) ∧
      Accounted mm' G (moveOn Impl.nextReference (pagesAt address n) c) ∧
      frames mm'.managers = frames mm.managers := by
  rw [KMemoryManager.open] at hrun
  simp only [bind, Option.bind_eq_some_iff] at hrun
  obtain ⟨ms, hrun, heq⟩ := hrun
  cases heq
  obtain ⟨hpages, hholding, hframes⟩ := overManagers_holding open_moves n _ G c address n ms
    h.holding (fun hg => absurd hg (by simp)) hrun
  rw [released_false, union_empty] at hholding
  have hmoved : ∀ q ∈ pagesAt address n, 0 < c q ∧ c q+1 < 2^16 ∧
      moveOn Impl.nextReference (pagesAt address n) c q = c q+1 := by
    intro q hq
    obtain ⟨k, hk⟩ := Option.isSome_iff_exists.mp (hpages q hq).1
    obtain ⟨h₁, h₂, rfl⟩ := Impl.nextReference_some.mp hk
    exact ⟨h₁, h₂, moveOn_eq hq hk⟩
  refine ⟨?_, h.of_frames hframes hholding ?_ fun p hp => ((h.zero p).mp hp).1, hframes⟩
  · intro q hq
    exact ⟨(hpages q hq).2, (hmoved q hq).1, (hmoved q hq).2.1⟩
  · intro p ho
    rw [h.zero, and_iff_right ho]
    by_cases hp : p ∈ pagesAt address n
    · have := hmoved p hp
      rw [this.2.2]
      omega
    · rw [moveOn_other hp]

/-- `close` takes a reference from every page of the range and frees those that had one. -/
theorem close_accounted (h : Accounted mm G c) {address n : ℕ}
    (hrun : mm.close address n = some mm') :
    (∀ q ∈ pagesAt address n, Owned mm.managers q ∧ 0 < c q) ∧
      Accounted mm' (G ∪ released true (pagesAt address n) c)
        (moveOn Impl.lastReference (pagesAt address n) c) ∧
      frames mm'.managers = frames mm.managers := by
  rw [KMemoryManager.close] at hrun
  simp only [bind, Option.bind_eq_some_iff] at hrun
  obtain ⟨ms, hrun, heq⟩ := hrun
  cases heq
  have hfree : ∀ q, c q = 1 → q ∉ G := fun q hq hG => by
    have := h.count hG
    omega
  obtain ⟨hpages, hholding, hframes⟩ := overManagers_holding close_moves n _ G c address n ms
    h.holding (fun _ q _ hq => hfree q hq) hrun
  have hmoved : ∀ q ∈ pagesAt address n, 0 < c q ∧
      moveOn Impl.lastReference (pagesAt address n) c q = c q - 1 := by
    intro q hq
    obtain ⟨k, hk⟩ := Option.isSome_iff_exists.mp (hpages q hq).1
    have hck := Impl.lastReference_some.mp hk
    refine ⟨by omega, ?_⟩
    rw [moveOn_eq hq hk]
    omega
  refine ⟨fun q hq => ⟨(hpages q hq).2, (hmoved q hq).1⟩, h.of_frames hframes hholding ?_ ?_,
    hframes⟩
  · intro p ho
    rw [mem_union, released, mem_filter, h.zero, and_iff_right ho]
    by_cases hp : p ∈ pagesAt address n
    · have := hmoved p hp
      rw [this.2]
      simp only [hp, true_and]
      omega
    · rw [moveOn_other hp]
      simp [hp]
  · intro p hp
    rcases mem_union.mp hp with hp | hp
    · exact ((h.zero p).mp hp).1
    · exact (hpages p (released_sub hp)).2

/-- `close` returns on every range of pages with references. -/
theorem close_some (h : Accounted mm G c) {p n : ℕ}
    (hpages : ∀ q ∈ Ico p (p+n), Owned mm.managers q ∧ 0 < c q) :
    ∃ mm', mm.close (p*pageSize) n = some mm' := by
  obtain ⟨ms, hms⟩ := overManagers_some close_moves n mm.managers G c p n h.holding le_rfl
    (fun _ q _ hq hG => by have := h.count hG; omega)
    fun q hq => ⟨isSome_lastReference.2 (hpages q hq).2, (hpages q hq).1⟩
  refine ⟨{ mm with managers := ms }, ?_⟩
  rw [KMemoryManager.close, hms]
  rfl

/-- The pages of a group. -/
def groupPages (g : KPageGroup) : Finset ℕ := g.blocks.toFinset.biUnion entryPages

/-- Every page of the entries gets its first reference. -/
theorem openFirstBlocks_holding (es : List KBlockInfo) : ∀ (ms : List Impl) (c : ℕ → ℕ),
    Holding ms G c → es.Pairwise (fun e e' => Disjoint (entryPages e) (entryPages e')) →
    (∀ e ∈ es, ∀ q ∈ entryPages e, Owned ms q ∧ c q = 0) →
    ∃ ms', openFirstBlocks es ms = some ms' ∧ frames ms' = frames ms ∧
      Holding ms' G (moveOn Impl.firstReference (es.toFinset.biUnion entryPages) c) := by
  induction es with
  | nil =>
    intro ms c h _ _
    have hc : moveOn Impl.firstReference ∅ c = c := funext fun p => moveOn_other (notMem_empty p)
    refine ⟨ms, rfl, rfl, ?_⟩
    rw [List.toFinset_nil, biUnion_empty, hc]
    exact h
  | cons e es ih =>
    intro ms c h hapart hzero
    rw [List.pairwise_cons] at hapart
    have hmov : ∀ q ∈ entryPages e, (Impl.firstReference (c q)).isSome ∧ Owned ms q := by
      intro q hq
      obtain ⟨ho, hc⟩ := hzero e (by simp) q hq
      exact ⟨Option.isSome_iff_exists.mpr ⟨1, Impl.firstReference_some.mpr ⟨hc, rfl⟩⟩, ho⟩
    obtain ⟨ms₁, hrun⟩ := overManagers_some openFirst_moves e.numPages ms G c e.pageIndex
      e.numPages h le_rfl (fun hg => absurd hg (by simp)) hmov
    obtain ⟨_, hholding, hframes⟩ := overManagers_holding openFirst_moves e.numPages ms G c _ _ ms₁
      h (fun hg => absurd hg (by simp)) hrun
    have hpage : e.pageIndex*pageSize/pageSize = e.pageIndex :=
      Nat.mul_div_cancel _ (by decide)
    rw [released_false, union_empty, hpage] at hholding
    change Holding ms₁ G (moveOn Impl.firstReference (entryPages e) c) at hholding
    have hdis : Disjoint (entryPages e) (es.toFinset.biUnion entryPages) := by
      rw [disjoint_biUnion_right]
      intro e' he'
      exact hapart.1 e' (List.mem_toFinset.mp he')
    obtain ⟨ms', hrest, hframes', hholding'⟩ := ih ms₁ _ hholding hapart.2 (by
      intro e' he' q hq
      obtain ⟨ho, hc⟩ := hzero e' (by simp [he']) q hq
      refine ⟨(owned_frames hframes q).mpr ho, ?_⟩
      rw [moveOn_other (disjoint_right.mp (hapart.1 e' he') hq)]
      exact hc)
    refine ⟨ms', ?_, hframes'.trans hframes, ?_⟩
    · simp only [openFirstBlocks, KBlockInfo.getAddress, bind]
      rw [hrun]
      exact hrest
    · rw [moveOn_union hdis] at hholding'
      rw [List.toFinset_cons, biUnion_insert]
      exact hholding'

/-- The state after a page range was handed out: its pages were free and have one reference. -/
theorem Accounted.take (h : Accounted mm G c) {R : Finset ℕ} (hR : R ⊆ G)
    (hf : frames ms' = frames mm.managers)
    (hh : Holding ms' (G \ R) (moveOn Impl.firstReference R c)) :
    Accounted { mm with managers := ms' } (G \ R) (moveOn Impl.firstReference R c) := by
  apply h.of_frames hf hh
  · intro p ho
    rw [mem_sdiff, h.zero, and_iff_right ho]
    by_cases hp : p ∈ R
    · rw [moveOn_eq hp (Impl.firstReference_some.mpr ⟨h.count (hR hp), rfl⟩)]
      simp [hp]
    · rw [moveOn_other hp]
      simp [hp]
  · intro p hp
    exact ((h.zero p).mp (mem_sdiff.mp hp).1).1

theorem Holding.of_same (h : Holding ms G c) (hs : SameAll ms ms') (hm : Managed ms' G') :
    Holding ms' G' c := by
  refine ⟨hm, ?_⟩
  intro i m hget p hp
  obtain ⟨x, hx, hsame⟩ := hs.get' hget
  rw [hsame.counts, hsame.first]
  rw [hsame.pages] at hp
  exact h.counts i x hx p hp

/-- A group allocation over free pages without references: what it hands out gets one reference,
and an error at most loses free pages. -/
theorem allocateAndOpen_holding (h : Coherent mm G) (hh : Holding mm.managers G c)
    (hzero : ∀ p ∈ G, c p = 0) {outPg g : KPageGroup} (hempty : outPg.blocks = [])
    {n option rc : ℕ} (hrun : mm.allocateAndOpen outPg n option = some (rc, mm', g)) :
    ∃ ms', mm' = { mm with managers := ms' } ∧ frames ms' = frames mm.managers ∧
      (rc = 0 → groupPages g ⊆ G ∧
        Holding ms' (G \ groupPages g) (moveOn Impl.firstReference (groupPages g) c)) ∧
      (rc ≠ 0 → ∃ G', G' ⊆ G ∧ Holding ms' G' c ∧ (Unbroken mm outPg n option true → G' = G)) := by
  rw [KMemoryManager.allocateAndOpen] at hrun
  by_cases h0 : n = 0
  · rw [if_pos h0] at hrun
    cases hrun
    have hnone : groupPages outPg = ∅ := by rw [groupPages, hempty]; rfl
    have hc : moveOn Impl.firstReference ∅ c = c := funext fun p => moveOn_other (notMem_empty p)
    refine ⟨mm.managers, rfl, rfl, fun _ => ?_, fun hrc => absurd rfl hrc⟩
    rw [hnone, sdiff_empty, hc]
    exact ⟨empty_subset G, hh⟩
  · rw [if_neg h0] at hrun
    simp only [bind, Option.bind_eq_some_iff] at hrun
    obtain ⟨⟨pool, dir⟩, hdec, ⟨rc₁, ms, g₁⟩, hgroup, hrun⟩ := hrun
    obtain ⟨is, hc, hi⟩ := h.chain pool dir
    obtain ⟨r, hr, hout⟩ := allocatePageGroupImpl_outcome h.managed hc hi hempty
      (Nat.pos_of_ne_zero h0) true
    dsimp only at hgroup hrun
    rw [hgroup] at hr
    cases hr
    rw [Unbroken, handedFor, hdec]
    dsimp only
    rcases hout with ⟨hrc, hpages, ht⟩ | ⟨hrc, hpages, _, G', hs, hM', hsub, hiff⟩
    · dsimp only at hrc ht
      subst hrc
      rw [if_neg (by simp), Option.bind_eq_some_iff] at hrun
      obtain ⟨ms', hopen, heq⟩ := hrun
      cases heq
      generalize handed mm.managers (mm.getFirstManager pool dir) dir outPg n true = l at ht
      have hgroup : groupPages g = taken l := by
        ext p
        rw [groupPages, mem_biUnion, mem_taken, ← ht.grouped.union]
        simp only [List.mem_toFinset]
      have hsub : groupPages g ⊆ G := by
        intro p hp
        rw [hgroup, mem_taken] at hp
        obtain ⟨b, hb, hpb⟩ := hp
        exact (ht.fair b hb).free hpb
      have hholding := hh.of_same ht.same ht.managed
      obtain ⟨ms₁, hopen₁, hframes, hholding₁⟩ := openFirstBlocks_holding g.blocks ms c hholding
        ht.grouped.apart (by
          intro e he q hq
          have hqG : q ∈ G := hsub (mem_biUnion.mpr ⟨e, List.mem_toFinset.mpr he, hq⟩)
          have ho : Owned mm.managers q := hh.managed.sub q hqG
          exact ⟨(owned_frames ht.same.frames q).mpr ho, hzero q hqG⟩)
      rw [hopen] at hopen₁
      cases hopen₁
      refine ⟨ms', rfl, hframes.trans ht.same.frames, fun _ => ⟨hsub, ?_⟩,
        fun hrc => absurd rfl hrc⟩
      rw [← hgroup] at hholding₁
      exact hholding₁
    · dsimp only at hrc hs hM'
      subst hrc
      rw [if_pos (by decide)] at hrun
      cases hrun
      refine ⟨ms, rfl, hs.frames, fun hrc => absurd hrc (by decide), fun _ => ?_⟩
      refine ⟨G', hsub, hh.of_same hs hM', fun hun => ?_⟩
      exact hiff.mpr (hun.resolve_left (by omega))

/-- A group allocation: its pages were free and get one reference; an error that loses no page
changes nothing. -/
theorem allocateAndOpen_accounted (h : Accounted mm G c) {outPg g : KPageGroup}
    (hempty : outPg.blocks = []) {n option rc : ℕ}
    (hrun : mm.allocateAndOpen outPg n option = some (rc, mm', g)) :
    (rc = 0 → groupPages g ⊆ G ∧
      Accounted mm' (G \ groupPages g) (moveOn Impl.firstReference (groupPages g) c) ∧
      frames mm'.managers = frames mm.managers) ∧
    (rc ≠ 0 → Unbroken mm outPg n option true → Accounted mm' G c) := by
  obtain ⟨ms, rfl, hf, hok, herror⟩ := allocateAndOpen_holding h.coherent h.holding
    (fun _ hp => h.count hp) hempty hrun
  constructor
  · intro hrc
    obtain ⟨hsub, hholding⟩ := hok hrc
    exact ⟨hsub, h.take hsub hf hholding, hf⟩
  · intro hrc hun
    obtain ⟨G', -, hholding, hG⟩ := herror hrc
    obtain rfl := hG hun
    exact h.of_frames hf hholding (fun p ho => by rw [h.zero, and_iff_right ho])
      fun p hp => ((h.zero p).mp hp).1

/-- One manager's answer to an aligned request. -/
theorem allocateAligned_granted {i : ℕ} {m : Impl} (hM : Managed ms G) (hm : ms[i]? = some m)
    {index n align : ℕ} (hindex : KPageHeap.getAlignedBlockIndex n align = some index)
    (halign : 0 < align) :
    ∃ r k, m.allocateAligned index n align = some (r, { m with heap := k }) ∧
      Impl.Same m { m with heap := k } ∧
      ((r = 0 ∧ Managed (ms.set i { m with heap := k }) G) ∨
        ∃ p, r = p*pageSize ∧ r ≠ 0 ∧ Ico p (p+n) ⊆ m.pages ∧ Ico p (p+n) ⊆ G ∧
          Managed (ms.set i { m with heap := k }) (G \ Ico p (p+n))) := by
  obtain ⟨h7, hn, ha⟩ := alignedBlockIndex_spec hindex
  have hmul := Nat.mul_le_mul_right pageSize ha
  have hmax := width_le index h7
  obtain ⟨d, hshift, hd, hdvd⟩ := trailingZeros_page halign (by omega)
  have hpow := width_two_pow index h7
  have hc : 2^d ∣ width index := by
    have hle := (Nat.le_of_dvd halign hdvd).trans ha
    rw [hpow] at hle ⊢
    exact Nat.pow_dvd_pow 2 ((Nat.pow_le_pow_iff_right (by omega)).mp hle)
  obtain ⟨r, k, hr, hg⟩ := allocateByRandom_granted (hM.free i m hm) h7 hn hshift hd hc
  obtain ⟨hsame, hres⟩ := hM.granted hm hg
  refine ⟨r, k, ?_, hsame, hres⟩
  rw [Impl.allocateAligned, KPageHeap.allocateAligned, hr]
  rfl

/-- An alignment of 0 pages panics. -/
theorem allocateAligned_zero {i : ℕ} {m : Impl} (hM : Managed ms G) (hm : ms[i]? = some m)
    {index n : ℕ} (hindex : index < 7) : m.allocateAligned index n 0 = none := by
  have hf := hM.free i m hm
  have hshift : KPageHeap.trailingZeros (0*pageSize) = 64 := by decide
  obtain ⟨f, hfuel⟩ : ∃ f, m.heap.numBlocks - index = f+1 := ⟨6 - index, by rw [hf.numBlocks]; omega⟩
  have halign : m.heap.alignmentsAt (n*pageSize) 64 index = none := by
    rw [KPageHeap.alignmentsAt, block_eq m.heap hindex]
    simp only [bind, Option.bind_some]
    rw [if_pos (.inr le_rfl)]
    rfl
  rw [Impl.allocateAligned, KPageHeap.allocateAligned, KPageHeap.allocateByRandom, hshift, hfuel,
    KPageHeap.countAlignments, halign]
  rfl

/-- The walk of a pool for one aligned range. -/
theorem allocateContinuous_taken {dir : Direction} {index n align : ℕ}
    (hindex : KPageHeap.getAlignedBlockIndex n align = some index) (is : List ℕ) :
    ∀ (fuel : ℕ) (cur : Option ℕ) (ms : List Impl) (r : Option (ℕ × ℕ)) (ms' : List Impl),
      Linked.Chain (link ms₀ dir) cur is → SameAll ms₀ ms → Managed ms G →
      allocateContinuous dir index n align fuel cur ms = some (r, ms') →
      SameAll ms₀ ms' ∧ ((r = none ∧ Managed ms' G) ∨
        ∃ (i p : ℕ) (m : Impl), r = some (i, p*pageSize) ∧ p*pageSize ≠ 0 ∧ ms'[i]? = some m ∧
          Ico p (p+n) ⊆ m.pages ∧ Ico p (p+n) ⊆ G ∧ Managed ms' (G \ Ico p (p+n))) := by
  induction is with
  | nil =>
    intro fuel cur ms r ms' hc hs hM hrun
    have hcur : cur = none := hc
    subst hcur
    cases fuel with
    | zero =>
      cases hrun
      exact ⟨hs, .inl ⟨rfl, hM⟩⟩
    | succ fuel =>
      cases hrun
      exact ⟨hs, .inl ⟨rfl, hM⟩⟩
  | cons i is ih =>
    intro fuel cur ms r ms' hc hs hM hrun
    obtain ⟨rfl, hrest⟩ := hc
    cases fuel with
    | zero => exact absurd hrun (by simp [allocateContinuous])
    | succ fuel =>
      simp only [allocateContinuous, bind, Option.bind_eq_some_iff] at hrun
      obtain ⟨m, hm, ⟨b, m'⟩, hb, hrun⟩ := hrun
      have halign : 0 < align := by
        apply Nat.pos_of_ne_zero
        rintro rfl
        rw [allocateAligned_zero hM hm (alignedBlockIndex_spec hindex).1] at hb
        exact absurd hb (by simp)
      obtain ⟨b', k, hb', hsame, hres⟩ := allocateAligned_granted hM hm hindex halign
      rw [hb] at hb'
      cases hb'
      have hs' := hs.set hm hsame
      rcases hres with ⟨rfl, hM'⟩ | ⟨p, rfl, hp0, hpm, hpG, hM'⟩
      · rw [if_neg (by simp)] at hrun
        apply ih fuel _ _ r ms' _ hs' hM' hrun
        rw [hsame.next, ← link_eq hs hm dir]
        exact hrest
      · rw [if_pos hp0] at hrun
        cases hrun
        refine ⟨hs', .inr ⟨i, p, _, rfl, hp0, getElem?_set_self hm, ?_, hpG, hM'⟩⟩
        rwa [hsame.pages]

/-- The first references of a range that its manager has just handed out. -/
theorem openFirst_granted {i p n : ℕ} {m : Impl} (h : Holding ms (G \ Ico p (p+n)) c)
    (hm : ms[i]? = some m) (hn : 0 < n) (hpm : Ico p (p+n) ⊆ m.pages)
    (hzero : ∀ q ∈ Ico p (p+n), c q = 0) :
    ∃ m', m.openFirst (p*pageSize) n = some m' ∧ m'.frame = m.frame ∧
      Holding (ms.set i m') (G \ Ico p (p+n)) (moveOn Impl.firstReference (Ico p (p+n)) c) := by
  have hpage : p ∈ m.pages := hpm (by rw [mem_Ico]; omega)
  have hlast : p+n - 1 ∈ m.pages := hpm (by rw [mem_Ico]; omega)
  rw [Impl.pages, mem_Ico] at hlast
  obtain ⟨x, hx, hframe, hholding⟩ := h.move_range openFirst_moves hm (n := n)
    (h.managed.pageOffset hm hpage).1 hpage (by omega)
    (fun q hq => Option.isSome_iff_exists.mpr
      ⟨1, Impl.firstReference_some.mpr ⟨hzero q hq, rfl⟩⟩)
    (fun hg => absurd hg (by simp))
  rw [released_false, union_empty] at hholding
  exact ⟨x, hx, hframe, hholding⟩

/-- An aligned allocation over free pages without references: its pages get one reference. -/
theorem allocateAndOpenContinuous_holding (h : Coherent mm G) (hh : Holding mm.managers G c)
    (hzero : ∀ p ∈ G, c p = 0) {n align option r : ℕ}
    (hrun : mm.allocateAndOpenContinuous n align option = some (r, mm')) :
    ∃ ms', mm' = { mm with managers := ms' } ∧ frames ms' = frames mm.managers ∧
      (r = 0 → Holding ms' G c) ∧
      (r ≠ 0 → pagesAt r n ⊆ G ∧
        Holding ms' (G \ pagesAt r n) (moveOn Impl.firstReference (pagesAt r n) c)) := by
  rw [KMemoryManager.allocateAndOpenContinuous] at hrun
  by_cases h0 : n = 0
  · rw [if_pos h0] at hrun
    cases hrun
    exact ⟨mm.managers, rfl, rfl, fun _ => hh, fun hr => absurd rfl hr⟩
  · rw [if_neg h0] at hrun
    simp only [bind, Option.bind_eq_some_iff] at hrun
    obtain ⟨⟨pool, dir⟩, _, hrun⟩ := hrun
    obtain ⟨is, hc, _⟩ := h.chain pool dir
    cases hfirst : mm.getFirstManager pool dir with
    | none =>
      rw [hfirst] at hrun
      cases hrun
      exact ⟨mm.managers, rfl, rfl, fun _ => hh, fun hr => absurd rfl hr⟩
    | some first =>
      rw [hfirst] at hrun hc
      dsimp only at hrun
      simp only [Option.bind_eq_some_iff] at hrun
      obtain ⟨index, hindex, ⟨found, ms⟩, hwalk, hrun⟩ := hrun
      obtain ⟨hs, hres⟩ := allocateContinuous_taken hindex is _ _ _ found ms hc
        (SameAll.refl mm.managers) h.managed hwalk
      rcases hres with ⟨rfl, hM⟩ | ⟨i, p, m, rfl, hp0, hm, hpm, hpG, hM⟩
      · cases hrun
        exact ⟨ms, rfl, hs.frames, fun _ => hh.of_same hs hM, fun hr => absurd rfl hr⟩
      · dsimp only at hrun
        simp only [Option.bind_eq_some_iff] at hrun
        obtain ⟨x, hx, m', hopen, heq⟩ := hrun
        cases heq
        rw [hm] at hx
        cases hx
        have hR : pagesAt (p*pageSize) n = Ico p (p+n) := by
          rw [pagesAt, Nat.mul_div_cancel _ (by decide : 0 < pageSize)]
        obtain ⟨x, hx, hframe, hholding'⟩ := openFirst_granted (hh.of_same hs hM) hm
          (Nat.pos_of_ne_zero h0) hpm fun q hq => hzero q (hpG hq)
        rw [hopen] at hx
        cases hx
        refine ⟨_, rfl, (frames_set hm hframe).trans hs.frames, fun hr => absurd hr hp0,
          fun _ => ?_⟩
        rw [hR]
        exact ⟨hpG, hholding'⟩

theorem allocateAndOpenContinuous_accounted (h : Accounted mm G c) {n align option r : ℕ}
    (hrun : mm.allocateAndOpenContinuous n align option = some (r, mm')) :
    (r = 0 → Accounted mm' G c) ∧
    (r ≠ 0 → pagesAt r n ⊆ G ∧
      Accounted mm' (G \ pagesAt r n) (moveOn Impl.firstReference (pagesAt r n) c) ∧
      frames mm'.managers = frames mm.managers) := by
  obtain ⟨ms, rfl, hf, hnone, hsome⟩ := allocateAndOpenContinuous_holding h.coherent h.holding
    (fun _ hp => h.count hp) hrun
  constructor
  · intro hr
    exact h.of_frames hf (hnone hr) (fun p ho => by rw [h.zero, and_iff_right ho])
      fun p hp => ((h.zero p).mp hp).1
  · intro hr
    obtain ⟨hsub, hholding⟩ := hsome hr
    exact ⟨hsub, h.take hsub hf hholding, hf⟩

/-- A further region, free and without references. -/
theorem initializePool_holding (h : Coherent mm G) (hc : Holding mm.managers G c)
    {heap : KPageHeap} {pool : Pool} {g : Region}
    (hbelow : (g.heapAddress+g.heapSize)/pageSize ≤ 2^32)
    (hapart : ∀ (i : ℕ) (x : Impl), mm.managers[i]? = some x → Disjoint x.pages g.pages)
    (hrun : mm.initializePool heap pool g.heapAddress g.heapSize = some mm') :
    Coherent mm' (G ∪ g.pages) ∧
      Holding mm'.managers (G ∪ g.pages) fun p => if p ∈ g.pages then 0 else c p := by
  have hcoherent := initializePool_coherent h hbelow hapart hrun
  refine ⟨hcoherent, hcoherent.managed, ?_⟩
  intro i x hx p hp
  rcases initializePool_counts hrun hx with ⟨y, hy, hfirst, hstop, hcounts⟩ | ⟨_, hpages, hcounts⟩
  · have hpy : p ∈ y.pages := by
      rw [Impl.pages, ← hfirst, ← hstop]
      exact hp
    have hnot : p ∉ g.pages := disjoint_left.mp (hapart i y hy) hpy
    rw [hcounts, hfirst, if_neg hnot]
    exact hc.counts i y hy p hpy
  · rw [hpages] at hp
    rw [hcounts, if_pos hp, List.getElem?_replicate]
    rw [← hpages, Impl.pages, mem_Ico] at hp
    rw [if_pos (by omega)]

theorem initializePool_accounted (h : Accounted mm G c) {heap : KPageHeap} {pool : Pool}
    {g : Region} (hbelow : (g.heapAddress+g.heapSize)/pageSize ≤ 2^32)
    (hapart : ∀ (i : ℕ) (x : Impl), mm.managers[i]? = some x → Disjoint x.pages g.pages)
    (hrun : mm.initializePool heap pool g.heapAddress g.heapSize = some mm') :
    Accounted mm' (G ∪ g.pages) fun p => if p ∈ g.pages then 0 else c p := by
  obtain ⟨hcoherent, hholding⟩ :=
    initializePool_holding h.coherent h.holding hbelow hapart hrun
  obtain ⟨hkept, j, y, hy, hyg⟩ := initializePool_kept hrun
  refine ⟨hcoherent, hholding, ?_⟩
  intro p
  rw [mem_union]
  by_cases hp : p ∈ g.pages
  · simp only [hp, or_true, if_true, and_true, true_iff]
    exact ⟨j, y, hy, by rwa [hyg]⟩
  · simp only [hp, or_false, if_false]
    rw [h.zero]
    apply and_congr_left
    intro _
    constructor
    · rintro ⟨i, m, hm, hpm⟩
      obtain ⟨x, hx, hxm⟩ := hkept i m hm
      exact ⟨i, x, hx, by rwa [hxm]⟩
    · rintro ⟨i, x, hx, hpx⟩
      rcases initializePool_counts hrun hx with ⟨y, hy, hfirst, hstop, _⟩ | ⟨_, hpages, _⟩
      · refine ⟨i, y, hy, ?_⟩
        rw [Impl.pages, ← hfirst, ← hstop]
        exact hpx
      · rw [hpages] at hpx
        exact absurd hpx hp

inductive Call
  | initializePool (heap : KPageHeap) (pool : Pool) (g : Region)
  | allocateAndOpen (outPg : KPageGroup) (numPages option : ℕ)
  | allocateAndOpenContinuous (numPages alignPages option : ℕ)
  | «open» (address numPages : ℕ)
  | close (address numPages : ℕ)

namespace Call

def serve (mm : KMemoryManager) : Call → Option KMemoryManager
  | .initializePool heap pool g => mm.initializePool heap pool g.heapAddress g.heapSize
  | .allocateAndOpen outPg n option => (mm.allocateAndOpen outPg n option).map fun r => r.2.1
  | .allocateAndOpenContinuous n align option =>
    (mm.allocateAndOpenContinuous n align option).map fun r => r.2
  | .open address n => mm.open address n
  | .close address n => mm.close address n

/-- Regions are apart and below 2^32 pages; groups are handed over empty. -/
def Valid (mm : KMemoryManager) : Call → Prop
  | .initializePool _ _ g => (g.heapAddress+g.heapSize)/pageSize ≤ 2^32 ∧
      ∀ (i : ℕ) (x : Impl), mm.managers[i]? = some x → Disjoint x.pages g.pages
  | .allocateAndOpen outPg _ _ => outPg.blocks = []
  | _ => True

/-- A group allocation runs short only where no two blocks meet at a seam. -/
def Lossless (mm : KMemoryManager) : Call → Prop
  | .allocateAndOpen outPg n option => MemoryManager.Unbroken mm outPg n option true
  | _ => True

end Call

/-- The states of a run of calls that all return; every call meets `P`. -/
inductive Reachable (P : KMemoryManager → Call → Prop) : KMemoryManager → Prop
  | start : Reachable P new
  | call {mm mm' : KMemoryManager} (q : Call) : Reachable P mm → q.Valid mm → P mm q →
      q.serve mm = some mm' → Reachable P mm'

theorem reachable_accounted (h : Reachable Call.Lossless mm) : ∃ G c, Accounted mm G c := by
  induction h with
  | start =>
    refine ⟨∅, fun _ => 0, new_coherent, ⟨new_coherent.managed, ?_⟩, ?_⟩
    · intro i m hm
      simp [new] at hm
    · intro p
      refine ⟨fun hp => absurd hp (notMem_empty p), ?_⟩
      rintro ⟨⟨i, m, hm, _⟩, _⟩
      simp [new] at hm
  | call q _ hv hok hserve ih =>
    obtain ⟨G, c, h⟩ := ih
    cases q with
    | initializePool heap pool g => exact ⟨_, _, initializePool_accounted h hv.1 hv.2 hserve⟩
    | allocateAndOpen outPg n option =>
      obtain ⟨⟨rc, mm', g⟩, hrun, rfl⟩ := Option.map_eq_some_iff.mp hserve
      obtain ⟨hok', herror⟩ := allocateAndOpen_accounted h hv hrun
      by_cases hrc : rc = 0
      · exact ⟨_, _, (hok' hrc).2.1⟩
      · exact ⟨_, _, herror hrc hok⟩
    | allocateAndOpenContinuous n align option =>
      obtain ⟨⟨r, mm'⟩, hrun, rfl⟩ := Option.map_eq_some_iff.mp hserve
      obtain ⟨hnone, hsome⟩ := allocateAndOpenContinuous_accounted h hrun
      by_cases hr : r = 0
      · exact ⟨_, _, hnone hr⟩
      · exact ⟨_, _, (hsome hr).2.1⟩
    | «open» address n => exact ⟨_, _, (open_accounted h hserve).2.1⟩
    | close address n => exact ⟨_, _, (close_accounted h hserve).2.1⟩

/-- The reference count of page `p`. -/
def refCount (mm : KMemoryManager) (p : ℕ) : Option ℕ := do
  let idx ← findManagerIndex mm.managers (p*pageSize)
  let m ← mm.managers[idx]?
  m.pageReferenceCounts[m.getPageOffset (p*pageSize)]?

/-- Page `p` is free in a manager's heap. -/
def isFree (mm : KMemoryManager) (p : ℕ) : Prop := ∃ i, freeIn mm.managers i p

theorem Holding.refCount_owned (h : Holding mm.managers G c) {p : ℕ} (hp : Owned mm.managers p) :
    refCount mm p = some (c p) := by
  obtain ⟨i, m, hm, hpm⟩ := hp
  simp only [refCount, bind, h.managed.findManagerIndex hm hpm, Option.bind_some, hm,
    (h.managed.pageOffset hm hpm).1]
  exact h.counts i m hm p hpm

theorem Holding.refCount_none (h : Holding mm.managers G c) {p : ℕ} (hp : ¬Owned mm.managers p) :
    refCount mm p = none := by
  simp only [refCount, bind]
  cases hfind : findManagerIndex mm.managers (p*pageSize) with
  | none => rfl
  | some i =>
    obtain ⟨m, hm, hpm, _⟩ := h.managed.find hfind
    rw [Nat.mul_div_cancel _ (by decide)] at hpm
    exact absurd ⟨i, m, hm, hpm⟩ hp

theorem Holding.isFree_iff (h : Holding mm.managers G c) (p : ℕ) : isFree mm p ↔ p ∈ G := by
  constructor
  · rintro ⟨i, hi⟩
    obtain ⟨_, _, hp, _⟩ := (h.managed.freeIn_iff i p).mp hi
    exact hp
  · intro hp
    obtain ⟨i, m, hm, hpm⟩ := h.managed.sub p hp
    exact ⟨i, (h.managed.freeIn_iff i p).mpr ⟨m, hm, hp, hpm⟩⟩

theorem Accounted.refCount_owned (h : Accounted mm G c) {p : ℕ} (hp : Owned mm.managers p) :
    refCount mm p = some (c p) := h.holding.refCount_owned hp

theorem Accounted.refCount_none (h : Accounted mm G c) {p : ℕ} (hp : ¬Owned mm.managers p) :
    refCount mm p = none := h.holding.refCount_none hp

theorem Accounted.isFree_iff (h : Accounted mm G c) (p : ℕ) : isFree mm p ↔ p ∈ G :=
  h.holding.isFree_iff p

/-- The pages `R` were free and have their first reference; nothing else changed. -/
structure HandedOut (mm mm' : KMemoryManager) (R : Finset ℕ) : Prop where
  free : ∀ p ∈ R, isFree mm p ∧ refCount mm p = some 0 ∧ refCount mm' p = some 1
  counts : ∀ p ∉ R, refCount mm' p = refCount mm p
  pages : ∀ p, isFree mm' p ↔ isFree mm p ∧ p ∉ R

/-- The pages `R` lost a reference, and exactly those whose last one it was became free. -/
structure Closed (mm mm' : KMemoryManager) (R : Finset ℕ) : Prop where
  taken : ∀ p ∈ R, ¬isFree mm p ∧ ∃ k, refCount mm p = some (k+1) ∧ refCount mm' p = some k
  counts : ∀ p ∉ R, refCount mm' p = refCount mm p
  pages : ∀ p, isFree mm' p ↔ isFree mm p ∨ (p ∈ R ∧ refCount mm p = some 1)

/-- The pages `R` gained a reference. -/
structure Opened (mm mm' : KMemoryManager) (R : Finset ℕ) : Prop where
  taken : ∀ p ∈ R, ¬isFree mm p ∧
    ∃ k, refCount mm p = some (k+1) ∧ refCount mm' p = some (k+2) ∧ k+2 < 2^16
  counts : ∀ p ∉ R, refCount mm' p = refCount mm p
  pages : ∀ p, isFree mm' p ↔ isFree mm p

/-- The counts of two states over the same managers. -/
theorem Holding.refCount_same {c' : ℕ → ℕ} (h : Holding mm.managers G c)
    (h' : Holding mm'.managers G' c') (hf : frames mm'.managers = frames mm.managers) {p : ℕ}
    (hc : c' p = c p) : refCount mm' p = refCount mm p := by
  by_cases hp : Owned mm.managers p
  · rw [h.refCount_owned hp, h'.refCount_owned ((owned_frames hf p).mpr hp), hc]
  · rw [h.refCount_none hp, h'.refCount_none fun ho => hp ((owned_frames hf p).mp ho)]

theorem refCount_same {G' : Finset ℕ} {c' : ℕ → ℕ} (h : Accounted mm G c)
    (h' : Accounted mm' G' c') (hf : frames mm'.managers = frames mm.managers) {p : ℕ}
    (hc : c' p = c p) : refCount mm' p = refCount mm p :=
  h.holding.refCount_same h'.holding hf hc

theorem Holding.handedOut (h : Holding mm.managers G c) {R : Finset ℕ} (hR : R ⊆ G)
    (hzero : ∀ p ∈ R, c p = 0)
    (h' : Holding mm'.managers (G \ R) (moveOn Impl.firstReference R c))
    (hf : frames mm'.managers = frames mm.managers) : HandedOut mm mm' R := by
  constructor
  · intro p hp
    have ho : Owned mm.managers p := h.managed.sub p (hR hp)
    have hfirst := moveOn_eq hp (Impl.firstReference_some.mpr ⟨hzero p hp, rfl⟩)
    rw [h.isFree_iff, h.refCount_owned ho, h'.refCount_owned ((owned_frames hf p).mpr ho),
      hzero p hp, hfirst]
    exact ⟨hR hp, rfl, rfl⟩
  · intro p hp
    exact h.refCount_same h' hf (moveOn_other hp)
  · intro p
    rw [h.isFree_iff, h'.isFree_iff, mem_sdiff]

theorem handedOut_of_accounted (h : Accounted mm G c) {R : Finset ℕ} (hR : R ⊆ G)
    (h' : Accounted mm' (G \ R) (moveOn Impl.firstReference R c))
    (hf : frames mm'.managers = frames mm.managers) : HandedOut mm mm' R :=
  h.holding.handedOut hR (fun _ hp => h.count (hR hp)) h'.holding hf

theorem closed_of_close (h : Accounted mm G c) {address n : ℕ}
    (hrun : mm.close address n = some mm') : Closed mm mm' (pagesAt address n) := by
  obtain ⟨hpages, h', hf⟩ := close_accounted h hrun
  constructor
  · intro p hp
    obtain ⟨ho, hc⟩ := hpages p hp
    have hmove : Impl.lastReference (c p) = some (c p - 1) :=
      Impl.lastReference_some.mpr (by omega)
    rw [h.isFree_iff, h.refCount_owned ho, h'.refCount_owned ((owned_frames hf p).mpr ho),
      moveOn_eq hp hmove]
    refine ⟨fun hG => ?_, c p - 1, ?_, rfl⟩
    · have := h.count hG
      omega
    · rw [Nat.sub_add_cancel hc]
  · intro p hp
    exact refCount_same h h' hf (moveOn_other hp)
  · intro p
    rw [h.isFree_iff, h'.isFree_iff, mem_union, released, mem_filter]
    apply or_congr_right
    apply and_congr_right
    intro hp
    rw [h.refCount_owned (hpages p hp).1, Option.some.injEq]
    simp

theorem opened_of_open (h : Accounted mm G c) {address n : ℕ}
    (hrun : mm.open address n = some mm') : Opened mm mm' (pagesAt address n) := by
  obtain ⟨hpages, h', hf⟩ := open_accounted h hrun
  constructor
  · intro p hp
    obtain ⟨ho, hc, hmax⟩ := hpages p hp
    have hmove : Impl.nextReference (c p) = some (c p+1) :=
      Impl.nextReference_some.mpr ⟨hc, hmax, rfl⟩
    rw [h.isFree_iff, h.refCount_owned ho, h'.refCount_owned ((owned_frames hf p).mpr ho),
      moveOn_eq hp hmove]
    refine ⟨fun hG => ?_, c p - 1, ?_, ?_, by omega⟩
    · have := h.count hG
      omega
    · rw [Nat.sub_add_cancel hc]
    · rw [show c p - 1+2 = c p+1 by omega]
  · intro p hp
    exact refCount_same h h' hf (moveOn_other hp)
  · intro p
    rw [h.isFree_iff, h'.isFree_iff]

/-- The pair of managers of one page each, as a state of a run. -/
theorem pairAt_reachable {P : KMemoryManager → Call → Prop}
    (hok : ∀ mm heap pool g, P mm (.initializePool heap pool g)) {g : Region}
    (hsize : g.heapSize = 0x1000) (hlow : 0x11000 ≤ g.heapAddress) (hhigh : g.heapAddress < 2^40)
    (h : pairAt g.heapAddress = some mm) : Reachable P mm := by
  obtain ⟨mm₁, h₁, h₂, hapart⟩ := pairAt_steps hsize hlow h
  have hfirst : Reachable P mm₁ := .call (.initializePool newHeap .application pairFirst) .start
    ⟨by decide, fun i x hx => by simp [new] at hx⟩ (hok _ _ _ _) h₁
  refine .call (.initializePool newHeap .application g) hfirst ⟨?_, hapart⟩ (hok _ _ _ _) h₂
  rw [hsize]
  simp only [pageSize]
  omega

end Ruzu.MemoryManager
