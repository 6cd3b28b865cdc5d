import Ruzu.Kernel.MemoryManagerRuns
import Ruzu.Kernel.PageHeapExhaustion

/-!
# Aligned ranges

`allocate_and_open_continuous` in any state of a run, whatever its group
allocations lost on the way. The index of the level is not looked at before it
is used, so a request above the largest block panics; every other one changes
nothing or hands out what it was asked for.
-/

set_option autoImplicit false

namespace Ruzu.MemoryManager
open Ruzu.MemoryBlock (pageSize)
open Ruzu.PageHeap Ruzu.PageGroup Finset KMemoryManager

variable {ms ms' : List Impl} {G G' : Finset ℕ} {c c' : ℕ → ℕ} {mm mm' : KMemoryManager}

/-- The free pages `G` have no references. The other way need not hold: a page that a failed
group allocation lost has none either. -/
structure Unreferenced (mm : KMemoryManager) (G : Finset ℕ) (c : ℕ → ℕ) : Prop where
  coherent : Coherent mm G
  holding : Holding mm.managers G c
  zero : ∀ p ∈ G, c p = 0

theorem Unreferenced.of_frames (h : Unreferenced mm G c) (hf : frames ms' = frames mm.managers)
    (hh : Holding ms' G' c') (hz : ∀ p ∈ G', c' p = 0) :
    Unreferenced { mm with managers := ms' } G' c' :=
  ⟨h.coherent.frames hf hh.managed, hh, hz⟩

/-- Handing the pages `R` out with a reference each. -/
theorem Unreferenced.take (h : Unreferenced mm G c) {R : Finset ℕ}
    (hf : frames ms' = frames mm.managers)
    (hh : Holding ms' (G \ R) (moveOn Impl.firstReference R c)) :
    Unreferenced { mm with managers := ms' } (G \ R) (moveOn Impl.firstReference R c) := by
  apply h.of_frames hf hh
  intro p hp
  rw [mem_sdiff] at hp
  rw [moveOn_other hp.2]
  exact h.zero p hp.1

/-- A call over a range moves no count of a free page, and frees only what it leaves without
references. -/
theorem Unreferenced.range {act : Impl → ℕ → ℕ → Option Impl} {move : ℕ → Option ℕ}
    {gives : Bool} (hs : Moves act move gives) (hgive : gives = true → move 1 = some 0)
    (h : Unreferenced mm G c) {address n : ℕ}
    (hout : ∀ p ∈ pagesAt address n, (move (c p)).isSome → p ∉ G)
    (hrun : overManagers act n mm.managers address n = some ms) :
    ∃ G' c', Unreferenced { mm with managers := ms } G' c' := by
  have hone : gives = true → ∀ q ∈ pagesAt address n, c q = 1 → q ∉ G := by
    intro _ q _ hq hqG
    have := h.zero q hqG
    omega
  obtain ⟨hpages, hholding, hframes⟩ := overManagers_holding hs n _ G c address n ms h.holding
    hone hrun
  refine ⟨_, _, h.of_frames hframes hholding ?_⟩
  intro p hp
  rcases mem_union.mp hp with hp | hp
  · have hnot : p ∉ Ico (address/pageSize) (address/pageSize+n) :=
      fun hpR => hout p hpR (hpages p hpR).1 hp
    rw [moveOn_other hnot]
    exact h.zero p hp
  · rw [released, mem_filter] at hp
    obtain ⟨hpR, hg, hcp⟩ := hp
    refine moveOn_eq hpR ?_
    rw [hcp]
    exact hgive hg

theorem Unreferenced.openFirst (h : Unreferenced mm G c) {address n : ℕ}
    (hout : ∀ p ∈ pagesAt address n, p ∉ G) (hrun : mm.openFirst address n = some mm') :
    ∃ G' c', Unreferenced mm' G' c' := by
  obtain ⟨ms, hover, heq⟩ := Option.bind_eq_some_iff.mp hrun
  cases heq
  exact h.range openFirst_moves (fun hg => absurd hg (by simp)) (fun p hp _ => hout p hp) hover

theorem Unreferenced.open (h : Unreferenced mm G c) {address n : ℕ}
    (hrun : mm.open address n = some mm') : ∃ G' c', Unreferenced mm' G' c' := by
  obtain ⟨ms, hover, heq⟩ := Option.bind_eq_some_iff.mp hrun
  cases heq
  refine h.range open_moves (fun hg => absurd hg (by simp)) ?_ hover
  intro p _ hmove hpG
  obtain ⟨k, hk⟩ := Option.isSome_iff_exists.mp hmove
  have hpos := (Impl.nextReference_some.mp hk).1
  have := h.zero p hpG
  omega

theorem Unreferenced.close (h : Unreferenced mm G c) {address n : ℕ}
    (hrun : mm.close address n = some mm') : ∃ G' c', Unreferenced mm' G' c' := by
  obtain ⟨ms, hover, heq⟩ := Option.bind_eq_some_iff.mp hrun
  cases heq
  refine h.range close_moves (fun _ => rfl) ?_ hover
  intro p _ hmove hpG
  have hpos := isSome_lastReference.mp hmove
  have := h.zero p hpG
  omega

theorem Unreferenced.allocateAndOpen (h : Unreferenced mm G c) {outPg g : KPageGroup}
    (hempty : outPg.blocks = []) {n option rc : ℕ}
    (hrun : mm.allocateAndOpen outPg n option = some (rc, mm', g)) :
    ∃ G' c', Unreferenced mm' G' c' := by
  obtain ⟨ms, rfl, hf, hok, herror⟩ := allocateAndOpen_holding h.coherent h.holding h.zero hempty
    hrun
  by_cases hrc : rc = 0
  · exact ⟨_, _, h.take hf (hok hrc).2⟩
  · obtain ⟨G', hsub, hholding, -⟩ := herror hrc
    exact ⟨G', c, h.of_frames hf hholding fun p hp => h.zero p (hsub hp)⟩

theorem Unreferenced.allocateAndOpenContinuous (h : Unreferenced mm G c) {n align option r : ℕ}
    (hrun : mm.allocateAndOpenContinuous n align option = some (r, mm')) :
    ∃ G' c', Unreferenced mm' G' c' := by
  obtain ⟨ms, rfl, hf, hnone, hsome⟩ := allocateAndOpenContinuous_holding h.coherent h.holding
    h.zero hrun
  by_cases hr : r = 0
  · exact ⟨G, c, h.of_frames hf (hnone hr) h.zero⟩
  · exact ⟨_, _, h.take hf (hsome hr).2⟩

/-- The pages of a group for a process are taken without references. -/
theorem Unreferenced.allocateForProcess (h : Unreferenced mm G c) {outPg g : KPageGroup}
    (hempty : outPg.blocks = []) {n option rc : ℕ}
    (hrun : mm.allocateForProcess outPg n option = some (rc, mm', g)) :
    ∃ G' c', Unreferenced mm' G' c' := by
  rw [KMemoryManager.allocateForProcess] at hrun
  by_cases h0 : n = 0
  · rw [if_pos h0] at hrun
    cases hrun
    exact ⟨G, c, h⟩
  · rw [if_neg h0] at hrun
    simp only [bind, Option.bind_eq_some_iff] at hrun
    obtain ⟨⟨pool, dir⟩, -, ⟨rc₁, ms, g₁⟩, hgroup, heq⟩ := hrun
    cases heq
    obtain ⟨is, hc, hi⟩ := h.coherent.chain pool dir
    obtain ⟨r, hr, hout⟩ := allocatePageGroupImpl_outcome h.coherent.managed hc hi hempty
      (Nat.pos_of_ne_zero h0) false
    dsimp only at hgroup
    rw [hgroup] at hr
    cases hr
    rcases hout with ⟨-, -, ht⟩ | ⟨-, -, -, G', hs, hM', hsub, -⟩
    · exact ⟨_, c, h.of_frames ht.same.frames (h.holding.of_same ht.same ht.managed)
        fun p hp => h.zero p (mem_sdiff.mp hp).1⟩
    · exact ⟨G', c, h.of_frames hs.frames (h.holding.of_same hs hM')
        fun p hp => h.zero p (hsub hp)⟩

/-- The states of a run of any calls that return. The first reference is opened on pages that
are not free. -/
inductive Run : KMemoryManager → Prop
  | start : Run new
  | call {mm mm' : KMemoryManager} (q : Call) : Run mm → q.Valid mm → q.serve mm = some mm' →
      Run mm'
  | allocateForProcess {mm mm' : KMemoryManager} {outPg g : KPageGroup} {n option rc : ℕ} :
      Run mm → outPg.blocks = [] → mm.allocateForProcess outPg n option = some (rc, mm', g) →
      Run mm'
  | openFirst {mm mm' : KMemoryManager} {address n : ℕ} : Run mm →
      (∀ p ∈ pagesAt address n, ¬isFree mm p) → mm.openFirst address n = some mm' → Run mm'

theorem run_unreferenced (h : Run mm) : ∃ G c, Unreferenced mm G c := by
  induction h with
  | start =>
    refine ⟨∅, fun _ => 0, new_coherent, ⟨new_coherent.managed, ?_⟩, fun _ _ => rfl⟩
    intro i m hm
    simp [new] at hm
  | call q _ hv hserve ih =>
    obtain ⟨G, c, h⟩ := ih
    cases q with
    | initializePool heap pool g =>
      obtain ⟨hcoherent, hholding⟩ := initializePool_holding h.coherent h.holding hv.1 hv.2 hserve
      refine ⟨_, _, hcoherent, hholding, ?_⟩
      intro p hp
      by_cases hpg : p ∈ g.pages
      · exact if_pos hpg
      · rw [if_neg hpg]
        exact h.zero p ((mem_union.mp hp).resolve_right hpg)
    | allocateAndOpen outPg n option =>
      obtain ⟨⟨rc, mm', g⟩, hrun, rfl⟩ := Option.map_eq_some_iff.mp hserve
      exact h.allocateAndOpen hv hrun
    | allocateAndOpenContinuous n align option =>
      obtain ⟨⟨r, mm'⟩, hrun, rfl⟩ := Option.map_eq_some_iff.mp hserve
      exact h.allocateAndOpenContinuous hrun
    | «open» address n => exact h.open hserve
    | close address n => exact h.close hserve
  | allocateForProcess _ hempty hrun ih =>
    obtain ⟨G, c, h⟩ := ih
    exact h.allocateForProcess hempty hrun
  | openFirst _ hout hrun ih =>
    obtain ⟨G, c, h⟩ := ih
    exact h.openFirst (fun p hp hpG => hout p hp ((h.holding.isFree_iff p).mpr hpG)) hrun

/-! ### One call -/

/-- The level of a request exists exactly up to the pages of the largest block. -/
theorem alignedBlockIndexLoop_none (t : ℕ) (l : List ℕ) (i : ℕ) :
    KPageHeap.getAlignedBlockIndexLoop t l i = none ↔ ∀ s ∈ l, 1 <<< s / pageSize < t := by
  induction l generalizing i with
  | nil => simp [KPageHeap.getAlignedBlockIndexLoop]
  | cons s l ih =>
    rw [KPageHeap.getAlignedBlockIndexLoop, List.forall_mem_cons]
    by_cases ht : t ≤ 1 <<< s / pageSize
    · rw [if_pos ht]
      exact iff_of_false (by simp) fun hall => absurd hall.1 (Nat.not_lt.mpr ht)
    · rw [if_neg ht, ih, and_iff_right (Nat.not_le.mp ht)]

theorem alignedBlockIndex_some (n align : ℕ) :
    (∃ index, KPageHeap.getAlignedBlockIndex n align = some index) ↔ max n align ≤ 2 ^ 18 := by
  constructor
  · rintro ⟨index, hindex⟩
    obtain ⟨hi, hn, ha⟩ := alignedBlockIndex_spec hindex
    have hwidth : width index ≤ 2 ^ 18 :=
      Nat.le_of_mul_le_mul_right (width_le index hi) (by decide : 0 < pageSize)
    exact (Nat.max_le.mpr ⟨hn, ha⟩).trans hwidth
  · intro hle
    by_contra hnone
    rw [not_exists] at hnone
    have hloop := (alignedBlockIndexLoop_none (max n align) memoryBlockPageShifts 0).mp
      (Option.eq_none_iff_forall_ne_some.mpr hnone)
    have hlast := hloop 30 (by decide)
    exact absurd hle (Nat.not_le.mpr hlast)

/-- The manager `m`, the `i`-th, gave the `n` pages from `p` on and is left with the heap `k`. -/
structure Gave (ms : List Impl) (G : Finset ℕ) (n d i : ℕ) (m : Impl) (p : ℕ) (k : KPageHeap) :
    Prop where
  manager : ms[i]? = some m
  same : Impl.Same m { m with heap := k }
  nonzero : p * pageSize ≠ 0
  aligned : 2 ^ d ∣ p
  inside : Ico p (p + n) ⊆ m.pages
  free : Ico p (p + n) ⊆ G
  managed : Managed (ms.set i { m with heap := k }) (G \ Ico p (p + n))

/-- One manager's answer to a request that has a level. -/
theorem allocateAligned_answer {i : ℕ} {m : Impl} (hM : Managed ms G) (hm : ms[i]? = some m)
    {index n d : ℕ} (hindex : KPageHeap.getAlignedBlockIndex n (2 ^ d) = some index) :
    m.allocateAligned index n (2 ^ d) = some (0, m) ∨
      ∃ p k, m.allocateAligned index n (2 ^ d) = some (p * pageSize, { m with heap := k }) ∧
        Gave ms G n d i m p k := by
  obtain ⟨hi, hn, ha⟩ := alignedBlockIndex_spec hindex
  have hpow := width_two_pow index hi
  have hs := shift_lt index hi
  rw [hpow] at ha
  have hd := (Nat.pow_le_pow_iff_right (by decide)).mp ha
  obtain ⟨r, k, hr, hg⟩ := allocateByRandom_granted (hM.free i m hm) hi hn
    (trailingZeros_page_two_pow (c := d) (by omega)) (by omega)
    (by rw [hpow]; exact Nat.pow_dvd_pow 2 hd)
  have hcall : m.allocateAligned index n (2 ^ d) = some (r, { m with heap := k }) := by
    rw [Impl.allocateAligned, KPageHeap.allocateAligned, hr]
    rfl
  rcases hg with ⟨rfl, -⟩ | ⟨p, rfl, hp0, hdvd, hsub, hf⟩
  · obtain ⟨-, rfl⟩ := allocateAligned_exhausted (hM.free i m hm) hindex hr
    exact .inl hcall
  · obtain ⟨hsame, hres⟩ := hM.granted hm (.inr ⟨p, rfl, hp0, hdvd, hsub, hf⟩)
    obtain ⟨q, hq, -, hqm, hqG, hM'⟩ := hres.resolve_left fun hzero => hp0 hzero.1
    obtain rfl := Nat.eq_of_mul_eq_mul_right (by decide) hq
    exact .inr ⟨p, k, hcall, hm, hsame, hp0, hdvd, hqm, hqG, hM'⟩

/-- The walk of a pool: all managers are as before, or one gave a range. -/
theorem allocateContinuous_answer (hM : Managed ms G) {dir : Direction} {index n d : ℕ}
    (hindex : KPageHeap.getAlignedBlockIndex n (2 ^ d) = some index) (is : List ℕ) (fuel : ℕ)
    (cur : Option ℕ) (hc : Linked.Chain (link ms dir) cur is) (hfuel : is.length ≤ fuel)
    (hi : ∀ i ∈ is, i < ms.length) :
    allocateContinuous dir index n (2 ^ d) fuel cur ms = some (none, ms) ∨
      ∃ i ∈ is, ∃ m p k, Gave ms G n d i m p k ∧
        allocateContinuous dir index n (2 ^ d) fuel cur ms =
          some (some (i, p * pageSize), ms.set i { m with heap := k }) := by
  induction is generalizing fuel cur with
  | nil =>
    obtain rfl : cur = none := hc
    cases fuel with
    | zero => exact .inl rfl
    | succ fuel => exact .inl rfl
  | cons i is ih =>
    obtain ⟨rfl, hrest⟩ := hc
    obtain ⟨fuel, rfl⟩ : ∃ f, fuel = f + 1 := ⟨fuel - 1, by rw [List.length_cons] at hfuel; omega⟩
    rw [List.length_cons, Nat.add_le_add_iff_right] at hfuel
    obtain ⟨m, hm⟩ : ∃ m, ms[i]? = some m :=
      ⟨_, List.getElem?_eq_getElem (hi i List.mem_cons_self)⟩
    have hset : ms.set i m = ms := by
      obtain ⟨hlt, rfl⟩ := List.getElem?_eq_some_iff.mp hm
      exact List.set_getElem_self hlt
    simp only [allocateContinuous, bind, hm, Option.bind_some]
    rcases allocateAligned_answer hM hm hindex with hnone | ⟨p, k, hsome, hgave⟩
    · rw [hnone]
      simp only [Option.bind_some]
      rw [if_neg (by simp), hset]
      have hnext : nextManager m dir = link ms dir i := by
        rw [link, hm, Option.bind_some]
      rw [hnext]
      rcases ih fuel _ hrest hfuel fun j hj => hi j (List.mem_cons_of_mem _ hj) with
        hnone | ⟨j, hj, hfound⟩
      · exact .inl hnone
      · exact .inr ⟨j, List.mem_cons_of_mem _ hj, hfound⟩
    · rw [hsome]
      simp only [Option.bind_some]
      rw [if_pos hgave.nonzero]
      exact .inr ⟨i, List.mem_cons_self, m, p, k, hgave, rfl⟩

/-- The chain of a pool holds managers of that pool. -/
theorem Pooled.chain {pool : Pool} {is : List ℕ} (h : Pooled mm pool is) (dir : Direction) :
    ∃ js, Linked.Chain (link mm.managers dir) (mm.getFirstManager pool dir) js ∧
      ∀ i ∈ js, ∃ m, mm.managers[i]? = some m ∧ m.pool = pool := by
  cases dir with
  | fromFront => exact ⟨is, h.front, h.members⟩
  | fromBack => exact ⟨is.reverse, h.back, fun i hi => h.members i (List.mem_reverse.mp hi)⟩

/-- The pages of the range at `r` lie in one manager of the pool, aligned, and were handed out. -/
structure Contiguous (mm mm' : KMemoryManager) (pool : Pool) (r n align : ℕ) : Prop where
  aligned : r % (align * pageSize) = 0
  manager : ∃ (i : ℕ) (m : Impl), mm.managers[i]? = some m ∧ m.pool = pool ∧ pagesAt r n ⊆ m.pages
  handedOut : HandedOut mm mm' (pagesAt r n)

/-- The call returns: 0 and nothing has changed, or a range. -/
def Served (mm : KMemoryManager) (pool : Pool) (n align option : ℕ) : Prop :=
  ∃ r mm', mm.allocateAndOpenContinuous n align option = some (r, mm') ∧
    (r = 0 ∧ mm' = mm ∨ r ≠ 0 ∧ Contiguous mm mm' pool r n align)

theorem pagesAt_page (p n : ℕ) : pagesAt (p * pageSize) n = Ico p (p + n) := by
  rw [pagesAt, Nat.mul_div_cancel _ (by decide : 0 < pageSize)]

theorem Unreferenced.served (h : Unreferenced mm G c) {n d option : ℕ} {pool : Pool}
    {dir : Direction} (hn : 0 < n) (hdec : decodeOption option = some (pool, dir)) {first : ℕ}
    (hfirst : mm.getFirstManager pool dir = some first) {index : ℕ}
    (hindex : KPageHeap.getAlignedBlockIndex n (2 ^ d) = some index) :
    Served mm pool n (2 ^ d) option := by
  obtain ⟨is, hp⟩ := h.coherent.chains pool
  obtain ⟨js, hc, hmembers⟩ := hp.chain dir
  have hlt : ∀ i ∈ js, i < mm.managers.length := by
    intro i hi
    obtain ⟨m, hm, -⟩ := hmembers i hi
    exact (List.getElem?_eq_some_iff.mp hm).1
  have hanswer := allocateContinuous_answer h.coherent.managed hindex js mm.managers.length _ hc
    (chain_length hc hlt) hlt
  rw [hfirst] at hanswer
  unfold Served KMemoryManager.allocateAndOpenContinuous
  simp only [if_neg (Nat.ne_of_gt hn), hdec, hfirst, hindex, bind, Option.bind_some]
  rcases hanswer with hnone | ⟨i, hi, m, p, k, hgave, hsome⟩
  · rw [hnone]
    exact ⟨0, mm, rfl, .inl ⟨rfl, rfl⟩⟩
  · obtain ⟨m', hm', hpool⟩ := hmembers i hi
    obtain rfl := Option.some.inj (hm'.symm.trans hgave.manager)
    have hs := (SameAll.refl mm.managers).set hgave.manager hgave.same
    obtain ⟨x, hopen, hframe, hholding⟩ := openFirst_granted (h.holding.of_same hs hgave.managed)
      (getElem?_set_self hgave.manager) hn (by rw [hgave.same.pages]; exact hgave.inside)
      fun q hq => h.zero q (hgave.free hq)
    have hframes := (frames_set (getElem?_set_self hgave.manager) hframe).trans hs.frames
    rw [hsome]
    simp only [Option.bind_some, getElem?_set_self hgave.manager, hopen]
    refine ⟨_, _, rfl, .inr ⟨hgave.nonzero, ?_, ⟨i, m', hm', hpool, ?_⟩, ?_⟩⟩
    · exact Nat.mod_eq_zero_of_dvd (Nat.mul_dvd_mul_right hgave.aligned _)
    · rw [pagesAt_page]
      exact hgave.inside
    · rw [pagesAt_page]
      exact h.holding.handedOut hgave.free (fun q hq => h.zero q (hgave.free hq)) hholding hframes

/-- In every state of a run a request for an aligned range is served exactly when its pages and
its alignment are within the largest block, or its pool has no manager. -/
theorem continuous_served (h : Run mm) {n align option : ℕ} {pool : Pool} {dir : Direction}
    (hn : 0 < n) (halign : ∃ d, align = 2 ^ d) (hdec : decodeOption option = some (pool, dir)) :
    Served mm pool n align option ↔
      max n align ≤ 2 ^ 18 ∨ mm.getFirstManager pool dir = none := by
  obtain ⟨G, c, h⟩ := run_unreferenced h
  obtain ⟨d, rfl⟩ := halign
  cases hfirst : mm.getFirstManager pool dir with
  | none =>
    refine iff_of_true ⟨0, mm, ?_, .inl ⟨rfl, rfl⟩⟩ (.inr rfl)
    rw [KMemoryManager.allocateAndOpenContinuous, if_neg (Nat.ne_of_gt hn)]
    simp only [hdec, hfirst, bind, Option.bind_some]
  | some first =>
    rw [← alignedBlockIndex_some, or_iff_left (by simp)]
    constructor
    · rintro ⟨r, mm', hrun, -⟩
      rw [KMemoryManager.allocateAndOpenContinuous, if_neg (Nat.ne_of_gt hn)] at hrun
      simp only [hdec, hfirst, bind, Option.bind_some] at hrun
      obtain ⟨index, hindex, -⟩ := Option.bind_eq_some_iff.mp hrun
      exact ⟨index, hindex⟩
    · rintro ⟨index, hindex⟩
      exact h.served hn hdec hfirst hindex

/-- The pair of managers as a state of a run. -/
theorem pairAt_run {g : Region} (hsize : g.heapSize = 0x1000) (hlow : 0x11000 ≤ g.heapAddress)
    (hhigh : g.heapAddress < 2 ^ 40) (h : pairAt g.heapAddress = some mm) : Run mm := by
  obtain ⟨mm₁, h₁, h₂, hapart⟩ := pairAt_steps hsize hlow h
  have hfirst : Run mm₁ := .call (.initializePool newHeap .application pairFirst) .start
    ⟨by decide, fun i x hx => by simp [new] at hx⟩ h₁
  refine .call (.initializePool newHeap .application g) hfirst ⟨?_, hapart⟩ h₂
  rw [hsize]
  simp only [pageSize]
  omega

/-- One page more than the largest block has: the index -1 is out of bounds. -/
theorem continuous_beyond_largest_block : ∃ mm, Run mm ∧
    decodeOption 0 = some (.application, .fromFront) ∧
    ¬Served mm .application (2 ^ 18 + 1) 1 0 := by
  have hrun : (pairAt 0x11000).map (fun mm =>
      (mm.allocateAndOpenContinuous (2 ^ 18 + 1) 1 0).isNone) = some true := by decide +kernel
  obtain ⟨mm, hmm, hnone⟩ := Option.map_eq_some_iff.mp hrun
  refine ⟨mm, pairAt_run (g := pairNext) rfl (by decide) (by decide) hmm, rfl, ?_⟩
  rintro ⟨r, mm', hcall, -⟩
  rw [hcall] at hnone
  exact Bool.false_ne_true hnone

/-- One page at an alignment of one page. -/
theorem continuous_served_page : ∃ mm, Run mm ∧ Served mm .application 1 1 0 := by
  have hrun : (pairAt 0x11000).isSome = true := by decide +kernel
  obtain ⟨mm, hmm⟩ := Option.isSome_iff_exists.mp hrun
  have hreach := pairAt_run (g := pairNext) rfl (by decide) (by decide) hmm
  exact ⟨mm, hreach, (continuous_served hreach (by decide) ⟨0, rfl⟩ rfl).mpr (.inl (by decide))⟩

end Ruzu.MemoryManager
