import Ruzu.Kernel.PageHeapRuns

/-!
# When the page heap is out of blocks

The search in order tries every level. The random search weighs the levels by
the aligned ranges that their free blocks hold, so a level that it picks has a
free block whenever some level has one, and no bit stream makes it miss.
-/

set_option autoImplicit false

namespace Ruzu.PageHeap
open Ruzu.MemoryBlock (pageSize)
open Ruzu.PageBitmap Ruzu.Buddy Finset

variable {h h' : KPageHeap} {a e : ℕ} {F : Finset ℕ}

/-- The free blocks of a level. -/
def freeBlocks (h : KPageHeap) (i : ℕ) : ℕ := (h.blocks i).getNumFreeBlocks

/-- A level without free blocks has no free page. -/
theorem freeBlocks_zero (hf : Free h a e F) {i : ℕ} (hi : i < 7) (hzero : freeBlocks h i = 0)
    (p : ℕ) : ¬freeAt h i p := by
  obtain ⟨A, hA, -⟩ := hf.levels
  rw [freeBlocks, (hA i hi).numFree, card_eq_zero] at hzero
  rw [freeAt_iff hi (hA i hi), hzero]
  exact notMem_empty _

/-- A block is popped unless there is none, and then nothing changes. -/
theorem popBlock_some (hf : Free h a e F) {i : ℕ} (hi : i < 7) (random : Bool) :
    ∃ r b', (h.blocks i).popBlock random = some (r, b') ∧
      (r = 0 → freeBlocks h i = 0 ∧ h.setBlock i b' = h) := by
  obtain ⟨A, hA, hc⟩ := hf.levels
  rcases popBlock_holds (h.blocks i) i random hi _ _ (hA i hi) with
    ⟨hempty, hp⟩ | ⟨k, hk, b', hp, -⟩
  · refine ⟨0, h.blocks i, hp, fun _ => ⟨?_, ?_⟩⟩
    · rw [freeBlocks, (hA i hi).numFree, hempty, card_empty]
    · rw [KPageHeap.setBlock, Function.update_eq_self]
  · refine ⟨addressOf i k, b', hp, fun hzero => absurd hzero ?_⟩
    exact addressOf_ne_zero hi hf.pos ((hc.units_subset hi (width_pos i hi) hk).trans hf.sub)

/-! ### The search in order -/

theorem linearSearch_exhausted {index : ℕ} (fuel i : ℕ) (hf : Free h a e F) (hfuel : i + fuel = 7)
    (hr : KPageHeap.allocateByLinearSearchLoop (width index * pageSize) fuel i h = some (0, h')) :
    ∀ j, i ≤ j → j < 7 → freeBlocks h j = 0 := by
  induction fuel generalizing i with
  | zero =>
    intro j hij hj
    omega
  | succ fuel ih =>
    have hi : i < 7 := by omega
    obtain ⟨r, b', hp, hzero⟩ := popBlock_some hf hi false
    rw [KPageHeap.allocateByLinearSearchLoop, block_eq h hi] at hr
    simp only [Option.bind_some, bind, hp] at hr
    split at hr
    case isTrue hne =>
      obtain ⟨h₁, -, heq⟩ := Option.bind_eq_some_iff.mp hr
      exact absurd (Prod.mk.inj (Option.some.inj heq)).1 hne
    case isFalse hnone =>
      obtain ⟨hempty, hsame⟩ := hzero (not_not.mp hnone)
      rw [hsame] at hr
      intro j hij hj
      rcases Nat.eq_or_lt_of_le hij with rfl | hlt
      · exact hempty
      · exact ih (i + 1) (by omega) hr j hlt hj

/-! ### The random search -/

section Random

variable {index n s : ℕ}

/-- The aligned ranges of `n` pages in the free blocks of a level. -/
def weight (h : KPageHeap) (n s i : ℕ) : ℕ :=
  (1 + (width i * pageSize - n * pageSize) >>> s) * freeBlocks h i

theorem weight_pos (i : ℕ) : 0 < weight h n s i ↔ 0 < freeBlocks h i := by
  rw [weight]
  constructor
  · exact Nat.pos_of_mul_pos_left
  · exact Nat.mul_pos (Nat.add_pos_left Nat.one_pos _)

theorem alignmentsAt_weight (hf : Free h a e F) {i : ℕ} (hi : i < 7) (hn : n ≤ width i)
    (hs : s < 64) : h.alignmentsAt (n * pageSize) s i = some (weight h n s i) := by
  have hle : n * pageSize ≤ width i * pageSize := Nat.mul_le_mul_right _ hn
  rw [KPageHeap.alignmentsAt, block_eq h hi]
  simp only [Option.bind_some, bind, hf.size hi]
  rw [if_neg (by omega)]
  rfl

/-- The weights of the levels from `i` on. -/
def weights (h : KPageHeap) (n s i count : ℕ) : ℕ := ((List.range' i count).map (weight h n s)).sum

theorem weights_succ (i count : ℕ) :
    weights h n s i (count + 1) = weight h n s i + weights h n s (i + 1) count := by
  rw [weights, List.range'_succ, List.map_cons, List.sum_cons, weights]

theorem weights_pos {i count j : ℕ} (hij : i ≤ j) (hj : j < i + count)
    (hpos : 0 < freeBlocks h j) : 0 < weights h n s i count := by
  refine Nat.lt_of_lt_of_le ((weight_pos (n := n) (s := s) j).mpr hpos) ?_
  exact List.single_le_sum (fun _ _ => Nat.zero_le _) _
    (List.mem_map_of_mem (List.mem_range'_1.mpr ⟨hij, hj⟩))

/-- The first loop counts the weights of some levels from `i` on: all of them, or so many that
the count is not zero. -/
theorem countAlignments_weights (hf : Free h a e F) (hn : n ≤ width index) (hs : s < 64)
    (fuel i possible : ℕ) (hindex : index ≤ i) (hfuel : i + fuel = 7) :
    ∃ count, h.countAlignments (n * pageSize) s fuel i possible =
        some (i + count, possible + weights h n s i count) ∧ count ≤ fuel ∧
      (count = fuel ∨ 0 < count ∧ 0 < possible + weights h n s i count) := by
  induction fuel generalizing i possible with
  | zero => exact ⟨0, rfl, Nat.le_refl _, .inl rfl⟩
  | succ fuel ih =>
    have hi : i < 7 := by omega
    have hle := Nat.le_of_dvd (width_pos i hi) (width_mono hindex hi)
    rw [KPageHeap.countAlignments, alignmentsAt_weight hf hi (hn.trans hle) hs]
    simp only [Option.bind_some, bind]
    have hone : weights h n s i 1 = weight h n s i := weights_succ i 0
    by_cases hmin : KPageHeap.minimumPossibleAlignments ≤ possible + weight h n s i
    · rw [if_pos hmin]
      refine ⟨1, by rw [hone], by omega, .inr ⟨Nat.one_pos, ?_⟩⟩
      rw [hone]
      exact Nat.lt_of_lt_of_le (by decide) hmin
    · rw [if_neg hmin]
      obtain ⟨count, hcount, hcle, hall⟩ := ih (i + 1) (possible + weight h n s i) (by omega)
        (by omega)
      refine ⟨count + 1, ?_, by omega, ?_⟩
      · rw [hcount, weights_succ, Nat.add_assoc, Nat.add_comm 1 count, Nat.add_assoc]
      · rw [weights_succ, ← Nat.add_assoc]
        omega

/-- The second loop stops at a level with weight. -/
theorem pickIndex_weighted (hf : Free h a e F) (hn : n ≤ width index) (hs : s < 64)
    (rnd count i possible : ℕ) (hindex : index ≤ i) (hcount : i + count ≤ 7)
    (hlow : possible ≤ rnd) (hhigh : rnd < possible + weights h n s i count) :
    ∃ j, h.pickIndex (n * pageSize) s rnd index count i possible = some j ∧ index ≤ j ∧ j < 7 ∧
      0 < freeBlocks h j := by
  induction count generalizing i possible with
  | zero =>
    rw [weights, List.range'_zero, List.map_nil, List.sum_nil] at hhigh
    omega
  | succ count ih =>
    have hi : i < 7 := by omega
    have hle := Nat.le_of_dvd (width_pos i hi) (width_mono hindex hi)
    rw [KPageHeap.pickIndex, alignmentsAt_weight hf hi (hn.trans hle) hs]
    simp only [Option.bind_some, bind]
    by_cases hlt : rnd < possible + weight h n s i
    · rw [if_pos hlt]
      exact ⟨i, rfl, hindex, hi, (weight_pos (n := n) (s := s) i).mp (by omega)⟩
    · rw [if_neg hlt]
      rw [weights_succ] at hhigh
      exact ih (i + 1) _ (by omega) (by omega) (by omega) (by omega)

/-- A level with a free block gives one, and an empty level stays as it was. -/
theorem allocateAt_exhausted (hf : Free h a e F) {i : ℕ} (hi : i < 7)
    (hr : h.allocateAt i (n * pageSize) s = some (0, h')) : freeBlocks h i = 0 ∧ h' = h := by
  obtain ⟨r, b', hp, hzero⟩ := popBlock_some hf hi true
  unfold KPageHeap.allocateAt at hr
  rw [block_eq h hi] at hr
  simp only [Option.bind_some, bind, hp] at hr
  by_cases hnone : r = 0
  · obtain ⟨hempty, hsame⟩ := hzero hnone
    rw [if_neg (not_not.mpr hnone), hsame] at hr
    exact ⟨hempty, (Prod.mk.inj (Option.some.inj hr)).2.symm⟩
  have hne : r ≠ 0 := hnone
  exfalso
  rw [if_pos hne] at hr
  split at hr
  case isTrue => cases hr
  case isFalse =>
    split at hr
    case isTrue =>
      obtain ⟨h₁, -, hr⟩ := Option.bind_eq_some_iff.mp hr
      obtain ⟨h₂, -, heq⟩ := Option.bind_eq_some_iff.mp hr
      exact hne (Nat.eq_zero_of_add_eq_zero_right (Prod.mk.inj (Option.some.inj heq)).1)
    case isFalse => exact hne (Prod.mk.inj (Option.some.inj hr)).1

/-- Whatever the generator draws, a level with a free block is picked when there is one; when
there is none, nothing is drawn. -/
theorem allocateByRandom_exhausted {align : ℕ} (hf : Free h a e F) (hi : index < 7)
    (hn : n ≤ width index) (hs : KPageHeap.trailingZeros (align * pageSize) < 64)
    (hr : h.allocateByRandom index n align = some (0, h')) :
    (∀ j, index ≤ j → j < 7 → freeBlocks h j = 0) ∧ h' = h := by
  obtain ⟨count, hcount, hle, hall⟩ := countAlignments_weights hf hn hs (7 - index) index 0
    (Nat.le_refl _) (by omega)
  have h7 : h.numBlocks - index = 7 - index := by rw [hf.numBlocks]
  unfold KPageHeap.allocateByRandom at hr
  dsimp only at hr
  rw [h7, hcount] at hr
  simp only [Option.bind_some, bind, Nat.zero_add] at hr
  rw [Nat.zero_add] at hall
  generalize KPageHeap.trailingZeros (align * pageSize) = shift at hs hr hall
  -- no weight counted: the loop went over all levels and found them empty
  rcases Nat.eq_zero_or_pos (weights h n shift index count) with hzero | hpos
  · obtain rfl : count = 7 - index := hall.resolve_right fun hsome => by omega
    rw [if_neg (by omega)] at hr
    refine ⟨?_, (allocateAt_exhausted hf hi hr).2⟩
    intro j hij hj
    by_contra hne
    have hpos : 0 < weights h n shift index (7 - index) :=
      weights_pos hij (by omega) (Nat.pos_of_ne_zero hne)
    omega
  -- some weight counted: the picked level has a free block, so the answer is not 0
  · exfalso
    by_cases hpick : 0 < weights h n shift index count ∧ index + 1 < index + count
    · rw [if_pos hpick] at hr
      have hrnd := h.rng.generateRandom_lt _ hpos
      generalize h.rng.generateRandom (weights h n shift index count) = drawn at hr hrnd
      obtain ⟨j, hj, -, hj7, hfree⟩ := pickIndex_weighted (hf.withRng drawn.2) hn hs drawn.1
        count index 0 (Nat.le_refl _) (by omega) (Nat.zero_le _) (by rwa [Nat.zero_add])
      rw [Nat.add_sub_cancel_left, hj] at hr
      have hnone := (allocateAt_exhausted (hf.withRng drawn.2) hj7 hr).1
      have hsame : freeBlocks { h with rng := drawn.2 } j = freeBlocks h j := rfl
      omega
    · rw [if_neg hpick] at hr
      have hnone := (allocateAt_exhausted hf hi hr).1
      have hone : count ≤ 1 := by omega
      have hweight : weight h n shift index = 0 := by
        by_contra hne
        have := (weight_pos (n := n) (s := shift) index).mp (Nat.pos_of_ne_zero hne)
        omega
      rcases Nat.le_one_iff_eq_zero_or_eq_one.mp hone with rfl | rfl
      · exact Nat.lt_irrefl 0 hpos
      · rw [weights_succ, hweight, Nat.zero_add] at hpos
        exact Nat.lt_irrefl 0 hpos

end Random

/-! ### Allocations of a reachable heap -/

/-- The same heap with other generators. -/
def KPageHeap.withStreams (h : KPageHeap) (g : RandomBitGenerator) (gs : ℕ → RandomBitGenerator) :
    KPageHeap :=
  { h with
    rng := g
    blocks := fun i => { h.blocks i with bitmap := { (h.blocks i).bitmap with rng := gs i } } }

theorem Free.withStreams (hf : Free h a e F) (g : RandomBitGenerator)
    (gs : ℕ → RandomBitGenerator) : Free (h.withStreams g gs) a e F := by
  obtain ⟨A, hA, hc⟩ := hf.levels
  exact ⟨hf.pos, hf.fits, hf.address, hf.extent, hf.numBlocks, hf.sub, A,
    fun i hi => (hA i hi).withRng (gs i), hc⟩

theorem freeBlocks_withStreams (g : RandomBitGenerator) (gs : ℕ → RandomBitGenerator) (i : ℕ) :
    freeBlocks (h.withStreams g gs) i = freeBlocks h i := rfl

theorem allocateBlock_exhausted (hf : Free h a e F) {index : ℕ} (hi : index < 7) (random : Bool)
    (hr : h.allocateBlock index random = some (0, h')) :
    ∀ j, index ≤ j → j < 7 → freeBlocks h j = 0 := by
  obtain ⟨A, hA, -⟩ := hf.levels
  unfold KPageHeap.allocateBlock at hr
  cases random with
  | true =>
    rw [if_pos rfl, block_eq h hi] at hr
    simp only [Option.bind_some, bind, (hA index hi).numPages hi] at hr
    have hs := shift_lt index hi
    have hshift := trailingZeros_page_two_pow (c := shift index - 12) (by omega)
    rw [← width_two_pow index hi] at hshift
    exact (allocateByRandom_exhausted hf hi (Nat.le_refl _) (by omega) hr).1
  | false =>
    rw [if_neg (by simp), KPageHeap.allocateByLinearSearch, block_eq h hi] at hr
    simp only [Option.bind_some, bind, hf.size hi, hf.numBlocks] at hr
    exact linearSearch_exhausted (7 - index) index hf (by omega) hr

/-- The trailing zeros of an alignment that fits in a block divide the block. -/
theorem allocateAligned_returns (hf : Free h a e F) {index n align : ℕ}
    (hindex : KPageHeap.getAlignedBlockIndex n align = some index) (halign : 0 < align) :
    ∃ r h', h.allocateAligned index n align = some (r, h') := by
  obtain ⟨hi, hn, hle⟩ := alignedBlockIndex_spec hindex
  have hs := shift_lt index hi
  have hw := width_two_pow index hi
  have hlt : align * pageSize < 2 ^ 64 := by
    have hmul := Nat.mul_le_mul_right pageSize hle
    have hpow : ∀ j < 7, width j * pageSize < 2 ^ 64 := by decide
    exact Nat.lt_of_le_of_lt hmul (hpow index hi)
  obtain ⟨c, hc, hc64, hdvd⟩ := trailingZeros_page halign hlt
  have hpow := (Nat.le_of_dvd halign hdvd).trans hle
  rw [hw] at hpow
  have hcw : 2 ^ c ∣ width index := by
    rw [hw]
    exact Nat.pow_dvd_pow 2 ((Nat.pow_le_pow_iff_right (by decide)).mp hpow)
  obtain ⟨r, h', hr, -⟩ := allocateByRandom_granted hf hi hn hc hc64 hcw
  exact ⟨r, h', hr⟩

theorem allocateAligned_exhausted (hf : Free h a e F) {index n align : ℕ}
    (hindex : KPageHeap.getAlignedBlockIndex n align = some index)
    (hr : h.allocateAligned index n align = some (0, h')) :
    (∀ j, index ≤ j → j < 7 → freeBlocks h j = 0) ∧ h' = h := by
  obtain ⟨hi, hn, -⟩ := alignedBlockIndex_spec hindex
  refine allocateByRandom_exhausted hf hi hn ?_ hr
  -- a shift by 64 panics, so there is no answer
  by_contra hs
  have hfuel : h.numBlocks - index = 7 - index - 1 + 1 := by
    rw [hf.numBlocks]
    omega
  unfold KPageHeap.allocateAligned KPageHeap.allocateByRandom at hr
  dsimp only at hr
  rw [hfuel, KPageHeap.countAlignments, KPageHeap.alignmentsAt, block_eq h hi] at hr
  simp only [Option.bind_some, bind] at hr
  rw [if_pos (.inr (Nat.not_lt.mp hs))] at hr
  cases hr

/-- No level from `index` on has a free block. -/
def Exhausted (h : KPageHeap) (index : ℕ) : Prop :=
  ∀ i, index ≤ i → i < 7 → freeBlocks h i = 0 ∧ ∀ p, ¬freeAt h i p

/-- Over every run, and with any generators, the allocations from a level on return, and return
0 only when no level from there on has a free block. -/
theorem reachable_exhausted {g : Region} {live : Finset ℕ} (hr : Reachable g h live)
    (s : RandomBitGenerator) (gs : ℕ → RandomBitGenerator) {index : ℕ} (hi : index < 7) :
    (∀ random, ∃ r h', (h.withStreams s gs).allocateBlock index random = some (r, h') ∧
      (r = 0 → Exhausted h index)) ∧
    ∀ n align, KPageHeap.getAlignedBlockIndex n align = some index →
      (0 < align → ∃ r h', (h.withStreams s gs).allocateAligned index n align = some (r, h')) ∧
      ∀ h', (h.withStreams s gs).allocateAligned index n align = some (0, h') →
        Exhausted h index := by
  obtain ⟨-, hf⟩ := reachable_free hr
  have hf' := hf.withStreams s gs
  have hempty : (∀ j, index ≤ j → j < 7 → freeBlocks (h.withStreams s gs) j = 0) →
      Exhausted h index := by
    intro hzero i hindex hi
    exact ⟨hzero i hindex hi, freeBlocks_zero hf hi (hzero i hindex hi)⟩
  constructor
  · intro random
    obtain ⟨r, h', hserved, -⟩ := allocateBlock_granted hf' hi random
    refine ⟨r, h', hserved, ?_⟩
    rintro rfl
    exact hempty (allocateBlock_exhausted hf' hi random hserved)
  · intro n align hindex
    refine ⟨allocateAligned_returns hf' hindex, ?_⟩
    intro h' hfailed
    exact hempty (allocateAligned_exhausted hf' hindex hfailed).1

/-- Two blocks of sixteen pages are asked for, and the region has one. -/
theorem reachable_exhausted_small : ∃ h live, Reachable smallRegion h live ∧
    Exhausted h 1 ∧ freeBlocks h 0 = 4 := by
  have hrun : (((newHeap.initializeHeap 0x10000 0x14000).bind (·.free 0x10000 20)).bind
      (Request.serve · (.block 1 true))).bind (fun q =>
        (q.2.allocateBlock 1 true).map fun q' => (q'.1, freeBlocks q.2 0)) = some (0, 4) := by
    decide +kernel
  obtain ⟨⟨r, h⟩, hrun, hlast⟩ := Option.bind_eq_some_iff.mp hrun
  obtain ⟨⟨r', h'⟩, hlast, heq⟩ := Option.map_eq_some_iff.mp hlast
  obtain ⟨rfl, hfour⟩ := Prod.mk.inj heq
  simp only [Option.bind_eq_some_iff] at hrun
  obtain ⟨h₂, ⟨h₁, hinit, hfree⟩, hserve⟩ := hrun
  have hr : Reachable smallRegion h _ := .allocate (.start hinit hfree) (q := .block 1 true) trivial hserve
  refine ⟨h, _, hr, ?_, hfour⟩
  obtain ⟨r, h'', hserved, hzero⟩ :=
    (reachable_exhausted hr h.rng (fun i => (h.blocks i).bitmap.rng) (show 1 < 7 by decide)).1
      true
  obtain rfl : r = 0 := (Prod.mk.inj (Option.some.inj (hserved.symm.trans hlast))).1
  exact hzero rfl

end Ruzu.PageHeap
