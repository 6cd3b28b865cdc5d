import Ruzu.Kernel.PageHeapLevels

/-!
# Freeing ranges of pages

A heap is free on a set of pages when its levels cover exactly that set.
`free_block` adds one block and follows the coalescing upwards; `free` cuts a
range into blocks of one large size and runs of smaller ones on both sides.
-/

set_option autoImplicit false

namespace Ruzu.PageHeap
open Ruzu.MemoryBlock (pageSize)
open Ruzu.PageBitmap Ruzu.Buddy Finset

/-- The pages `F` are free in a heap over the pages `a..e`. The last bound keeps
every rounded-up address inside 64 bits. -/
structure Free (h : KPageHeap) (a e : ℕ) (F : Finset ℕ) : Prop where
  pos : 0 < a
  fits : e*pageSize+2^30 ≤ 2^64
  address : h.heapAddress = a*pageSize
  extent : h.heapSize = (e - a)*pageSize
  numBlocks : h.numBlocks = 7
  sub : F ⊆ Ico a e
  levels : ∃ A, (∀ i < 7, Holds (h.blocks i) i (Ico a e) (A i)) ∧ Covers width 7 A F

variable {h : KPageHeap} {a e : ℕ} {F : Finset ℕ}

theorem Free.withRng (hf : Free h a e F) (g : RandomBitGenerator) :
    Free { h with rng := g } a e F :=
  ⟨hf.pos, hf.fits, hf.address, hf.extent, hf.numBlocks, hf.sub, hf.levels⟩

theorem Free.size (hf : Free h a e F) {i : ℕ} (hi : i < 7) :
    (h.blocks i).getSize = width i*pageSize := by
  obtain ⟨A, hA, _⟩ := hf.levels
  exact (hA i hi).size hi

theorem block_eq (h : KPageHeap) {i : ℕ} (hi : i < 7) : h.block i = some (h.blocks i) :=
  if_pos hi

/-- Page `p` lies in a free block of level `i`. -/
def freeAt (h : KPageHeap) (i p : ℕ) : Prop :=
  (h.blocks i).heapAddress ≤ p*pageSize ∧
    (h.blocks i).bitmap.bit ((h.blocks i).bitmap.usedDepths - 1)
      ((p*pageSize - (h.blocks i).heapAddress) / (h.blocks i).getSize) = true

theorem freeAt_iff {i p : ℕ} (hi : i < 7) {R A : Finset ℕ} (hA : Holds (h.blocks i) i R A) :
    freeAt h i p ↔ p/width i ∈ A := by
  have hsize := hA.size hi
  obtain ⟨first, S, hp, rfl⟩ := hA
  have hw := width_pos i hi
  have hbase : (h.blocks i).heapAddress = first*width i*pageSize := by
    rw [hp.base, blockSize_eq i hi, Nat.mul_assoc]
  have hleaf : ∀ j, (h.blocks i).bitmap.bit ((h.blocks i).bitmap.usedDepths - 1) j = true ↔
      j ∈ S := by
    intro j
    rw [hp.bits.stores _ (by have := hp.bits.sized.pos; omega) j]
    simp
  rw [freeAt, hleaf, hsize, hbase]
  have hle : first*width i*pageSize ≤ p*pageSize ↔ first ≤ p/width i := by
    rw [Nat.le_div_iff_mul_le hw]
    simp [pageSize]
  have hdiv : (p*pageSize - first*width i*pageSize)/(width i*pageSize) = p/width i - first := by
    rw [← Nat.sub_mul, Nat.mul_div_mul_right _ _ (by decide : 0 < pageSize), Nat.mul_comm first,
      Nat.sub_mul_div]
  rw [hle, hdiv, mem_map]
  constructor
  · rintro ⟨hf, hS⟩
    exact ⟨_, hS, Nat.add_sub_cancel' hf⟩
  · rintro ⟨x, hx, hxp⟩
    change first+x = p/width i at hxp
    rw [← hxp, Nat.add_sub_cancel_left]
    exact ⟨Nat.le_add_right first x, hx⟩

theorem Free.mem_iff (hf : Free h a e F) (p : ℕ) : p ∈ F ↔ ∃ i < 7, freeAt h i p := by
  obtain ⟨A, hA, hc⟩ := hf.levels
  rw [hc.cover]
  apply exists_congr
  intro i
  apply and_congr_right
  intro hi
  exact (freeAt_iff hi (hA i hi)).symm

theorem Free.once (hf : Free h a e F) {p i j : ℕ} (hi : i < 7) (hj : j < 7)
    (hpi : freeAt h i p) (hpj : freeAt h j p) : i = j := by
  obtain ⟨A, hA, hc⟩ := hf.levels
  rw [freeAt_iff hi (hA i hi)] at hpi
  rw [freeAt_iff hj (hA j hj)] at hpj
  exact hc.once p i j hi hj hpi hpj

theorem Free.numFreePages (hf : Free h a e F) : h.getNumFreePages = F.card := by
  obtain ⟨A, hA, hc⟩ := hf.levels
  rw [← hc.card width_pos, KPageHeap.getNumFreePages, hf.numBlocks]
  have hlevel : ∀ i < 7, (h.blocks i).getNumFreePages = (A i).card*width i := by
    intro i hi
    rw [Block.getNumFreePages, (hA i hi).numFree, (hA i hi).numPages hi]
  rw [← List.sum_toFinset _ (List.nodup_range), List.toFinset_range]
  apply sum_congr rfl
  intro i hi
  exact hlevel i (mem_range.mp hi)

/-- A block inside the region starts past page 0, so its address is no 0. -/
theorem addressOf_ne_zero {i k : ℕ} (hi : i < 7) (ha : 0 < a)
    (hR : units (width i) k ⊆ Ico a e) : addressOf i k ≠ 0 := by
  have hw := width_pos i hi
  have hfirst : k*width i ∈ units (width i) k := by
    rw [mem_units hw]
    exact Nat.mul_div_cancel k hw
  have hmem := hR hfirst
  rw [mem_Ico] at hmem
  rw [addressOf]
  exact Nat.mul_ne_zero (by omega) (by decide)

theorem setBlock_self (h : KPageHeap) (i : ℕ) (b : Block) : (h.setBlock i b).blocks i = b := by
  simp [KPageHeap.setBlock]

theorem setBlock_other {i j : ℕ} {b : Block} (hj : j ≠ i) :
    (h.setBlock i b).blocks j = h.blocks j := by
  simp [KPageHeap.setBlock, hj]

theorem holds_update {A : ℕ → Finset ℕ} {i : ℕ} {R X : Finset ℕ} {b : Block}
    (hA : ∀ j < 7, Holds (h.blocks j) j R (A j)) (hb : Holds b i R X) :
    ∀ j < 7, Holds ((h.setBlock i b).blocks j) j R (Function.update A i X j) := by
  intro j hj
  by_cases hji : j = i
  · subst hji
    rw [setBlock_self, Function.update_self]
    exact hb
  · rw [setBlock_other hji, Function.update_of_ne hji]
    exact hA j hj

/-- The loop of `free_block`: a block that coalesced is pending one level up. -/
theorem freeBlockLoop_free (fuel : ℕ) : ∀ (h : KPageHeap) (i k : ℕ) (F : Finset ℕ), i < 7 →
    7 - i ≤ fuel → Free h a e F → units (width i) k ⊆ Ico a e → Disjoint F (units (width i) k) →
    ∃ h', KPageHeap.freeBlockLoop fuel h (addressOf i k) i = some h' ∧
      Free h' a e (F ∪ units (width i) k) := by
  induction fuel with
  | zero =>
    intro h i k F hi hfuel
    omega
  | succ fuel ih =>
    intro h i k F hi hfuel hf hR hd
    have hw := width_pos i hi
    obtain ⟨A, hA, hc⟩ := hf.levels
    have hfirst : k*width i ∈ units (width i) k := by
      rw [mem_units hw]
      exact Nat.mul_div_cancel k hw
    have hk : k ∉ A i := by
      intro hk
      exact disjoint_left.mp hd (hc.units_subset hi hw hk hfirst) hfirst
    have hput := hc.put hi hw hd
    have hsub : F ∪ units (width i) k ⊆ Ico a e := union_subset hf.sub hR
    rw [KPageHeap.freeBlockLoop, block_eq h hi]
    rcases pushBlock_holds (h.blocks i) i k hi (Ico a e) (A i) (hA i hi) hk
      ⟨_, hR hfirst, (mem_units hw).mp hfirst⟩ with ⟨b', hb', hhold⟩ | ⟨hi6, hbud, b', hb', hhold⟩
    · refine ⟨h.setBlock i b', ?_, hf.pos, hf.fits, hf.address, hf.extent, hf.numBlocks,
        hsub, _, holds_update hA hhold, hput⟩
      simp only [Option.bind_some, bind, hb', if_pos]
    · have hr := (ratio_bounds i hi6).1
      have hup : (Ico (k/ratio i*ratio i) (k/ratio i*ratio i+ratio i)).biUnion
          (units (width i)) = units (width (i+1)) (k/ratio i) := by
        rw [buddies_units _ _ _ hw hr, width_succ i hi6]
      have hrem := hput.remove
        (K := Ico (k/ratio i*ratio i) (k/ratio i*ratio i+ratio i)) hi hw
        (by rwa [Function.update_self])
      rw [hup, Function.update_self, Function.update_idem] at hrem
      have hin : units (width (i+1)) (k/ratio i) ⊆ F ∪ units (width i) k := by
        rw [← hup]
        apply biUnion_subset.mpr
        intro x hx
        apply hput.units_subset hi hw
        rw [Function.update_self]
        exact hbud hx
      have hnext : addressOf (i+1) (k/ratio i) ≠ 0 :=
        addressOf_ne_zero (by omega) hf.pos (hin.trans hsub)
      have hf' : Free (h.setBlock i b') a e
          ((F ∪ units (width i) k) \ units (width (i+1)) (k/ratio i)) :=
        ⟨hf.pos, hf.fits, hf.address, hf.extent, hf.numBlocks, sdiff_subset.trans hsub, _,
          holds_update hA hhold, hrem⟩
      obtain ⟨h', hh', hfree⟩ := ih (h.setBlock i b') (i+1) (k/ratio i) _ (by omega) (by omega)
        hf' (hin.trans hsub) disjoint_sdiff_self_left
      rw [sdiff_union_of_subset hin] at hfree
      refine ⟨h', ?_, hfree⟩
      simp only [Option.bind_some, bind, hb']
      rw [if_neg hnext]
      exact hh'

theorem freeBlock_free (hf : Free h a e F) {i k : ℕ} (hi : i < 7)
    (hR : units (width i) k ⊆ Ico a e) (hd : Disjoint F (units (width i) k)) :
    ∃ h', h.freeBlock (addressOf i k) i = some h' ∧ Free h' a e (F ∪ units (width i) k) :=
  freeBlockLoop_free _ h i k F hi (by rw [numMemoryBlockPageShifts]; omega) hf hR hd

/-- The range of pages from block `j` up to block `k` of level `i`. -/
def span (i j k : ℕ) : Finset ℕ := Ico (j*width i) (k*width i)

theorem span_first {i j k : ℕ} (hjk : j < k) :
    span i j k = units (width i) j ∪ span i (j+1) k := by
  rw [span, span, units, Ico_union_Ico_eq_Ico]
  · exact Nat.mul_le_mul_right _ (Nat.le_succ j)
  · exact Nat.mul_le_mul_right _ hjk

theorem span_last {i j k : ℕ} (hjk : j ≤ k) :
    span i j (k+1) = units (width i) k ∪ span i j k := by
  rw [union_comm]
  exact (ico_units (width i) j k hjk).symm

theorem disjoint_span {i j k : ℕ} :
    Disjoint (units (width i) j) (span i (j+1) k) ∧
      Disjoint (units (width i) k) (span i j k) := by
  constructor
  · exact Ico_disjoint_Ico_consecutive _ _ _
  · exact (Ico_disjoint_Ico_consecutive _ _ _).symm

theorem freeBigLoop_free {i : ℕ} (hi : i < 7) (k : ℕ) (fuel : ℕ) :
    ∀ (h : KPageHeap) (j : ℕ) (F : Finset ℕ), j ≤ k → k - j < fuel → Free h a e F →
      span i j k ⊆ Ico a e → Disjoint F (span i j k) →
      ∃ h', KPageHeap.freeBigLoop i (width i*pageSize) (addressOf i k) fuel h (addressOf i j) =
        some h' ∧ Free h' a e (F ∪ span i j k) := by
  have hsize : 0 < width i*pageSize := Nat.mul_pos (width_pos i hi) (by decide)
  induction fuel with
  | zero =>
    intro h j F _ hfuel
    omega
  | succ fuel ih =>
    intro h j F hjk hfuel hf hR hd
    have hlt : addressOf i j < addressOf i k ↔ j < k := by
      rw [addressOf, addressOf, Nat.mul_assoc, Nat.mul_assoc]
      exact Nat.mul_lt_mul_right hsize
    have haddr : addressOf i j+width i*pageSize = addressOf i (j+1) := by
      rw [addressOf, addressOf]
      ring
    rw [KPageHeap.freeBigLoop]
    by_cases h' : j < k
    · rw [if_pos (hlt.mpr h')]
      rw [span_first h'] at hR hd ⊢
      rw [disjoint_union_right] at hd
      obtain ⟨h1, hh1, hf1⟩ := freeBlock_free hf hi (union_subset_left hR) hd.1
      obtain ⟨h2, hh2, hf2⟩ := ih h1 (j+1) _ h' (by omega) hf1 (union_subset_right hR)
        (disjoint_union_left.mpr ⟨hd.2, disjoint_span.1⟩)
      refine ⟨h2, ?_, by rwa [union_assoc] at hf2⟩
      rw [hh1, haddr]
      exact hh2
    · have heq : j = k := by omega
      subst heq
      rw [if_neg (by rw [hlt]; exact h')]
      refine ⟨h, rfl, ?_⟩
      simpa [span] using hf

theorem freeBeforeLoop_free {i : ℕ} (hi : i < 7) (s : ℕ) (fuel : ℕ) :
    ∀ (h : KPageHeap) (k : ℕ) (F : Finset ℕ), s ≤ k*width i → k*width i - s < fuel →
      Free h a e F → Ico s (k*width i) ⊆ Ico a e → Disjoint F (Ico s (k*width i)) →
      ∃ h' j, KPageHeap.freeBeforeLoop i (width i*pageSize) (s*pageSize) fuel h (addressOf i k) =
        some (h', addressOf i j) ∧ j ≤ k ∧ s ≤ j*width i ∧ j*width i < s+width i ∧
        Free h' a e (F ∪ span i j k) := by
  have hw := width_pos i hi
  induction fuel with
  | zero =>
    intro h k F _ hfuel
    omega
  | succ fuel ih =>
    intro h k F hsk hfuel hf hR hd
    have hcond : s*pageSize+width i*pageSize ≤ addressOf i k ↔ s+width i ≤ k*width i := by
      rw [addressOf, ← Nat.add_mul]
      simp [pageSize]
    rw [KPageHeap.freeBeforeLoop]
    by_cases hle : s+width i ≤ k*width i
    · rw [if_pos (hcond.mpr hle)]
      obtain ⟨k, rfl⟩ : ∃ j, k = j+1 := by
        cases k with
        | zero => omega
        | succ k => exact ⟨k, rfl⟩
      have hstep : (k+1)*width i = k*width i+width i := by ring
      have haddr : addressOf i (k+1) - width i*pageSize = addressOf i k := by
        rw [addressOf, addressOf, hstep, Nat.add_mul, Nat.add_sub_cancel]
      have hcut : Ico s ((k+1)*width i) = Ico s (k*width i) ∪ units (width i) k := by
        rw [units, Ico_union_Ico_eq_Ico (by omega) (by omega)]
      rw [hcut] at hR hd
      rw [disjoint_union_right] at hd
      obtain ⟨h1, hh1, hf1⟩ := freeBlock_free hf hi (union_subset_right hR) hd.2
      have hnew : Disjoint (F ∪ units (width i) k) (Ico s (k*width i)) := by
        rw [disjoint_union_left]
        exact ⟨hd.1, (Ico_disjoint_Ico_consecutive _ _ _).symm⟩
      obtain ⟨h2, j, hh2, hjk, hsj, hjs, hf2⟩ := ih h1 k _ (by omega) (by omega) hf1
        (union_subset_left hR) hnew
      refine ⟨h2, j, ?_, by omega, hsj, hjs, ?_⟩
      · rw [haddr, hh1]
        exact hh2
      · rw [span_last hjk, ← union_assoc]
        exact hf2
    · rw [if_neg (by rw [hcond]; exact hle)]
      refine ⟨h, k, rfl, le_rfl, hsk, by omega, ?_⟩
      simpa [span] using hf

theorem freeAfterLoop_free {i : ℕ} (hi : i < 7) (t : ℕ) (fuel : ℕ) :
    ∀ (h : KPageHeap) (j : ℕ) (F : Finset ℕ), j*width i ≤ t → t - j*width i < fuel →
      Free h a e F → Ico (j*width i) t ⊆ Ico a e → Disjoint F (Ico (j*width i) t) →
      ∃ h' k, KPageHeap.freeAfterLoop i (width i*pageSize) (t*pageSize) fuel h (addressOf i j) =
        some (h', addressOf i k) ∧ j ≤ k ∧ k*width i ≤ t ∧ t < k*width i+width i ∧
        Free h' a e (F ∪ span i j k) := by
  have hw := width_pos i hi
  induction fuel with
  | zero =>
    intro h j F _ hfuel
    omega
  | succ fuel ih =>
    intro h j F hjt hfuel hf hR hd
    have hstep : (j+1)*width i = j*width i+width i := by ring
    have hcond : addressOf i j+width i*pageSize ≤ t*pageSize ↔ j*width i+width i ≤ t := by
      rw [addressOf, ← Nat.add_mul]
      simp [pageSize]
    have haddr : addressOf i j+width i*pageSize = addressOf i (j+1) := by
      rw [addressOf, addressOf, hstep, Nat.add_mul]
    rw [KPageHeap.freeAfterLoop]
    by_cases hle : j*width i+width i ≤ t
    · rw [if_pos (hcond.mpr hle)]
      have hcut : Ico (j*width i) t = units (width i) j ∪ Ico ((j+1)*width i) t := by
        rw [units, Ico_union_Ico_eq_Ico (by omega) (by omega)]
      rw [hcut] at hR hd
      rw [disjoint_union_right] at hd
      obtain ⟨h1, hh1, hf1⟩ := freeBlock_free hf hi (union_subset_left hR) hd.1
      have hnew : Disjoint (F ∪ units (width i) j) (Ico ((j+1)*width i) t) := by
        rw [disjoint_union_left]
        exact ⟨hd.2, Ico_disjoint_Ico_consecutive _ _ _⟩
      obtain ⟨h2, k, hh2, hjk, hkt, htk, hf2⟩ := ih h1 (j+1) _ (by omega) (by omega) hf1
        (union_subset_right hR) hnew
      refine ⟨h2, k, ?_, by omega, hkt, htk, ?_⟩
      · rw [haddr, hh1]
        exact hh2
      · rw [span_first (by omega), ← union_assoc]
        exact hf2
    · rw [if_neg (by rw [hcond]; exact hle)]
      refine ⟨h, j, rfl, le_rfl, hjt, by omega, ?_⟩
      simpa [span] using hf

theorem freeBefore_free (s fuel n : ℕ) (hn : n ≤ 7) :
    ∀ (h : KPageHeap) (t : ℕ) (F : Finset ℕ), s ≤ t → t - s < fuel → (n = 0 → t = s) →
      (n ≠ 0 → width (n-1) ∣ t) → Free h a e F → Ico s t ⊆ Ico a e → Disjoint F (Ico s t) →
      ∃ h', KPageHeap.freeBefore fuel (s*pageSize) n h (t*pageSize) = some h' ∧
        Free h' a e (F ∪ Ico s t) := by
  induction n with
  | zero =>
    intro h t F _ _ h0 _ hf _ _
    refine ⟨h, rfl, ?_⟩
    simpa [h0 rfl] using hf
  | succ n ih =>
    intro h t F hst hfuel _ hdvd hf hR hd
    have hn7 : n < 7 := hn
    obtain ⟨k, hk⟩ := hdvd (Nat.succ_ne_zero n)
    rw [Nat.add_sub_cancel, Nat.mul_comm] at hk
    subst hk
    obtain ⟨h1, j, hh1, hjk, hsj, hjs, hf1⟩ :=
      freeBeforeLoop_free hn7 s fuel h k F hst hfuel hf hR hd
    have hjt := Nat.mul_le_mul_right (width n) hjk
    have hcut : Ico s (k*width n) = span n j k ∪ Ico s (j*width n) := by
      rw [union_comm]
      exact (Ico_union_Ico_eq_Ico hsj hjt).symm
    rw [hcut] at hR hd ⊢
    rw [disjoint_union_right] at hd
    obtain ⟨h2, hh2, hf2⟩ := ih (by omega) h1 (j*width n) _ hsj (by omega)
      (by
        rintro rfl
        rw [width_zero] at hsj hjs ⊢
        omega)
      (by
        intro hn0
        exact Dvd.dvd.mul_left (width_dvd n hn7 (n-1) (by omega)) j)
      hf1 (union_subset_right hR)
      (disjoint_union_left.mpr ⟨hd.2, (Ico_disjoint_Ico_consecutive _ _ _).symm⟩)
    refine ⟨h2, ?_, by rwa [union_assoc] at hf2⟩
    rw [KPageHeap.freeBefore, block_eq h hn7]
    change (KPageHeap.freeBeforeLoop n (h.blocks n).getSize _ _ _ (addressOf n k)).bind _ = _
    rw [hf.size hn7, hh1]
    exact hh2

theorem freeAfter_free (t fuel n : ℕ) (hn : n ≤ 7) :
    ∀ (h : KPageHeap) (s : ℕ) (F : Finset ℕ), s ≤ t → t - s < fuel → (n = 0 → s = t) →
      (n ≠ 0 → width (n-1) ∣ s) → Free h a e F → Ico s t ⊆ Ico a e → Disjoint F (Ico s t) →
      ∃ h', KPageHeap.freeAfter fuel (t*pageSize) n h (s*pageSize) = some h' ∧
        Free h' a e (F ∪ Ico s t) := by
  induction n with
  | zero =>
    intro h s F _ _ h0 _ hf _ _
    refine ⟨h, rfl, ?_⟩
    simpa [h0 rfl] using hf
  | succ n ih =>
    intro h s F hst hfuel _ hdvd hf hR hd
    have hn7 : n < 7 := hn
    obtain ⟨j, hj⟩ := hdvd (Nat.succ_ne_zero n)
    rw [Nat.add_sub_cancel, Nat.mul_comm] at hj
    subst hj
    obtain ⟨h1, k, hh1, hjk, hkt, htk, hf1⟩ :=
      freeAfterLoop_free hn7 t fuel h j F hst hfuel hf hR hd
    have hsk := Nat.mul_le_mul_right (width n) hjk
    have hcut : Ico (j*width n) t = span n j k ∪ Ico (k*width n) t :=
      (Ico_union_Ico_eq_Ico hsk hkt).symm
    rw [hcut] at hR hd ⊢
    rw [disjoint_union_right] at hd
    obtain ⟨h2, hh2, hf2⟩ := ih (by omega) h1 (k*width n) _ hkt (by omega)
      (by
        rintro rfl
        rw [width_zero] at hkt htk ⊢
        omega)
      (by
        intro hn0
        exact Dvd.dvd.mul_left (width_dvd n hn7 (n-1) (by omega)) k)
      hf1 (union_subset_right hR)
      (disjoint_union_left.mpr ⟨hd.2, Ico_disjoint_Ico_consecutive _ _ _⟩)
    refine ⟨h2, ?_, by rwa [union_assoc] at hf2⟩
    rw [KPageHeap.freeAfter, block_eq h hn7]
    change (KPageHeap.freeAfterLoop n (h.blocks n).getSize _ _ _ (addressOf n j)).bind _ = _
    rw [hf.size hn7, hh1]
    exact hh2

/-- Level 0 always fits, so the search ends at a level with room for a block. -/
theorem findBig_free (hf : Free h a e F) (s t : ℕ) (hst : s < t) (ht : t ≤ e) (n : ℕ)
    (hn0 : 0 < n) (hn : n ≤ 7) :
    ∃ i j k, h.findBig (s*pageSize) (t*pageSize) n =
        some (some (i, addressOf i j, addressOf i k)) ∧ i < n ∧ j < k ∧
      s ≤ j*width i ∧ j*width i < s+width i ∧ k*width i ≤ t ∧ t < k*width i+width i := by
  induction n with
  | zero => omega
  | succ n ih =>
    have hn7 : n < 7 := hn
    have hw := width_pos n hn7
    have hfit : s*pageSize+width n*pageSize ≤ 2^64 := by
      have h1 := hf.fits
      have h2 := width_le n hn7
      have h3 : s*pageSize ≤ e*pageSize := Nat.mul_le_mul_right _ (by omega)
      omega
    have hup := Nat.div_add_mod (s+width n-1) (width n)
    have hupm := Nat.mod_lt (s+width n-1) hw
    have hdn := Nat.div_add_mod t (width n)
    have hdnm := Nat.mod_lt t hw
    rw [Nat.mul_comm] at hup hdn
    generalize hj : (s+width n-1)/width n = j at hup
    generalize hk : t/width n = k at hdn
    rw [KPageHeap.findBig, block_eq h hn7]
    simp only [Option.bind_some, bind, hf.size hn7]
    rw [alignUp_mul s (width n) pageSize hw (by decide) hfit,
      alignDown_mul t (width n) pageSize (by decide), hj, hk]
    by_cases hlt : j*width n*pageSize < k*width n*pageSize
    · refine ⟨n, j, k, if_pos hlt, by omega, ?_, by omega, by omega, by omega, by omega⟩
      rw [Nat.mul_assoc, Nat.mul_assoc] at hlt
      exact lt_of_mul_lt_mul_right hlt (Nat.zero_le _)
    · have hn1 : n ≠ 0 := by
        rintro rfl
        apply hlt
        rw [width_zero] at *
        simp only [pageSize]
        omega
      obtain ⟨i, j', k', hfind, hin, hrest⟩ := ih (by omega) (by omega)
      exact ⟨i, j', k', (if_neg hlt).trans hfind, by omega, hrest⟩

/-- `free` adds exactly the pages of a range that was not free. -/
theorem free_free (hf : Free h a e F) (s n : ℕ) (hR : Ico s (s+n) ⊆ Ico a e)
    (hd : Disjoint F (Ico s (s+n))) :
    ∃ h', h.free (s*pageSize) n = some h' ∧ Free h' a e (F ∪ Ico s (s+n)) := by
  unfold KPageHeap.free
  by_cases hn : n = 0
  · subst hn
    refine ⟨h, if_pos rfl, ?_⟩
    simpa using hf
  · rw [if_neg hn]
    have hlast : s+n-1 ∈ Ico a e := hR (by rw [mem_Ico]; omega)
    rw [mem_Ico] at hlast
    obtain ⟨i, j, k, hfind, hi, hjk, hsj, hjs, hkt, htk⟩ :=
      findBig_free hf s (s+n) (by omega) (by omega) 7 (by omega) le_rfl
    have hjk' := Nat.mul_lt_mul_of_pos_right hjk (width_pos i hi)
    have hjk1 : (j+1)*width i ≤ k*width i := Nat.mul_le_mul_right _ hjk
    have hk : k - j ≤ k*width i - j*width i := by
      rw [← Nat.sub_mul]
      exact Nat.le_mul_of_pos_right _ (width_pos i hi)
    have hcut : Ico s (s+n) = span i j k ∪ Ico s (j*width i) ∪ Ico (k*width i) (s+n) := by
      rw [span, union_comm (Ico (j*width i) _), Ico_union_Ico_eq_Ico hsj (by omega),
        Ico_union_Ico_eq_Ico (by omega) hkt]
    rw [hcut] at hR hd ⊢
    rw [disjoint_union_right, disjoint_union_right] at hd
    have hdvd : ∀ m : ℕ, i ≠ 0 → width (i-1) ∣ m*width i := by
      intro m hi0
      exact Dvd.dvd.mul_left (width_dvd i hi (i-1) (by omega)) m
    obtain ⟨h1, hh1, hf1⟩ := freeBigLoop_free hi k (n+1) h j F (by omega) (by omega) hf
      (union_subset_left (union_subset_left hR)) hd.1.1
    obtain ⟨h2, hh2, hf2⟩ := freeBefore_free s (n+1) i (by omega) h1 (j*width i) _ hsj (by omega)
      (by
        rintro rfl
        rw [width_zero] at hsj hjs ⊢
        omega) (hdvd j) hf1 (union_subset_right (union_subset_left hR))
      (disjoint_union_left.mpr ⟨hd.1.2, (Ico_disjoint_Ico_consecutive _ _ _).symm⟩)
    obtain ⟨h3, hh3, hf3⟩ := freeAfter_free (s+n) (n+1) i (by omega) h2 (k*width i) _ hkt
      (by omega)
      (by
        rintro rfl
        rw [width_zero] at hkt htk ⊢
        omega) (hdvd k) hf2 (union_subset_right hR)
      (by
        rw [disjoint_union_left, disjoint_union_left]
        refine ⟨⟨hd.2, Ico_disjoint_Ico_consecutive _ _ _⟩, ?_⟩
        rw [disjoint_left]
        intro p hp hq
        rw [mem_Ico] at hp hq
        omega)
    refine ⟨h3, ?_, by rwa [union_assoc, union_assoc, ← union_assoc (span i j k)] at hf3⟩
    rw [hf.numBlocks, ← Nat.add_mul]
    dsimp only
    rw [hfind]
    simp only [Option.bind_some, bind, block_eq h hi, hf.size hi, hh1]
    change (KPageHeap.freeBefore (n+1) (s*pageSize) i h1 (j*width i*pageSize)).bind _ = _
    rw [hh2]
    exact hh3

end Ruzu.PageHeap
