import Ruzu.Kernel.PageHeapInitialize

/-!
# Runs of the page heap

An allocation takes one block, keeps a range of it and frees the rest on both
sides. Over a run of allocations and frees the heap's free pages stay exactly
the pages of the region that no live range holds.
-/

set_option autoImplicit false

namespace Ruzu.PageHeap
open Ruzu.MemoryBlock (pageSize)
open Ruzu.PageBitmap Ruzu.Buddy Finset

variable {h : KPageHeap} {a e : ℕ} {F : Finset ℕ}

/-- What an allocation of `n` pages may answer on the free pages `F`. -/
def Granted (a e : ℕ) (F : Finset ℕ) (n align : ℕ) (r : ℕ) (h' : KPageHeap) : Prop :=
  (r = 0 ∧ Free h' a e F) ∨
    ∃ p, r = p*pageSize ∧ r ≠ 0 ∧ align ∣ p ∧ Ico p (p+n) ⊆ F ∧ Free h' a e (F \ Ico p (p+n))

theorem popBlock_free (hf : Free h a e F) {i : ℕ} (hi : i < 7) (random : Bool) :
    ∃ r b', (h.blocks i).popBlock random = some (r, b') ∧
      ((r = 0 ∧ Free (h.setBlock i b') a e F) ∨
        ∃ k, r = addressOf i k ∧ r ≠ 0 ∧ units (width i) k ⊆ F ∧
          Free (h.setBlock i b') a e (F \ units (width i) k)) := by
  obtain ⟨A, hA, hc⟩ := hf.levels
  rcases popBlock_holds (h.blocks i) i random hi _ _ (hA i hi) with
    ⟨_, hp⟩ | ⟨k, hk, b', hp, hhold⟩
  · refine ⟨0, h.blocks i, hp, .inl ⟨rfl, hf.pos, hf.fits, hf.address, hf.extent,
      hf.numBlocks, hf.sub, A, ?_, hc⟩⟩
    have := holds_update hA (hA i hi)
    rwa [Function.update_eq_self] at this
  · have hsub := hc.units_subset hi (width_pos i hi) hk
    refine ⟨_, b', hp, .inr ⟨k, rfl, addressOf_ne_zero hi hf.pos (hsub.trans hf.sub), hsub, ?_⟩⟩
    exact ⟨hf.pos, hf.fits, hf.address, hf.extent, hf.numBlocks, sdiff_subset.trans hf.sub, _,
      holds_update hA hhold, hc.take hi (width_pos i hi) hk⟩

/-- Giving both ends of a popped block back leaves exactly the range in between taken. -/
theorem keep_range {B w p n : ℕ} (hB : B ≤ p) (hp : p+n ≤ B+w) (hF : Ico B (B+w) ⊆ F) :
    F \ Ico B (B+w) ∪ Ico B p ∪ Ico (p+n) (B+w) = F \ Ico p (p+n) := by
  ext x
  have hx : x ∈ Ico B (B+w) → x ∈ F := fun h => hF h
  simp only [mem_union, mem_sdiff, mem_Ico] at hx ⊢
  constructor
  · rintro ((⟨h1, h2⟩ | h1) | h1)
    · exact ⟨h1, by omega⟩
    · exact ⟨hx (by omega), by omega⟩
    · exact ⟨hx (by omega), by omega⟩
  · rintro ⟨h1, h2⟩
    by_cases h3 : B ≤ x ∧ x < B+w
    · by_cases h4 : x < p
      · exact .inl (.inr ⟨h3.1, h4⟩)
      · exact .inr (by omega)
    · exact .inl (.inl ⟨h1, h3⟩)

theorem units_eq (w k : ℕ) : units w k = Ico (k*w) (k*w+w) := by
  rw [units, Nat.add_mul, Nat.one_mul]

theorem free_part (hf : Free h a e F) (c : Prop) [Decidable c] (s n m : ℕ)
    (hc : c ↔ n ≠ 0) (hm : m = n) (hR : Ico s (s+n) ⊆ Ico a e) (hd : Disjoint F (Ico s (s+n))) :
    ∃ h', h.freeIf c (s*pageSize) m = some h' ∧ Free h' a e (F ∪ Ico s (s+n)) := by
  subst hm
  obtain ⟨h', hh', hf'⟩ := free_free hf s m hR hd
  refine ⟨h', ?_, hf'⟩
  rw [KPageHeap.freeIf]
  by_cases hm0 : c
  · rwa [if_pos hm0]
  · rw [if_neg hm0]
    have h0 : m = 0 := by
      by_contra hne
      exact hm0 (hc.mpr hne)
    rw [h0] at hh'
    exact hh'

/-- Both frees after a block was popped, around the kept range of `n` pages at offset `o`. -/
theorem free_both {i k o n : ℕ} (hsub : units (width i) k ⊆ F) (hF : F ⊆ Ico a e)
    (hf : Free h a e (F \ units (width i) k)) (hon : o+n ≤ width i) (c d : Prop) [Decidable c]
    [Decidable d] (x y : ℕ) (hc : c ↔ o ≠ 0) (hd : d ↔ width i - o - n ≠ 0) (hx : x = o)
    (hy : y = width i - o - n) :
    ∃ h1 h2, h.freeIf c (addressOf i k) x = some h1 ∧
      h1.freeIf d ((k*width i+o+n)*pageSize) y = some h2 ∧
      Free h2 a e (F \ Ico (k*width i+o) (k*width i+o+n)) := by
  rw [units_eq] at hsub hf
  have hlow : Ico (k*width i) (k*width i+o) ⊆ Ico (k*width i) (k*width i+width i) :=
    Ico_subset_Ico le_rfl (by omega)
  have hhigh : Ico (k*width i+o+n) (k*width i+o+n+(width i - o - n)) ⊆
      Ico (k*width i) (k*width i+width i) := Ico_subset_Ico (by omega) (by omega)
  obtain ⟨h1, hh1, hf1⟩ := free_part hf c (k*width i) o x hc hx ((hlow.trans hsub).trans hF)
    (disjoint_of_subset_right hlow disjoint_sdiff_self_left)
  obtain ⟨h2, hh2, hf2⟩ := free_part hf1 d (k*width i+o+n) (width i - o - n) y hd hy
    ((hhigh.trans hsub).trans hF) (by
      rw [disjoint_union_left]
      refine ⟨disjoint_of_subset_right hhigh disjoint_sdiff_self_left, ?_⟩
      rw [disjoint_left]
      intro p hp hq
      rw [mem_Ico] at hp hq
      omega)
  refine ⟨h1, h2, hh1, hh2, ?_⟩
  rw [show k*width i+o+n+(width i - o - n) = k*width i+width i by omega,
    keep_range (by omega) (by omega) hsub] at hf2
  exact hf2

theorem width_mono {i j : ℕ} (hij : i ≤ j) (hj : j < 7) : width i ∣ width j := by
  rcases Nat.eq_or_lt_of_le hij with rfl | hlt
  · exact Nat.dvd_refl _
  · exact width_dvd j hj i hlt

theorem linearSearch_granted {index : ℕ} (fuel : ℕ) : ∀ (h : KPageHeap) (i : ℕ), index ≤ i →
    i+fuel = 7 → Free h a e F →
    ∃ r h', KPageHeap.allocateByLinearSearchLoop (width index*pageSize) fuel i h = some (r, h') ∧
      Granted a e F (width index) (width index) r h' := by
  induction fuel with
  | zero =>
    intro h i _ _ hf
    exact ⟨0, h, rfl, .inl ⟨rfl, hf⟩⟩
  | succ fuel ih =>
    intro h i hii hfuel hf
    have hi : i < 7 := by omega
    have hdvd := width_mono hii hi
    have hle := Nat.le_of_dvd (width_pos i hi) hdvd
    obtain ⟨r, b', hp, hres⟩ := popBlock_free hf hi false
    rw [KPageHeap.allocateByLinearSearchLoop, block_eq h hi]
    simp only [Option.bind_some, bind, hp]
    rcases hres with ⟨rfl, hf'⟩ | ⟨k, rfl, hr, hsub, hf'⟩
    · rw [if_neg (by simp)]
      exact ih _ (i+1) (by omega) (by omega) hf'
    · rw [if_pos hr]
      have hsize : b'.getSize = width i*pageSize := by
        have := hf'.size hi
        rwa [setBlock_self] at this
      have hmul := Nat.mul_le_mul_right pageSize hle
      have hcond : width index*pageSize < width i*pageSize ↔ width i - 0 - width index ≠ 0 := by
        simp only [pageSize]
        omega
      have hcount : (width i*pageSize - width index*pageSize)/pageSize =
          width i - 0 - width index := by
        rw [← Nat.sub_mul, Nat.mul_div_cancel _ (by decide), Nat.sub_zero]
      obtain ⟨h1, h2, hh1, hh2, hf2⟩ := free_both (o := 0) (n := width index) hsub hf.sub hf'
        (by omega) False (width index*pageSize < width i*pageSize) 0
        ((width i*pageSize - width index*pageSize)/pageSize) (by simp) hcond rfl hcount
      have h1eq : h.setBlock i b' = h1 := by simpa [KPageHeap.freeIf] using hh1
      have haddr : addressOf i k+width index*pageSize = (k*width i+0+width index)*pageSize := by
        rw [addressOf]
        ring
      refine ⟨addressOf i k, h2, ?_, .inr ⟨k*width i, rfl, hr, hdvd.mul_left k, ?_, ?_⟩⟩
      · rw [hsize, haddr, h1eq, hh2]
        rfl
      · rw [units_eq] at hsub
        exact (Ico_subset_Ico le_rfl (by omega)).trans hsub
      · exact hf2

theorem alignmentsAt_some (hf : Free h a e F) {i n shift : ℕ} (hi : i < 7) (hn : n ≤ width i)
    (hs : shift < 64) : ∃ q, h.alignmentsAt (n*pageSize) shift i = some q := by
  have hle : n*pageSize ≤ width i*pageSize := Nat.mul_le_mul_right _ hn
  rw [KPageHeap.alignmentsAt, block_eq h hi]
  simp only [Option.bind_some, bind, hf.size hi]
  rw [if_neg (by omega)]
  exact ⟨_, rfl⟩

theorem countAlignments_some (hf : Free h a e F) {index n shift : ℕ} (hn : n ≤ width index)
    (hs : shift < 64) (fuel : ℕ) : ∀ i possible, index ≤ i → i+fuel = 7 →
    ∃ m q, h.countAlignments (n*pageSize) shift fuel i possible = some (m, q) ∧ m ≤ 7 := by
  induction fuel with
  | zero =>
    intro i possible _ hfuel
    exact ⟨i, possible, rfl, by omega⟩
  | succ fuel ih =>
    intro i possible hii hfuel
    have hi : i < 7 := by omega
    have hle := Nat.le_of_dvd (width_pos i hi) (width_mono hii hi)
    obtain ⟨q, hq⟩ := alignmentsAt_some hf hi (hn.trans hle) hs
    rw [KPageHeap.countAlignments, hq]
    simp only [Option.bind_some, bind]
    by_cases hmin : KPageHeap.minimumPossibleAlignments ≤ possible+q
    · rw [if_pos hmin]
      exact ⟨i+1, _, rfl, by omega⟩
    · rw [if_neg hmin]
      exact ih (i+1) _ (by omega) (by omega)

theorem pickIndex_some (hf : Free h a e F) {index n shift : ℕ} (hindex : index < 7)
    (hn : n ≤ width index) (hs : shift < 64) (rnd fuel : ℕ) : ∀ i possible, index ≤ i → i+fuel ≤ 7 →
    ∃ j, h.pickIndex (n*pageSize) shift rnd index fuel i possible = some j ∧
      index ≤ j ∧ j < 7 := by
  induction fuel with
  | zero =>
    intro i possible _ _
    exact ⟨index, rfl, le_rfl, hindex⟩
  | succ fuel ih =>
    intro i possible hii hfuel
    have hi : i < 7 := by omega
    have hle := Nat.le_of_dvd (width_pos i hi) (width_mono hii hi)
    obtain ⟨q, hq⟩ := alignmentsAt_some hf hi (hn.trans hle) hs
    rw [KPageHeap.pickIndex, hq]
    simp only [Option.bind_some, bind]
    by_cases hlt : rnd < possible+q
    · rw [if_pos hlt]
      exact ⟨i, rfl, hii, hi⟩
    · rw [if_neg hlt]
      exact ih (i+1) _ (by omega) (by omega)

theorem trailingZeros_two_pow (c : ℕ) (hc : c < 64) : KPageHeap.trailingZeros (2^c) = c := by
  have hbit : ∀ i, (2^c).testBit i = decide (c = i) := by
    intro i
    exact Nat.testBit_two_pow
  unfold KPageHeap.trailingZeros
  cases hf : (List.range 64).find? fun i => (2^c).testBit i with
  | none =>
    rw [List.find?_eq_none] at hf
    have := hf c (by simp [hc])
    rw [hbit] at this
    simp at this
  | some i =>
    have := List.find?_some hf
    rw [hbit] at this
    simpa using (of_decide_eq_true this).symm

theorem trailingZeros_page_two_pow {c : ℕ} (hc : c+12 < 64) :
    KPageHeap.trailingZeros (2^c*pageSize) = c+12 := by
  have hpow : 2^c*pageSize = 2^(c+12) := by
    rw [pow_add]
    rfl
  rw [hpow, trailingZeros_two_pow _ hc]

/-- The trailing zeros of an alignment in bytes: its pages are a multiple of `2^c`. -/
theorem trailingZeros_page {align : ℕ} (h0 : 0 < align) (hlt : align*pageSize < 2^64) :
    ∃ c, KPageHeap.trailingZeros (align*pageSize) = c+12 ∧ c+12 < 64 ∧ 2^c ∣ align := by
  have hpage : align*pageSize = align*2^12 := rfl
  unfold KPageHeap.trailingZeros
  cases hf : (List.range 64).find? fun i => (align*pageSize).testBit i with
  | none =>
    rw [List.find?_eq_none] at hf
    have hzero : align*pageSize = 0 := by
      apply Nat.eq_of_testBit_eq
      intro i
      rw [Nat.zero_testBit]
      by_cases hi : i < 64
      · simpa using hf i (List.mem_range.mpr hi)
      · exact Nat.testBit_lt_two_pow (hlt.trans_le (Nat.pow_le_pow_right (by decide) (by omega)))
    simp only [pageSize] at hzero
    omega
  | some i =>
    have hbit := List.find?_some hf
    obtain ⟨hi, hbelow⟩ := (List.find?_range_eq_some.mp hf).2
    rw [List.mem_range] at hi
    have hlow : 12 ≤ i := by
      rw [hpage, Nat.testBit_mul_two_pow] at hbit
      simp only [Bool.and_eq_true, decide_eq_true_eq] at hbit
      exact hbit.1
    refine ⟨i - 12, ?_, by omega, ?_⟩
    · change i = i - 12+12
      omega
    · rw [Nat.dvd_iff_mod_eq_zero]
      apply Nat.eq_of_testBit_eq
      intro j
      rw [Nat.testBit_mod_two_pow, Nat.zero_testBit]
      by_cases hj : j < i - 12
      · have := hbelow (j+12) (by omega)
        rw [hpage, Nat.testBit_mul_two_pow] at this
        simpa [hj] using this
      · simp [hj]

/-- The random offset is a number of alignments that still fits before the needed pages. -/
theorem randomOffset_fits {w n c k : ℕ} (hn : n ≤ w)
    (hk : k < 1+((w - n)*pageSize) >>> (c+12)) : k*2^c+n ≤ w := by
  have hpow : (2 : ℕ)^(c+12) = 2^c*pageSize := by
    rw [pow_add]
    rfl
  rw [Nat.shiftRight_eq_div_pow, hpow, Nat.mul_div_mul_right _ _ (by decide : 0 < pageSize)] at hk
  have h1 : k*2^c ≤ (w - n)/2^c*2^c := Nat.mul_le_mul_right _ (by omega)
  have h2 := Nat.div_mul_le_self (w - n) (2^c)
  omega

/-- The last part of `allocate_by_random`, once the level is picked. -/
theorem allocateAt_granted (hf : Free h a e F) {i n c : ℕ} (hi : i < 7) (hn : n ≤ width i)
    (hc : 2^c ∣ width i) :
    ∃ r h', h.allocateAt i (n*pageSize) (c+12) = some (r, h') ∧ Granted a e F n (2^c) r h' := by
  obtain ⟨r, b', hp, hres⟩ := popBlock_free hf hi true
  unfold KPageHeap.allocateAt
  rw [block_eq h hi]
  simp only [Option.bind_some, bind, hp]
  rcases hres with ⟨rfl, hf'⟩ | ⟨k, rfl, hr, hsub, hf'⟩
  · exact ⟨0, _, if_neg (by simp), .inl ⟨rfl, hf'⟩⟩
  · have hsize : b'.getSize = width i*pageSize := by
      have := hf'.size hi
      rwa [setBlock_self] at this
    have hle : n*pageSize ≤ width i*pageSize := Nat.mul_le_mul_right _ hn
    have hleft : width i*pageSize - n*pageSize = (width i - n)*pageSize := by rw [Nat.sub_mul]
    rw [if_pos hr, hsize, if_neg (by omega), hleft]
    by_cases hl : 0 < (width i - n)*pageSize
    · rw [if_pos hl]
      have hk := (h.setBlock i b').rng.generateRandom_lt
        (1+((width i - n)*pageSize) >>> (c+12)) (Nat.lt_of_lt_of_le Nat.one_pos (Nat.le_add_right _ _))
      generalize hgen : (h.setBlock i b').rng.generateRandom
        (1+((width i - n)*pageSize) >>> (c+12)) = gen at hk
      obtain ⟨q, g⟩ := gen
      dsimp only at hk
      have hfit := randomOffset_fits hn hk
      have hoff : q <<< (c+12) = q*2^c*pageSize := by
        rw [Nat.shiftLeft_eq, pow_add]
        simp only [pageSize]
        ring
      have hrest : ((width i - n)*pageSize - q*2^c*pageSize)/pageSize =
          width i - q*2^c - n := by
        rw [← Nat.sub_mul, Nat.mul_div_cancel _ (by decide)]
        omega
      have hzero : q*2^c*pageSize ≠ 0 ↔ q*2^c ≠ 0 := by simp [pageSize]
      have hcond : q*2^c*pageSize ≠ (width i - n)*pageSize ↔ width i - q*2^c - n ≠ 0 := by
        simp only [pageSize]
        omega
      obtain ⟨h1, h2, hh1, hh2, hf2⟩ := free_both (o := q*2^c) (n := n) hsub hf.sub
        (hf'.withRng g) hfit (q*2^c*pageSize ≠ 0) (q*2^c*pageSize ≠ (width i - n)*pageSize)
        (q*2^c*pageSize/pageSize) _ hzero hcond (Nat.mul_div_cancel _ (by decide)) hrest
      have haddr : addressOf i k+q*2^c*pageSize = (k*width i+q*2^c)*pageSize := by
        rw [addressOf]
        ring
      refine ⟨(k*width i+q*2^c)*pageSize, h2, ?_, .inr ⟨_, rfl, ?_, ?_, ?_, hf2⟩⟩
      · simp only [hoff, haddr, ← Nat.add_mul]
        rw [hh1, Option.bind_some, hh2, Option.bind_some]
      · rw [← haddr]
        omega
      · exact Nat.dvd_add (hc.mul_left k) (Nat.dvd_mul_left _ _)
      · rw [units_eq] at hsub
        exact (Ico_subset_Ico (by omega) (by omega)).trans hsub
    · have hwn : width i = n := by
        simp only [pageSize] at hl
        omega
      rw [if_neg hl]
      refine ⟨_, _, rfl, .inr ⟨k*width i, rfl, hr, hc.mul_left k, ?_, ?_⟩⟩
      · rw [← hwn]
        rwa [units_eq] at hsub
      · rw [← hwn]
        rwa [units_eq] at hf'

theorem allocateByRandom_granted (hf : Free h a e F) {index n align c : ℕ} (hi : index < 7)
    (hn : n ≤ width index) (hshift : KPageHeap.trailingZeros (align*pageSize) = c+12)
    (hc64 : c+12 < 64) (hc : 2^c ∣ width index) :
    ∃ r h', h.allocateByRandom index n align = some (r, h') ∧ Granted a e F n (2^c) r h' := by
  obtain ⟨m, q, hcount, hm⟩ := countAlignments_some hf hn hc64 (7 - index) index 0 le_rfl
    (by omega)
  unfold KPageHeap.allocateByRandom
  dsimp only
  have h7 : h.numBlocks - index = 7 - index := by rw [hf.numBlocks]
  rw [hshift, h7, hcount]
  simp only [Option.bind_some, bind]
  by_cases hpick : 0 < q ∧ index+1 < m
  · rw [if_pos hpick]
    have hf' := hf.withRng (h.rng.generateRandom q).2
    obtain ⟨j, hj, hij, hj7⟩ := pickIndex_some hf' hi hn hc64 (h.rng.generateRandom q).1
      (m - index) index 0 le_rfl (by omega)
    rw [hj, Option.bind_some]
    have hdvd := width_mono hij hj7
    exact allocateAt_granted hf' hj7 (hn.trans (Nat.le_of_dvd (width_pos j hj7) hdvd))
      (hc.trans hdvd)
  · rw [if_neg hpick]
    exact allocateAt_granted hf hi hn hc

theorem shift_lt : ∀ i < 7, shift i < 64 := by decide

theorem width_two_pow : ∀ i < 7, width i = 2^(shift i - 12) := by decide

theorem allocateBlock_granted (hf : Free h a e F) {index : ℕ} (hi : index < 7) (random : Bool) :
    ∃ r h', h.allocateBlock index random = some (r, h') ∧
      Granted a e F (width index) (width index) r h' := by
  obtain ⟨A, hA, _⟩ := hf.levels
  unfold KPageHeap.allocateBlock
  cases random with
  | true =>
    rw [if_pos rfl, block_eq h hi]
    simp only [Option.bind_some, bind, (hA index hi).numPages hi]
    have h2 := width_two_pow index hi
    have hs := shift_lt index hi
    have hshift := trailingZeros_page_two_pow (c := shift index - 12) (by omega)
    rw [← h2] at hshift
    obtain ⟨r, h', hr, hg⟩ := allocateByRandom_granted hf hi le_rfl hshift (by omega)
      (by rw [← h2])
    rw [← h2] at hg
    exact ⟨r, h', hr, hg⟩
  | false =>
    rw [if_neg (by simp), KPageHeap.allocateByLinearSearch, block_eq h hi]
    simp only [Option.bind_some, bind, hf.size hi, hf.numBlocks]
    exact linearSearch_granted (7 - index) h index le_rfl (by omega) hf

theorem alignedBlockIndexLoop_spec (t : ℕ) (l : List ℕ) : ∀ i j,
    KPageHeap.getAlignedBlockIndexLoop t l i = some j →
    i ≤ j ∧ j < i+l.length ∧ t ≤ 1 <<< l.getD (j - i) 0 / pageSize := by
  induction l with
  | nil =>
    intro i j hj
    exact absurd hj (by simp [KPageHeap.getAlignedBlockIndexLoop])
  | cons s l ih =>
    intro i j hj
    rw [KPageHeap.getAlignedBlockIndexLoop] at hj
    by_cases ht : t ≤ 1 <<< s / pageSize
    · rw [if_pos ht] at hj
      injection hj with hj
      subst hj
      simp only [Nat.sub_self, List.length_cons]
      exact ⟨le_rfl, by omega, ht⟩
    · rw [if_neg ht] at hj
      obtain ⟨h1, h2, h3⟩ := ih (i+1) j hj
      rw [List.length_cons]
      refine ⟨by omega, by omega, ?_⟩
      rw [show j - i = j - (i+1)+1 by omega, List.getD_cons_succ]
      exact h3

theorem alignedBlockIndex_spec {n align index : ℕ}
    (h : KPageHeap.getAlignedBlockIndex n align = some index) :
    index < 7 ∧ n ≤ width index ∧ align ≤ width index := by
  obtain ⟨_, h2, h3⟩ := alignedBlockIndexLoop_spec _ _ 0 index h
  rw [Nat.sub_zero] at h3
  change max n align ≤ width index at h3
  exact ⟨by simpa [memoryBlockPageShifts] using h2, by omega, by omega⟩

/-- A non-empty page-aligned region that does not start at address 0. -/
structure Region where
  heapAddress : ℕ
  heapSize : ℕ
  nonzero : heapAddress ≠ 0
  nonempty : heapSize ≠ 0
  addressAligned : heapAddress % pageSize = 0
  sizeAligned : heapSize % pageSize = 0

def Region.pages (g : Region) : Finset ℕ :=
  Ico (g.heapAddress/pageSize) ((g.heapAddress+g.heapSize)/pageSize)

/-- The pages of a range of `n` pages at a page-aligned address. -/
def pagesAt (addr n : ℕ) : Finset ℕ := Ico (addr/pageSize) (addr/pageSize+n)

inductive Request
  | block (index : ℕ) (random : Bool)
  | aligned (numPages alignPages : ℕ)

namespace Request

def serve (h : KPageHeap) : Request → Option (ℕ × KPageHeap)
  | .block index random => h.allocateBlock index random
  | .aligned numPages alignPages => do
    let index ← KPageHeap.getAlignedBlockIndex numPages alignPages
    h.allocateAligned index numPages alignPages

def numPages : Request → ℕ
  | .block index _ => KPageHeap.getBlockNumPages index
  | .aligned numPages _ => numPages

def alignPages : Request → ℕ
  | .block index _ => KPageHeap.getBlockNumPages index
  | .aligned _ alignPages => alignPages

/-- Alignments are powers of two. -/
def Valid : Request → Prop
  | .block _ _ => True
  | .aligned _ alignPages => ∃ c, alignPages = 2^c

/-- The request names one of the heap's levels, or fits in a block of one. -/
def Fits : Request → Prop
  | .block index _ => index < numMemoryBlockPageShifts
  | .aligned numPages alignPages =>
    ∃ index, KPageHeap.getAlignedBlockIndex numPages alignPages = some index

end Request

/-- The heap and the live pages, from a heap freed once in full. A range is freed
when all its pages are live, so whole results and parts of them may be freed. -/
inductive Reachable (g : Region) : KPageHeap → Finset ℕ → Prop
  | start {h₀ h₁ h : KPageHeap} : h₀.initializeHeap g.heapAddress g.heapSize = some h₁ →
      h₁.free g.heapAddress (g.heapSize/pageSize) = some h → Reachable g h ∅
  | allocate {h h' : KPageHeap} {live : Finset ℕ} {q : Request} {r : ℕ} :
      Reachable g h live → q.Valid → q.serve h = some (r, h') →
      Reachable g h' (if r = 0 then live else live ∪ pagesAt r q.numPages)
  | free {h h' : KPageHeap} {live : Finset ℕ} {addr n : ℕ} :
      Reachable g h live → addr % pageSize = 0 → pagesAt addr n ⊆ live →
      h.free addr n = some h' → Reachable g h' (live \ pagesAt addr n)

theorem serve_block (q : Request) (h : KPageHeap) (r : ℕ × KPageHeap)
    (hs : q.serve h = some r) : q.Fits := by
  cases q with
  | block index random =>
    by_contra hn
    have hblock : h.block index = none := if_neg hn
    cases random with
    | true =>
      simp [Request.serve, KPageHeap.allocateBlock, hblock] at hs
    | false =>
      simp [Request.serve, KPageHeap.allocateBlock, KPageHeap.allocateByLinearSearch,
        hblock] at hs
  | aligned n align =>
    cases hi : KPageHeap.getAlignedBlockIndex n align with
    | none => simp [Request.serve, hi] at hs
    | some index => exact ⟨index, hi⟩

theorem serve_granted (hf : Free h a e F) (q : Request) (hv : q.Valid) (hq : q.Fits) :
    ∃ r h', q.serve h = some (r, h') ∧ Granted a e F q.numPages q.alignPages r h' := by
  cases q with
  | block index random => exact allocateBlock_granted hf hq random
  | aligned n align =>
    obtain ⟨c, rfl⟩ := hv
    obtain ⟨index, hi⟩ := hq
    obtain ⟨hi7, hn, ha⟩ := alignedBlockIndex_spec hi
    simp only [Request.serve, hi, Option.bind_some, bind]
    have hs := shift_lt index hi7
    rw [width_two_pow index hi7] at ha
    have hc := (Nat.pow_le_pow_iff_right (by omega)).mp ha
    apply allocateByRandom_granted hf hi7 hn (trailingZeros_page_two_pow (by omega)) (by omega)
    rw [width_two_pow index hi7]
    exact Nat.pow_dvd_pow 2 hc

theorem Region.bounds (g : Region) :
    0 < g.heapAddress/pageSize ∧ g.heapAddress/pageSize < (g.heapAddress+g.heapSize)/pageSize ∧
      g.heapAddress/pageSize*pageSize = g.heapAddress ∧
      ((g.heapAddress+g.heapSize)/pageSize - g.heapAddress/pageSize)*pageSize = g.heapSize ∧
      (g.heapAddress+g.heapSize)/pageSize - g.heapAddress/pageSize = g.heapSize/pageSize := by
  have h1 := g.nonzero
  have h2 := g.nonempty
  have h3 := g.addressAligned
  have h4 := g.sizeAligned
  simp only [pageSize] at h3 h4 ⊢
  omega

/-- One result of an allocation, read as the pages it hands out. -/
theorem Granted.live {g : Region} {live : Finset ℕ} {n align r : ℕ} {h' : KPageHeap}
    (hl : live ⊆ g.pages)
    (hg : Granted (g.heapAddress/pageSize) ((g.heapAddress+g.heapSize)/pageSize)
      (g.pages \ live) n align r h') :
    (r ≠ 0 → r % (align*pageSize) = 0 ∧ pagesAt r n ⊆ g.pages ∧ Disjoint (pagesAt r n) live) ∧
    (if r = 0 then live else live ∪ pagesAt r n) ⊆ g.pages ∧
    Free h' (g.heapAddress/pageSize) ((g.heapAddress+g.heapSize)/pageSize)
      (g.pages \ if r = 0 then live else live ∪ pagesAt r n) := by
  rcases hg with ⟨rfl, hf⟩ | ⟨p, rfl, hr, hdvd, hsub, hf⟩
  · rw [if_pos rfl]
    exact ⟨fun h0 => absurd rfl h0, hl, hf⟩
  · have hp : pagesAt (p*pageSize) n = Ico p (p+n) := by
      rw [pagesAt, Nat.mul_div_cancel _ (by decide)]
    rw [if_neg hr, hp]
    have hin := hsub.trans sdiff_subset
    refine ⟨?_, union_subset hl hin, ?_⟩
    · intro _
      refine ⟨Nat.mod_eq_zero_of_dvd (Nat.mul_dvd_mul_right hdvd _), hin, ?_⟩
      exact disjoint_of_subset_left hsub disjoint_sdiff_self_left
    · rwa [sdiff_sdiff_left] at hf

/-- A heap over a region, freed once in full, is free on the whole region. -/
theorem region_free (g : Region) {h₀ h₁ h : KPageHeap}
    (hinit : h₀.initializeHeap g.heapAddress g.heapSize = some h₁)
    (hfree : h₁.free g.heapAddress (g.heapSize/pageSize) = some h) :
    Free h (g.heapAddress/pageSize) ((g.heapAddress+g.heapSize)/pageSize) g.pages := by
  obtain ⟨hpos, hlt, hbase, hsize, hcount⟩ := g.bounds
  rw [← hbase, ← hsize] at hinit
  rw [← hbase, ← hcount] at hfree
  by_cases hfit : (g.heapAddress+g.heapSize)/pageSize*pageSize+2^30 ≤ 2^64
  · have hf := initializeHeap_free hpos hlt hfit hinit
    have hlen : g.heapAddress/pageSize+((g.heapAddress+g.heapSize)/pageSize -
        g.heapAddress/pageSize) = (g.heapAddress+g.heapSize)/pageSize := by omega
    obtain ⟨h', hh', hf'⟩ := free_free hf (g.heapAddress/pageSize)
      ((g.heapAddress+g.heapSize)/pageSize - g.heapAddress/pageSize)
      (by rw [hlen]) (disjoint_empty_left _)
    rw [hfree] at hh'
    rw [hlen, empty_union] at hf'
    cases hh'
    exact hf'
  · rw [free_wrapped hpos hlt (Nat.not_le.mp hfit) hinit] at hfree
    exact absurd hfree (by simp)

theorem reachable_free {g : Region} {h : KPageHeap} {live : Finset ℕ}
    (hr : Reachable g h live) : live ⊆ g.pages ∧
      Free h (g.heapAddress/pageSize) ((g.heapAddress+g.heapSize)/pageSize) (g.pages \ live) := by
  induction hr with
  | start hinit hfree =>
    refine ⟨empty_subset _, ?_⟩
    rw [sdiff_empty]
    exact region_free g hinit hfree
  | @allocate h h' live q r hr hv hs ih =>
    obtain ⟨r', h'', hs', hg⟩ := serve_granted ih.2 q hv (serve_block q h _ hs)
    rw [hs] at hs'
    cases hs'
    exact (hg.live ih.1).2
  | @free h h' live addr n hr haddr hsub hfree ih =>
    have hap : addr/pageSize*pageSize = addr := Nat.div_mul_cancel (Nat.dvd_of_mod_eq_zero haddr)
    obtain ⟨h'', hh'', hf⟩ := free_free ih.2 (addr/pageSize) n (hsub.trans ih.1)
      (disjoint_of_subset_right hsub disjoint_sdiff_self_left)
    rw [hap, hfree] at hh''
    cases hh''
    refine ⟨sdiff_subset.trans ih.1, ?_⟩
    rwa [show g.pages \ live ∪ Ico (addr/pageSize) (addr/pageSize+n) =
      g.pages \ (live \ pagesAt addr n) from ?_] at hf
    ext p
    have hp : p ∈ pagesAt addr n → p ∈ live := fun h => hsub h
    have hl : p ∈ live → p ∈ g.pages := fun h => ih.1 h
    rw [pagesAt] at *
    simp only [mem_union, mem_sdiff] at *
    tauto

/-- Over every run, the set bits cover exactly the pages that are not live, each at
one level; the count agrees; every result is aligned, inside the region and apart
from the live pages; and requests that fit, and frees of live ranges, never panic. -/
theorem reachable_pages {g : Region} {h : KPageHeap} {live : Finset ℕ}
    (hr : Reachable g h live) :
    live ⊆ g.pages ∧
    (∀ p, (∃ i < 7, freeAt h i p) ↔ p ∈ g.pages \ live) ∧
    (∀ p i j, i < 7 → j < 7 → freeAt h i p → freeAt h j p → i = j) ∧
    h.getNumFreePages = (g.pages \ live).card ∧
    (∀ q : Request, q.Valid →
      (q.Fits → ∃ r h', q.serve h = some (r, h')) ∧
      ∀ r h', q.serve h = some (r, h') → r ≠ 0 →
        r % (q.alignPages*pageSize) = 0 ∧ pagesAt r q.numPages ⊆ g.pages ∧
          Disjoint (pagesAt r q.numPages) live) ∧
    ∀ addr n, addr % pageSize = 0 → pagesAt addr n ⊆ live → ∃ h', h.free addr n = some h' := by
  obtain ⟨hl, hf⟩ := reachable_free hr
  refine ⟨hl, fun p => (hf.mem_iff p).symm, fun p i j hi hj => hf.once hi hj, hf.numFreePages,
    ?_, ?_⟩
  · intro q hv
    constructor
    · intro hq
      obtain ⟨r, h', hs, _⟩ := serve_granted hf q hv hq
      exact ⟨r, h', hs⟩
    · intro r h' hs
      obtain ⟨r', h'', hs', hg⟩ := serve_granted hf q hv (serve_block q h _ hs)
      rw [hs] at hs'
      cases hs'
      exact (hg.live hl).1
  · intro addr n haddr hsub
    obtain ⟨h', hh', _⟩ := free_free hf (addr/pageSize) n (hsub.trans hl)
      (disjoint_of_subset_right hsub disjoint_sdiff_self_left)
    rw [Nat.div_mul_cancel (Nat.dvd_of_mod_eq_zero haddr)] at hh'
    exact ⟨h', hh'⟩

def newBitmap : KPageBitmap := ⟨fun _ => [], ⟨fun n => BitVec.ofNat 32 (n+3), 0, 0, 0⟩, 0, 0⟩

def newHeap : KPageHeap := ⟨0, 0, 0, fun _ => ⟨newBitmap, 0, 0, 0, 0⟩, newBitmap.rng⟩

/-- Twenty pages from page 16 on: one block of the second level and four pages. -/
def smallRegion : Region := ⟨0x10000, 0x14000, by decide, by decide, by decide, by decide⟩

/-- Three pages, aligned to four, cut out of the large block: seventeen are left. -/
theorem reachable_pages_aligned : ∃ h live, Reachable smallRegion h live ∧
    live = Ico 28 31 ∧ h.getNumFreePages = 17 := by
  have hrun : (((newHeap.initializeHeap 0x10000 0x14000).bind (·.free 0x10000 20)).bind
      (Request.serve · (.aligned 3 4))).map (·.1) = some 0x1c000 := by decide +kernel
  simp only [Option.map_eq_some_iff, Option.bind_eq_some_iff] at hrun
  obtain ⟨⟨r, h⟩, ⟨h₂, ⟨h₁, hinit, hfree⟩, hserve⟩, rfl⟩ := hrun
  have hr : Reachable smallRegion h _ :=
    .allocate (.start hinit hfree) (q := .aligned 3 4) ⟨2, rfl⟩ hserve
  refine ⟨h, _, hr, by decide, ?_⟩
  rw [(reachable_pages hr).2.2.2.1]
  decide

end Ruzu.PageHeap
