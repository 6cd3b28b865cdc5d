import Ruzu.Kernel.PageHeapFree

/-!
# Initialising the page heap

An initialised heap covers no page, with every level reaching over the whole
region. A region that ends so high that its rounded-up end wraps to 0 is never
freed in full: the top level then has no bit to set.
-/

set_option autoImplicit false

namespace Ruzu.PageHeap
open Ruzu.MemoryBlock (pageSize)
open Ruzu.PageBitmap Ruzu.PageBitmap.KPageBitmap Ruzu.Buddy Finset

theorem initializeBlocks_spec (addr size : ℕ) (l : List ℕ) : ∀ (i : ℕ) (h h' : KPageHeap),
    KPageHeap.initializeBlocks addr size l i h = some h' →
    (h'.numBlocks = h.numBlocks ∧ h'.heapAddress = h.heapAddress ∧ h'.heapSize = h.heapSize) ∧
    (∀ j < i, h'.blocks j = h.blocks j) ∧
    ∀ j < l.length, (h.blocks (i+j)).initializeBlock addr size (l.getD j 0) (l.getD (j+1) 0) =
      some (h'.blocks (i+j)) := by
  induction l with
  | nil =>
    intro i h h' hinit
    cases hinit
    exact ⟨⟨rfl, rfl, rfl⟩, fun _ _ => rfl, fun _ hj => absurd hj (Nat.not_lt_zero _)⟩
  | cons c rest ih =>
    intro i h h' hinit
    rw [KPageHeap.initializeBlocks] at hinit
    cases hb : (h.blocks i).initializeBlock addr size c (rest.headD 0) with
    | none =>
      rw [hb] at hinit
      exact absurd hinit (by simp [bind])
    | some b =>
      rw [hb] at hinit
      obtain ⟨hn, hlow, hrest⟩ := ih (i+1) (h.setBlock i b) h' hinit
      refine ⟨hn, ?_, ?_⟩
      · intro j hj
        rw [hlow j (by omega), setBlock_other (by omega)]
      · intro j hj
        cases j with
        | zero =>
          rw [Nat.add_zero, hlow i (Nat.lt_succ_self i), setBlock_self, ← hb]
          cases rest with
          | nil => rfl
          | cons d rest => rfl
        | succ j =>
          have hj' : j < rest.length := by simpa using hj
          have := hrest j hj'
          rwa [setBlock_other (by omega), show i+1+j = i+(j+1) by omega] at this

theorem initializeHeap_blocks {h h' : KPageHeap} {addr size : ℕ}
    (hinit : h.initializeHeap addr size = some h') :
    (h'.numBlocks = 7 ∧ h'.heapAddress = addr ∧ h'.heapSize = size) ∧ ∀ i < 7,
      (h.blocks i).initializeBlock addr size (shift i) (shift (i+1)) = some (h'.blocks i) := by
  obtain ⟨hn, _, hb⟩ := initializeBlocks_spec addr size _ 0 _ _ hinit
  refine ⟨hn, ?_⟩
  intro i hi
  have := hb i hi
  rwa [Nat.zero_add] at this

/-- Blocks of level `i` in its alignment: the next level's block, or one block at the top. -/
def perAlign (i : ℕ) : ℕ := if i < 6 then ratio i else 1

theorem align_eq : ∀ i < 7, (if shift (i+1) ≠ 0 then 1 <<< shift (i+1) else 1 <<< shift i) =
    perAlign i*width i*pageSize := by decide

theorem align_le : ∀ i < 7, perAlign i*width i*pageSize ≤ 2^30 := by decide

theorem perAlign_pos : ∀ i < 7, 0 < perAlign i := by decide

theorem initializeBlock_eq {b b' : Block} {addr size bs nbs align : ℕ}
    (halign : (if nbs ≠ 0 then 1 <<< nbs else 1 <<< bs) = align)
    (hinit : b.initializeBlock addr size bs nbs = some b') :
    addr+size < 2^64 ∧ alignDown addr align ≤ alignUp (addr+size) align ∧
    ∃ m, b.bitmap.initializeBitmap
        ((alignUp (addr+size) align - alignDown addr align)/1 <<< bs) = some m ∧
      b' = ⟨m, alignDown addr align, (alignUp (addr+size) align - alignDown addr align)/1 <<< bs,
        bs, nbs⟩ := by
  unfold Block.initializeBlock at hinit
  rw [halign] at hinit
  simp only [bind] at hinit
  by_cases h1 : 2^64 ≤ addr+size
  · rw [if_pos h1] at hinit
    exact absurd hinit (by simp)
  · rw [if_neg h1] at hinit
    by_cases h2 : alignUp (addr+size) align < alignDown addr align
    · rw [if_pos h2] at hinit
      exact absurd hinit (by simp)
    · rw [if_neg h2] at hinit
      cases hm : b.bitmap.initializeBitmap
          ((alignUp (addr+size) align - alignDown addr align)/1 <<< bs) with
      | none =>
        rw [hm] at hinit
        exact absurd hinit (by simp)
      | some m =>
        rw [hm, Option.bind_some] at hinit
        exact ⟨Nat.not_le.mp h1, Nat.not_lt.mp h2, m, rfl, (Option.some.inj hinit).symm⟩

theorem initializeBlock_holds {b b' : Block} {i a e : ℕ} (hi : i < 7) (hae : a < e)
    (hfit : e*pageSize+2^30 ≤ 2^64)
    (hinit : b.initializeBlock (a*pageSize) ((e-a)*pageSize) (shift i) (shift (i+1)) = some b') :
    Holds b' i (Ico a e) ∅ := by
  obtain ⟨_, _, m, hm, rfl⟩ := initializeBlock_eq (align_eq i hi) hinit
  have hw := width_pos i hi
  have hc := perAlign_pos i hi
  have hle := align_le i hi
  have hend : a*pageSize+(e-a)*pageSize = e*pageSize := by
    rw [← Nat.add_mul]
    congr 1
    omega
  have hdown : alignDown (a*pageSize) (perAlign i*width i*pageSize) =
      a/(perAlign i*width i)*perAlign i*(width i*pageSize) := by
    rw [alignDown_mul _ _ _ (by decide)]
    ring
  have hup : alignUp (a*pageSize+(e-a)*pageSize) (perAlign i*width i*pageSize) =
      (e+perAlign i*width i-1)/(perAlign i*width i)*perAlign i*(width i*pageSize) := by
    rw [hend, alignUp_mul _ _ _ (Nat.mul_pos hc hw) (by decide) (by omega)]
    ring
  have hcount : (alignUp (a*pageSize+(e-a)*pageSize) (perAlign i*width i*pageSize) -
      alignDown (a*pageSize) (perAlign i*width i*pageSize))/1 <<< shift i =
      (e+perAlign i*width i-1)/(perAlign i*width i)*perAlign i -
        a/(perAlign i*width i)*perAlign i := by
    rw [hup, hdown, blockSize_eq i hi, ← Nat.sub_mul]
    exact Nat.mul_div_cancel _ (Nat.mul_pos hw (by decide))
  have hreach : ∀ p ∈ Ico a e, a/(perAlign i*width i)*perAlign i ≤ p/width i ∧
      p/width i < (e+perAlign i*width i-1)/(perAlign i*width i)*perAlign i := by
    intro p hp
    rw [mem_Ico] at hp
    constructor
    · rw [← Nat.le_div_iff_mul_le hc, Nat.div_div_eq_div_mul, Nat.mul_comm (width i)]
      exact Nat.div_le_div_right hp.1
    · rw [Nat.div_lt_iff_lt_mul hw, Nat.mul_assoc]
      have h1 := Nat.div_add_mod (e+perAlign i*width i-1) (perAlign i*width i)
      have h2 := Nat.mod_lt (e+perAlign i*width i-1) (Nat.mul_pos hc hw)
      rw [Nat.mul_comm] at h1
      omega
  have hfirst := hreach a (by rw [mem_Ico]; omega)
  rw [hcount] at hm ⊢
  refine ⟨a/(perAlign i*width i)*perAlign i, ∅, ?_, by simp⟩
  constructor
  · rfl
  · rfl
  · rw [blockSize_eq i hi]
    exact hdown
  · intro hi6
    rw [perAlign, if_pos hi6]
    exact Dvd.intro_left _ rfl
  · intro p hp
    have := hreach p hp
    change _ ∧ _ < _+(_-_)
    omega
  · change 0 < _-_
    omega
  · exact initializeBitmap_bits _ _ _ hm

theorem initializeHeap_free {h h' : KPageHeap} {a e : ℕ} (ha : 0 < a) (hae : a < e)
    (hfit : e*pageSize+2^30 ≤ 2^64)
    (hinit : h.initializeHeap (a*pageSize) ((e-a)*pageSize) = some h') : Free h' a e ∅ := by
  obtain ⟨⟨hn, haddr, hsize⟩, hb⟩ := initializeHeap_blocks hinit
  refine ⟨ha, hfit, haddr, hsize, hn, empty_subset _, fun _ => ∅, ?_, covers_empty⟩
  intro i hi
  exact initializeBlock_holds hi hae hfit (hb i hi)

/-- A region too high to round up: the top level has no bits, and freeing panics there. -/
theorem free_wrapped {h h' : KPageHeap} {a e : ℕ} (ha : 0 < a) (hae : a < e)
    (hhigh : 2^64 < e*pageSize+2^30)
    (hinit : h.initializeHeap (a*pageSize) ((e-a)*pageSize) = some h') :
    h'.free (a*pageSize) (e-a) = none := by
  obtain ⟨⟨hn, _, _⟩, hb⟩ := initializeHeap_blocks hinit
  have hend : a*pageSize+(e-a)*pageSize = e*pageSize := by
    rw [← Nat.add_mul]
    congr 1
    omega
  obtain ⟨hlt, hle, m, hm, hb6⟩ := initializeBlock_eq (align_eq 6 (by decide)) (hb 6 (by decide))
  rw [show perAlign 6*width 6*pageSize = 2^30 by decide, hend] at hle hm hb6
  rw [hend] at hlt
  have hwrap : alignUp (e*pageSize) (2^30) = 0 := by
    rw [alignUp, if_neg (by omega)]
    omega
  have hlow : a*pageSize < 2^30 := by
    rw [hwrap, alignDown] at hle
    omega
  have hpos : 0 < a*pageSize := Nat.mul_pos ha (by decide)
  rw [hwrap, Nat.zero_sub, Nat.zero_div] at hm hb6
  have hsize : (h'.blocks 6).getSize = 2^30 := by
    rw [hb6]
    rfl
  have hstop : 2^30 < alignDown (e*pageSize) (2^30) := by
    rw [alignDown]
    omega
  have hfind : h'.findBig (a*pageSize) (e*pageSize) 7 =
      some (some (6, 2^30, alignDown (e*pageSize) (2^30))) := by
    have hup : alignUp (a*pageSize) (2^30) = 2^30 := by
      rw [alignUp, if_neg (by omega)]
      omega
    rw [KPageHeap.findBig, block_eq h' (by decide)]
    simp only [Option.bind_some, bind, hsize, hup]
    rw [if_pos hstop]
  have hset : m.setBit 1 = none := by
    injection hm with hm
    rw [← hm]
    rfl
  have hbase : alignDown (a*pageSize) (2^30) = 0 := by
    rw [alignDown, Nat.mod_eq_of_lt hlow, Nat.sub_self]
  have hpush : (h'.blocks 6).pushBlock (2^30) = none := by
    rw [hb6, hbase]
    exact Block.pushBlock_none _ (Nat.zero_le _) (by decide : (2^30 - 0) >>> shift 6 = 1) hset
  unfold KPageHeap.free
  rw [if_neg (by omega), hn, hend]
  dsimp only
  rw [hfind]
  simp only [Option.bind_some, bind, block_eq h' (by decide : 6 < 7), hsize]
  rw [KPageHeap.freeBigLoop, if_pos hstop, KPageHeap.freeBlock, KPageHeap.freeBlockLoop,
    block_eq h' (by decide : 6 < 7)]
  simp only [Option.bind_some, bind, hpush, Option.bind_none]

end Ruzu.PageHeap
