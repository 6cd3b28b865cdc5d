import Mathlib
import Ruzu.Kernel.PageBitmapOps
import Ruzu.Kernel.PageHeap
import Ruzu.Lib.Buddy

/-!
# The levels of the page heap

A level's bitmap is read as a set of absolute block numbers: block `k` of
level `i` is the run of `width i` pages from page `k * width i` on. Pushing a
block inserts its number and takes its buddies out when all of them are free;
popping one takes a number out.
-/

set_option autoImplicit false

namespace Ruzu.PageHeap
open Ruzu.MemoryBlock (pageSize)
open Ruzu.PageBitmap Ruzu.PageBitmap.KPageBitmap Ruzu.Buddy

def shift (i : ℕ) : ℕ := memoryBlockPageShifts.getD i 0

/-- Pages in a block of level `i`. -/
def width (i : ℕ) : ℕ := KPageHeap.getBlockNumPages i

/-- Blocks of level `i` in one block of the next level. -/
def ratio (i : ℕ) : ℕ := 1 <<< (shift (i+1) - shift i)

theorem blockSize_eq : ∀ i < 7, 1 <<< shift i = width i*pageSize := by decide

theorem width_pos : ∀ i < 7, 0 < width i := by decide

theorem width_zero : width 0 = 1 := by decide

theorem width_le : ∀ i < 7, width i*pageSize ≤ 2^30 := by decide

theorem width_succ : ∀ i < 6, width (i+1) = ratio i*width i := by decide

theorem ratio_bounds : ∀ i < 6, 0 < ratio i ∧ ratio i < 64 ∧ 64 % ratio i = 0 := by decide

theorem next_shift_ne : ∀ i < 7, shift (i+1) ≠ 0 ↔ i < 6 := by decide

theorem shift_page : ∀ i < 7, 12 ≤ shift i := by decide

theorem width_dvd : ∀ j < 7, ∀ i < j, width i ∣ width j := by decide

theorem alignDown_eq (v s : ℕ) : alignDown v s = v/s*s := by
  rw [alignDown]
  have h := Nat.div_add_mod v s
  rw [Nat.mul_comm] at h
  omega

theorem alignDown_mul (v s c : ℕ) (hc : 0 < c) : alignDown (v*c) (s*c) = v/s*s*c := by
  rw [alignDown_eq, Nat.mul_div_mul_right _ _ hc, Nat.mul_assoc]

/-- Without a wrap, rounding up is a ceiling division. -/
theorem alignUp_eq (v s : ℕ) (hs : 0 < s) (h : v+s ≤ 2^64) :
    alignUp v s = (v+s-1)/s*s := by
  rw [alignUp]
  have hdiv := Nat.div_add_mod v s
  have hmod := Nat.mod_lt v hs
  rw [Nat.mul_comm] at hdiv
  by_cases hv : v % s = 0
  · rw [if_pos hv]
    have : (v+s-1)/s = v/s := by
      rw [Nat.div_eq_iff hs]
      omega
    rw [this]
    omega
  · rw [if_neg hv]
    have : (v+s-1)/s = v/s+1 := by
      rw [Nat.div_eq_iff hs, Nat.add_mul]
      omega
    rw [this, Nat.add_mul, Nat.mod_eq_of_lt (by omega)]
    omega

theorem alignUp_mul (v s c : ℕ) (hs : 0 < s) (hc : 0 < c) (h : v*c+s*c ≤ 2^64) :
    alignUp (v*c) (s*c) = (v+s-1)/s*s*c := by
  rw [alignUp_eq _ _ (Nat.mul_pos hs hc) h, ← Nat.mul_assoc]
  congr 2
  have hdiv := Nat.div_add_mod (v+s-1) s
  have hmod := Nat.mod_lt (v+s-1) hs
  rw [Nat.div_eq_iff (Nat.mul_pos hs hc)]
  generalize (v+s-1)/s = q at hdiv
  have h1 : q*(s*c) = s*q*c := by ring
  have h2 : v*c+s*c = (v+s)*c := by ring
  have h3 : (s*q+1)*c ≤ (v+s)*c := Nat.mul_le_mul_right c (by omega)
  have h4 : (v+s)*c ≤ (s*q+s)*c := Nat.mul_le_mul_right c (by omega)
  have h5 : (s*q+1)*c = s*q*c+c := by ring
  have h6 : (s*q+s)*c = s*q*c+s*c := by ring
  omega

/-- Level `i` over the pages `R`: block `first` is the bitmap's first, and `S` what it stores. -/
structure Placed (b : Block) (i : ℕ) (R : Finset ℕ) (first : ℕ) (S : Finset ℕ) : Prop where
  shifted : b.blockShift = shift i
  next : b.nextBlockShift = shift (i+1)
  base : b.heapAddress = first*1 <<< shift i
  aligned : i < 6 → ratio i ∣ first
  reach : ∀ p ∈ R, first ≤ p/width i ∧ p/width i < first+b.endOffset
  nonempty : 0 < b.endOffset
  bits : Bits b.bitmap b.endOffset S

/-- Level `i` holds the blocks `A` as free. -/
def Holds (b : Block) (i : ℕ) (R A : Finset ℕ) : Prop :=
  ∃ first S, Placed b i R first S ∧ A = S.map (addLeftEmbedding first)

theorem Placed.withBitmap {b : Block} {i first : ℕ} {R S T : Finset ℕ} (h : Placed b i R first S)
    (m : KPageBitmap) (hm : Bits m b.endOffset T) :
    Placed { b with bitmap := m } i R first T :=
  ⟨h.shifted, h.next, h.base, h.aligned, h.reach, h.nonempty, hm⟩

theorem Holds.size {b : Block} {i : ℕ} {R A : Finset ℕ} (h : Holds b i R A) (hi : i < 7) :
    b.getSize = width i*pageSize := by
  obtain ⟨first, S, h, _⟩ := h
  rw [Block.getSize, h.shifted, blockSize_eq i hi]

theorem Holds.numPages {b : Block} {i : ℕ} {R A : Finset ℕ} (h : Holds b i R A) (hi : i < 7) :
    b.getNumPages = width i := by
  rw [Block.getNumPages, h.size hi]
  exact Nat.mul_div_cancel _ (by decide)

theorem Holds.numFree {b : Block} {i : ℕ} {R A : Finset ℕ} (h : Holds b i R A) :
    b.getNumFreeBlocks = A.card := by
  obtain ⟨first, S, h, rfl⟩ := h
  rw [Block.getNumFreeBlocks, h.bits.count, Finset.card_map]

theorem Holds.withRng {b : Block} {i : ℕ} {R A : Finset ℕ} (h : Holds b i R A)
    (g : RandomBitGenerator) : Holds { b with bitmap := { b.bitmap with rng := g } } i R A := by
  obtain ⟨first, S, h, hA⟩ := h
  exact ⟨first, S, h.withBitmap _ (h.bits.withRng g), hA⟩

/-- The address of block `k` of level `i`. -/
def addressOf (i k : ℕ) : ℕ := k*width i*pageSize

theorem Placed.offset {b : Block} {i first : ℕ} {R S : Finset ℕ} (h : Placed b i R first S)
    (hi : i < 7) (x : ℕ) :
    b.heapAddress ≤ addressOf i (first+x) ∧
      (addressOf i (first+x)-b.heapAddress) >>> b.blockShift = x ∧
      b.heapAddress+x <<< b.blockShift = addressOf i (first+x) := by
  have haddr : addressOf i (first+x) = b.heapAddress+x*1 <<< shift i := by
    rw [addressOf, h.base, blockSize_eq i hi]
    ring
  refine ⟨by omega, ?_, ?_⟩
  · rw [haddr, Nat.add_sub_cancel_left, h.shifted, Nat.shiftRight_eq_div_pow, Nat.one_shiftLeft]
    exact Nat.mul_div_cancel x (Nat.two_pow_pos _)
  · rw [haddr, h.shifted, Nat.shiftLeft_eq, Nat.one_shiftLeft]

/-- Block `x` relative to a multiple of the ratio lies with its buddies inside one word. -/
theorem buddies_word (i x : ℕ) (hi : i < 6) :
    alignDown x (ratio i) % 64+ratio i ≤ 64 := by
  obtain ⟨hpos, hlt, hdvd⟩ := ratio_bounds i hi
  rw [alignDown_eq]
  obtain ⟨c, hc⟩ := Nat.dvd_of_mod_eq_zero hdvd
  rw [hc, Nat.mul_comm _ (ratio i), Nat.mul_mod_mul_left]
  have hc0 : 0 < c := by
    rcases Nat.eq_zero_or_pos c with rfl | h
    · simp at hc
    · exact h
  have h1 := Nat.mod_lt (x/ratio i) hc0
  have h2 : ratio i*(x/ratio i % c+1) ≤ ratio i*c := Nat.mul_le_mul_left _ (by omega)
  rw [Nat.mul_add, Nat.mul_one] at h2
  exact h2

namespace Block

variable {b : Block} {address x : ℕ} {m m' : KPageBitmap}

theorem pushBlock_top (b : Block) (hle : b.heapAddress ≤ address)
    (hoff : (address-b.heapAddress) >>> b.blockShift = x) (hm : b.bitmap.setBit x = some m)
    (hnext : b.nextBlockShift = 0) : b.pushBlock address = some (0, { b with bitmap := m }) := by
  unfold pushBlock
  rw [if_neg (Nat.not_lt.mpr hle), hoff]
  simp only [hm, Option.bind_some, bind]
  rw [if_neg (by simp [hnext])]

theorem pushBlock_none (b : Block) (hle : b.heapAddress ≤ address)
    (hoff : (address-b.heapAddress) >>> b.blockShift = x) (hm : b.bitmap.setBit x = none) :
    b.pushBlock address = none := by
  unfold pushBlock
  rw [if_neg (Nat.not_lt.mpr hle), hoff]
  simp only [hm, Option.bind_none, bind]

theorem pushBlock_next (b : Block) {cleared : Bool} (hle : b.heapAddress ≤ address)
    (hoff : (address-b.heapAddress) >>> b.blockShift = x) (hm : b.bitmap.setBit x = some m)
    (hnext : b.nextBlockShift ≠ 0)
    (hcl : m.clearRange (alignDown x (1 <<< (b.nextBlockShift - b.blockShift)))
      (1 <<< (b.nextBlockShift - b.blockShift)) = some (cleared, m')) :
    b.pushBlock address =
      some (if cleared then b.heapAddress+
          alignDown x (1 <<< (b.nextBlockShift - b.blockShift)) <<< b.blockShift else 0,
        { b with bitmap := m' }) := by
  unfold pushBlock
  rw [if_neg (Nat.not_lt.mpr hle), hoff]
  simp only [hm, Option.bind_some, bind]
  rw [if_pos hnext, hcl, Option.bind_some]
  cases cleared with
  | true => rfl
  | false => rfl

end Block

theorem pushBlock_holds (b : Block) (i k : ℕ) (hi : i < 7) (R A : Finset ℕ) (h : Holds b i R A)
    (hk : k ∉ A) (hR : ∃ p ∈ R, p/width i = k) :
    (∃ b', b.pushBlock (addressOf i k) = some (0, b') ∧ Holds b' i R (insert k A)) ∨
    (i < 6 ∧ Finset.Ico (k/ratio i*ratio i) (k/ratio i*ratio i+ratio i) ⊆ insert k A ∧
      ∃ b', b.pushBlock (addressOf i k) = some (addressOf (i+1) (k/ratio i), b') ∧
        Holds b' i R (insert k A \
          Finset.Ico (k/ratio i*ratio i) (k/ratio i*ratio i+ratio i))) := by
  obtain ⟨first, S, h, rfl⟩ := h
  obtain ⟨p, hp, hpk⟩ := hR
  have hreach := h.reach p hp
  rw [hpk] at hreach
  obtain ⟨x, rfl⟩ : ∃ x, k = first+x := ⟨k-first, by omega⟩
  have hxS : x ∉ S := fun hx => hk (Finset.mem_map.mpr ⟨x, hx, rfl⟩)
  obtain ⟨m, hm, hbits⟩ := setBit_bits b.bitmap b.endOffset x S h.bits (by omega) hxS
  obtain ⟨hle, hoff, _⟩ := h.offset hi x
  have hins : insert (first+x) (S.map (addLeftEmbedding first)) =
      (insert x S).map (addLeftEmbedding first) := by
    rw [Finset.map_insert]
    rfl
  by_cases hi6 : i < 6
  · have hdiff : 1 <<< (b.nextBlockShift - b.blockShift) = ratio i := by
      rw [h.next, h.shifted, ratio]
    have hnext : b.nextBlockShift ≠ 0 := by
      rw [h.next]
      exact (next_shift_ne i hi).mpr hi6
    obtain ⟨hpos, hlt, _⟩ := ratio_bounds i hi6
    obtain ⟨c, hc⟩ := h.aligned hi6
    have hdown : (first+x)/ratio i*ratio i = first+alignDown x (ratio i) := by
      rw [alignDown_eq, hc, Nat.mul_add_div hpos]
      ring
    have hle' : alignDown x (ratio i) ≤ x := Nat.sub_le _ _
    rw [hdown, Nat.add_assoc, ← Finset.map_add_left_Ico, hins, ← Finset.map_sdiff,
      Finset.map_subset_map]
    rcases clearRange_bits m b.endOffset (alignDown x (ratio i)) (ratio i) (insert x S) hbits hpos
      hlt (buddies_word i x hi6) (by omega) with ⟨_, hcl⟩ | ⟨hsub, m', hcl, hbits'⟩
    · left
      rw [b.pushBlock_next hle hoff hm hnext (by rw [hdiff]; exact hcl)]
      exact ⟨_, rfl, first, _, h.withBitmap m hbits, rfl⟩
    · right
      refine ⟨hi6, hsub, _, ?_, first, _, h.withBitmap m' hbits', rfl⟩
      rw [b.pushBlock_next hle hoff hm hnext (by rw [hdiff]; exact hcl), hdiff, if_pos rfl,
        (h.offset hi _).2.2, addressOf, addressOf, width_succ i hi6, ← hdown, Nat.mul_assoc _ _ (width i)]
  · left
    have hnext : b.nextBlockShift = 0 := by
      rw [h.next]
      by_contra hne
      exact hi6 ((next_shift_ne i hi).mp hne)
    rw [b.pushBlock_top hle hoff hm hnext, hins]
    exact ⟨_, rfl, first, _, h.withBitmap m hbits, rfl⟩

theorem popBlock_holds (b : Block) (i : ℕ) (random : Bool) (hi : i < 7) (R A : Finset ℕ)
    (h : Holds b i R A) :
    (A = ∅ ∧ b.popBlock random = some (0, b)) ∨
    ∃ k ∈ A, ∃ b', b.popBlock random = some (addressOf i k, b') ∧ Holds b' i R (A.erase k) := by
  obtain ⟨first, S, h, rfl⟩ := h
  unfold Block.popBlock
  rcases findFreeBlock_bits b.bitmap random b.endOffset S h.bits h.nonempty with
    ⟨hS, hf⟩ | ⟨x, hx, g, hf⟩
  · left
    rw [hS, hf]
    exact ⟨rfl, rfl⟩
  · right
    obtain ⟨m, hm, hbits⟩ := clearBit_bits _ b.endOffset x S (h.bits.withRng g) hx
    refine ⟨first+x, Finset.mem_map.mpr ⟨x, hx, rfl⟩, { b with bitmap := m }, ?_, first, S.erase x,
      h.withBitmap m hbits, ?_⟩
    · rw [hf]
      simp only [Option.bind_some, bind, hm, (h.offset hi x).2.2]
    · rw [Finset.map_erase]
      rfl

end Ruzu.PageHeap
