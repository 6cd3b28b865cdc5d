import Ruzu.Kernel.PageBitmapBits

/-!
# The page bitmap's operations on the stored set

`initialize` stores nothing, `set_bit` and `clear_bit` add and remove one
offset, `clear_range` removes a range that is wholly stored, and
`find_free_block` returns a stored offset unless there is none.
-/

set_option autoImplicit false

namespace Ruzu.PageBitmap.KPageBitmap

theorem Bits.split {b : KPageBitmap} {size : ℕ} {S : Finset ℕ} (h : Bits b size S)
    (T : Finset ℕ) : Split b b.usedDepths S T :=
  ⟨h.stores, fun _ h1 h2 => absurd h2 (by omega)⟩

theorem Stores.counted {b : KPageBitmap} {d : ℕ} {S : Finset ℕ} (h : Stores b d S) (n : ℕ) :
    Stores { b with numBits := n } d S := h

theorem Sized.counted {b : KPageBitmap} {size : ℕ} (h : Sized b size) (n : ℕ) :
    Sized { b with numBits := n } size :=
  ⟨h.pos, h.depth, h.bound, h.lengths⟩

theorem Bits.withRng {b : KPageBitmap} {size : ℕ} {S : Finset ℕ} (h : Bits b size S)
    (g : RandomBitGenerator) : Bits { b with rng := g } size S :=
  ⟨⟨h.sized.pos, h.sized.depth, h.sized.bound, h.sized.lengths⟩, h.below, h.stores, h.count⟩

/-- A finished loop, with the count set to the new cardinality. -/
theorem bits_of_split {b b' : KPageBitmap} {size n : ℕ} {S T : Finset ℕ} (h : Sized b size)
    (hsh : Shaped b b') (hsp : Split b' 0 S T) (hT : ∀ x ∈ T, x < size) (hn : n = T.card) :
    Bits { b' with numBits := n } size T := by
  constructor
  · exact (h.shaped hsh).counted n
  · exact hT
  · intro d hd
    exact (hsp.2 d (Nat.zero_le d) hd).counted n
  · exact hn

theorem setBit_bits (b : KPageBitmap) (size x : ℕ) (S : Finset ℕ) (h : Bits b size S)
    (hx : x < size) (hxS : x ∉ S) :
    ∃ b', b.setBit x = some b' ∧ Bits b' size (insert x S) := by
  have hoff : b.usedDepths ≠ 0 → x / 64 ^ (b.usedDepths - b.usedDepths) = x := by
    intro _
    simp
  obtain ⟨b', hb', hsh, _, hsp⟩ := setBitAtDepth_spec size x hx S b.usedDepths x b h.sized
    le_rfl hoff (h.split _)
  refine ⟨{ b' with numBits := b'.numBits + 1 }, by simp [setBit, hb'], ?_⟩
  apply bits_of_split h.sized hsh hsp
  · intro y hy
    rcases Finset.mem_insert.mp hy with rfl | hy
    · exact hx
    · exact h.below y hy
  · rw [Finset.card_insert_of_notMem hxS, hsh.numBits, h.count]

theorem clearBit_bits (b : KPageBitmap) (size x : ℕ) (S : Finset ℕ) (h : Bits b size S)
    (hxS : x ∈ S) : ∃ b', b.clearBit x = some b' ∧ Bits b' size (S.erase x) := by
  have hx := h.below x hxS
  have hdiv : ∀ y : ℕ, y / 64 ^ (b.usedDepths - b.usedDepths) = y := by
    intro y
    simp
  obtain ⟨b', hb', hsh, _, hsp⟩ := clearBitAtDepth_spec size x hx S (S.erase x)
    (Finset.erase_subset x S) b.usedDepths x b h.sized le_rfl (fun _ => hdiv x)
    (by
      intro _ y hy hyn
      rw [hdiv]
      by_contra hne
      exact hyn (Finset.mem_erase.mpr ⟨hne, hy⟩))
    (by
      intro _ y hy
      rw [hdiv]
      exact Finset.ne_of_mem_erase hy) (h.split _)
  refine ⟨{ b' with numBits := b'.numBits - 1 }, by simp [clearBit, hb'], ?_⟩
  apply bits_of_split h.sized hsh hsp
  · intro y hy
    exact h.below y (Finset.mem_of_mem_erase hy)
  · rw [Finset.card_erase_of_mem hxS, hsh.numBits, h.count]

/-- The word of the leaves that a short range lies in. -/
theorem leaf_word (b : KPageBitmap) (size x : ℕ) (S : Finset ℕ) (h : Bits b size S)
    (hx : x < size) :
    x / 64 < (b.bitStorages (b.usedDepths - 1)).length ∧
      ∃ v, b.word (b.usedDepths - 1) (x / 64) = some v ∧
        ∀ j, j / 64 = x / 64 → (v.getLsbD (j % 64) = true ↔ j ∈ S) := by
  have hpos := h.sized.pos
  have hl := h.sized.lengths (b.usedDepths - 1) (by omega) x hx
  rw [show b.usedDepths - (b.usedDepths - 1) = 1 by omega, pow_one] at hl
  have hd : b.usedDepths - 1 < maxDepth := lt_of_lt_of_le (by omega) h.sized.depth
  obtain ⟨v, hw, hv⟩ := word_eq b _ _ hd hl
  refine ⟨hl, v, hw, ?_⟩
  intro j hj
  rw [← hv j hj, h.stores _ (by omega) j]
  simp

theorem range_mem (offset count : ℕ) (h : offset % 64 + count ≤ 64) (j : ℕ) :
    j ∈ Finset.Ico offset (offset + count) ↔
      j / 64 = offset / 64 ∧ offset % 64 ≤ j % 64 ∧ j % 64 < offset % 64 + count := by
  rw [Finset.mem_Ico]
  omega

/-- The last step of `clear_range` on a short range that is wholly stored. -/
theorem clearRange_word (b : KPageBitmap) (size offset count : ℕ) (S : Finset ℕ)
    (h : Bits b size S) (hc : 0 < count) (hw : offset % 64 + count ≤ 64) (hsz : offset < size)
    (hsub : Finset.Ico offset (offset + count) ⊆ S) (v w : BitVec 64)
    (hv : ∀ j, j / 64 = offset / 64 → (v.getLsbD (j % 64) = true ↔ j ∈ S))
    (hwv : ∀ i < 64, w.getLsbD i =
      (v.getLsbD i && !decide (offset % 64 ≤ i ∧ i < offset % 64 + count)))
    (hl : offset / 64 < (b.bitStorages (b.usedDepths - 1)).length) :
    ∃ b', (if w = 0 then clearBitAtDepth (b.usedDepths - 1) (offset / 64)
        (b.setWord (b.usedDepths - 1) (offset / 64) w)
      else some (b.setWord (b.usedDepths - 1) (offset / 64) w)) = some b' ∧
      Bits { b' with numBits := b'.numBits - count } size
        (S \ Finset.Ico offset (offset + count)) := by
  obtain ⟨D, hD⟩ : ∃ D, b.usedDepths = D + 1 := ⟨b.usedDepths - 1, by have := h.sized.pos; omega⟩
  have hlast : b.usedDepths - 1 = D := by omega
  have hone : b.usedDepths - D = 1 := by omega
  rw [hlast] at hl ⊢
  generalize hT : S \ Finset.Ico offset (offset + count) = T
  have hTS : T ⊆ S := by
    rw [← hT]
    exact Finset.sdiff_subset
  have hmem : ∀ j, j ∈ T ↔ j ∈ S ∧ j ∉ Finset.Ico offset (offset + count) := by
    intro j
    rw [← hT, Finset.mem_sdiff]
  have hword : ∀ j, j / 64 = offset / 64 → (w.getLsbD (j % 64) = true ↔ j ∈ T) := by
    intro j hj
    rw [hwv (j % 64) (by omega), hmem, range_mem offset count hw, Bool.and_eq_true, hv j hj,
      Bool.not_eq_true', decide_eq_false_iff_not]
    simp only [hj, true_and]
  have hleaf : Stores (b.setWord D (offset / 64) w) D T := by
    intro j
    change _ ↔ ∃ y ∈ T, y / 64 ^ (b.usedDepths - 1 - D) = j
    rw [bit_setWord b D _ D j w hl, show b.usedDepths - 1 - D = 0 by omega]
    simp only [pow_zero, Nat.div_one, exists_eq_right, true_and]
    by_cases hj : j / 64 = offset / 64
    · rw [if_pos hj, hword j hj]
    · rw [if_neg hj, h.stores D (by omega) j, show b.usedDepths - 1 - D = 0 by omega]
      simp only [pow_zero, Nat.div_one, exists_eq_right]
      rw [hmem, range_mem offset count hw]
      simp [hj]
  have hfull : Split b (D + 1) S T := by
    have := h.split T
    rwa [hD] at this
  have hsp : Split (b.setWord D (offset / 64) w) D S T :=
    split_setWord b D _ w S T hfull hl hleaf
  have hshape := setWord_shaped b D (offset / 64) w
  have hout : ∀ y ∈ S, y ∉ T → y / 64 = offset / 64 := by
    intro y hy hyT
    have hr : y ∈ Finset.Ico offset (offset + count) := by
      by_contra hn
      exact hyT ((hmem y).mpr ⟨hy, hn⟩)
    exact ((range_mem offset count hw y).mp hr).1
  have hcard : b.numBits - count = T.card := by
    rw [← hT, Finset.card_sdiff_of_subset hsub, Nat.card_Ico, h.count]
    omega
  have hbelow : ∀ y ∈ T, y < size := fun y hy => h.below y (hTS hy)
  by_cases hw0 : w = 0
  · obtain ⟨b', hb', hsh, _, hsp'⟩ := clearBitAtDepth_spec size offset hsz S T hTS D (offset / 64)
      (b.setWord D (offset / 64) w) (h.sized.shaped hshape) (by change D ≤ b.usedDepths; omega)
      (by
        intro _
        change offset / 64 ^ (b.usedDepths - D) = _
        rw [hone, pow_one])
      (by
        intro _ y hy hyT
        change y / 64 ^ (b.usedDepths - D) = _
        rw [hone, pow_one]
        exact hout y hy hyT)
      (by
        intro _ y hy
        change y / 64 ^ (b.usedDepths - D) ≠ _
        rw [hone, pow_one]
        intro hyo
        have := (hword y hyo).mpr hy
        rw [hw0] at this
        simp at this) hsp
    refine ⟨b', by rw [if_pos hw0, hb'], ?_⟩
    apply bits_of_split h.sized (hshape.trans hsh) hsp' hbelow
    rw [(hshape.trans hsh).numBits, hcard]
  · refine ⟨_, if_neg hw0, ?_⟩
    apply bits_of_split (S := S) h.sized hshape _ hbelow hcard
    -- some offset of the word stays stored, and answers for the cleared ones above
    obtain ⟨k, hk, hwk⟩ := (ne_zero_iff w).mp hw0
    have hkT : offset / 64 * 64 + k ∈ T := by
      rw [← hword _ (by omega), show (offset / 64 * 64 + k) % 64 = k by omega]
      exact hwk
    apply split_stop _ D S T hsp (by change D ≤ b.usedDepths; omega)
    · intro y hy
      change ∃ z ∈ T, y / 64 ^ (b.usedDepths - D) = z / 64 ^ (b.usedDepths - D)
      rw [hone, pow_one]
      by_cases hyT : y ∈ T
      · exact ⟨y, hyT, rfl⟩
      · exact ⟨_, hkT, by rw [hout y hy hyT]; omega⟩
    · intro y hy
      exact ⟨y, hTS hy, rfl⟩

/-- A range inside one word is cleared when it is wholly stored, and kept otherwise. -/
theorem clearRange_bits (b : KPageBitmap) (size offset count : ℕ) (S : Finset ℕ)
    (h : Bits b size S) (hc : 0 < count) (hlt : count < 64) (hw : offset % 64 + count ≤ 64)
    (hsz : offset / 64 * 64 < size) :
    (¬ Finset.Ico offset (offset + count) ⊆ S ∧ b.clearRange offset count = some (false, b)) ∨
    (Finset.Ico offset (offset + count) ⊆ S ∧ ∃ b', b.clearRange offset count = some (true, b') ∧
      Bits b' size (S \ Finset.Ico offset (offset + count))) := by
  obtain ⟨hl, v, hword, hv⟩ := leaf_word b size (offset / 64 * 64) S h hsz
  rw [Nat.mul_div_cancel _ (by decide)] at hl hword hv
  generalize hm : (((1 : BitVec 64) <<< count) - 1) <<< (offset % 64) = mask
  have hmask : ∀ i, mask.getLsbD i =
      decide (offset % 64 ≤ i ∧ i < offset % 64 + count) := by
    intro i
    rw [← hm, getLsbD_rangeMask count (offset % 64) i hlt (by omega)]
  have hiff : v &&& mask = mask ↔ Finset.Ico offset (offset + count) ⊆ S := by
    constructor
    · intro hvm j hj
      obtain ⟨hj1, hj2⟩ := (range_mem offset count hw j).mp hj
      rw [← hv j hj1]
      have hb := congrArg (fun u : BitVec 64 => u.getLsbD (j % 64)) hvm
      simp only [BitVec.getLsbD_and, hmask, hj2] at hb
      simpa using hb
    · intro hsub
      apply BitVec.eq_of_getLsbD_eq
      intro i hi
      rw [BitVec.getLsbD_and, hmask]
      by_cases hr : offset % 64 ≤ i ∧ i < offset % 64 + count
      · have hj : offset / 64 * 64 + i ∈ Finset.Ico offset (offset + count) := by
          rw [range_mem offset count hw]
          omega
        have hvi := (hv _ (by omega)).mpr (hsub hj)
        rw [show (offset / 64 * 64 + i) % 64 = i by omega] at hvi
        rw [hvi, Bool.true_and]
      · rw [decide_eq_false hr, Bool.and_false]
  by_cases hsub : Finset.Ico offset (offset + count) ⊆ S
  · right
    refine ⟨hsub, ?_⟩
    have hin : offset < size := h.below _ (hsub (Finset.mem_Ico.mpr ⟨le_rfl, by omega⟩))
    obtain ⟨b', hb', hbits⟩ := clearRange_word b size offset count S h hc hw hin hsub v
      (v &&& ~~~mask) hv (by
        intro i hi
        rw [BitVec.getLsbD_and, BitVec.getLsbD_not, hmask]
        simp [hi]) hl
    refine ⟨{ b' with numBits := b'.numBits - count }, ?_, hbits⟩
    unfold clearRange
    dsimp only
    rw [if_pos (show count < bitsPerU64 from hlt)]
    simp only [bitsPerU64, hword, hm, Option.bind_some, bind]
    rw [if_neg (not_not_intro (hiff.mpr hsub))]
    by_cases hw0 : v &&& ~~~mask = 0
    · rw [if_pos hw0] at hb' ⊢
      rw [hb', Option.bind_some]
    · rw [if_neg hw0] at hb' ⊢
      rw [← Option.some.inj hb']
  · left
    refine ⟨hsub, ?_⟩
    unfold clearRange
    dsimp only
    rw [if_pos (show count < bitsPerU64 from hlt)]
    simp only [bitsPerU64, hword, hm, Option.bind_some, bind]
    rw [if_pos (fun hvm => hsub (hiff.mp hvm))]

theorem findFreeBlockLoop_bits (random : Bool) (size : ℕ) (S : Finset ℕ) (fuel : ℕ) :
    ∀ (d offset : ℕ) (b : KPageBitmap), Bits b size S → d < b.usedDepths →
      b.usedDepths - d ≤ fuel → (∃ x ∈ S, x / 64 ^ (b.usedDepths - d) = offset) →
      ∃ x ∈ S, ∃ g, findFreeBlockLoop random fuel d offset b =
        some (some x, { b with rng := g }) := by
  induction fuel with
  | zero =>
    intro d offset b _ hd hf
    omega
  | succ fuel ih =>
    intro d offset b h hd hf hx
    obtain ⟨x, hxS, hxo⟩ := hx
    have hl := h.sized.lengths d hd x (h.below x hxS)
    rw [hxo] at hl
    obtain ⟨v, hw, hv⟩ := word_eq b d offset (lt_of_lt_of_le hd h.sized.depth) hl
    have hk : b.usedDepths - d = b.usedDepths - 1 - d + 1 := by omega
    have hup : x / 64 ^ (b.usedDepths - 1 - d) / 64 = offset := by
      rw [← div_pow_succ, ← hk, hxo]
    have hv0 : v ≠ 0 := by
      rw [ne_zero_iff]
      refine ⟨x / 64 ^ (b.usedDepths - 1 - d) % 64, Nat.mod_lt _ (by omega), ?_⟩
      rw [← hv _ hup, h.stores d hd]
      exact ⟨x, hxS, rfl⟩
    have hsel := b.selectBit_spec random v hv0
    obtain ⟨g, hg⟩ := b.selectBit_same random v
    obtain ⟨k, hkeq⟩ : ∃ k, (b.selectBit random v).1 = k := ⟨_, rfl⟩
    rw [hkeq] at hsel
    have hk64 : k < 64 := by
      by_contra hge
      rw [BitVec.getLsbD_of_ge _ _ (by omega)] at hsel
      exact Bool.noConfusion hsel
    obtain ⟨y, hyS, hy⟩ := (h.stores d hd (offset * 64 + k)).mp (by
      rw [hv _ (by omega), show (offset * 64 + k) % 64 = k by omega]
      exact hsel)
    rw [findFreeBlockLoop]
    simp only [hw, Option.bind_some, if_neg hv0, hkeq, hg, bitsPerU64, bind]
    by_cases hlast : b.usedDepths ≤ d + 1
    · refine ⟨y, hyS, g, ?_⟩
      rw [show b.usedDepths - 1 - d = 0 by omega, pow_zero, Nat.div_one] at hy
      rw [if_pos hlast, hy]
    · rw [if_neg hlast]
      exact ih (d + 1) (offset * 64 + k) { b with rng := g } (h.withRng g)
        (by change d + 1 < b.usedDepths; omega) (by change b.usedDepths - (d + 1) ≤ fuel; omega)
        ⟨y, hyS, by
          change y / 64 ^ (b.usedDepths - (d + 1)) = _
          rw [show b.usedDepths - (d + 1) = b.usedDepths - 1 - d by omega, hy]⟩

/-- The search returns a stored offset, or -1 exactly when nothing is stored. -/
theorem findFreeBlock_bits (b : KPageBitmap) (random : Bool) (size : ℕ) (S : Finset ℕ)
    (h : Bits b size S) (hsz : 0 < size) :
    (S = ∅ ∧ b.findFreeBlock random = some (none, b)) ∨
      ∃ x ∈ S, ∃ g, b.findFreeBlock random = some (some x, { b with rng := g }) := by
  have hpos := h.sized.pos
  by_cases hS : S = ∅
  · left
    refine ⟨hS, ?_⟩
    have hl := h.sized.lengths 0 hpos 0 hsz
    rw [Nat.zero_div] at hl
    obtain ⟨v, hw, hv⟩ := word_eq b 0 0 (by simp [maxDepth]) hl
    have hv0 : v = 0 := by
      by_contra hne
      obtain ⟨k, hk, hvk⟩ := (ne_zero_iff v).mp hne
      have hbit : b.bit 0 k = true := by
        rw [hv k (by omega), Nat.mod_eq_of_lt hk, hvk]
      obtain ⟨x, hx, _⟩ := (h.stores 0 hpos k).mp hbit
      rw [hS] at hx
      exact Finset.notMem_empty x hx
    unfold findFreeBlock
    rw [maxDepth, findFreeBlockLoop]
    simp [hw, hv0]
  · right
    obtain ⟨x, hx⟩ := Finset.nonempty_iff_ne_empty.mpr hS
    have hlt : x < 64 ^ b.usedDepths := lt_of_lt_of_le (h.below x hx) h.sized.bound
    exact findFreeBlockLoop_bits random size S maxDepth 0 0 b h hpos
      (by have := h.sized.depth; omega) ⟨x, hx, by rw [Nat.sub_zero, Nat.div_eq_of_lt hlt]⟩

theorem getRequiredDepthLoop_spec (fuel : ℕ) : ∀ (r depth : ℕ), r < fuel →
    ∃ k, 0 < k ∧ getRequiredDepthLoop fuel r depth = depth + k ∧ r < 64 ^ k := by
  induction fuel with
  | zero =>
    intro r depth h
    omega
  | succ fuel ih =>
    intro r depth h
    rw [getRequiredDepthLoop]
    by_cases hr : r / bitsPerU64 = 0
    · refine ⟨1, by omega, by rw [if_pos hr], ?_⟩
      rw [bitsPerU64] at hr
      omega
    · have hlt : r / bitsPerU64 < fuel := by
        rw [bitsPerU64] at hr ⊢
        omega
      obtain ⟨k, _, hk, hb⟩ := ih (r / bitsPerU64) (depth + 1) hlt
      refine ⟨k + 1, by omega, by rw [if_neg hr, hk]; omega, ?_⟩
      rw [bitsPerU64] at hb
      rw [pow_succ]
      omega

theorem initializeStorages_spec (n : ℕ) : ∀ (size : ℕ) (st : ℕ → List (BitVec 64)),
    (∀ d < n, ∀ x < size, x / 64 ^ (n - d) < (initializeStorages n size st d).length) ∧
    (∀ d < n, ∀ v ∈ initializeStorages n size st d, v = 0) ∧
    ∀ d, n ≤ d → initializeStorages n size st d = st d := by
  induction n with
  | zero =>
    intro size st
    exact ⟨fun _ h => absurd h (by omega), fun _ h => absurd h (by omega), fun _ _ => rfl⟩
  | succ n ih =>
    intro size st
    rw [initializeStorages, bitsPerU64]
    generalize hc : (size + 64 - 1) / 64 = cur
    obtain ⟨h1, h2, h3⟩ := ih cur (Function.update st n (List.replicate cur 0))
    have hlast := h3 n le_rfl
    rw [Function.update_self] at hlast
    have hdown : ∀ x < size, x / 64 < cur := by
      intro x hx
      omega
    refine ⟨?_, ?_, ?_⟩
    · intro d hd x hx
      by_cases hdn : d = n
      · subst hdn
        rw [hlast, List.length_replicate, show d + 1 - d = 1 by omega, pow_one]
        exact hdown x hx
      · have := h1 d (by omega) (x / 64) (hdown x hx)
        rwa [Nat.div_div_eq_div_mul, ← pow_succ', show n - d + 1 = n + 1 - d by omega] at this
    · intro d hd v hv
      by_cases hdn : d = n
      · subst hdn
        rw [hlast] at hv
        exact List.eq_of_mem_replicate hv
      · exact h2 d (by omega) v hv
    · intro d hd
      rw [h3 d (by omega), Function.update_of_ne (by omega)]

theorem initializeBitmap_bits (b b' : KPageBitmap) (size : ℕ)
    (h : b.initializeBitmap size = some b') : Bits b' size ∅ := by
  obtain ⟨k, hk0, hk, hlt⟩ := getRequiredDepthLoop_spec (size + 1) size 0 (Nat.lt_succ_self size)
  unfold initializeBitmap at h
  rw [getRequiredDepth, hk, Nat.zero_add] at h
  dsimp only at h
  split at h
  · exact absurd h (by simp)
  · rename_i hle
    obtain ⟨h1, h2, _⟩ := initializeStorages_spec k size b.bitStorages
    injection h with h
    subst h
    constructor
    · exact ⟨hk0, Nat.le_of_not_lt hle, Nat.le_of_lt hlt, h1⟩
    · intro x hx
      exact absurd hx (Finset.notMem_empty x)
    · intro d hd j
      simp only [Finset.notMem_empty, false_and, exists_false, iff_false, Bool.not_eq_true]
      unfold bit
      cases hg : (initializeStorages k size b.bitStorages d)[j / 64]? with
      | none => simp
      | some v =>
        have hv := h2 d hd v (List.mem_of_getElem? hg)
        simp [hv]
    · rfl

end Ruzu.PageBitmap.KPageBitmap
