import Ruzu.Kernel.PageBitmapOps

/-!
# Runs of the page bitmap

The bulk path of `clear_range` word by word, `find_free_range` as a search
that has seen a set of options so far, and the bitmap over runs of calls.
-/

set_option autoImplicit false

namespace Ruzu.PageBitmap.KPageBitmap

/-! ### Whole words -/

theorem clearBitAtDepth_counted (n : ℕ) (count offset : ℕ) (b : KPageBitmap) :
    clearBitAtDepth n offset { b with numBits := count } =
      (clearBitAtDepth n offset b).map fun b => { b with numBits := count } := by
  induction n generalizing offset b with
  | zero => rfl
  | succ n ih =>
    rw [clearBitAtDepth, clearBitAtDepth]
    have hword : word { b with numBits := count } n (offset / bitsPerU64) =
        b.word n (offset / bitsPerU64) := rfl
    rw [hword]
    cases b.word n (offset / bitsPerU64) with
    | none => rfl
    | some v =>
      simp only [bind, Option.bind_some]
      split
      · rfl
      · exact ih _ (b.setWord n (offset / bitsPerU64) _)

theorem clearBitAtDepth_shaped {n offset : ℕ} {b b' : KPageBitmap}
    (h : clearBitAtDepth n offset b = some b') : Shaped b b' := by
  induction n generalizing offset b with
  | zero =>
    cases h
    exact Shaped.refl _
  | succ n ih =>
    rw [clearBitAtDepth] at h
    obtain ⟨v, -, h⟩ := Option.bind_eq_some_iff.mp h
    dsimp only at h
    split at h
    · rw [← Option.some.inj h]
      exact setWord_shaped b n _ _
    · exact (setWord_shaped b n _ _).trans (ih h)

theorem clearWords_counted (depth words ind count : ℕ) (b : KPageBitmap) :
    clearWords depth ind words { b with numBits := count } =
      (clearWords depth ind words b).map fun b => { b with numBits := count } := by
  induction words generalizing ind b with
  | zero => rfl
  | succ words ih =>
    rw [clearWords, clearWords]
    have hword : word { b with numBits := count } depth ind = b.word depth ind := rfl
    have hset : setWord { b with numBits := count } depth ind 0 =
      { b.setWord depth ind 0 with numBits := count } := rfl
    rw [hword, hset, clearBitAtDepth_counted]
    cases b.word depth ind with
    | none => rfl
    | some v =>
      simp only [bind, Option.bind_some]
      cases clearBitAtDepth depth ind (b.setWord depth ind 0) with
      | none => rfl
      | some b' => exact ih _ _

theorem clearWords_numBits {depth words ind : ℕ} {b b' : KPageBitmap}
    (h : clearWords depth ind words b = some b') : b'.numBits = b.numBits := by
  induction words generalizing ind b with
  | zero =>
    cases h
    rfl
  | succ words ih =>
    rw [clearWords] at h
    obtain ⟨v, -, h⟩ := Option.bind_eq_some_iff.mp h
    obtain ⟨b₁, hb₁, h⟩ := Option.bind_eq_some_iff.mp h
    exact (ih h).trans (clearBitAtDepth_shaped hb₁).numBits

theorem ico_words (ind words : ℕ) :
    Finset.Ico (64 * ind) (64 * ind + 64 * (words + 1)) =
      Finset.Ico (64 * ind) (64 * ind + 64) ∪
        Finset.Ico (64 * (ind + 1)) (64 * (ind + 1) + 64 * words) := by
  ext x
  simp only [Finset.mem_union, Finset.mem_Ico]
  omega

/-- The check of the bulk path: all words are full exactly when all their offsets are stored. -/
theorem allFull_eq (b : KPageBitmap) (size : ℕ) (S : Finset ℕ) (h : Bits b size S) (words : ℕ) :
    ∀ ind, (words ≠ 0 → 64 * (ind + words - 1) < size) →
      b.allFull (b.usedDepths - 1) ind words =
        some (decide (Finset.Ico (64 * ind) (64 * ind + 64 * words) ⊆ S)) := by
  induction words with
  | zero =>
    intro ind _
    simp [allFull]
  | succ words ih =>
    intro ind hin
    have hlast := hin (Nat.succ_ne_zero words)
    obtain ⟨-, v, hword, hv⟩ := leaf_word b size (64 * ind) S h (by omega)
    rw [show 64 * ind / 64 = ind by omega] at hword hv
    have hfull : v = BitVec.allOnes 64 ↔ Finset.Ico (64 * ind) (64 * ind + 64) ⊆ S := by
      constructor
      · intro hones x hx
        rw [Finset.mem_Ico] at hx
        rw [← hv x (by omega), hones, BitVec.getLsbD_allOnes]
        exact decide_eq_true (by omega)
      · intro hsub
        apply BitVec.eq_of_getLsbD_eq
        intro i hi
        have hvi := (hv (64 * ind + i) (by omega)).mpr
          (hsub (Finset.mem_Ico.mpr ⟨by omega, by omega⟩))
        rw [show (64 * ind + i) % 64 = i by omega] at hvi
        rw [hvi, BitVec.getLsbD_allOnes, decide_eq_true hi]
    rw [allFull, hword, ico_words]
    simp only [bind, Option.bind_some, Finset.union_subset_iff]
    by_cases hones : v = BitVec.allOnes 64
    · rw [if_neg (not_not_intro hones), ih (ind + 1) (by omega)]
      simp only [hfull.mp hones, true_and]
    · rw [if_pos hones]
      simp only [mt hfull.mpr hones, false_and, decide_false]

/-- A full word set to zero, with its summary bits. -/
theorem clearWords_bits (size words : ℕ) :
    ∀ (ind : ℕ) (b : KPageBitmap) (S : Finset ℕ), Bits b size S →
      Finset.Ico (64 * ind) (64 * ind + 64 * words) ⊆ S →
      ∃ b', clearWords (b.usedDepths - 1) ind words b = some b' ∧
        Bits { b' with numBits := b.numBits - 64 * words } size
          (S \ Finset.Ico (64 * ind) (64 * ind + 64 * words)) := by
  induction words with
  | zero =>
    intro ind b S h _
    refine ⟨b, rfl, ?_⟩
    rw [Nat.mul_zero, Nat.add_zero, Finset.Ico_self, Finset.sdiff_empty, Nat.sub_zero]
    exact h
  | succ words ih =>
    intro ind b S h hsub
    rw [ico_words] at hsub ⊢
    obtain ⟨hfirst, hrest⟩ := Finset.union_subset_iff.mp hsub
    have hlow : 64 * ind < size := h.below _ (hfirst (Finset.mem_Ico.mpr ⟨le_rfl, by omega⟩))
    obtain ⟨hl, v, hword, hv⟩ := leaf_word b size (64 * ind) S h hlow
    have hmod : 64 * ind % 64 = 0 := by omega
    have hdiv : 64 * ind / 64 = ind := by omega
    obtain ⟨b₁, hb₁, hbits⟩ := clearRange_word b size (64 * ind) 64 S h (by omega) (by omega) hlow
      hfirst v 0 hv (by
        intro i hi
        rw [hmod, decide_eq_true ⟨Nat.zero_le i, by omega⟩, Bool.not_true, Bool.and_false]
        exact BitVec.getLsbD_zero) hl
    rw [if_pos rfl, hdiv] at hb₁
    rw [hdiv] at hword
    have hshape := (setWord_shaped b (b.usedDepths - 1) ind 0).trans (clearBitAtDepth_shaped hb₁)
    have hdisj : Finset.Ico (64 * (ind + 1)) (64 * (ind + 1) + 64 * words) ⊆
        S \ Finset.Ico (64 * ind) (64 * ind + 64) := by
      intro x hx
      refine Finset.mem_sdiff.mpr ⟨hrest hx, ?_⟩
      rw [Finset.mem_Ico] at hx ⊢
      omega
    obtain ⟨b', hb', hbits'⟩ := ih (ind + 1) _ _ hbits hdisj
    dsimp only at hb' hbits'
    rw [clearWords_counted] at hb'
    obtain ⟨b₂, hb₂, rfl⟩ := Option.map_eq_some_iff.mp hb'
    rw [hshape.used] at hb₂
    refine ⟨b₂, ?_, ?_⟩
    · rw [clearWords, hword]
      simp only [bind, Option.bind_some]
      rw [hb₁, Option.bind_some, hb₂]
    · rw [Finset.sdiff_union_distrib, ← Finset.sdiff_sdiff_left']
      rw [hshape.numBits, show b.numBits - 64 - 64 * words = b.numBits - 64 * (words + 1) by omega] at hbits'
      exact hbits'

/-! ### Ranges -/

/-- The ranges that `clear_range` is written for: inside one word, or whole words. -/
def RangeShape (offset count : ℕ) : Prop :=
  count < 64 ∧ offset % 64 + count ≤ 64 ∨ offset % 64 = 0 ∧ count % 64 = 0

theorem clearRange_spec (b : KPageBitmap) (size offset count : ℕ) (S : Finset ℕ)
    (h : Bits b size S) (hc : 0 < count) (hshape : RangeShape offset count)
    (hin : offset + count ≤ 64 * ((size + 63) / 64)) :
    (¬ Finset.Ico offset (offset + count) ⊆ S ∧ b.clearRange offset count = some (false, b)) ∨
    (Finset.Ico offset (offset + count) ⊆ S ∧ ∃ b', b.clearRange offset count = some (true, b') ∧
      Bits b' size (S \ Finset.Ico offset (offset + count))) := by
  by_cases hlt : count < 64
  · apply clearRange_bits b size offset count S h hc hlt
    · rcases hshape with ⟨-, hw⟩ | ⟨-, hcount⟩
      · exact hw
      · omega
    · omega
  · obtain ⟨hoff, hcount⟩ : offset % 64 = 0 ∧ count % 64 = 0 := by
      rcases hshape with ⟨hsmall, -⟩ | hwhole
      · exact absurd hsmall hlt
      · exact hwhole
    obtain ⟨ind, rfl⟩ : ∃ ind, offset = 64 * ind := ⟨offset / 64, by omega⟩
    obtain ⟨words, rfl⟩ : ∃ words, count = 64 * words := ⟨count / 64, by omega⟩
    have hind : 64 * ind / bitsPerU64 = ind := by
      rw [bitsPerU64]
      omega
    have hwords : 64 * words / bitsPerU64 = words := by
      rw [bitsPerU64]
      omega
    have hfull := allFull_eq b size S h words ind (by omega)
    have hpath : b.clearRange (64 * ind) (64 * words) =
        if Finset.Ico (64 * ind) (64 * ind + 64 * words) ⊆ S then
          (clearWords (b.usedDepths - 1) ind words b).map fun b =>
            (true, { b with numBits := b.numBits - 64 * words })
        else some (false, b) := by
      unfold clearRange
      dsimp only
      rw [if_neg (show ¬ 64 * words < bitsPerU64 from hlt), hind, hwords, hfull]
      simp only [bind, Option.bind_some, decide_eq_true_eq]
      split
      · cases clearWords (b.usedDepths - 1) ind words b <;> rfl
      · rfl
    by_cases hsub : Finset.Ico (64 * ind) (64 * ind + 64 * words) ⊆ S
    · right
      obtain ⟨b', hb', hbits⟩ := clearWords_bits size words ind b S h hsub
      have hcounted : b'.numBits = b.numBits := clearWords_numBits hb'
      refine ⟨hsub, { b' with numBits := b'.numBits - 64 * words }, ?_, ?_⟩
      · rw [hpath, if_pos hsub, hb', Option.map_some]
      · rw [hcounted]
        exact hbits
    · left
      exact ⟨hsub, by rw [hpath, if_neg hsub]⟩

/-! ### Searching a range -/

/-- `count` stored offsets inside one word, from a multiple of `count` on. -/
def FreeRange (S : Finset ℕ) (count o : ℕ) : Prop :=
  o % 64 % count = 0 ∧ o % 64 + count ≤ 64 ∧ Finset.Ico o (o + count) ⊆ S

/-- The search has been offered the offsets of `P`. -/
def RangeSearch.Saw (f : RangeSearch) (P : ℕ → Prop) : Prop :=
  match f.chosenOffset with
  | none => f.numValidOptions = 0 ∧ ∀ o, ¬ P o
  | some o => f.numValidOptions ≠ 0 ∧ P o

theorem RangeSearch.Saw.congr {f : RangeSearch} {P Q : ℕ → Prop} (h : f.Saw P)
    (hPQ : ∀ o, P o ↔ Q o) : f.Saw Q := by
  have heq : P = Q := funext fun o => propext (hPQ o)
  exact heq ▸ h

theorem RangeSearch.Saw.offer {f : RangeSearch} {P : ℕ → Prop} (h : f.Saw P) (offset : ℕ) :
    (f.offer offset).Saw fun o => P o ∨ o = offset := by
  obtain ⟨n, chosen, g⟩ := f
  cases chosen with
  | none =>
    obtain ⟨hn, -⟩ := h
    dsimp only at hn
    rw [RangeSearch.offer, hn]
    exact ⟨Nat.one_ne_zero, .inr rfl⟩
  | some o =>
    obtain ⟨hn, ho⟩ := h
    dsimp only at hn
    rw [RangeSearch.offer]
    dsimp only
    rw [if_neg (by omega)]
    by_cases hk : (g.generateRandom (n + 1)).1 = 0
    · rw [if_pos hk]
      exact ⟨Nat.succ_ne_zero n, .inr rfl⟩
    · rw [if_neg hk]
      exact ⟨Nat.succ_ne_zero n, .inl ho⟩

section Search

variable (overflowChecks : Bool) {count : ℕ}

/-- Option `k` of the word is free. -/
def Fits (count : ℕ) (w : BitVec 64) (k : ℕ) : Prop := ∀ j < count, w.getLsbD (k * count + j) = true

theorem mask_iff {mask w : BitVec 64}
    (hmask : ∀ i, mask.getLsbD i = decide (i < count)) (k : ℕ) :
    (w >>> (k * count)) &&& mask = mask ↔ Fits count w k := by
  constructor
  · intro heq j hj
    have hbit := congrArg (fun u : BitVec 64 => u.getLsbD j) heq
    simp only [BitVec.getLsbD_and, BitVec.getLsbD_ushiftRight, hmask, hj, decide_true,
      Bool.and_true] at hbit
    exact hbit
  · intro hfits
    apply BitVec.eq_of_getLsbD_eq
    intro i hi
    rw [BitVec.getLsbD_and, BitVec.getLsbD_ushiftRight, hmask]
    by_cases hic : i < count
    · rw [hfits i hic, Bool.true_and]
    · rw [decide_eq_false hic, Bool.and_false]

theorem optionLoop_saw {mask : BitVec 64} (w : BitVec 64) (hcount : count < 64)
    (hmask : ∀ i, mask.getLsbD i = decide (i < count)) (storageIndex options : ℕ) :
    ∀ (option : ℕ) (f : RangeSearch) (P : ℕ → Prop), f.Saw P →
      ∃ f', optionLoop overflowChecks mask count storageIndex options option
          (w >>> (option * count)) f = some f' ∧
        f'.Saw fun o => P o ∨ ∃ k, option ≤ k ∧ k < option + options ∧ Fits count w k ∧
          o = storageIndex * 64 + k * count := by
  induction options with
  | zero =>
    intro option f P h
    refine ⟨f, rfl, h.congr fun o => ?_⟩
    refine ⟨.inl, fun ho => ?_⟩
    rcases ho with ho | ⟨k, hk, hk', -⟩
    · exact ho
    · omega
  | succ options ih =>
    intro option f P h
    have hnext : w >>> (option * count) >>> count = w >>> ((option + 1) * count) := by
      rw [Nat.succ_mul, BitVec.shiftRight_add]
    rw [optionLoop, shiftAmount, if_pos hcount]
    simp only [bind, Option.bind_some]
    rw [hnext]
    have hrest : ∀ o, (∃ k, option ≤ k ∧ k < option + (options + 1) ∧ Fits count w k ∧
          o = storageIndex * 64 + k * count) ↔
        (Fits count w option ∧ o = storageIndex * 64 + option * count) ∨
          ∃ k, option + 1 ≤ k ∧ k < option + 1 + options ∧ Fits count w k ∧
            o = storageIndex * 64 + k * count := by
      intro o
      constructor
      · rintro ⟨k, hk, hk', hfits, ho⟩
        rcases Nat.eq_or_lt_of_le hk with rfl | hk
        · exact .inl ⟨hfits, ho⟩
        · exact .inr ⟨k, hk, by omega, hfits, ho⟩
      · rintro (⟨hfits, ho⟩ | ⟨k, hk, hk', hfits, ho⟩)
        · exact ⟨option, le_rfl, by omega, hfits, ho⟩
        · exact ⟨k, by omega, by omega, hfits, ho⟩
    by_cases hfits : Fits count w option
    · rw [if_pos ((mask_iff hmask option).mpr hfits)]
      obtain ⟨f', hf', hsaw⟩ := ih (option + 1) _ _ (h.offer (storageIndex * 64 + option * count))
      refine ⟨f', hf', hsaw.congr fun o => ?_⟩
      rw [hrest o, or_assoc, and_iff_right hfits]
    · rw [if_neg (mt (mask_iff hmask option).mp hfits)]
      obtain ⟨f', hf', hsaw⟩ := ih (option + 1) f P h
      refine ⟨f', hf', hsaw.congr fun o => ?_⟩
      rw [hrest o, or_iff_right (fun hboth : Fits count w option ∧ _ => hfits hboth.1)]

theorem storageLoop_saw {mask : BitVec 64} (hcount : count < 64)
    (hmask : ∀ i, mask.getLsbD i = decide (i < count)) (options : ℕ) (storage : List (BitVec 64)) :
    ∀ (storageIndex : ℕ) (f : RangeSearch) (P : ℕ → Prop), f.Saw P →
      ∃ f', storageLoop overflowChecks mask count options storage storageIndex f = some f' ∧
        f'.Saw fun o => P o ∨ ∃ i w k, storage[i]? = some w ∧ k < options ∧ Fits count w k ∧
          o = (storageIndex + i) * 64 + k * count := by
  induction storage with
  | nil =>
    intro storageIndex f P h
    refine ⟨f, rfl, h.congr fun o => ?_⟩
    refine ⟨.inl, fun ho => ?_⟩
    rcases ho with ho | ⟨i, w, k, hw, -⟩
    · exact ho
    · cases hw
  | cons w storage ih =>
    intro storageIndex f P h
    obtain ⟨f₁, hf₁, hsaw₁⟩ := optionLoop_saw overflowChecks w hcount hmask storageIndex options 0 f P h
    rw [Nat.zero_mul, BitVec.ushiftRight_zero] at hf₁
    obtain ⟨f', hf', hsaw⟩ := ih (storageIndex + 1) f₁ _ hsaw₁
    refine ⟨f', ?_, hsaw.congr fun o => ?_⟩
    · rw [storageLoop, hf₁]
      exact hf'
    · constructor
      · rintro ((ho | ⟨k, -, hk, hfits, ho⟩) | ⟨i, v, k, hv, hk, hfits, ho⟩)
        · exact .inl ho
        · exact .inr ⟨0, w, k, rfl, by omega, hfits, ho⟩
        · refine .inr ⟨i + 1, v, k, hv, hk, hfits, ?_⟩
          rw [ho]
          congr 2
          omega
      · rintro (ho | ⟨i, v, k, hv, hk, hfits, ho⟩)
        · exact .inl (.inl ho)
        · cases i with
          | zero =>
            cases hv
            exact .inl (.inr ⟨k, Nat.zero_le k, by omega, hfits, ho⟩)
          | succ i =>
            refine .inr ⟨i, v, k, hv, hk, hfits, ?_⟩
            rw [ho]
            congr 2
            omega

end Search

theorem findFreeRange_spec (overflowChecks : Bool) (b : KPageBitmap) (size count : ℕ)
    (S : Finset ℕ) (h : Bits b size S) (hpos : 1 ≤ count) (hcount : count < 64) :
    ∃ r g, b.findFreeRange overflowChecks count = some (r, { b with rng := g }) ∧
      match r with
      | none => ∀ o, ¬ FreeRange S count o
      | some o => FreeRange S count o := by
  have hdepth := h.sized.pos
  have hword : ∀ x ∈ S, x / 64 < (b.bitStorages (b.usedDepths - 1)).length := fun x hx =>
    (leaf_word b size x S h (h.below x hx)).1
  have hleaf : ∀ (i : ℕ) (w : BitVec 64), (b.bitStorages (b.usedDepths - 1))[i]? = some w →
      ∀ m < 64, (w.getLsbD m = true ↔ i * 64 + m ∈ S) := by
    intro i w hw m hm
    have hbit := h.stores (b.usedDepths - 1) (by omega) (i * 64 + m)
    rw [bit, show (i * 64 + m) / 64 = i by omega, show (i * 64 + m) % 64 = m by omega, hw,
      Option.getD_some, Nat.sub_self, pow_zero] at hbit
    simpa using hbit
  rw [findFreeRange, if_neg (by rw [bitsPerU64]; omega)]
  dsimp only
  by_cases hempty : (b.bitStorages (b.usedDepths - 1)).isEmpty = true
  · rw [if_pos hempty]
    refine ⟨none, b.rng, rfl, ?_⟩
    rintro o ⟨-, -, hsub⟩
    have hlt := hword o (hsub (Finset.mem_Ico.mpr ⟨le_rfl, by omega⟩))
    rw [List.isEmpty_iff.mp hempty] at hlt
    cases hlt
  · have hmask : ∀ i, (((1 : BitVec 64) <<< count) - 1).getLsbD i = decide (i < count) := by
      intro i
      have hshift := getLsbD_rangeMask count 0 i hcount (by omega)
      rw [BitVec.shiftLeft_zero] at hshift
      rw [hshift]
      exact decide_eq_decide.mpr (by omega)
    have hoptions : max (bitsPerU64 / count) 1 = 64 / count := by
      rw [bitsPerU64]
      exact max_eq_left (Nat.div_pos hcount.le hpos)
    obtain ⟨f, hf, hsaw⟩ := storageLoop_saw overflowChecks hcount hmask (64 / count)
      (b.bitStorages (b.usedDepths - 1)) 0 ⟨0, none, b.rng⟩ (fun _ => False)
      ⟨rfl, fun _ => not_false⟩
    -- an option of a word is a free range of the leaves
    have hfree := hsaw.congr (Q := FreeRange S count) fun o => by
      rw [false_or]
      constructor
      · rintro ⟨i, w, k, hw, hk, hfits, rfl⟩
        have hend : k * count + count ≤ 64 := by
          rw [← Nat.succ_mul]
          exact (Nat.mul_le_mul_right count hk).trans (Nat.div_mul_le_self 64 count)
        have hmod : ((0 + i) * 64 + k * count) % 64 = k * count := by omega
        refine ⟨?_, ?_, fun x hx => ?_⟩
        · rw [hmod, Nat.mul_mod_left]
        · rw [hmod]
          exact hend
        · obtain ⟨hlow, hhigh⟩ := Finset.mem_Ico.mp hx
          have hbit := (hleaf i w hw (x - i * 64) (by omega)).mp
          rw [show x - i * 64 = k * count + (x - i * 64 - k * count) by omega] at hbit
          have hin := hbit (hfits _ (by omega))
          rwa [show i * 64 + (k * count + (x - i * 64 - k * count)) = x by omega] at hin
      · rintro ⟨hdvd, hend, hsub⟩
        have ho := hsub (Finset.mem_Ico.mpr ⟨le_rfl, by omega⟩)
        have hw := List.getElem?_eq_getElem (hword o ho)
        obtain ⟨k, hk⟩ := Nat.dvd_of_mod_eq_zero hdvd
        refine ⟨o / 64, _, k, hw, ?_, fun j hj => ?_, ?_⟩
        · rw [Nat.lt_iff_add_one_le, Nat.le_div_iff_mul_le hpos, Nat.succ_mul, Nat.mul_comm k]
          omega
        · rw [hleaf _ _ hw _ (by rw [Nat.mul_comm]; omega), Nat.mul_comm, Nat.mul_comm k]
          exact hsub (Finset.mem_Ico.mpr ⟨by omega, by omega⟩)
        · rw [Nat.mul_comm k]
          omega
    rw [if_neg hempty, if_neg (by omega), hoptions, shiftAmount, if_pos hcount]
    simp only [bind, Option.bind_some]
    rw [hf, Option.bind_some]
    refine ⟨f.chosenOffset, f.rng, rfl, ?_⟩
    rw [RangeSearch.Saw] at hfree
    cases hchosen : f.chosenOffset with
    | none =>
      rw [hchosen] at hfree
      exact hfree.2
    | some o =>
      rw [hchosen] at hfree
      exact hfree.2

/-! ### Runs -/

def leaves (b : KPageBitmap) : Finset ℕ :=
  (Finset.range (64 * (b.bitStorages (b.usedDepths - 1)).length)).filter fun x =>
    b.bit (b.usedDepths - 1) x = true

theorem Bits.leaves {b : KPageBitmap} {size : ℕ} {S : Finset ℕ} (h : Bits b size S) :
    b.leaves = S := by
  ext x
  have hpos := h.sized.pos
  have hbit := h.stores (b.usedDepths - 1) (by omega) x
  rw [Nat.sub_self, pow_zero] at hbit
  simp only [Nat.div_one, exists_eq_right] at hbit
  rw [KPageBitmap.leaves, Finset.mem_filter, Finset.mem_range, hbit]
  refine ⟨And.right, fun hx => ⟨?_, hx⟩⟩
  have hlt := (leaf_word b size x S h (h.below x hx)).1
  omega

/-- Every summary bit tells whether the word below it is zero, and the count is right. -/
def Consistent (b : KPageBitmap) : Prop :=
  (∀ d, d + 1 < b.usedDepths → ∀ j,
    b.bit d j = true ↔ (b.bitStorages (d + 1))[j]?.getD 0 ≠ 0) ∧ b.numBits = b.leaves.card

theorem Bits.consistent {b : KPageBitmap} {size : ℕ} {S : Finset ℕ} (h : Bits b size S) :
    b.Consistent := by
  refine ⟨fun d hd j => ?_, by rw [h.leaves, h.count]⟩
  have hunit : b.usedDepths - 1 - d = b.usedDepths - 1 - (d + 1) + 1 := by omega
  have hbelow : ∀ k < 64, ((b.bitStorages (d + 1))[j]?.getD 0).getLsbD k =
      b.bit (d + 1) (64 * j + k) := by
    intro k hk
    rw [bit, show (64 * j + k) / 64 = j by omega, show (64 * j + k) % 64 = k by omega]
  rw [h.stores d (by omega) j, ne_zero_iff, hunit]
  constructor
  · rintro ⟨x, hx, rfl⟩
    refine ⟨x / 64 ^ (b.usedDepths - 1 - (d + 1)) % 64, Nat.mod_lt _ (by decide), ?_⟩
    rw [hbelow _ (Nat.mod_lt _ (by decide)), h.stores (d + 1) hd, div_pow_succ]
    exact ⟨x, hx, (Nat.div_add_mod _ 64).symm⟩
  · rintro ⟨k, hk, hbit⟩
    rw [hbelow k hk, h.stores (d + 1) hd] at hbit
    obtain ⟨x, hx, heq⟩ := hbit
    refine ⟨x, hx, ?_⟩
    rw [div_pow_succ, heq]
    omega

inductive Call
  | setBit (offset : ℕ)
  | clearBit (offset : ℕ)
  | clearRange (offset count : ℕ)
  | findFreeBlock (random : Bool)
  | findFreeRange (count : ℕ)

inductive Answer
  | done
  | cleared (all : Bool)
  | found (offset : Option ℕ)

def apply (overflowChecks : Bool) (b : KPageBitmap) : Call → Option (Answer × KPageBitmap)
  | .setBit offset => (b.setBit offset).map fun b => (.done, b)
  | .clearBit offset => (b.clearBit offset).map fun b => (.done, b)
  | .clearRange offset count => (b.clearRange offset count).map fun r => (.cleared r.1, r.2)
  | .findFreeBlock random => (b.findFreeBlock random).map fun r => (.found r.1, r.2)
  | .findFreeRange count =>
    (b.findFreeRange overflowChecks count).map fun r => (.found r.1, r.2)

/-- Bits are set where they are clear and cleared where they are set; ranges have one of the two
shapes and lie in the words of the bitmap. -/
def Legal (size : ℕ) (b : KPageBitmap) : Call → Prop
  | .setBit offset => offset < size ∧ offset ∉ b.leaves
  | .clearBit offset => offset ∈ b.leaves
  | .clearRange offset count =>
    1 ≤ count ∧ RangeShape offset count ∧ offset + count ≤ 64 * ((size + 63) / 64)
  | .findFreeBlock _ => True
  | .findFreeRange count => 1 ≤ count ∧ count ≤ 64

/-- A search for a block needs a word to look at, and one for a range a count below the width. -/
def Served (size : ℕ) : Call → Prop
  | .findFreeBlock _ => 0 < size
  | .findFreeRange count => count ≠ 64 ∨ size = 0
  | _ => True

/-- What a call answers and leaves behind. -/
def Meets (b : KPageBitmap) (b' : KPageBitmap) : Call → Answer → Prop
  | .setBit offset, .done => b'.leaves = insert offset b.leaves
  | .clearBit offset, .done => b'.leaves = b.leaves.erase offset
  | .clearRange offset count, .cleared all =>
    (Finset.Ico offset (offset + count) ⊆ b.leaves → all = true ∧
      b'.leaves = b.leaves \ Finset.Ico offset (offset + count)) ∧
    (¬ Finset.Ico offset (offset + count) ⊆ b.leaves → all = false ∧ b' = b)
  | .findFreeBlock _, .found r =>
    (∃ g, b' = { b with rng := g }) ∧
      ((r = none ↔ b.leaves = ∅) ∧ ∀ offset, r = some offset → offset ∈ b.leaves)
  | .findFreeRange count, .found r =>
    (∃ g, b' = { b with rng := g }) ∧
      ((r = none ↔ ∀ offset, ¬ FreeRange b.leaves count offset) ∧
        ∀ offset, r = some offset → FreeRange b.leaves count offset)
  | _, _ => False

/-- Along the calls, as long as they are legal, every state is consistent and no call faults or
misses what it should do. -/
def Followed (overflowChecks : Bool) (size : ℕ) : KPageBitmap → List Call → Prop
  | b, [] => b.Consistent
  | b, c :: calls => b.Consistent ∧ (Legal size b c →
      ∃ r b', b.apply overflowChecks c = some (r, b') ∧ Meets b b' c r ∧
        Followed overflowChecks size b' calls)

/-- A bitmap of no bits has no words. -/
structure Kept (b : KPageBitmap) (size : ℕ) (S : Finset ℕ) : Prop where
  bits : Bits b size S
  wordless : size = 0 → b.bitStorages (b.usedDepths - 1) = []

theorem Kept.served {b : KPageBitmap} {size : ℕ} {S : Finset ℕ} (overflowChecks : Bool)
    (h : Kept b size S) {c : Call} (hlegal : Legal size b c) (hserved : Served size c) :
    ∃ r b' S', b.apply overflowChecks c = some (r, b') ∧ Meets b b' c r ∧ Kept b' size S' := by
  have hleaves := h.bits.leaves
  cases c with
  | setBit offset =>
    obtain ⟨hsize, hclear⟩ := hlegal
    rw [hleaves] at hclear
    obtain ⟨b', hb', hbits⟩ := setBit_bits b size offset S h.bits hsize hclear
    refine ⟨.done, b', _, by rw [apply, hb']; rfl, ?_, hbits, by omega⟩
    rw [Meets, hbits.leaves, hleaves]
  | clearBit offset =>
    have hset : offset ∈ S := hleaves ▸ hlegal
    obtain ⟨b', hb', hbits⟩ := clearBit_bits b size offset S h.bits hset
    have hsize := h.bits.below offset hset
    refine ⟨.done, b', _, by rw [apply, hb']; rfl, ?_, hbits, by omega⟩
    rw [Meets, hbits.leaves, hleaves]
  | clearRange offset count =>
    obtain ⟨hpos, hshape, hin⟩ := hlegal
    rcases clearRange_spec b size offset count S h.bits hpos hshape hin with
      ⟨hnot, hcl⟩ | ⟨hall, b', hcl, hbits⟩
    · refine ⟨.cleared false, b, S, by rw [apply, hcl]; rfl, ?_, h⟩
      rw [Meets, hleaves]
      exact ⟨fun hall => absurd hall hnot, fun _ => ⟨rfl, rfl⟩⟩
    · refine ⟨.cleared true, b', _, by rw [apply, hcl]; rfl, ?_, hbits, by omega⟩
      rw [Meets, hbits.leaves, hleaves]
      exact ⟨fun _ => ⟨rfl, rfl⟩, fun hnot => absurd hall hnot⟩
  | findFreeBlock random =>
    rcases findFreeBlock_bits b random size S h.bits hserved with ⟨hempty, hf⟩ | ⟨x, hx, g, hf⟩
    · refine ⟨.found none, b, S, by rw [apply, hf]; rfl, ?_, h⟩
      rw [Meets, hleaves]
      exact ⟨⟨b.rng, rfl⟩, ⟨fun _ => hempty, fun _ => rfl⟩, fun _ hsome => by cases hsome⟩
    · refine ⟨.found (some x), { b with rng := g }, S, by rw [apply, hf]; rfl, ?_,
        h.bits.withRng g, h.wordless⟩
      rw [Meets, hleaves]
      refine ⟨⟨g, rfl⟩, ⟨(fun h => by cases h), fun hempty => ?_⟩, fun o ho => ?_⟩
      · rw [hempty] at hx
        exact absurd hx (Finset.notMem_empty x)
      · cases ho
        exact hx
  | findFreeRange count =>
    obtain ⟨hpos, hle⟩ := hlegal
    by_cases hcount : count = 64
    · have hsize : size = 0 := hserved.resolve_left (not_not_intro hcount)
      have hnone : S = ∅ := Finset.eq_empty_of_forall_notMem fun x hx => by
        have hlt := h.bits.below x hx
        omega
      have hf : b.findFreeRange overflowChecks count = some (none, b) := by
        have hdepth := h.bits.sized.pos
        rw [findFreeRange, if_neg (by rw [bitsPerU64]; omega), h.wordless hsize]
        rfl
      refine ⟨.found none, b, S, by rw [apply, hf]; rfl, ?_, h⟩
      rw [Meets, hleaves]
      refine ⟨⟨b.rng, rfl⟩, ⟨fun _ o ho => ?_, fun _ => rfl⟩, fun _ hsome => by cases hsome⟩
      have hin := ho.2.2 (Finset.mem_Ico.mpr ⟨le_rfl, by omega⟩)
      rw [hnone] at hin
      exact absurd hin (Finset.notMem_empty o)
    · obtain ⟨r, g, hf, hr⟩ := findFreeRange_spec overflowChecks b size count S h.bits hpos
        (by omega)
      refine ⟨.found r, { b with rng := g }, S, by rw [apply, hf]; rfl, ?_,
        h.bits.withRng g, h.wordless⟩
      rw [Meets, hleaves]
      refine ⟨⟨g, rfl⟩, ?_⟩
      cases r with
      | none => exact ⟨⟨fun _ => hr, fun _ => rfl⟩, fun _ hsome => by cases hsome⟩
      | some x =>
        refine ⟨⟨(fun h => by cases h), fun hnot => absurd hr (hnot x)⟩, fun o ho => ?_⟩
        cases ho
        exact hr

theorem Kept.followed {size : ℕ} (overflowChecks : Bool) (calls : List Call)
    (hserved : ∀ c ∈ calls, Served size c) :
    ∀ {b : KPageBitmap} {S : Finset ℕ}, Kept b size S → Followed overflowChecks size b calls := by
  induction calls with
  | nil =>
    intro b S h
    exact h.bits.consistent
  | cons c calls ih =>
    intro b S h
    refine ⟨h.bits.consistent, fun hlegal => ?_⟩
    obtain ⟨r, b', S', hrun, hmeets, h'⟩ :=
      h.served overflowChecks hlegal (hserved c List.mem_cons_self)
    exact ⟨r, b', hrun, hmeets,
      ih (fun d hd => hserved d (List.mem_cons_of_mem c hd)) h'⟩

theorem initializeBitmap_kept {b b' : KPageBitmap} {size : ℕ}
    (h : b.initializeBitmap size = some b') : Kept b' size ∅ := by
  refine ⟨initializeBitmap_bits b b' size h, fun hsize => ?_⟩
  subst hsize
  cases h
  rfl

/-- A freshly initialised bitmap holds nothing, and every legal run from it keeps the summaries,
the count and the answers right. -/
theorem runs_followed (overflowChecks : Bool) (b₀ b : KPageBitmap) (size : ℕ)
    (hinit : b₀.initializeBitmap size = some b) (calls : List Call)
    (hserved : ∀ c ∈ calls, Served size c) :
    b.leaves = ∅ ∧ Followed overflowChecks size b calls :=
  ⟨(initializeBitmap_kept hinit).bits.leaves,
    (initializeBitmap_kept hinit).followed overflowChecks calls hserved⟩

def new (source : ℕ → BitVec 32) : KPageBitmap := ⟨fun _ => [], ⟨source, 0, 0, 0⟩, 0, 0⟩

theorem runs_followed_word :
    ∃ b, (new fun _ => 0).initializeBitmap 70 = some b ∧
      Followed true 70 b [.setBit 3, .setBit 69, .findFreeRange 1, .clearRange 3 1] := by
  refine ⟨_, rfl, (runs_followed true (new fun _ => 0) _ 70 rfl _ fun c hc => ?_).2⟩
  simp only [List.mem_cons, List.not_mem_nil, or_false] at hc
  rcases hc with rfl | rfl | rfl | rfl
  · trivial
  · trivial
  · exact .inl (by decide)
  · trivial

/-- The mask of 64 ones overflows, and masked it is empty, so that a clear word passes for free.
A bitmap of no bits has no word to search. -/
theorem full_width_not_followed :
    (∃ b, (new fun _ => 0).initializeBitmap 1 = some b ∧
      ¬ Followed true 1 b [.findFreeRange 64] ∧ ¬ Followed false 1 b [.findFreeRange 64]) ∧
    ∃ b, (new fun _ => 0).initializeBitmap 0 = some b ∧
      ¬ Followed false 0 b [.findFreeBlock false] := by
  refine ⟨⟨_, rfl, fun h => ?_, fun h => ?_⟩, _, rfl, fun h => ?_⟩
  · obtain ⟨r, b', hrun, -⟩ := h.2 ⟨by decide, by decide⟩
    cases hrun
  · obtain ⟨r, b', hrun, hmeets, -⟩ := h.2 ⟨by decide, by decide⟩
    cases hrun
    have hin := (hmeets.2.2 0 rfl).2.2 (Finset.mem_Ico.mpr ⟨le_rfl, by decide⟩)
    rw [(initializeBitmap_bits (new fun _ => 0) _ 1 rfl).leaves] at hin
    exact absurd hin (Finset.notMem_empty 0)
  · obtain ⟨r, b', hrun, -⟩ := h.2 trivial
    cases hrun

end Ruzu.PageBitmap.KPageBitmap
