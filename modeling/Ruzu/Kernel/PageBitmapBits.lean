import Mathlib
import Ruzu.Kernel.PageBitmap

/-!
# What the page bitmap stores

A bitmap holds a finite set of leaf offsets. The bit `j` at depth `d` says
whether some stored offset lies in the `j`-th run of `64 ^ (usedDepths-1-d)`
leaves, so that a clear word above means an empty subtree.
-/

set_option autoImplicit false

namespace Ruzu.PageBitmap

theorem ne_zero_iff (v : BitVec 64) : v ≠ 0 ↔ ∃ k, k < 64 ∧ v.getLsbD k = true := by
  constructor
  · intro h
    by_contra hc
    apply h
    apply BitVec.eq_of_getLsbD_eq
    intro i hi
    have : v.getLsbD i ≠ true := fun ht => hc ⟨i, hi, ht⟩
    simpa using this
  · rintro ⟨k, _, hk⟩ rfl
    simp at hk

theorem getLsbD_one_shiftLeft (k i : ℕ) (hk : k < 64) :
    ((1 : BitVec 64) <<< k).getLsbD i = decide (i = k) := by
  rw [BitVec.getLsbD_shiftLeft]
  by_cases hi : i < 64
  · by_cases hik : i < k
    · simp [hik, show i ≠ k by omega]
    · simp only [hi, decide_true, hik, decide_false, Bool.not_false, Bool.true_and]
      rw [show (1 : BitVec 64) = 1#64 from rfl, BitVec.getLsbD_one]
      simp only [Nat.zero_lt_succ, decide_true, Bool.true_and]
      exact decide_eq_decide.mpr (by omega)
  · simp [hi, show i ≠ k by omega]

/-- The mask of `count` ones from bit `shift` on, as `clear_range` builds it. -/
theorem getLsbD_rangeMask (count shift i : ℕ) (hc : count < 64) (hs : shift + count ≤ 64) :
    ((((1 : BitVec 64) <<< count) - 1) <<< shift).getLsbD i =
      decide (shift ≤ i ∧ i < shift + count) := by
  have hones : ∀ j, (((1 : BitVec 64) <<< count) - 1).getLsbD j = decide (j < count) := by
    intro j
    have hn : (((1 : BitVec 64) <<< count) - 1).toNat = 2 ^ count - 1 := by
      have hlt : 2 ^ count < 2 ^ 64 := Nat.pow_lt_pow_right (by omega) hc
      have h1 : ((1 : BitVec 64) <<< count).toNat = 2 ^ count := by
        rw [BitVec.toNat_shiftLeft]
        simp only [BitVec.ofNat_eq_ofNat, BitVec.toNat_ofNat, Nat.shiftLeft_eq]
        omega
      have hp : 0 < 2 ^ count := Nat.two_pow_pos count
      rw [BitVec.toNat_sub, h1]
      simp only [BitVec.ofNat_eq_ofNat, BitVec.toNat_ofNat]
      omega
    rw [BitVec.getLsbD, hn, Nat.testBit_two_pow_sub_one]
  rw [BitVec.getLsbD_shiftLeft, hones]
  by_cases hi : i < 64
  · by_cases hsi : i < shift
    · simp [hsi, show ¬ shift ≤ i by omega]
    · simp only [hi, hsi, decide_true, decide_false, Bool.not_false, Bool.true_and]
      exact decide_eq_decide.mpr (by omega)
  · simp only [hi, decide_false, Bool.false_and]
    exact (decide_eq_false (by omega)).symm

namespace RandomBitGenerator

theorem selectHalf_spec (c : ℕ) (v : BitVec 64) (g : RandomBitGenerator) (hc : c < 64)
    (hv : v ≠ 0) (hw : ∀ i, 2 * c ≤ i → v.getLsbD i = false) :
    (selectHalf c v g).1 ≠ 0 ∧ (∀ i, c ≤ i → (selectHalf c v g).1.getLsbD i = false) ∧
      ∀ i, (selectHalf c v g).1.getLsbD i = true →
        v.getLsbD ((selectHalf c v g).2.1 + i) = true := by
  have hhigh : ∀ i, (v >>> c).getLsbD i = v.getLsbD (c + i) := by
    intro i
    rw [BitVec.getLsbD_ushiftRight]
  have hlow : ∀ i, (v &&& ~~~(BitVec.allOnes 64 <<< c)).getLsbD i =
      (v.getLsbD i && decide (i < c)) := by
    intro i
    by_cases hi : i < 64
    · rw [BitVec.getLsbD_and, BitVec.getLsbD_not, BitVec.getLsbD_shiftLeft,
        BitVec.getLsbD_allOnes]
      by_cases hic : i < c
      · simp [hi, hic]
      · simp [hi, hic, show i - c < 64 by omega]
    · simp [BitVec.getLsbD_of_ge _ i (Nat.le_of_not_lt hi)]
  have takesHigh : v >>> c ≠ 0 → (v >>> c) ≠ 0 ∧ (∀ i, c ≤ i → (v >>> c).getLsbD i = false) ∧
      ∀ i, (v >>> c).getLsbD i = true → v.getLsbD (c + i) = true := by
    intro h
    refine ⟨h, ?_, ?_⟩
    · intro i hi
      rw [hhigh]
      exact hw _ (by omega)
    · intro i hi
      rwa [hhigh] at hi
  have takesLow : (v &&& ~~~(BitVec.allOnes 64 <<< c)) ≠ 0 →
      (v &&& ~~~(BitVec.allOnes 64 <<< c)) ≠ 0 ∧
      (∀ i, c ≤ i → (v &&& ~~~(BitVec.allOnes 64 <<< c)).getLsbD i = false) ∧
      ∀ i, (v &&& ~~~(BitVec.allOnes 64 <<< c)).getLsbD i = true → v.getLsbD (0 + i) = true := by
    intro h
    refine ⟨h, ?_, ?_⟩
    · intro i hi
      rw [hlow]
      simp [show ¬ i < c by omega]
    · intro i hi
      rw [hlow, Bool.and_eq_true] at hi
      rw [Nat.zero_add]
      exact hi.1
  unfold selectHalf
  dsimp only
  by_cases h1 : v >>> c ≠ 0
  · rw [if_pos h1]
    by_cases h2 : v &&& ~~~(BitVec.allOnes 64 <<< c) = 0
    · rw [if_pos h2]
      exact takesHigh h1
    · rw [if_neg h2]
      cases g.generateRandomBit.1 with
      | true => exact takesHigh h1
      | false => exact takesLow h2
  · rw [if_neg h1]
    apply takesLow
    rw [ne_zero_iff] at hv ⊢
    obtain ⟨k, hk, hvk⟩ := hv
    refine ⟨k, hk, ?_⟩
    rw [hlow, hvk]
    by_cases hkc : k < c
    · simp [hkc]
    · exfalso
      apply h1
      rw [ne_zero_iff]
      exact ⟨k - c, by omega, by rw [hhigh, show c + (k - c) = k by omega, hvk]⟩

/-- The widths halve down to one, and the window always keeps a set bit. -/
def Halving : ℕ → List ℕ → Prop
  | w, [] => w = 1
  | w, c :: rest => w = 2 * c ∧ c < 64 ∧ Halving c rest

theorem selectRandomBitLoop_spec (v : BitVec 64) (widths : List ℕ) :
    ∀ (w : ℕ) (u : BitVec 64) (selected : ℕ) (g : RandomBitGenerator), Halving w widths →
      u ≠ 0 → (∀ i, w ≤ i → u.getLsbD i = false) →
      (∀ i, u.getLsbD i = true → v.getLsbD (selected + i) = true) →
      v.getLsbD (selectRandomBitLoop widths u selected g).1 = true := by
  induction widths with
  | nil =>
    intro w u selected g hw hu hz hs
    obtain ⟨k, _, hk⟩ := (ne_zero_iff u).mp hu
    have hk0 : k = 0 := by
      by_contra hne
      rw [hz k (by simp only [Halving] at hw; omega)] at hk
      exact Bool.noConfusion hk
    have := hs k hk
    rwa [hk0, Nat.add_zero] at this
  | cons c rest ih =>
    intro w u selected g hw hu hz hs
    obtain ⟨rfl, hc, hrest⟩ := hw
    obtain ⟨h1, h2, h3⟩ := selectHalf_spec c u g hc hu hz
    apply ih c _ _ _ hrest h1 h2
    intro i hi
    rw [Nat.add_assoc]
    exact hs _ (h3 i hi)

theorem selectRandomBit_spec (g : RandomBitGenerator) (v : BitVec 64) (hv : v ≠ 0) :
    v.getLsbD (g.selectRandomBit v).1 = true := by
  apply selectRandomBitLoop_spec v [32, 16, 8, 4, 2, 1] 64 v 0 g
  · simp [Halving]
  · exact hv
  · intro i hi
    exact BitVec.getLsbD_of_ge v i hi
  · intro i hi
    rwa [Nat.zero_add]

theorem generateRandom_lt (g : RandomBitGenerator) (max : ℕ) (h : 0 < max) :
    (g.generateRandom max).1 < max := by
  have hrem : ∀ n : ℕ, n - n / max * max < max := by
    intro n
    have hdiv := Nat.div_add_mod n max
    have hmod := Nat.mod_lt n h
    rw [Nat.mul_comm] at hdiv
    omega
  unfold generateRandom
  simp only [show max ≠ 0 by omega, if_false]
  exact hrem _

end RandomBitGenerator

namespace KPageBitmap

theorem trailingZeros_spec (v : BitVec 64) (hv : v ≠ 0) : v.getLsbD (trailingZeros v) = true := by
  obtain ⟨k, hk, hvk⟩ := (ne_zero_iff v).mp hv
  unfold trailingZeros
  cases hf : (List.range 64).find? fun i => v.getLsbD i with
  | none =>
    rw [List.find?_eq_none] at hf
    exact absurd hvk (hf k (by simp [hk]))
  | some i => simpa using List.find?_some hf

theorem selectBit_spec (b : KPageBitmap) (random : Bool) (v : BitVec 64) (hv : v ≠ 0) :
    v.getLsbD (b.selectBit random v).1 = true := by
  unfold selectBit
  cases random with
  | true => exact b.rng.selectRandomBit_spec v hv
  | false => exact trailingZeros_spec v hv

/-- The bitmap after a search: only the generator may differ. -/
theorem selectBit_same (b : KPageBitmap) (random : Bool) (v : BitVec 64) :
    ∃ g, (b.selectBit random v).2 = { b with rng := g } := by
  unfold selectBit
  cases random with
  | true => exact ⟨_, rfl⟩
  | false => exact ⟨b.rng, rfl⟩

def bit (b : KPageBitmap) (depth j : ℕ) : Bool :=
  ((b.bitStorages depth)[j / 64]?.getD 0).getLsbD (j % 64)

theorem setWord_length (b : KPageBitmap) (d ind e : ℕ) (v : BitVec 64) :
    ((b.setWord d ind v).bitStorages e).length = (b.bitStorages e).length := by
  unfold setWord
  by_cases h : e = d
  · subst h
    simp
  · simp [Function.update_of_ne h]

theorem bit_setWord (b : KPageBitmap) (d ind e j : ℕ) (v : BitVec 64)
    (h : ind < (b.bitStorages d).length) :
    (b.setWord d ind v).bit e j =
      if e = d ∧ j / 64 = ind then v.getLsbD (j % 64) else b.bit e j := by
  unfold bit setWord
  by_cases hd : e = d
  · subst hd
    by_cases hj : j / 64 = ind
    · simp [hj, h]
    · simp [hj, Ne.symm hj]
  · simp [hd]

theorem word_eq (b : KPageBitmap) (d ind : ℕ) (hd : d < maxDepth)
    (h : ind < (b.bitStorages d).length) :
    ∃ v, b.word d ind = some v ∧ ∀ j, j / 64 = ind → b.bit d j = v.getLsbD (j % 64) := by
  refine ⟨(b.bitStorages d)[ind], ?_, ?_⟩
  · unfold word
    rw [if_pos hd, List.getElem?_eq_getElem h]
  · intro j hj
    unfold bit
    rw [hj, List.getElem?_eq_getElem h, Option.getD_some]

/-- Depth `d` stores the ancestors of `S`, in a bitmap of `n` depths. -/
def Stores (b : KPageBitmap) (d : ℕ) (S : Finset ℕ) : Prop :=
  ∀ j, b.bit d j = true ↔ ∃ x ∈ S, x / 64 ^ (b.usedDepths - 1 - d) = j

/-- The storages are long enough for offsets below `size`. -/
structure Sized (b : KPageBitmap) (size : ℕ) : Prop where
  pos : 0 < b.usedDepths
  depth : b.usedDepths ≤ maxDepth
  bound : size ≤ 64 ^ b.usedDepths
  lengths : ∀ d < b.usedDepths, ∀ x < size,
    x / 64 ^ (b.usedDepths - d) < (b.bitStorages d).length

/-- The bitmap holds exactly the offsets of `S`. -/
structure Bits (b : KPageBitmap) (size : ℕ) (S : Finset ℕ) : Prop where
  sized : Sized b size
  below : ∀ x ∈ S, x < size
  stores : ∀ d < b.usedDepths, Stores b d S
  count : b.numBits = S.card

/-- Depths from `n` on already store `T`; the ones above still store `S`. -/
def Split (b : KPageBitmap) (n : ℕ) (S T : Finset ℕ) : Prop :=
  (∀ d < n, Stores b d S) ∧ ∀ d, n ≤ d → d < b.usedDepths → Stores b d T

/-- One bitmap with another's shape: depths, storage lengths, generator and count. -/
structure Shaped (b b' : KPageBitmap) : Prop where
  used : b'.usedDepths = b.usedDepths
  lengths : ∀ d, (b'.bitStorages d).length = (b.bitStorages d).length
  numBits : b'.numBits = b.numBits

theorem Shaped.refl (b : KPageBitmap) : Shaped b b :=
  ⟨rfl, fun _ => rfl, rfl⟩

theorem Shaped.trans {a b c : KPageBitmap} (h : Shaped a b) (k : Shaped b c) : Shaped a c :=
  ⟨k.used.trans h.used, fun d => (k.lengths d).trans (h.lengths d), k.numBits.trans h.numBits⟩

theorem setWord_shaped (b : KPageBitmap) (d ind : ℕ) (v : BitVec 64) :
    Shaped b (b.setWord d ind v) :=
  ⟨rfl, fun e => setWord_length b d ind e v, rfl⟩

theorem Sized.shaped {b b' : KPageBitmap} {size : ℕ} (h : Sized b size) (k : Shaped b b') :
    Sized b' size := by
  obtain ⟨h1, h2, h3, h4⟩ := h
  constructor
  · rwa [k.used]
  · rwa [k.used]
  · rwa [k.used]
  · intro d hd x hx
    rw [k.used] at hd ⊢
    rw [k.lengths]
    exact h4 d hd x hx

theorem div_pow_succ (x k : ℕ) : x / 64 ^ (k + 1) = x / 64 ^ k / 64 := by
  rw [pow_succ, Nat.div_div_eq_div_mul]

theorem div_pow_of_le {x y k m : ℕ} (hkm : k ≤ m) (h : x / 64 ^ k = y / 64 ^ k) :
    x / 64 ^ m = y / 64 ^ m := by
  rw [show m = k + (m - k) by omega, pow_add, ← Nat.div_div_eq_div_mul, h,
    Nat.div_div_eq_div_mul]

/-- When every offset of either set has a neighbour in the other one, the depths
above need no change: this is why the loops may stop early. -/
theorem split_stop (b : KPageBitmap) (n : ℕ) (S T : Finset ℕ) (h : Split b n S T)
    (hn : n ≤ b.usedDepths)
    (hS : ∀ x ∈ S, ∃ y ∈ T, x / 64 ^ (b.usedDepths - n) = y / 64 ^ (b.usedDepths - n))
    (hT : ∀ y ∈ T, ∃ x ∈ S, y / 64 ^ (b.usedDepths - n) = x / 64 ^ (b.usedDepths - n)) :
    Split b 0 S T := by
  constructor
  · intro d hd
    omega
  · intro d _ hd
    by_cases hdn : n ≤ d
    · exact h.2 d hdn hd
    · have hle : b.usedDepths - n ≤ b.usedDepths - 1 - d := by omega
      intro j
      rw [h.1 d (by omega) j]
      constructor
      · rintro ⟨x, hx, rfl⟩
        obtain ⟨y, hy, hxy⟩ := hS x hx
        exact ⟨y, hy, (div_pow_of_le hle hxy).symm⟩
      · rintro ⟨y, hy, rfl⟩
        obtain ⟨x, hx, hyx⟩ := hT y hy
        exact ⟨x, hx, (div_pow_of_le hle hyx).symm⟩

/-- Rewriting one word at depth `n` moves the split up by one depth. -/
theorem split_setWord (b : KPageBitmap) (n ind : ℕ) (v : BitVec 64) (S T : Finset ℕ)
    (h : Split b (n + 1) S T) (hl : ind < (b.bitStorages n).length)
    (hv : Stores (b.setWord n ind v) n T) : Split (b.setWord n ind v) n S T := by
  have hkeep : ∀ d, d ≠ n → ∀ R, Stores b d R → Stores (b.setWord n ind v) d R := by
    intro d hd R hR j
    rw [bit_setWord b n ind d j v hl, if_neg (by simp [hd])]
    exact hR j
  constructor
  · intro d hd
    exact hkeep d (by omega) S (h.1 d (by omega))
  · intro d hnd hd
    by_cases hdn : d = n
    · subst hdn
      exact hv
    · exact hkeep d hdn T (h.2 d (by omega) hd)

theorem setBitAtDepth_spec (size x : ℕ) (hx : x < size) (S : Finset ℕ) (n : ℕ) :
    ∀ (offset : ℕ) (b : KPageBitmap), Sized b size → n ≤ b.usedDepths →
      (n ≠ 0 → x / 64 ^ (b.usedDepths - n) = offset) → Split b n S (insert x S) →
      ∃ b', setBitAtDepth n offset b = some b' ∧ Shaped b b' ∧ b'.rng = b.rng ∧
        Split b' 0 S (insert x S) := by
  induction n with
  | zero =>
    intro offset b _ _ _ hsp
    exact ⟨b, rfl, Shaped.refl b, rfl, hsp⟩
  | succ n ih =>
    intro offset b hs hn hoff hsp
    have hoff := hoff (Nat.succ_ne_zero n)
    have hk : b.usedDepths - n = b.usedDepths - (n + 1) + 1 := by omega
    have hunit : b.usedDepths - 1 - n = b.usedDepths - (n + 1) := by omega
    have hup : x / 64 ^ (b.usedDepths - n) = offset / 64 := by
      rw [hk, div_pow_succ, hoff]
    have hl : offset / 64 < (b.bitStorages n).length := by
      rw [← hup]
      exact hs.lengths n (by omega) x hx
    obtain ⟨v, hword, hbit⟩ := word_eq b n (offset / 64) (lt_of_lt_of_le hn hs.depth) hl
    have hnew : Stores (b.setWord n (offset / 64) (v ||| (1 : BitVec 64) <<< (offset % 64))) n
        (insert x S) := by
      intro j
      change _ ↔ ∃ y ∈ insert x S, y / 64 ^ (b.usedDepths - 1 - n) = j
      have hold := hsp.1 n (Nat.lt_succ_self n) j
      rw [Finset.exists_mem_insert, ← hold, hunit, hoff, bit_setWord b n _ n j _ hl]
      by_cases hj : j / 64 = offset / 64
      · rw [if_pos ⟨rfl, hj⟩, BitVec.getLsbD_or, getLsbD_one_shiftLeft _ _ (by omega), hbit j hj,
          Bool.or_eq_true, decide_eq_true_eq, or_comm]
        apply or_congr_left
        constructor <;> intro h <;> omega
      · rw [if_neg (by simp [hj])]
        constructor
        · exact Or.inr
        · rintro (rfl | h)
          · exact absurd rfl hj
          · exact h
    have hsp' := split_setWord b n _ _ S _ hsp hl hnew
    have hshape := setWord_shaped b n (offset / 64) (v ||| (1 : BitVec 64) <<< (offset % 64))
    rw [setBitAtDepth, bitsPerU64, hword]
    by_cases hv : v ≠ 0
    · refine ⟨_, if_pos hv, hshape, rfl, ?_⟩
      -- the word was not empty: a stored neighbour already marks every depth above
      obtain ⟨k, hk64, hvk⟩ := (ne_zero_iff v).mp hv
      have hj : (offset / 64 * 64 + k) / 64 = offset / 64 := by omega
      have hset : b.bit n (offset / 64 * 64 + k) = true := by
        rw [hbit _ hj, show (offset / 64 * 64 + k) % 64 = k by omega, hvk]
      obtain ⟨y, hy, hyj⟩ := (hsp.1 n (Nat.lt_succ_self n) _).mp hset
      rw [hunit] at hyj
      apply split_stop _ n S _ hsp' (by change n ≤ b.usedDepths; omega)
      · intro z hz
        exact ⟨z, Finset.mem_insert_of_mem hz, rfl⟩
      · intro z hz
        rcases Finset.mem_insert.mp hz with rfl | hz
        · refine ⟨y, hy, ?_⟩
          change z / 64 ^ (b.usedDepths - n) = y / 64 ^ (b.usedDepths - n)
          rw [hup, hk, div_pow_succ, hyj, hj]
        · exact ⟨z, hz, rfl⟩
    · obtain ⟨b', hb', hsh, hr, hsp''⟩ := ih (offset / 64) _ (hs.shaped hshape)
        (by change n ≤ b.usedDepths; omega) (fun _ => hup) hsp'
      refine ⟨b', ?_, hshape.trans hsh, hr, hsp''⟩
      exact (if_neg hv).trans hb'

/-- Offsets of `S` outside `T` all lie under `offset`, where `T` has none. -/
theorem clearBitAtDepth_spec (size x : ℕ) (hx : x < size) (S T : Finset ℕ) (hTS : T ⊆ S) (n : ℕ) :
    ∀ (offset : ℕ) (b : KPageBitmap), Sized b size → n ≤ b.usedDepths →
      (n ≠ 0 → x / 64 ^ (b.usedDepths - n) = offset) →
      (n ≠ 0 → ∀ y ∈ S, y ∉ T → y / 64 ^ (b.usedDepths - n) = offset) →
      (n ≠ 0 → ∀ y ∈ T, y / 64 ^ (b.usedDepths - n) ≠ offset) → Split b n S T →
      ∃ b', clearBitAtDepth n offset b = some b' ∧ Shaped b b' ∧ b'.rng = b.rng ∧
        Split b' 0 S T := by
  induction n with
  | zero =>
    intro offset b _ _ _ _ _ hsp
    exact ⟨b, rfl, Shaped.refl b, rfl, hsp⟩
  | succ n ih =>
    intro offset b hs hn hoff hout hin hsp
    have hoff := hoff (Nat.succ_ne_zero n)
    have hout := hout (Nat.succ_ne_zero n)
    have hin := hin (Nat.succ_ne_zero n)
    have hk : b.usedDepths - n = b.usedDepths - (n + 1) + 1 := by omega
    have hunit : b.usedDepths - 1 - n = b.usedDepths - (n + 1) := by omega
    have hup : x / 64 ^ (b.usedDepths - n) = offset / 64 := by
      rw [hk, div_pow_succ, hoff]
    have hl : offset / 64 < (b.bitStorages n).length := by
      rw [← hup]
      exact hs.lengths n (by omega) x hx
    obtain ⟨v, hword, hbit⟩ := word_eq b n (offset / 64) (lt_of_lt_of_le hn hs.depth) hl
    have hnew : Stores (b.setWord n (offset / 64) (v &&& ~~~((1 : BitVec 64) <<< (offset % 64)))) n T := by
      intro j
      change _ ↔ ∃ y ∈ T, y / 64 ^ (b.usedDepths - 1 - n) = j
      have hold := hsp.1 n (Nat.lt_succ_self n) j
      have hmask : (∃ y ∈ T, y / 64 ^ (b.usedDepths - 1 - n) = j) ↔
          b.bit n j = true ∧ j ≠ offset := by
        rw [hold, hunit]
        constructor
        · rintro ⟨y, hy, rfl⟩
          exact ⟨⟨y, hTS hy, rfl⟩, hin y hy⟩
        · rintro ⟨⟨y, hy, rfl⟩, hj⟩
          by_cases hyT : y ∈ T
          · exact ⟨y, hyT, rfl⟩
          · exact absurd (hout y hy hyT) hj
      rw [hmask, bit_setWord b n _ n j _ hl]
      by_cases hj : j / 64 = offset / 64
      · rw [if_pos ⟨rfl, hj⟩, BitVec.getLsbD_and, BitVec.getLsbD_not,
          getLsbD_one_shiftLeft _ _ (by omega), hbit j hj, Bool.and_eq_true]
        apply and_congr_right
        intro _
        have hlt : j % 64 < 64 := by omega
        simp only [hlt, decide_true, Bool.true_and, Bool.not_eq_true', decide_eq_false_iff_not]
        apply not_congr
        constructor <;> intro h <;> omega
      · rw [if_neg (by simp [hj])]
        have hne : j ≠ offset := fun h => hj (by rw [h])
        simp [hne]
    have hsp' := split_setWord b n _ _ S _ hsp hl hnew
    have hshape := setWord_shaped b n (offset / 64) (v &&& ~~~((1 : BitVec 64) <<< (offset % 64)))
    have hread : ∀ y ∈ T, y / 64 ^ (b.usedDepths - n) = offset / 64 →
        (v &&& ~~~((1 : BitVec 64) <<< (offset % 64))) ≠ 0 := by
      intro y hy hyo
      have hj : y / 64 ^ (b.usedDepths - 1 - n) / 64 = offset / 64 := by
        rw [hunit, ← div_pow_succ, ← hk, hyo]
      have hset := (hnew (y / 64 ^ (b.usedDepths - 1 - n))).mpr ⟨y, hy, rfl⟩
      rw [bit_setWord b n _ n _ _ hl, if_pos ⟨rfl, hj⟩] at hset
      rw [ne_zero_iff]
      exact ⟨_, Nat.mod_lt _ (by omega), hset⟩
    rw [clearBitAtDepth, bitsPerU64, hword]
    by_cases hv : (v &&& ~~~((1 : BitVec 64) <<< (offset % 64))) ≠ 0
    · refine ⟨_, if_pos hv, hshape, rfl, ?_⟩
      -- a neighbour stays in the word, and keeps every depth above it set
      obtain ⟨k, hk64, hvk⟩ := (ne_zero_iff _).mp hv
      have hj : (offset / 64 * 64 + k) / 64 = offset / 64 := by omega
      have hset : (b.setWord n (offset / 64) (v &&& ~~~((1 : BitVec 64) <<< (offset % 64)))).bit n
          (offset / 64 * 64 + k) = true := by
        rw [bit_setWord b n _ n _ _ hl, if_pos ⟨rfl, hj⟩,
          show (offset / 64 * 64 + k) % 64 = k by omega, hvk]
      obtain ⟨y, hy, hyj⟩ := (hnew _).mp hset
      change y / 64 ^ (b.usedDepths - 1 - n) = offset / 64 * 64 + k at hyj
      rw [hunit] at hyj
      apply split_stop _ n S T hsp' (by change n ≤ b.usedDepths; omega)
      · intro z hz
        by_cases hzT : z ∈ T
        · exact ⟨z, hzT, rfl⟩
        · refine ⟨y, hy, ?_⟩
          change z / 64 ^ (b.usedDepths - n) = y / 64 ^ (b.usedDepths - n)
          rw [hk, div_pow_succ, div_pow_succ, hout z hz hzT, hyj, hj]
      · intro z hz
        exact ⟨z, hTS hz, rfl⟩
    · obtain ⟨b', hb', hsh, hr, hsp''⟩ := ih (offset / 64) _ (hs.shaped hshape)
        (by change n ≤ b.usedDepths; omega) (fun _ => hup)
        (by
          intro _ y hy hyT
          change y / 64 ^ (b.usedDepths - n) = offset / 64
          rw [hk, div_pow_succ, hout y hy hyT])
        (by
          intro _ y hy hyo
          exact hv (hread y hy hyo)) hsp'
      refine ⟨b', ?_, hshape.trans hsh, hr, hsp''⟩
      exact (if_neg hv).trans hb'

end KPageBitmap
end Ruzu.PageBitmap
