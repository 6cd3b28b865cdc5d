import Mathlib

/-!
# Sets of numbers as bits of words

The number `i` is the bit `i % 64` of the word `i / 64`. Words that are not there
have no bits.
-/

set_option autoImplicit false

namespace Ruzu.Words

theorem ne_zero_iff (v : BitVec 64) : v ≠ 0 ↔ ∃ k < 64, v.getLsbD k = true := by
  constructor
  · intro hne
    by_contra hnone
    refine hne (BitVec.eq_of_getLsbD_eq fun i hi => ?_)
    rw [Bool.eq_false_iff.mpr fun hbit => hnone ⟨i, hi, hbit⟩]
    exact BitVec.getLsbD_zero.symm
  · rintro ⟨k, -, hbit⟩ rfl
    exact Bool.false_ne_true (BitVec.getLsbD_zero.symm.trans hbit)

theorem getLsbD_one_shiftLeft (k i : ℕ) (hk : k < 64) :
    ((1 : BitVec 64) <<< k).getLsbD i = decide (i = k) := by
  rw [BitVec.getLsbD_shiftLeft]
  by_cases hi : i < 64
  · by_cases hik : i < k
    · simp [hik, show i ≠ k by omega]
    · simp only [hi, decide_true, hik, decide_false, Bool.not_false, Bool.true_and]
      rw [show (1 : BitVec 64) = 1#64 from rfl, BitVec.getLsbD_one]
      simp only [Nat.zero_lt_succ, decide_true, Bool.true_and]
      exact decide_eq_decide.mpr (by omega)
  · simp [hi, show i ≠ k by omega]

theorem shiftRight_and_one (v : BitVec 64) (k : ℕ) :
    v >>> k &&& 1 ≠ 0 ↔ v.getLsbD k = true := by
  have hbit : ∀ j, (v >>> k &&& 1).getLsbD j = (v.getLsbD (k + j) && decide (j = 0)) := by
    intro j
    rw [BitVec.getLsbD_and, BitVec.getLsbD_ushiftRight, show (1 : BitVec 64) = 1#64 from rfl,
      BitVec.getLsbD_one]
    rfl
  simp only [ne_zero_iff, hbit, Bool.and_eq_true, decide_eq_true_eq]
  constructor
  · rintro ⟨j, -, hj, rfl⟩
    exact hj
  · exact fun hk => ⟨0, Nat.zero_lt_succ 63, hk, rfl⟩


/-- How many bits below the lowest set bit are clear. -/
def trailingZeros (v : BitVec 64) : ℕ := ((List.range 64).find? fun i => v.getLsbD i).getD 64

/-- The lowest set bit is found as the least number. -/
theorem find?_getLsbD {v : BitVec 64} (hv : v ≠ 0) :
    (List.range 64).find? (fun i => v.getLsbD i) = some (trailingZeros v) := by
  obtain ⟨k, hk, hbit⟩ := (ne_zero_iff v).mp hv
  obtain ⟨i, hi⟩ : ∃ i, (List.range 64).find? (fun i => v.getLsbD i) = some i := by
    rw [← Option.isSome_iff_exists, List.find?_isSome]
    exact ⟨k, List.mem_range.mpr hk, hbit⟩
  rw [trailingZeros, hi]
  rfl

theorem trailingZeros_lt {v : BitVec 64} (hv : v ≠ 0) : trailingZeros v < 64 :=
  List.mem_range.mp (List.mem_of_find?_eq_some (find?_getLsbD hv))

def bit (words : List (BitVec 64)) (i : ℕ) : Bool := (words[i / 64]?.getD 0).getLsbD (i % 64)

variable {words : List (BitVec 64)} {word : BitVec 64} {i : ℕ}

theorem bit_of_word (h : words[i / 64]? = some word) : bit words i = word.getLsbD (i % 64) := by
  rw [bit, h]
  rfl

theorem bit_of_le (h : words.length ≤ i / 64) : bit words i = false := by
  rw [bit, List.getElem?_eq_none h]
  exact BitVec.getLsbD_zero

theorem bit_append_zeros (n : ℕ) : bit (words ++ List.replicate n 0) i = bit words i := by
  rw [bit, bit]
  rcases Nat.lt_or_ge (i / 64) words.length with hlt | hge
  · rw [List.getElem?_append_left hlt]
  · rw [List.getElem?_append_right hge, List.getElem?_replicate, List.getElem?_eq_none hge]
    split <;> rfl

/-- Another word in place of one changes no bit of the others. -/
theorem bit_set (h : words[i / 64]? = some word) (value : BitVec 64) (j : ℕ) :
    bit (words.set (i / 64) value) j =
      if j / 64 = i / 64 then value.getLsbD (j % 64) else bit words j := by
  have hlt := (List.getElem?_eq_some_iff.mp h).1
  rw [bit, List.getElem?_set]
  by_cases hj : i / 64 = j / 64
  · rw [if_pos hj, if_pos hlt, if_pos hj.symm]
    rfl
  · rw [if_neg hj, if_neg fun heq => hj heq.symm, bit]

theorem bit_insert (h : words[i / 64]? = some word) (j : ℕ) :
    bit (words.set (i / 64) (word ||| (1 : BitVec 64) <<< (i % 64))) j =
      (decide (j = i) || bit words j) := by
  rw [bit_set h, BitVec.getLsbD_or, getLsbD_one_shiftLeft _ _ (Nat.mod_lt _ (by omega))]
  split
  · rename_i hj
    have heq : j % 64 = i % 64 ↔ j = i := by omega
    rw [bit_of_word (hj ▸ h), Bool.or_comm, decide_eq_decide.mpr heq]
  · rw [decide_eq_false (show ¬ j = i by omega), Bool.false_or]

theorem bit_remove (h : words[i / 64]? = some word) (j : ℕ) :
    bit (words.set (i / 64) (word &&& ~~~((1 : BitVec 64) <<< (i % 64)))) j =
      (!decide (j = i) && bit words j) := by
  have hmod : ∀ k, k % 64 < 64 := fun k => Nat.mod_lt _ (by omega)
  rw [bit_set h, BitVec.getLsbD_and, BitVec.getLsbD_not, getLsbD_one_shiftLeft _ _ (hmod i),
    decide_eq_true (hmod j), Bool.true_and]
  split
  · rename_i hj
    have heq : j % 64 = i % 64 ↔ j = i := by omega
    rw [bit_of_word (hj ▸ h), Bool.and_comm, decide_eq_decide.mpr heq]
  · rw [decide_eq_false (show ¬ j = i by omega), Bool.not_false, Bool.true_and]

/-- The least number in a word, as it is found by the bits of the word alone. -/
theorem find?_bit {w : ℕ} (h : words[w]? = some word) :
    (List.range' (64 * w) 64).find? (bit words) =
      if word ≠ 0 then some (64 * w + trailingZeros word) else none := by
  have hbit : ∀ k ∈ List.range 64, (bit words ∘ (64 * w + ·)) k = word.getLsbD k := by
    intro k hk
    rw [List.mem_range] at hk
    have hdiv : (64 * w + k) / 64 = w := by omega
    have hmod : (64 * w + k) % 64 = k := by omega
    rw [Function.comp_apply, bit_of_word (hdiv.symm ▸ h), hmod]
  rw [List.range'_eq_map_range, List.find?_map, List.find?_congr hbit]
  split
  · rename_i hne
    rw [find?_getLsbD hne]
    rfl
  · rename_i hzero
    rw [not_not] at hzero
    rw [hzero, List.find?_eq_none.mpr, Option.map_none]
    exact fun k _ hk => Bool.false_ne_true (BitVec.getLsbD_zero.symm.trans hk)


end Ruzu.Words
