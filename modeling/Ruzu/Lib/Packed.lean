import Mathlib

/-!
# Fields packed into words

A list of words holds an array of small fields, several to a word. Writing one
field leaves all others as they were.
-/

set_option autoImplicit false

namespace Ruzu.Packed

variable {n : ℕ}

/-- The lowest field of a word, all ones. -/
def mask (n bits : ℕ) : BitVec n := BitVec.ofNat n (2 ^ bits - 1)

def field (bits : ℕ) (word : BitVec n) (i : ℕ) : BitVec n := (word >>> (bits * i)) &&& mask n bits

def putField (bits : ℕ) (word : BitVec n) (i : ℕ) (value : BitVec n) : BitVec n :=
  (~~~(mask n bits <<< (bits * i)) &&& word) ||| (value <<< (bits * i))

theorem mask_getLsbD (n bits i : ℕ) :
    (mask n bits).getLsbD i = (decide (i < n) && decide (i < bits)) := by
  rw [mask, BitVec.getLsbD_ofNat, Nat.testBit_two_pow_sub_one]

theorem field_getLsbD (bits : ℕ) (word : BitVec n) (i k : ℕ) :
    (field bits word i).getLsbD k = (decide (k < bits) && word.getLsbD (bits * i + k)) := by
  rw [field, BitVec.getLsbD_and, BitVec.getLsbD_ushiftRight, mask_getLsbD]
  by_cases hk : k < n
  · simp [hk, Bool.and_comm]
  · simp [hk, BitVec.getLsbD_of_ge word (bits * i + k) (by omega)]

theorem putField_getLsbD {bits i k : ℕ} {word value : BitVec n} (hk : k < n) :
    (putField bits word i value).getLsbD k =
      if bits * i ≤ k ∧ k < bits * i + bits then value.getLsbD (k - bits * i)
      else word.getLsbD k || (decide (bits * i ≤ k) && value.getLsbD (k - bits * i)) := by
  rw [putField, BitVec.getLsbD_or, BitVec.getLsbD_and, BitVec.getLsbD_not,
    BitVec.getLsbD_shiftLeft, BitVec.getLsbD_shiftLeft, mask_getLsbD]
  by_cases hlow : bits * i ≤ k
  · by_cases hhigh : k < bits * i + bits
    · simp [hk, hlow, hhigh, show k - bits * i < n by omega, show k - bits * i < bits by omega,
        show ¬ k < bits * i by omega]
    · simp [hk, hlow, hhigh, show ¬ k - bits * i < bits by omega, show ¬ k < bits * i by omega]
  · simp [hk, hlow, show k < bits * i by omega]

/-- A field of the word that has been written. -/
theorem field_putField {bits i j : ℕ} {word value : BitVec n} (hj : bits * (j + 1) ≤ n)
    (hvalue : value &&& mask n bits = value) :
    field bits (putField bits word i value) j = if j = i then value else field bits word j := by
  have hbits : ∀ k, bits ≤ k → value.getLsbD k = false := by
    intro k hk
    rw [← hvalue, BitVec.getLsbD_and, mask_getLsbD]
    simp [Nat.not_lt.mpr hk]
  refine BitVec.eq_of_getLsbD_eq fun k _ => ?_
  rw [field_getLsbD]
  by_cases hk : k < bits
  · have hlt : bits * j + k < n := by
      rw [Nat.mul_succ] at hj
      omega
    rw [putField_getLsbD hlt]
    by_cases hij : j = i
    · subst hij
      simp [hk]
    · have hout : ¬(bits * i ≤ bits * j + k ∧ bits * j + k < bits * i + bits) := by
        rcases Nat.lt_or_gt_of_ne hij with hlt' | hgt
        · have hmul := Nat.mul_le_mul_left bits (Nat.succ_le_of_lt hlt')
          rw [Nat.mul_succ] at hmul
          omega
        · have hmul := Nat.mul_le_mul_left bits (Nat.succ_le_of_lt hgt)
          rw [Nat.mul_succ] at hmul
          omega
      have hhigh : (decide (bits * i ≤ bits * j + k) &&
          value.getLsbD (bits * j + k - bits * i)) = false := by
        by_cases hle : bits * i ≤ bits * j + k
        · rw [hbits _ (by omega), Bool.and_false]
        · simp [hle]
      rw [if_neg hout, hhigh, Bool.or_false, if_neg hij, field_getLsbD]
  · have hge : bits ≤ k := Nat.le_of_not_lt hk
    simp only [hk, decide_false, Bool.false_and]
    split
    · exact (hbits k hge).symm
    · rw [field_getLsbD]
      simp [hk]

/-- `per` fields to a word. -/
def get (bits per : ℕ) (words : List (BitVec n)) (i : ℕ) : Option (BitVec n) :=
  words[i / per]?.map (field bits · (i % per))

def put (bits per : ℕ) (words : List (BitVec n)) (i : ℕ) (value : BitVec n) :
    Option (List (BitVec n)) :=
  words[i / per]?.map fun word => words.set (i / per) (putField bits word (i % per) value)

variable {bits per i : ℕ} {words : List (BitVec n)}

theorem get_isSome (bits : ℕ) (h : i < words.length * per) : (get bits per words i).isSome := by
  rw [get, Option.isSome_map,
    List.getElem?_eq_getElem (Nat.div_lt_of_lt_mul (by rwa [Nat.mul_comm]))]
  rfl

theorem get_replicate_zero {length : ℕ} (h : i < length * per) :
    get bits per (List.replicate length (0 : BitVec n)) i = some 0 := by
  rw [get, List.getElem?_replicate_of_lt (Nat.div_lt_of_lt_mul (by rwa [Nat.mul_comm])),
    Option.map_some]
  simp [field]

/-- Writing a field succeeds inside the array and changes that field alone. -/
theorem put_eq (hper : 0 < per) (hfit : bits * per ≤ n) (hi : i < words.length * per)
    {value : BitVec n} (hvalue : value &&& mask n bits = value) :
    ∃ words', put bits per words i value = some words' ∧ words'.length = words.length ∧
      ∀ j, get bits per words' j = if j = i then some value else get bits per words j := by
  have hslot : i / per < words.length := Nat.div_lt_of_lt_mul (by rwa [Nat.mul_comm])
  refine ⟨words.set (i / per) (putField bits words[i / per] (i % per) value), ?_,
    List.length_set, fun j => ?_⟩
  · rw [put, List.getElem?_eq_getElem hslot, Option.map_some]
  · have hmod := Nat.mod_lt j hper
    have hroom : bits * (j % per + 1) ≤ n := (Nat.mul_le_mul_left bits hmod).trans hfit
    by_cases hword : j / per = i / per
    · rw [get, hword, List.getElem?_set_self hslot, Option.map_some,
        field_putField hroom hvalue]
      have hsame : j % per = i % per ↔ j = i := by
        constructor
        · intro hm
          rw [← Nat.div_add_mod j per, ← Nat.div_add_mod i per, hword, hm]
        · rintro rfl
          rfl
      simp only [hsame, get, hword, List.getElem?_eq_getElem hslot, Option.map_some]
      split <;> rfl
    · rw [get, List.getElem?_set_ne (Ne.symm hword), if_neg fun heq => hword (by rw [heq]), get]

end Ruzu.Packed
