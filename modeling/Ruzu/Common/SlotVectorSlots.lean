import Mathlib
import Ruzu.Common.SlotVector

/-!
# What a slot vector keeps

The values, the bit set and the free list agree on which slots are occupied, and
every operation changes the three of them alike.
-/

set_option autoImplicit false

namespace Ruzu.SlotVector

open SlotId (invalidIndex)

variable {T : Type} {s s' : SlotVector T} {i n : ℕ} {x y : T}

/-! ### Bits -/

section Bits

variable {bitset : List (BitVec 64)}

theorem readBit_eq (h : i / 64 < bitset.length) :
    readBit bitset i = some (Words.bit bitset i) := by
  obtain ⟨word, hword⟩ : ∃ word, bitset[i / 64]? = some word :=
    ⟨_, List.getElem?_eq_getElem h⟩
  rw [readBit, hword, Words.bit_of_word hword, Option.map_some, Option.some_inj, Bool.eq_iff_iff,
    decide_eq_true_eq]
  exact Words.shiftRight_and_one word (i % 64)

theorem setStorageBit_spec (h : i / 64 < s.storedBitset.length) : ∃ bitset,
    s.setStorageBit i = some { s with storedBitset := bitset } ∧
      bitset.length = s.storedBitset.length ∧
      ∀ j, Words.bit bitset j = (decide (j = i) || Words.bit s.storedBitset j) := by
  obtain ⟨word, hword⟩ : ∃ word, s.storedBitset[i / 64]? = some word :=
    ⟨_, List.getElem?_eq_getElem h⟩
  refine ⟨_, ?_, List.length_set, Words.bit_insert hword⟩
  rw [setStorageBit, hword, Option.map_some]

theorem resetStorageBit_spec (h : i / 64 < s.storedBitset.length) : ∃ bitset,
    s.resetStorageBit i = some { s with storedBitset := bitset } ∧
      bitset.length = s.storedBitset.length ∧
      ∀ j, Words.bit bitset j = (!decide (j = i) && Words.bit s.storedBitset j) := by
  obtain ⟨word, hword⟩ : ∃ word, s.storedBitset[i / 64]? = some word :=
    ⟨_, List.getElem?_eq_getElem h⟩
  refine ⟨_, ?_, List.length_set, Words.bit_remove hword⟩
  rw [resetStorageBit, hword, Option.map_some]

end Bits

/-! ### The three parts of a slot vector -/

/-- The capacity is a power of two up to `2 ^ 30`, or nothing. -/
structure Sound (s : SlotVector T) : Prop where
  capacity : s.values = [] ∨ ∃ e ≤ 30, s.values.length = 2 ^ e
  words : s.storedBitset.length = (s.values.length + 63) / 64
  bits : ∀ i, Words.bit s.storedBitset i = (s.values[i]?.join).isSome
  nodup : s.freeList.Nodup
  free : ∀ i, i ∈ s.freeList ↔ s.values[i]? = some none

theorem Sound.new : Sound (.new : SlotVector T) where
  capacity := .inl rfl
  words := by simp [SlotVector.new]
  bits i := by
    rw [Words.bit_of_le (Nat.zero_le _)]
    rfl
  nodup := List.nodup_nil
  free i := by simp [SlotVector.new]

theorem Sound.length_le (h : Sound s) : s.values.length ≤ 2 ^ 30 := by
  rcases h.capacity with hnil | ⟨e, he, hlength⟩
  · rw [hnil]
    exact Nat.zero_le _
  · rw [hlength]
    exact Nat.pow_le_pow_right Nat.two_pos he

theorem Sound.word_lt (h : Sound s) (hi : i < s.values.length) :
    i / 64 < s.storedBitset.length := by
  rw [h.words]
  omega

section Growth

theorem resize_of_le {α : Type} {l : List α} (h : l.length ≤ n) (x : α) :
    resize l n x = l ++ List.replicate (n - l.length) x := by
  rw [resize, List.take_of_length_le h]

theorem getElem?_append_none {values : List (Option T)} :
    (values ++ List.replicate n none)[i]? = some (some x) ↔ values[i]? = some (some x) := by
  rcases Nat.lt_or_ge i values.length with hlt | hge
  · rw [List.getElem?_append_left hlt]
  · rw [List.getElem?_append_right hge, List.getElem?_replicate, List.getElem?_eq_none hge]
    simp

theorem map_range'_u32 {lo count : ℕ} (h : lo + count ≤ 2 ^ 32) :
    (List.range' lo count).map (· % 2 ^ 32) = List.range' lo count := by
  have hid : ∀ i ∈ List.range' lo count, i % 2 ^ 32 = id i := by
    intro i hi
    rw [List.mem_range'_1] at hi
    exact Nat.mod_eq_of_lt (by omega)
  rw [List.map_congr_left hid, List.map_id]

/-- Nothing is free before the growth, and just the new slots after it. -/
theorem reserve_spec (h : Sound s) (hfree : s.freeList = []) {e : ℕ} (he : e ≤ 30)
    (hn : n = 2 ^ e) (hle : s.values.length ≤ n) :
    Sound (s.reserve n) ∧ (s.reserve n).freeList = List.range' s.values.length (n - s.values.length) ∧
      ∀ (i : ℕ) (x : T), (s.reserve n).values[i]? = some (some x) ↔ s.values[i]? = some (some x) := by
  have hn32 : n ≤ 2 ^ 30 := by
    rw [hn]
    exact Nat.pow_le_pow_right Nat.two_pos he
  have hvalues : (s.reserve n).values = s.values ++ List.replicate (n - s.values.length) none :=
    resize_of_le hle none
  have hlength : (s.reserve n).values.length = n := by
    rw [hvalues, List.length_append, List.length_replicate]
    omega
  have hwords : s.storedBitset.length ≤ (n + 63) / 64 := by
    rw [h.words]
    omega
  have hlist : (s.reserve n).freeList = List.range' s.values.length (n - s.values.length) := by
    rw [reserve, hfree, List.nil_append, map_range'_u32 (by omega)]
  have hsome : ∀ (i : ℕ) (x : T), (s.reserve n).values[i]? = some (some x) ↔ s.values[i]? = some (some x) := by
    intro i x
    rw [hvalues, getElem?_append_none]
  refine ⟨⟨.inr ⟨e, he, hlength.trans hn⟩, ?_, fun i => ?_, ?_, fun i => ?_⟩, hlist, hsome⟩
  · rw [hlength, reserve, resize_of_le hwords, List.length_append, List.length_replicate]
    omega
  · rw [reserve, resize_of_le hwords, Words.bit_append_zeros, h.bits, Bool.eq_iff_iff,
      Option.isSome_iff_exists, Option.isSome_iff_exists]
    simp only [Option.join_eq_some_iff]
    exact exists_congr fun x => (hsome i x).symm
  · rw [hlist]
    exact List.nodup_range'
  · have hnone : ¬ s.values[i]? = some none := by
      rw [← h.free, hfree]
      exact List.not_mem_nil
    rw [hlist, List.mem_range'_1, hvalues]
    rcases Nat.lt_or_ge i s.values.length with hlt | hge
    · rw [List.getElem?_append_left hlt]
      exact iff_of_false (by omega) hnone
    · rw [List.getElem?_append_right hge, List.getElem?_replicate]
      split
      · exact iff_of_true (by omega) rfl
      · exact iff_of_false (by omega) nofun

end Growth

/-! ### Slots filled and emptied -/

section Slots

variable {bitset : List (BitVec 64)}

/-- A slot is filled, and its bit set. -/
theorem Sound.fill (h : Sound s) {rest : List ℕ} (hlast : s.freeList = rest ++ [i])
    (hlength : bitset.length = s.storedBitset.length)
    (hbits : ∀ j, Words.bit bitset j = (decide (j = i) || Words.bit s.storedBitset j)) (x : T) :
    Sound ⟨s.values.set i (some x), bitset, rest⟩ := by
  have hi : s.values[i]? = some none := (h.free i).mp (hlast ▸ List.mem_concat_self)
  have hlt := (List.getElem?_eq_some_iff.mp hi).1
  have hnodup := h.nodup
  rw [hlast, List.nodup_append] at hnodup
  refine ⟨?_, ?_, fun j => ?_, hnodup.1, fun j => ?_⟩
  · rw [List.length_set]
    refine h.capacity.imp_left fun hnil => ?_
    rw [hnil]
    rfl
  · rw [hlength, h.words, List.length_set]
  · rw [hbits, h.bits, List.getElem?_set]
    by_cases hj : i = j
    · rw [if_pos hj, if_pos hlt, decide_eq_true hj.symm]
      rfl
    · rw [if_neg hj, decide_eq_false (Ne.symm hj), Bool.false_or]
  · have hfree := h.free j
    rw [hlast, List.mem_append, List.mem_singleton] at hfree
    rw [List.getElem?_set]
    by_cases hj : i = j
    · rw [if_pos hj, if_pos hlt]
      exact iff_of_false (fun hin => hnodup.2.2 j hin i List.mem_cons_self hj.symm) nofun
    · rw [if_neg hj, ← hfree]
      exact ⟨.inl, fun hin => hin.resolve_right (Ne.symm hj)⟩

/-- A slot is emptied, and its bit cleared. -/
theorem Sound.clear (h : Sound s) (hi : s.values[i]? = some (some x))
    (hlength : bitset.length = s.storedBitset.length)
    (hbits : ∀ j, Words.bit bitset j = (!decide (j = i) && Words.bit s.storedBitset j)) :
    Sound ⟨s.values.set i none, bitset, s.freeList ++ [i]⟩ := by
  have hlt := (List.getElem?_eq_some_iff.mp hi).1
  have hout : i ∉ s.freeList := by
    rw [h.free, hi]
    nofun
  refine ⟨?_, ?_, fun j => ?_, ?_, fun j => ?_⟩
  · rw [List.length_set]
    refine h.capacity.imp_left fun hnil => ?_
    rw [hnil]
    rfl
  · rw [hlength, h.words, List.length_set]
  · rw [hbits, h.bits, List.getElem?_set]
    by_cases hj : i = j
    · rw [if_pos hj, if_pos hlt, decide_eq_true hj.symm]
      rfl
    · rw [if_neg hj, decide_eq_false (Ne.symm hj), Bool.not_false, Bool.true_and]
  · rw [← List.concat_eq_append, List.nodup_concat]
    exact ⟨hout, h.nodup⟩
  · rw [List.mem_append, List.mem_singleton, h.free, List.getElem?_set]
    by_cases hj : i = j
    · rw [if_pos hj, if_pos hlt]
      exact iff_of_true (.inr hj.symm) rfl
    · rw [if_neg hj]
      exact ⟨fun hin => hin.resolve_right (Ne.symm hj), .inl⟩

end Slots

/-! ### Operations -/

/-- The same slots are occupied, with the same values. -/
def SameValues (s s' : SlotVector T) : Prop :=
  ∀ (j : ℕ) (x : T), s'.values[j]? = some (some x) ↔ s.values[j]? = some (some x)

/-- Growing doubles the capacity. -/
theorem Sound.grow (h : Sound s) (hfree : s.freeList = []) (hroom : s.values.length < 2 ^ 30) :
    ∃ n, (if s.values = [] then 1 else s.values.length * 2) = n ∧ Sound (s.reserve n) ∧
      (s.reserve n).freeList ≠ [] ∧ SameValues s (s.reserve n) := by
  obtain ⟨e, he, hn, hlt⟩ : ∃ e ≤ 30,
      (if s.values = [] then 1 else s.values.length * 2) = 2 ^ e ∧ s.values.length < 2 ^ e := by
    rcases h.capacity with hnil | ⟨e, he, hlength⟩
    · exact ⟨0, Nat.zero_le _, if_pos hnil, by rw [hnil]; exact Nat.one_pos⟩
    · have hne : s.values ≠ [] := by
        rintro hnil
        rw [hnil, List.length_nil] at hlength
        exact (Nat.two_pow_pos e).ne hlength
      rw [hlength] at hroom
      have he' := (Nat.pow_lt_pow_iff_right Nat.one_lt_two).mp hroom
      refine ⟨e + 1, he', ?_, ?_⟩
      · rw [if_neg hne, hlength, Nat.pow_succ]
      · rw [hlength]
        exact Nat.pow_lt_pow_right Nat.one_lt_two (Nat.lt_succ_self e)
  obtain ⟨hsound, hlist, hsame⟩ := reserve_spec h hfree he rfl hlt.le
  refine ⟨2 ^ e, hn, hsound, fun hnil => ?_, hsame⟩
  have hlength := congrArg List.length (hlist.symm.trans hnil)
  rw [List.length_range', List.length_nil] at hlength
  omega

theorem freeValueIndex_spec (h : Sound s) (hroom : s.freeList = [] → s.values.length < 2 ^ 30) :
    ∃ s₁ rest i, s.freeValueIndex = some ({ s₁ with freeList := rest }, i) ∧ Sound s₁ ∧
      s₁.freeList = rest ++ [i] ∧ SameValues s s₁ := by
  obtain ⟨s₁, hs₁, hsound, hne, hsame⟩ : ∃ s₁, (if s.freeList = [] then
      s.reserve (if s.values = [] then 1 else s.values.length * 2) else s) = s₁ ∧ Sound s₁ ∧
        s₁.freeList ≠ [] ∧ SameValues s s₁ := by
    by_cases hfree : s.freeList = []
    · obtain ⟨n, hn, hgrow⟩ := h.grow hfree (hroom hfree)
      exact ⟨_, by rw [if_pos hfree, hn], hgrow⟩
    · exact ⟨s, if_neg hfree, h, hfree, fun _ _ => Iff.rfl⟩
  obtain ⟨rest, i, hlast⟩ := (List.eq_nil_or_concat' s₁.freeList).resolve_left hne
  refine ⟨s₁, rest, i, ?_, hsound, hlast, hsame⟩
  rw [freeValueIndex, hs₁, hlast, List.getLast?_concat, List.dropLast_concat]
  rfl

theorem insert_spec (h : Sound s) (hroom : s.freeList = [] → s.values.length < 2 ^ 30) (x : T) :
    ∃ s' i, s.insert x = some (s', ⟨i⟩) ∧ Sound s' ∧ (∀ y : T, s.values[i]? ≠ some (some y)) ∧
      ∀ (j : ℕ) (y : T), s'.values[j]? = some (some y) ↔
        (j = i ∧ y = x) ∨ s.values[j]? = some (some y) := by
  obtain ⟨s₁, rest, i, hfree, hsound, hlast, hsame⟩ := freeValueIndex_spec h hroom
  have hi : s₁.values[i]? = some none := (hsound.free i).mp (hlast ▸ List.mem_concat_self)
  have hlt := (List.getElem?_eq_some_iff.mp hi).1
  obtain ⟨bitset, hbitset, hlength, hbits⟩ :=
    setStorageBit_spec (s := ⟨s₁.values.set i (some x), s₁.storedBitset, rest⟩) (hsound.word_lt hlt)
  refine ⟨⟨s₁.values.set i (some x), bitset, rest⟩, i, ?_, hsound.fill hlast hlength hbits x,
    fun y hy => ?_, fun j y => ?_⟩
  · rw [insert, hfree]
    dsimp only [bind, Option.bind]
    rw [write, if_pos hlt]
    dsimp only
    rw [hbitset]
  · rw [← hsame, hi] at hy
    cases hy
  · dsimp only
    rw [← hsame, List.getElem?_set]
    by_cases hj : i = j
    · rw [if_pos hj, if_pos hlt, ← hj, hi]
      simp [eq_comm]
    · rw [if_neg hj]
      simp [Ne.symm hj]

/-- What erasing and taking have in common. -/
theorem empty_spec (h : Sound s) (hi : s.values[i]? = some (some x)) :
    ∃ s₁ s', s.write i none = some s₁ ∧
      resetStorageBit { s₁ with freeList := s₁.freeList ++ [i] } i = some s' ∧ Sound s' ∧
        ∀ (j : ℕ) (y : T), s'.values[j]? = some (some y) ↔ j ≠ i ∧ s.values[j]? = some (some y) := by
  have hlt := (List.getElem?_eq_some_iff.mp hi).1
  obtain ⟨bitset, hbitset, hlength, hbits⟩ := resetStorageBit_spec
    (s := ⟨s.values.set i none, s.storedBitset, s.freeList ++ [i]⟩) (h.word_lt hlt)
  refine ⟨_, ⟨s.values.set i none, bitset, s.freeList ++ [i]⟩, if_pos hlt, hbitset,
    h.clear hi hlength hbits, fun j y => ?_⟩
  dsimp only
  rw [List.getElem?_set]
  by_cases hj : i = j
  · rw [if_pos hj, if_pos hlt]
    simp [hj]
  · rw [if_neg hj]
    simp [Ne.symm hj]


end Ruzu.SlotVector
