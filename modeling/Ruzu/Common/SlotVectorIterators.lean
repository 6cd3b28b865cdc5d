import Ruzu.Common.SlotVectorSlots

/-!
# What the iterators of a slot vector visit

Both follow the bit set alone. Where it agrees with the values they visit the
occupied slots in order.
-/

set_option autoImplicit false

namespace Ruzu.SlotVector

open SlotId (invalidIndex)

variable {T : Type} {s : SlotVector T} {n : ℕ}

/-! ### Searches -/

section Searches

variable {debug : Bool} {bitset : List (BitVec 64)} {lo count fuel : ℕ}

theorem u32_of_lt (h : n < 2 ^ 32) : u32 debug n = some n := if_pos h

theorem scan_eq (h : lo + count ≤ 64 * bitset.length) : scan bitset count lo =
    some (((List.range' lo count).find? (Words.bit bitset)).getD invalidIndex) := by
  induction count generalizing lo with
  | zero => rfl
  | succ count ih =>
    rw [scan, readBit_eq (by omega), List.range'_succ]
    dsimp only [bind, Option.bind]
    split
    · rename_i hbit
      rw [List.find?_cons_of_pos hbit]
      rfl
    · rename_i hbit
      rw [ih (by omega), List.find?_cons_of_neg hbit]

variable (hsmall : 64 * bitset.length < 2 ^ 32)
include hsmall

theorem findNextSet_eq (h : lo < 64 * bitset.length) : findNextSet debug bitset lo =
    some (((List.range' (lo + 1) (64 * bitset.length - (lo + 1))).find? (Words.bit bitset)).getD
      invalidIndex) := by
  have hlength : bitset.length % 2 ^ 32 = bitset.length := Nat.mod_eq_of_lt (by omega)
  rw [findNextSet, hlength, u32_of_lt (by omega), u32_of_lt (by omega)]
  dsimp only [bind, Option.bind]
  rw [scan_eq (by omega), Nat.mul_comm bitset.length]

theorem findFirstSetFromBitset_eq {pre rest : List (BitVec 64)} (h : bitset = pre ++ rest) :
    findFirstSetFromBitset debug pre.length rest = some (((List.range' (64 * pre.length)
      (64 * rest.length)).find? (Words.bit bitset)).getD invalidIndex) := by
  induction rest generalizing pre with
  | nil => rfl
  | cons word rest ih =>
    have hword : bitset[pre.length]? = some word := by
      rw [h, List.getElem?_append_right (Nat.le_refl _), Nat.sub_self]
      rfl
    have hlength : bitset.length = pre.length + (rest.length + 1) := by
      rw [h, List.length_append, List.length_cons]
    have hrest : findFirstSetFromBitset debug (pre ++ [word]).length rest = _ :=
      ih (by rw [h, List.append_assoc, List.singleton_append])
    rw [List.length_append, List.length_singleton] at hrest
    have hrange : List.range' (64 * pre.length) (64 * (word :: rest).length) =
        List.range' (64 * pre.length) 64 ++
          List.range' (64 * (pre.length + 1)) (64 * rest.length) := by
      rw [List.length_cons, Nat.mul_succ, Nat.mul_succ, List.range'_append_1, Nat.add_comm 64]
    rw [findFirstSetFromBitset, hrange, List.find?_append, Words.find?_bit hword]
    split
    · rename_i hne
      have hmod : pre.length % 2 ^ 32 = pre.length := Nat.mod_eq_of_lt (by omega)
      have htrailing := Words.trailingZeros_lt hne
      rw [hmod, u32_of_lt (by omega)]
      dsimp only [bind, Option.bind]
      rw [u32_of_lt (by omega), Nat.mul_comm]
      rfl
    · rw [hrest, Option.none_or]

end Searches


/-! ### Walks along the bit set -/

/-- The occupied ones of `count` slots from `lo` on. -/
def items (values : List (Option T)) (lo count : ℕ) : List (SlotId × T) :=
  (List.range' lo count).filterMap fun i => (values[i]?.join).map (Prod.mk ⟨i⟩)

section Walks

variable {debug : Bool} {values : List (Option T)} {bitset : List (BitVec 64)} {lo count fuel : ℕ}

theorem items_cons_some {x : T} (h : values[lo]?.join = some x) :
    items values lo (count + 1) = (⟨lo⟩, x) :: items values (lo + 1) count := by
  rw [items, List.range'_succ, List.filterMap_cons, h]
  rfl

theorem items_cons_none (h : values[lo]?.join = none) :
    items values lo (count + 1) = items values (lo + 1) count := by
  rw [items, List.range'_succ, List.filterMap_cons, h]
  rfl

/-- A slot below `lo` is not looked at. -/
theorem items_set (h : n < lo) (x : Option T) :
    items (values.set n x) lo count = items values lo count := by
  refine List.filterMap_congr fun i hi => ?_
  rw [List.mem_range'_1] at hi
  rw [List.getElem?_set_ne (by omega)]

theorem mem_items {id : SlotId} {x : T} : (id, x) ∈ items values 0 count ↔
    id.index < count ∧ values[id.index]? = some (some x) := by
  rw [items, List.mem_filterMap]
  constructor
  · rintro ⟨i, hi, heq⟩
    rw [Option.map_eq_some_iff] at heq
    obtain ⟨y, hy, heq⟩ := heq
    cases heq
    rw [List.mem_range'_1, Nat.zero_add] at hi
    exact ⟨hi.2, Option.join_eq_some_iff.mp hy⟩
  · rintro ⟨hi, hx⟩
    refine ⟨id.index, List.mem_range'_1.mpr ⟨Nat.zero_le _, by rwa [Nat.zero_add]⟩, ?_⟩
    rw [hx]
    rfl

theorem items_pairwise :
    (items values lo count).Pairwise fun a b => a.1.index < b.1.index := by
  rw [items, List.pairwise_filterMap]
  refine (List.pairwise_lt_range' (s := lo) (n := count)).imp fun {i j} hlt => ?_
  intro a ha b hb
  obtain ⟨x, -, rfl⟩ := Option.map_eq_some_iff.mp ha
  obtain ⟨y, -, rfl⟩ := Option.map_eq_some_iff.mp hb
  exact hlt

theorem items_nodup : (items values lo count).Nodup := by
  refine List.Pairwise.imp (fun {a b} hlt heq => ?_) items_pairwise
  rw [heq] at hlt
  exact Nat.lt_irrefl _ hlt

variable (hsmall : 64 * bitset.length < 2 ^ 32)
include hsmall

theorem ne_invalidIndex (h : lo < 64 * bitset.length) : lo ≠ invalidIndex := by
  show lo ≠ 0xffffffff
  omega

/-- What is searched next is the rest of the slots. -/
theorem findNextSet_rest (h : lo + (count + 1) = 64 * bitset.length) :
    findNextSet debug bitset lo =
      some (((List.range' (lo + 1) count).find? (Words.bit bitset)).getD invalidIndex) := by
  rw [findNextSet_eq hsmall (by omega), show 64 * bitset.length - (lo + 1) = count by omega]

omit hsmall in
theorem iterFrom_eq (s : SlotVector T) (hsmall : 64 * s.storedBitset.length < 2 ^ 32)
    (hbits : ∀ i, Words.bit s.storedBitset i = (s.values[i]?.join).isSome)
    (hend : lo + count = 64 * s.storedBitset.length) (hfuel : count < fuel) :
    s.iterFrom debug fuel (((List.range' lo count).find? (Words.bit s.storedBitset)).getD
      invalidIndex) = some (items s.values lo count) := by
  induction count generalizing lo fuel with
  | zero =>
    cases fuel with
    | zero => cases hfuel
    | succ fuel => rfl
  | succ count ih =>
    rw [List.range'_succ]
    cases hslot : s.values[lo]?.join with
    | none =>
      have hclear : ¬ Words.bit s.storedBitset lo = true := by
        rw [hbits, hslot]
        nofun
      rw [List.find?_cons_of_neg hclear, ih (by omega) (by omega), items_cons_none hslot]
    | some x =>
      have hset : Words.bit s.storedBitset lo = true := by
        rw [hbits, hslot]
        rfl
      cases fuel with
      | zero => cases hfuel
      | succ fuel =>
        rw [List.find?_cons_of_pos hset, Option.getD_some, iterFrom,
          if_neg (ne_invalidIndex hsmall (by omega)), hslot, findNextSet_rest hsmall hend]
        dsimp only [bind, Option.bind]
        rw [ih (by omega) (by omega), items_cons_some hslot]

/-- The slots from `lo` on with their values replaced. -/
def replaced (f : SlotId → T → T) (values : List (Option T)) (lo : ℕ) : List (Option T) :=
  values.mapIdx fun i x => if lo ≤ i then x.map (f ⟨i⟩) else x

omit hsmall in
theorem getElem?_replaced (f : SlotId → T → T) (i : ℕ) : (replaced f values lo)[i]? =
    if lo ≤ i then (values[i]?).map (Option.map (f ⟨i⟩)) else values[i]? := by
  rw [replaced, List.getElem?_mapIdx]
  split
  · rfl
  · exact Option.map_id'

omit hsmall in
theorem replaced_none (f : SlotId → T → T) (h : values[lo]?.join = none) :
    replaced f values (lo + 1) = replaced f values lo := by
  refine List.ext_getElem? fun i => ?_
  rw [getElem?_replaced, getElem?_replaced]
  by_cases hi : i = lo
  · rw [hi, if_neg (Nat.not_succ_le_self lo), if_pos (Nat.le_refl lo)]
    rcases hslot : values[lo]? with _ | _ | x
    · rfl
    · rfl
    · rw [hslot] at h
      cases h
  · exact if_congr (by omega) rfl rfl

omit hsmall in
theorem replaced_some (f : SlotId → T → T) {x : T} (h : values[lo]?.join = some x) :
    replaced f (values.set lo (some (f ⟨lo⟩ x))) (lo + 1) = replaced f values lo := by
  rw [Option.join_eq_some_iff] at h
  have hlt := (List.getElem?_eq_some_iff.mp h).1
  refine List.ext_getElem? fun i => ?_
  rw [getElem?_replaced, getElem?_replaced, List.getElem?_set]
  by_cases hi : lo = i
  · rw [← hi, if_neg (Nat.not_succ_le_self lo), if_pos (Nat.le_refl lo), if_pos rfl, if_pos hlt, h]
    rfl
  · rw [if_neg hi]
    exact if_congr (by omega) rfl rfl

theorem iterMutFrom_eq (f : SlotId → T → T)
    (hbits : ∀ i, lo ≤ i → Words.bit bitset i = (values[i]?.join).isSome)
    (hend : lo + count = 64 * bitset.length) (hfuel : count < fuel) :
    iterMutFrom debug bitset f fuel (((List.range' lo count).find? (Words.bit bitset)).getD
      invalidIndex) values = some (replaced f values lo, items values lo count) := by
  induction count generalizing lo fuel values with
  | zero =>
    have hall : replaced f values lo = values := by
      refine List.ext_getElem? fun i => ?_
      rw [getElem?_replaced]
      split
      · rename_i hi
        have hclear := hbits i hi
        rw [Words.bit_of_le (by omega)] at hclear
        rcases hslot : values[i]? with _ | _ | x
        · rfl
        · rfl
        · rw [hslot] at hclear
          cases hclear
      · rfl
    cases fuel with
    | zero => cases hfuel
    | succ fuel =>
      rw [hall]
      rfl
  | succ count ih =>
    rw [List.range'_succ]
    cases hslot : values[lo]?.join with
    | none =>
      have hclear : ¬ Words.bit bitset lo = true := by
        rw [hbits lo (Nat.le_refl _), hslot]
        nofun
      rw [List.find?_cons_of_neg hclear,
        ih (fun i hi => hbits i (Nat.le_of_succ_le hi)) (by omega) (by omega),
        items_cons_none hslot, replaced_none f hslot]
    | some x =>
      have hset : Words.bit bitset lo = true := by
        rw [hbits lo (Nat.le_refl _), hslot]
        rfl
      have hrest : ∀ i, lo + 1 ≤ i → Words.bit bitset i =
          (((values.set lo (some (f ⟨lo⟩ x)))[i]?).join).isSome := by
        intro i hi
        rw [List.getElem?_set_ne (by omega)]
        exact hbits i (Nat.le_of_succ_le hi)
      cases fuel with
      | zero => cases hfuel
      | succ fuel =>
        rw [List.find?_cons_of_pos hset, Option.getD_some, iterMutFrom,
          if_neg (ne_invalidIndex hsmall (by omega)), hslot, findNextSet_rest hsmall hend]
        dsimp only [bind, Option.bind]
        rw [ih hrest (by omega) (by omega), items_cons_some hslot, replaced_some f hslot,
          items_set (Nat.lt_succ_self lo)]

end Walks


/-! ### Both iterators -/

section Iterators

variable {debug : Bool}

/-- All indices of the bits fit into `u32`. -/
theorem Sound.small (h : Sound s) : 64 * s.storedBitset.length < 2 ^ 32 := by
  have hle := h.length_le
  rw [h.words]
  omega

theorem Sound.first (h : Sound s) : findFirstSetFromBitset debug 0 s.storedBitset =
    some (((List.range' 0 (64 * s.storedBitset.length)).find?
      (Words.bit s.storedBitset)).getD invalidIndex) := by
  have hfirst : findFirstSetFromBitset debug ([] : List (BitVec 64)).length s.storedBitset = _ :=
    findFirstSetFromBitset_eq h.small (List.nil_append _).symm
  rwa [List.length_nil, Nat.mul_zero] at hfirst

theorem Sound.iter_eq (h : Sound s) :
    s.iter debug = some (items s.values 0 (64 * s.storedBitset.length)) := by
  rw [iter, findFirstSet, h.first]
  exact iterFrom_eq s h.small h.bits (Nat.zero_add _) (by omega)

theorem Sound.iterMut_eq (h : Sound s) (f : SlotId → T → T) : s.iterMut debug f =
    some ({ s with values := replaced f s.values 0 },
      items s.values 0 (64 * s.storedBitset.length)) := by
  rw [iterMut, h.first]
  dsimp only [bind, Option.bind]
  rw [iterMutFrom_eq h.small f (fun i _ => h.bits i) (Nat.zero_add _) (by omega)]

theorem Sound.mem_items (h : Sound s) {id : SlotId} {x : T} :
    (id, x) ∈ items s.values 0 (64 * s.storedBitset.length) ↔
      s.values[id.index]? = some (some x) := by
  rw [SlotVector.mem_items, and_iff_right_iff_imp]
  intro hx
  have hlt := (List.getElem?_eq_some_iff.mp hx).1
  rw [h.words]
  omega

end Iterators


end Ruzu.SlotVector
