import Mathlib

/-!
# The handle table

`KHandleTable` as in `k_handle_table.rs`. The word of a slot is the union of a
linear id and a next-free index: sixteen bits that are read either way. `none`
stands for a panic (a failed `assert!` or an index outside the arrays).
-/

set_option autoImplicit false

namespace Ruzu.HandleTable

abbrev Handle := BitVec 32
abbrev ObjectId := BitVec 64

def maxTableSize : ℕ := 1024
def minLinearId : ℕ := 1
def maxLinearId : ℕ := 0x7FFF

abbrev EntryInfo := BitVec 16

namespace EntryInfo

def ofLinearId (linearId : ℕ) : EntryInfo := BitVec.ofNat 16 linearId
def ofNextFreeIndex (nextFreeIndex : ℤ) : EntryInfo := BitVec.ofInt 16 nextFreeIndex
def linearId (e : EntryInfo) : ℕ := e.toNat
def nextFreeIndex (e : EntryInfo) : ℤ := e.toInt

end EntryInfo

def encodeHandle (index linearId : ℕ) : Handle :=
  (BitVec.ofNat 32 linearId <<< 15) ||| BitVec.ofNat 32 index

/-- The parts of a handle: slot index, linear id, reserved bits. -/
structure Decoded where
  index : ℕ
  linearId : ℕ
  reserved : ℕ
  deriving DecidableEq, Repr

def decodeHandle (handle : Handle) : Decoded :=
  ⟨(handle &&& 0x7FFF).toNat, ((handle >>> 15) &&& 0x7FFF).toNat, ((handle >>> 30) &&& 0x3).toNat⟩

structure KHandleTable where
  entryInfos : ℕ → EntryInfo
  objects : ℕ → ObjectId
  freeHeadIndex : ℤ
  tableSize : ℕ
  maxCount : ℕ
  nextLinearId : ℕ
  count : ℕ

namespace KHandleTable

def new : KHandleTable := ⟨fun _ => 0, fun _ => 0, -1, 0, 0, minLinearId, 0⟩

/-- One turn of the loop of `initialize`: the slot is emptied and put on the free list. -/
def initializeSlot (t : KHandleTable) (i : ℕ) : KHandleTable :=
  { t with
    objects := Function.update t.objects i 0
    entryInfos := Function.update t.entryInfos i (EntryInfo.ofNextFreeIndex ((i : ℤ) - 1))
    freeHeadIndex := i }

/-- The table and the result code. -/
def initializeTable (t : KHandleTable) (size : ℤ) : KHandleTable × ℕ :=
  if size > maxTableSize then (t, 1)
  else
    let tableSize := if size ≤ 0 then maxTableSize else size.toNat
    let t := { t with
      maxCount := 0
      tableSize := tableSize
      nextLinearId := minLinearId
      count := 0
      freeHeadIndex := -1 }
    ((List.range tableSize).foldl initializeSlot t, 0)

def allocateEntry (t : KHandleTable) : Option (ℕ × KHandleTable) :=
  if t.count < t.tableSize ∧ 0 ≤ t.freeHeadIndex ∧ t.freeHeadIndex < maxTableSize then
    let index := t.freeHeadIndex.toNat
    some (index, { t with
      freeHeadIndex := (t.entryInfos index).nextFreeIndex
      count := t.count + 1
      maxCount := if t.count + 1 > t.maxCount then t.count + 1 else t.maxCount })
  else none

def freeEntry (t : KHandleTable) (index : ℕ) : Option KHandleTable :=
  if 0 < t.count ∧ index < maxTableSize then
    some { t with
      objects := Function.update t.objects index 0
      entryInfos := Function.update t.entryInfos index (EntryInfo.ofNextFreeIndex t.freeHeadIndex)
      freeHeadIndex := index
      count := t.count - 1 }
  else none

def allocateLinearId (t : KHandleTable) : ℕ × KHandleTable :=
  (t.nextLinearId, { t with
    nextLinearId := if t.nextLinearId + 1 > maxLinearId then minLinearId else t.nextLinearId + 1 })

def isValidHandle (t : KHandleTable) (handle : Handle) : Bool :=
  let d := decodeHandle handle
  if d.reserved ≠ 0 ∨ handle = 0 ∨ d.linearId = 0 then false
  else if t.tableSize ≤ d.index then false
  else if t.objects d.index = 0 then false
  else (t.entryInfos d.index).linearId == d.linearId

def add (t : KHandleTable) (objectId : ObjectId) : Option (KHandleTable × Except ℕ Handle) :=
  if t.tableSize ≤ t.count then some (t, .error 1)
  else do
    let (index, t) ← t.allocateEntry
    let (linearId, t) := t.allocateLinearId
    some ({ t with
      entryInfos := Function.update t.entryInfos index (EntryInfo.ofLinearId linearId)
      objects := Function.update t.objects index objectId }, .ok (encodeHandle index linearId))

def register (t : KHandleTable) (handle : Handle) (objectId : ObjectId) : KHandleTable × Bool :=
  let d := decodeHandle handle
  if d.reserved ≠ 0 ∨ handle = 0 ∨ d.linearId = 0 then (t, false)
  else if t.tableSize ≤ d.index then (t, false)
  else if t.objects d.index ≠ 0 then (t, false)
  else if (t.entryInfos d.index).linearId ≠ d.linearId then (t, false)
  else ({ t with objects := Function.update t.objects d.index objectId }, true)

def remove (t : KHandleTable) (handle : Handle) : Option (KHandleTable × Bool) :=
  if t.isValidHandle handle then
    (t.freeEntry (decodeHandle handle).index).map fun t => (t, true)
  else some (t, false)

def getObject (t : KHandleTable) (handle : Handle) : Option ObjectId :=
  let d := decodeHandle handle
  if d.reserved ≠ 0 then none
  else if t.isValidHandle handle then some (t.objects d.index)
  else none

def reserve (t : KHandleTable) : Option (KHandleTable × Except ℕ Handle) :=
  if t.tableSize ≤ t.count then some (t, .error 1)
  else do
    let (index, t) ← t.allocateEntry
    let (linearId, t) := t.allocateLinearId
    some ({ t with
      entryInfos := Function.update t.entryInfos index (EntryInfo.ofLinearId linearId) },
      .ok (encodeHandle index linearId))

def unreserve (t : KHandleTable) (handle : Handle) : Option KHandleTable :=
  t.freeEntry (decodeHandle handle).index

/-- The checks a handle passes before its slot's object is looked at. -/
structure Names (t : KHandleTable) (handle : Handle) : Prop where
  reserved : (decodeHandle handle).reserved = 0
  linearId : (decodeHandle handle).linearId ≠ 0
  index : (decodeHandle handle).index < t.tableSize
  entry : (t.entryInfos (decodeHandle handle).index).linearId = (decodeHandle handle).linearId

theorem handle_ne_zero {handle : Handle} (h : (decodeHandle handle).linearId ≠ 0) :
    handle ≠ 0 := by
  intro hz
  rw [hz] at h
  exact h (by decide)

theorem is_valid_handle_iff (t : KHandleTable) (handle : Handle) :
    t.isValidHandle handle = true ↔
      t.Names handle ∧ t.objects (decodeHandle handle).index ≠ 0 := by
  constructor
  · intro h
    simp only [isValidHandle] at h
    by_cases h1 : (decodeHandle handle).reserved ≠ 0 ∨ handle = 0 ∨
        (decodeHandle handle).linearId = 0
    · rw [if_pos h1] at h
      cases h
    · rw [if_neg h1] at h
      simp only [not_or, not_not] at h1
      by_cases h2 : t.tableSize ≤ (decodeHandle handle).index
      · rw [if_pos h2] at h
        cases h
      · rw [if_neg h2] at h
        by_cases h3 : t.objects (decodeHandle handle).index = 0
        · rw [if_pos h3] at h
          cases h
        · rw [if_neg h3, beq_iff_eq] at h
          exact ⟨⟨h1.1, h1.2.2, by omega, h⟩, h3⟩
  · rintro ⟨hn, ho⟩
    have h1 : ¬ ((decodeHandle handle).reserved ≠ 0 ∨ handle = 0 ∨
        (decodeHandle handle).linearId = 0) := by
      simp only [not_or, not_not]
      exact ⟨hn.reserved, handle_ne_zero hn.linearId, hn.linearId⟩
    have h2 : ¬ t.tableSize ≤ (decodeHandle handle).index := Nat.not_le.mpr hn.index
    simp only [isValidHandle]
    rw [if_neg h1, if_neg h2, if_neg ho, beq_iff_eq]
    exact hn.entry

/-- `register` writes when the checks pass and the slot is empty. -/
theorem register_cases (t : KHandleTable) (handle : Handle) (objectId : ObjectId) :
    (t.Names handle ∧ t.objects (decodeHandle handle).index = 0 ∧ t.register handle objectId =
      ({ t with objects := Function.update t.objects (decodeHandle handle).index objectId },
        true)) ∨
    (¬ (t.Names handle ∧ t.objects (decodeHandle handle).index = 0) ∧
      t.register handle objectId = (t,false)) := by
  by_cases h1 : (decodeHandle handle).reserved ≠ 0 ∨ handle = 0 ∨
      (decodeHandle handle).linearId = 0
  · refine Or.inr ⟨fun h => ?_, by simp only [register]; rw [if_pos h1]⟩
    have hz := handle_ne_zero h.1.linearId
    rcases h1 with h1 | h1 | h1
    · exact h1 h.1.reserved
    · exact hz h1
    · exact h.1.linearId h1
  by_cases h2 : t.tableSize ≤ (decodeHandle handle).index
  · exact Or.inr ⟨fun h => absurd h.1.index (Nat.not_lt.mpr h2),
      by simp only [register]; rw [if_neg h1, if_pos h2]⟩
  by_cases h3 : t.objects (decodeHandle handle).index ≠ 0
  · exact Or.inr ⟨fun h => h3 h.2,
      by simp only [register]; rw [if_neg h1, if_neg h2, if_pos h3]⟩
  by_cases h4 : (t.entryInfos (decodeHandle handle).index).linearId ≠
      (decodeHandle handle).linearId
  · exact Or.inr ⟨fun h => h4 h.1.entry,
      by simp only [register]; rw [if_neg h1, if_neg h2, if_neg h3, if_pos h4]⟩
  · simp only [not_or, not_not] at h1
    refine Or.inl ⟨⟨h1.1, h1.2.2, by omega, not_not.mp h4⟩, not_not.mp h3, ?_⟩
    simp only [register]
    rw [if_neg (by simpa using h1), if_neg h2, if_neg h3, if_neg h4]

end KHandleTable

section Handles

variable {index linearId : ℕ}

theorem encode_toNat (hi : index < 2^15) (hl : linearId < 2^15) :
    (encodeHandle index linearId).toNat = linearId * 2^15 + index := by
  have h1 : linearId < 2^32 := by omega
  have h2 : linearId * 2^15 < 2^32 := by omega
  have h3 : index < 2^32 := by omega
  rw [encodeHandle, BitVec.toNat_or, BitVec.toNat_shiftLeft, BitVec.toNat_ofNat,
    BitVec.toNat_ofNat, Nat.mod_eq_of_lt h1, Nat.mod_eq_of_lt h3, Nat.shiftLeft_eq,
    Nat.mod_eq_of_lt h2, Nat.mul_comm, Nat.two_pow_add_eq_or_of_lt hi]

theorem decode_toNat (handle : Handle) : decodeHandle handle =
    ⟨handle.toNat % 2^15, handle.toNat / 2^15 % 2^15, handle.toNat / 2^30 % 4⟩ := by
  have h1 : (0x7FFF : Handle).toNat = 2^15 - 1 := rfl
  have h2 : (0x3 : Handle).toNat = 2^2 - 1 := rfl
  rw [decodeHandle]
  simp only [BitVec.toNat_and, BitVec.toNat_ushiftRight, h1, h2, Nat.and_two_pow_sub_one_eq_mod,
    Nat.shiftRight_eq_div_pow]

theorem decode_encode (hi : index < 2^15) (hl : linearId < 2^15) :
    decodeHandle (encodeHandle index linearId) = ⟨index, linearId, 0⟩ := by
  rw [decode_toNat, encode_toNat hi hl]
  congr 1 <;> omega

/-- A handle is its parts. -/
theorem decode_injective {h h' : Handle} (hd : decodeHandle h = decodeHandle h') : h = h' := by
  rw [decode_toNat, decode_toNat] at hd
  have h1 := congrArg Decoded.index hd
  have h2 := congrArg Decoded.linearId hd
  have h3 := congrArg Decoded.reserved hd
  have hlt := h.isLt
  have hlt' := h'.isLt
  simp only at h1 h2 h3
  exact BitVec.eq_of_toNat_eq (by omega)

end Handles

end Ruzu.HandleTable
