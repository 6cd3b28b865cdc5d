import Ruzu.FileSys.BucketTreeFind

/-!
# Moving along the entries

A visitor at one entry moves to the next one and back, through the sets in
order; the entries that it reads are those of the layout.
-/

set_option autoImplicit false

namespace Ruzu.FileSys

open BucketTree UpperBound

namespace Visitor

variable {v : Visitor}

theorem moveNext_end (hvalid : v.isValid = true) (hlast : v.entryIndex + 1 = v.entrySet.count)
    (hend : v.entrySet.index + 1 ≥ v.entrySetCount) : v.moveNext = .error (.result .outOfRange) := by
  rw [moveNext, if_neg (by simp [hvalid]), if_pos hlast, if_pos hend]

theorem moveNext_across (hvalid : v.isValid = true) (hlast : v.entryIndex + 1 = v.entrySet.count)
    (hend : ¬v.entrySet.index + 1 ≥ v.entrySetCount) :
    v.moveNext = (v.readEntrySet (v.entrySet.index + 1)).bind fun entrySet =>
      if entrySet.start ≠ v.entrySet.stop ∨ entrySet.start ≥ entrySet.stop then
        .error (.result .invalidBucketTreeEntrySetOffset)
      else readEntry { v with entrySet } 0 := by
  rw [moveNext, if_neg (by simp [hvalid]), if_pos hlast, if_neg hend]
  rfl

theorem moveNext_within (hvalid : v.isValid = true)
    (hlast : ¬v.entryIndex + 1 = v.entrySet.count) :
    v.moveNext = v.readEntry (v.entryIndex + 1) := by
  rw [moveNext, if_neg (by simp [hvalid]), if_neg hlast]

theorem movePrevious_begin (hvalid : v.isValid = true) (hfirst : v.entryIndex = 0)
    (hindex : v.entrySet.index ≤ 0) : v.movePrevious = .error (.result .outOfRange) := by
  rw [movePrevious, if_neg (by simp [hvalid]), if_pos hfirst, if_pos hindex]

theorem movePrevious_across (hvalid : v.isValid = true) (hfirst : v.entryIndex = 0)
    (hindex : ¬v.entrySet.index ≤ 0) :
    v.movePrevious = (v.readEntrySet (v.entrySet.index - 1)).bind fun entrySet =>
      if entrySet.stop ≠ v.entrySet.start ∨ entrySet.start ≥ entrySet.stop then
        .error (.result .invalidBucketTreeEntrySetOffset)
      else readEntry { v with entrySet } (entrySet.count - 1) := by
  rw [movePrevious, if_neg (by simp [hvalid]), if_pos hfirst, if_neg hindex]
  rfl

theorem movePrevious_within (hvalid : v.isValid = true) (hfirst : ¬v.entryIndex = 0) :
    v.movePrevious = v.readEntry (v.entryIndex - 1) := by
  rw [movePrevious, if_neg (by simp [hvalid]), if_neg hfirst]

end Visitor

namespace Layout

variable {L : Layout} {badSet badNode : ℕ → Prop} {nodeStorage entryStorage : VfsFile}
  {va : ℤ} {i j k : ℕ}

section Places

variable (h : L.Ordered)

include h

theorem next_same (hi : (i + 1) % L.perSet ≠ 0) :
    (i + 1) / L.perSet = i / L.perSet ∧ (i + 1) % L.perSet = i % L.perSet + 1 := by
  have hpos := h.perSet_pos
  have hdiv := Nat.div_add_mod' i L.perSet
  have hmod := Nat.mod_lt i hpos
  have hlt : i % L.perSet + 1 < L.perSet := by
    refine lt_of_le_of_ne hmod fun heq => hi ?_
    rw [← hdiv, Nat.add_assoc, Nat.mul_add_mod_self_right, heq, Nat.mod_self]
  have hsplit : i + 1 = i / L.perSet * L.perSet + (i % L.perSet + 1) := by omega
  constructor
  · rw [hsplit, Nat.mul_comm, Nat.mul_add_div hpos, Nat.div_eq_of_lt hlt, Nat.add_zero]
  · rw [hsplit, Nat.mul_add_mod_self_right, Nat.mod_eq_of_lt hlt]

theorem next_other (hi : (i + 1) % L.perSet = 0) :
    (i + 1) / L.perSet = i / L.perSet + 1 ∧ i % L.perSet + 1 = L.perSet := by
  have hpos := h.perSet_pos
  have hdiv := Nat.div_add_mod' i L.perSet
  have hmod := Nat.mod_lt i hpos
  have hlast : i % L.perSet + 1 = L.perSet := by
    by_contra hne
    have hlt : i % L.perSet + 1 < L.perSet := by omega
    have hnext : (i + 1) % L.perSet = i % L.perSet + 1 := by
      rw [show i + 1 = i / L.perSet * L.perSet + (i % L.perSet + 1) by omega,
        Nat.mul_add_mod_self_right, Nat.mod_eq_of_lt hlt]
    omega
  have hmul : i + 1 = (i / L.perSet + 1) * L.perSet := by
    rw [Nat.succ_mul]
    omega
  exact ⟨by rw [hmul, Nat.mul_div_cancel _ hpos], hlast⟩

theorem full_of_cross (hi : i + 1 < L.entries.length) (hcross : (i + 1) % L.perSet = 0) :
    L.setSize (i / L.perSet) = L.perSet := by
  refine h.setSize_full ?_
  rw [← (next_other h hcross).1]
  exact h.div_lt_setCount hi

theorem setSize_of_last (hi : i + 1 = L.entries.length) :
    i % L.perSet + 1 = L.setSize (i / L.perSet) ∧ L.setCount = i / L.perSet + 1 := by
  have hmod := Nat.mod_lt i h.perSet_pos
  have hdiv := Nat.div_add_mod' i L.perSet
  have hlt := h.div_lt_setCount (i := i) (by omega)
  have hge : ¬i / L.perSet + 1 < L.setCount := by
    rw [h.lt_setCount_iff, Nat.succ_mul]
    omega
  rw [setSize]
  omega

theorem canMoveNext_visitor (hi : i < L.entries.length) :
    (L.visitor nodeStorage entryStorage i).canMoveNext = decide (i + 1 < L.entries.length) := by
  have hvalid : (L.visitor nodeStorage entryStorage i).isValid = true :=
    decide_eq_true (Int.natCast_nonneg _)
  rw [Visitor.canMoveNext, hvalid]
  refine decide_eq_decide.mpr ?_
  change _ ∧ (((i % L.perSet : ℕ) : ℤ) + 1 < (L.setSize (i / L.perSet) : ℕ) ∨
    ((i / L.perSet : ℕ) : ℤ) + 1 < (L.setCount : ℕ)) ↔ _
  rcases Nat.lt_or_ge (i + 1) L.entries.length with hlt | hge
  · refine ⟨fun _ => hlt, fun _ => ⟨rfl, ?_⟩⟩
    by_cases hcross : (i + 1) % L.perSet = 0
    · right
      have hset := h.div_lt_setCount hlt
      rw [(next_other h hcross).1] at hset
      exact_mod_cast hset
    · left
      have hplace := h.mod_lt_setSize hlt
      rw [(next_same h hcross).1, (next_same h hcross).2] at hplace
      exact_mod_cast hplace
  · obtain ⟨hsize, hcount⟩ := setSize_of_last h (i := i) (by omega)
    refine ⟨fun ⟨_, hmove⟩ => ?_, fun hlt => absurd hlt (not_lt.mpr hge)⟩
    rw [← hsize, hcount] at hmove
    push_cast at hmove
    omega

omit h in
theorem canMovePrevious_visitor :
    (L.visitor nodeStorage entryStorage i).canMovePrevious = decide (0 < i) := by
  have hvalid : (L.visitor nodeStorage entryStorage i).isValid = true :=
    decide_eq_true (Int.natCast_nonneg _)
  have hdiv := Nat.div_add_mod' i L.perSet
  rw [Visitor.canMovePrevious, hvalid]
  refine decide_eq_decide.mpr ?_
  change _ ∧ (((i % L.perSet : ℕ) : ℤ) > 0 ∨ ((i / L.perSet : ℕ) : ℤ) > 0) ↔ _
  rw [gt_iff_lt, gt_iff_lt, Int.natCast_pos, Int.natCast_pos]
  refine ⟨fun ⟨_, hmove⟩ => Nat.pos_of_ne_zero fun hzero => ?_, fun hpos => ⟨rfl, ?_⟩⟩
  · rw [hzero, Nat.zero_mod, Nat.zero_div] at hmove
    omega
  · by_contra hnone
    rw [not_or, Nat.not_lt, Nat.not_lt, Nat.le_zero, Nat.le_zero] at hnone
    rw [hnone.1, hnone.2, Nat.zero_mul] at hdiv
    omega

end Places

/-! ### Reading at a place -/

section Reading

variable (h : L.Ordered) {v : Visitor} (hv : v.tree = L.tree nodeStorage entryStorage)

include h hv

theorem readEntry_eq (hindex : v.entrySet.index = k) (hlength : v.entry.length = L.entrySize)
    (hj : j < L.setSize k) (hfits : (k + 1) * L.nodeSize ≤ entryStorage.data.length)
    (hset : L.HoldsSet entryStorage k) :
    v.readEntry j =
      .ok { v with entry := L.entry (k * L.perSet + j), entryIndex := j } := by
  have hfit : L.perSet * L.entrySize ≤ L.nodeSize - nodeHeaderSize := Nat.div_mul_le_self _ _
  have hsize := h.nodeSize_ge
  have hset_le := Ordered.setSize_le (L := L) (k := k)
  have hmul : (j + 1) * L.entrySize ≤ L.perSet * L.entrySize :=
    Nat.mul_le_mul_right _ (by omega)
  rw [Nat.succ_mul] at hmul hfits
  have hread : entryStorage.readInto v.entry L.entrySize
      (k * L.nodeSize + nodeHeaderSize + j * L.entrySize) = L.entry (k * L.perSet + j) := by
    rw [VfsFile.readInto, VfsFile.read, hset.entry_eq j hj, List.drop_eq_nil_of_le, List.append_nil]
    rw [← hset.entry_eq j hj, length_block (by omega), hlength]
  have hstorage : v.tree.entryStorage = some entryStorage := by rw [hv]; rfl
  have htreeNode : v.tree.nodeSize = L.nodeSize := by rw [hv]; rfl
  have htreeEntry : v.tree.entrySize = L.entrySize := by rw [hv]; rfl
  rw [Visitor.readEntry, Visitor.entryStorage, hstorage, htreeNode, htreeEntry, hindex,
    Int.toNat_natCast, Int.toNat_natCast, getBucketTreeEntryOffset]
  dsimp only [bind, Except.bind]
  rw [hread]

theorem readEntrySet_eq (hk : k < L.setCount)
    (hfits : (k + 1) * L.nodeSize ≤ entryStorage.data.length) (hset : L.HoldsSet entryStorage k) :
    v.readEntrySet k = .ok ⟨k, L.setSize k, L.start (k + 1), L.start k⟩ := by
  have hsize := h.nodeSize_ge
  have hentry := h.entrySize_ge
  have hheaderSize : nodeHeaderSize = 16 := rfl
  rw [Nat.succ_mul] at hfits
  have hstorage : v.tree.entryStorage = some entryStorage := by rw [hv]; rfl
  have htreeNode : v.tree.nodeSize = L.nodeSize := by rw [hv]; rfl
  have htreeEntry : v.tree.entrySize = L.entrySize := by rw [hv]; rfl
  have hverify : (EntrySetHeader.toNodeHeader
      ⟨k, L.setSize k, L.start (k + 1), L.start k⟩).verify k L.nodeSize L.entrySize = .ok () :=
    h.verify_set hk
  rw [Visitor.readEntrySet, Visitor.entryStorage, hstorage, htreeNode, htreeEntry,
    Int.toNat_natCast]
  dsimp only [bind, Except.bind]
  rw [readInto_block (by omega), entrySetHeader_eq h hk hset le_rfl, hverify]

omit h in
theorem readEntrySet_bad (hbad : L.Rejected entryStorage (k * L.nodeSize) k L.entrySize) :
    ∃ code, v.readEntrySet k = .error (.result code) := by
  obtain ⟨code, hverify⟩ := verify_error (hbad 24 (by decide))
  have hverify' : (entrySetHeader (entryStorage.readInto (List.replicate 24 0) 24
      (k * L.nodeSize))).toNodeHeader.verify k L.nodeSize L.entrySize =
      .error (.result code) := hverify
  have hstorage : v.tree.entryStorage = some entryStorage := by rw [hv]; rfl
  have htreeNode : v.tree.nodeSize = L.nodeSize := by rw [hv]; rfl
  have htreeEntry : v.tree.entrySize = L.entrySize := by rw [hv]; rfl
  rw [Visitor.readEntrySet, Visitor.entryStorage, hstorage, htreeNode, htreeEntry,
    Int.toNat_natCast]
  dsimp only [bind, Except.bind]
  rw [hverify']
  exact ⟨code, rfl⟩

end Reading

/-! ### Moving -/

section Moving

variable (h : L.Ordered)

include h

theorem length_entry (hi : i < L.entries.length) : (L.entry i).length = L.entrySize := by
  rw [entry, List.getD_eq_getElem?_getD, List.getElem?_eq_getElem hi]
  exact h.length_eq _ (List.getElem_mem hi)

omit h in
theorem isValid_visitor : (L.visitor nodeStorage entryStorage i).isValid = true :=
  decide_eq_true (Int.natCast_nonneg _)

omit h in
/-- The visitor by its set and its place in the set. -/
theorem visitor_place {r : ℕ} (hk : i / L.perSet = k) (hr : i % L.perSet = r) :
    L.visitor nodeStorage entryStorage i =
      { tree := L.tree nodeStorage entryStorage
        entry := L.entry (k * L.perSet + r)
        entryIndex := r
        entrySetCount := L.setCount
        entrySet := ⟨k, L.setSize k, L.start (k + 1), L.start k⟩ } := by
  subst hk hr
  rw [visitor, Nat.div_add_mod']

theorem moveNext_last (hi : i + 1 = L.entries.length) :
    (L.visitor nodeStorage entryStorage i).moveNext = .error (.result .outOfRange) := by
  obtain ⟨hsize, hcount⟩ := setSize_of_last h hi
  refine Visitor.moveNext_end isValid_visitor ?_ ?_
  · change ((i % L.perSet : ℕ) : ℤ) + 1 = (L.setSize (i / L.perSet) : ℕ)
    exact_mod_cast hsize
  · change ((i / L.perSet : ℕ) : ℤ) + 1 ≥ (L.setCount : ℕ)
    exact_mod_cast hcount.le

variable (hstored : L.Stored badSet badNode nodeStorage entryStorage)

theorem across_visitor (hi : i + 1 < L.entries.length) (hcross : (i + 1) % L.perSet = 0) :
    (L.visitor nodeStorage entryStorage i).moveNext =
      ((L.visitor nodeStorage entryStorage i).readEntrySet ((i + 1) / L.perSet : ℕ)).bind
        fun entrySet =>
          if entrySet.start ≠ L.start ((i + 1) / L.perSet) ∨ entrySet.start ≥ entrySet.stop then
            .error (.result .invalidBucketTreeEntrySetOffset)
          else Visitor.readEntry { L.visitor nodeStorage entryStorage i with entrySet } 0 := by
  obtain ⟨hdiv, hmod⟩ := next_other h hcross
  have hset := h.div_lt_setCount hi
  rw [Visitor.moveNext_across isValid_visitor]
  · rw [hdiv]
    rfl
  · change ((i % L.perSet : ℕ) : ℤ) + 1 = (L.setSize (i / L.perSet) : ℕ)
    rw [full_of_cross h hi hcross]
    exact_mod_cast hmod
  · change ¬((i / L.perSet : ℕ) : ℤ) + 1 ≥ (L.setCount : ℕ)
    rw [hdiv] at hset
    exact_mod_cast not_le.mpr hset

include hstored

theorem moveNext_eq (hi : i + 1 < L.entries.length) (hgood : ¬badSet ((i + 1) / L.perSet)) :
    (L.visitor nodeStorage entryStorage i).moveNext =
      .ok (L.visitor nodeStorage entryStorage (i + 1)) := by
  have hset := h.div_lt_setCount hi
  have hplace := h.mod_lt_setSize hi
  have hfits := hstored.setFits _ hset hgood
  have hholds := hstored.sets _ hset hgood
  have hlength := length_entry h (i := i) (by omega)
  have hv : (L.visitor nodeStorage entryStorage i).tree = L.tree nodeStorage entryStorage := rfl
  by_cases hcross : (i + 1) % L.perSet = 0
  · rw [across_visitor h hi hcross, readEntrySet_eq h hv hset hfits hholds,
      visitor_place (i := i + 1) rfl hcross]
    dsimp only [Except.bind]
    rw [if_neg (by simpa using h.start_lt_succ hset)]
    exact readEntry_eq h (v := { L.visitor nodeStorage entryStorage i with
      entrySet := ⟨((i + 1) / L.perSet : ℕ), L.setSize ((i + 1) / L.perSet), _, _⟩ })
      rfl rfl hlength (h.setSize_pos hset) hfits hholds
  · obtain ⟨hdiv, hmod⟩ := next_same h hcross
    have hindex : (L.visitor nodeStorage entryStorage i).entryIndex + 1 =
        ((i + 1) % L.perSet : ℕ) := by
      rw [hmod]
      rfl
    have hlast : ¬(L.visitor nodeStorage entryStorage i).entryIndex + 1 =
        (L.visitor nodeStorage entryStorage i).entrySet.count := by
      rw [hindex]
      change ¬(((i + 1) % L.perSet : ℕ) : ℤ) = (L.setSize (i / L.perSet) : ℕ)
      rw [← hdiv]
      exact_mod_cast hplace.ne
    rw [Visitor.moveNext_within isValid_visitor hlast, hindex,
      readEntry_eq h hv (by rw [hdiv]; rfl) hlength hplace hfits hholds,
      visitor_place (i := i + 1) hdiv rfl, hdiv]
    rfl

theorem moveNext_bad (hi : i + 1 < L.entries.length) (hcross : (i + 1) % L.perSet = 0)
    (hbad : badSet ((i + 1) / L.perSet)) :
    ∃ code, (L.visitor nodeStorage entryStorage i).moveNext = .error (.result code) := by
  have hv : (L.visitor nodeStorage entryStorage i).tree = L.tree nodeStorage entryStorage := rfl
  obtain ⟨code, hread⟩ := readEntrySet_bad hv
    (hstored.badSets _ (h.div_lt_setCount hi) hbad)
  rw [across_visitor h hi hcross, hread]
  exact ⟨code, rfl⟩

theorem movePrevious_eq (hi : i + 1 < L.entries.length) (hgood : ¬badSet (i / L.perSet)) :
    (L.visitor nodeStorage entryStorage (i + 1)).movePrevious =
      .ok (L.visitor nodeStorage entryStorage i) := by
  have hset := h.div_lt_setCount (i := i) (by omega)
  have hplace := h.mod_lt_setSize (i := i) (by omega)
  have hfits := hstored.setFits _ hset hgood
  have hholds := hstored.sets _ hset hgood
  have hlength := length_entry h hi
  have hv : (L.visitor nodeStorage entryStorage (i + 1)).tree = L.tree nodeStorage entryStorage :=
    rfl
  by_cases hcross : (i + 1) % L.perSet = 0
  · obtain ⟨hdiv, hmod⟩ := next_other h hcross
    have hfirst : (L.visitor nodeStorage entryStorage (i + 1)).entryIndex = 0 := by
      change (((i + 1) % L.perSet : ℕ) : ℤ) = 0
      rw [hcross]
      rfl
    have hindex : (L.visitor nodeStorage entryStorage (i + 1)).entrySet.index - 1 =
        (i / L.perSet : ℕ) := by
      change (((i + 1) / L.perSet : ℕ) : ℤ) - 1 = _
      rw [hdiv, Nat.cast_succ, add_sub_cancel_right]
    have hpos : ¬(L.visitor nodeStorage entryStorage (i + 1)).entrySet.index ≤ 0 := by
      have hnonneg := Int.natCast_nonneg (i / L.perSet)
      omega
    rw [Visitor.movePrevious_across isValid_visitor hfirst hpos, hindex,
      readEntrySet_eq h hv hset hfits hholds, visitor_place (i := i) rfl rfl]
    have hstart : (L.visitor nodeStorage entryStorage (i + 1)).entrySet.start =
        L.start (i / L.perSet + 1) := by
      rw [← hdiv]
      rfl
    have hcount : (L.setSize (i / L.perSet) : ℤ) - 1 = (i % L.perSet : ℕ) := by
      rw [(full_of_cross h hi hcross).trans hmod.symm, Nat.cast_succ, add_sub_cancel_right]
    dsimp only [Except.bind]
    rw [hstart, if_neg (by simpa using h.start_lt_succ hset), hcount]
    exact readEntry_eq h (v := { L.visitor nodeStorage entryStorage (i + 1) with
      entrySet := ⟨(i / L.perSet : ℕ), L.setSize (i / L.perSet), _, _⟩ })
      rfl rfl hlength hplace hfits hholds
  · obtain ⟨hdiv, hmod⟩ := next_same h hcross
    have hfirst : ¬(L.visitor nodeStorage entryStorage (i + 1)).entryIndex = 0 := by
      change ¬(((i + 1) % L.perSet : ℕ) : ℤ) = 0
      exact_mod_cast hcross
    have hindex : (L.visitor nodeStorage entryStorage (i + 1)).entryIndex - 1 =
        (i % L.perSet : ℕ) := by
      change (((i + 1) % L.perSet : ℕ) : ℤ) - 1 = _
      rw [hmod, Nat.cast_succ, add_sub_cancel_right]
    rw [Visitor.movePrevious_within isValid_visitor hfirst, hindex,
      readEntry_eq h hv (by rw [← hdiv]; rfl) hlength hplace hfits hholds,
      visitor_place (i := i) rfl rfl, visitor_place (i := i + 1) hdiv rfl]

end Moving

/-! ### The tree that is made from the files -/

section Made

variable (h : L.Ordered)

include h

theorem readOffsets_eq (hfirst : L.HoldsFirst nodeStorage) :
    readOffsets ((nodeStorage.data.drop 0).take L.nodeSize) L.perNode L.setCount =
      .ok ⟨L.start 0, L.endOffset⟩ := by
  obtain ⟨-, hle, htwo, hone⟩ := l1Count_bounds h
  have hread : ∀ i, i < L.perNode →
      i64At ((nodeStorage.data.drop 0).take L.nodeSize) (nodeHeaderSize + i * 8) =
        i64At nodeStorage.data (nodeHeaderSize + i * 8) := fun i hi => nodeL1_offset h hi
  have hzero := hread 0 h.perNode_pos
  rw [Nat.zero_mul, Nat.add_zero] at hzero
  have hbelow : L.start 0 < L.endOffset :=
    (h.start_lt_succ h.setCount_pos).trans_le
      ((start_mono h h.setCount_pos).trans_eq (Ordered.start_end le_rfl))
  have hnonneg := h.start_nonneg 0
  rw [readOffsets, nodeL1_header h hfirst, hzero]
  dsimp only
  rcases Nat.lt_or_ge L.perNode L.setCount with htwoLevels | honeLevel
  case inr =>
    obtain ⟨hcount, hnode⟩ := hone honeLevel
    have hfirstOffset := l1Offset_oneLevel hfirst hnode h.setCount_pos
    rw [Nat.zero_mul, Nat.add_zero] at hfirstOffset
    have hkept : ¬((L.perNode : ℤ) < L.setCount ∧ (L.l1Count : ℤ) < L.perNode) := by omega
    rw [if_neg hkept, hfirstOffset, if_neg (by omega)]
  obtain ⟨hcount, hnode⟩ := htwo htwoLevels
  have hfirstOffset := l1Offset_twoLevels hfirst hnode hnode
  rw [Nat.zero_mul, Nat.add_zero] at hfirstOffset
  rcases Nat.lt_or_ge L.nodeCount L.perNode with hlt | hge
  · have htail := hfirst.tail hnode 0 (by rw [onL1]; omega)
    have hmono := start_mono h (Nat.zero_le (L.nodeStart 0))
    have hkept : (L.perNode : ℤ) < L.setCount ∧ (L.l1Count : ℤ) < L.perNode := by omega
    rw [if_pos hkept, Int.toNat_natCast, hcount, hread _ hlt, hfirstOffset,
      show L.nodeCount = L.nodeCount + 0 from rfl, htail, if_neg (by omega)]
  · have hstart : L.nodeStart 0 = 0 := by
      rw [nodeStart, onL1]
      omega
    have hkept : ¬((L.perNode : ℤ) < L.setCount ∧ (L.l1Count : ℤ) < L.perNode) := by omega
    rw [if_neg hkept, hfirstOffset, hstart, if_neg (by omega)]

theorem getEntrySetCount_eq (hcount : L.entries.length + L.perSet < 2 ^ 31) :
    getEntrySetCount L.nodeSize L.entrySize L.entries.length = .ok (L.setCount : ℤ) := by
  have hpos := h.perSet_pos
  have hperSet : getEntryCount L.nodeSize L.entrySize = (L.perSet : ℤ) := rfl
  have hsum : ((L.entries.length + L.perSet - 1 : ℕ) : ℤ) = L.entries.length + L.perSet - 1 := by
    omega
  rw [getEntrySetCount, hperSet, if_neg (by omega), setCount, Int.natCast_div, hsum]

theorem initialize_eq (hfirst : L.HoldsFirst nodeStorage) (hsizes : SizesOk L.nodeSize L.entrySize)
    (hcount : L.entries.length + L.perSet < 2 ^ 31) :
    initializeFrom nodeStorage entryStorage L.nodeSize L.entrySize L.entries.length =
      .ok (L.tree nodeStorage entryStorage) := by
  obtain ⟨hpos, hle, -, -⟩ := l1Count_bounds h
  have hnonempty := h.nonempty
  have hend : 0 ≤ L.endOffset := h.nonneg.trans (h.below 0 h.nonempty).le
  have hverify : (nodeHeader ((nodeStorage.data.drop 0).take L.nodeSize)).verify 0 L.nodeSize 8 =
      .ok () := by
    rw [nodeL1_header h hfirst]
    exact h.verify_node hpos hle hend
  have hentries : ¬((L.entries.length : ℤ) ≤ 0) := by omega
  rw [initializeFrom, if_neg (not_not.mpr hsizes), if_neg hentries,
    readInto_block (by rw [Nat.zero_add]; exact hfirst.fits)]
  dsimp only [bind, Except.bind]
  rw [hverify, getEntrySetCount_eq h hcount, show getOffsetCount L.nodeSize = (L.perNode : ℤ) from rfl]
  dsimp only
  rw [readOffsets_eq h hfirst]
  rfl

theorem initialize_tree {tree : BucketTree} (hfirst : L.HoldsFirst nodeStorage)
    (hinit : initializeFrom nodeStorage entryStorage L.nodeSize L.entrySize L.entries.length =
      .ok tree) : tree = L.tree nodeStorage entryStorage := by
  have hnonempty := h.nonempty
  have hsizes : SizesOk L.nodeSize L.entrySize := by
    by_contra hsizes
    rw [initializeFrom, if_pos hsizes] at hinit
    cases hinit
  have hcount : L.entries.length + L.perSet < 2 ^ 31 := by
    by_contra hcount
    have hperSet : getEntryCount L.nodeSize L.entrySize = (L.perSet : ℤ) := rfl
    have hpanic : getEntrySetCount L.nodeSize L.entrySize L.entries.length = .error .panic := by
      rw [getEntrySetCount, hperSet]
      exact if_pos (by omega)
    have hentries : ¬((L.entries.length : ℤ) ≤ 0) := by omega
    rw [initializeFrom, if_neg (not_not.mpr hsizes), if_neg hentries, hpanic] at hinit
    dsimp only [bind, Except.bind] at hinit
    split at hinit <;> cases hinit
  exact (Except.ok.inj (hinit.symm.trans (initialize_eq h hfirst hsizes hcount)))

end Made

end Layout

/-- As many moves one after another. -/
def Visitor.repeated (move : Visitor → Except Failure Visitor) :
    ℕ → Visitor → Except Failure Visitor
  | 0, v => .ok v
  | m + 1, v => (move v).bind (Visitor.repeated move m)

namespace Layout

variable {L : Layout} {nodeStorage entryStorage : VfsFile} {va : ℤ} {i m : ℕ}

section Runs

variable (h : L.Ordered) (hholds : L.Holds nodeStorage entryStorage)

include h hholds

theorem repeated_moveNext (hm : i + m < L.entries.length) :
    Visitor.repeated Visitor.moveNext m (L.visitor nodeStorage entryStorage i) =
      .ok (L.visitor nodeStorage entryStorage (i + m)) := by
  induction m generalizing i with
  | zero => rfl
  | succ m ih =>
    rw [Visitor.repeated, moveNext_eq h hholds (by omega) id]
    exact (ih (by omega)).trans (by rw [Nat.add_assoc, Nat.add_comm 1])

theorem repeated_movePrevious (hi : i + m < L.entries.length) :
    Visitor.repeated Visitor.movePrevious m (L.visitor nodeStorage entryStorage (i + m)) =
      .ok (L.visitor nodeStorage entryStorage i) := by
  induction m with
  | zero => rfl
  | succ m ih =>
    rw [Visitor.repeated, ← Nat.add_assoc, movePrevious_eq h hholds (by omega) id]
    exact ih (by omega)

end Runs

/-- The visitor is at entry `i`, and moves along the entries in both directions. -/
structure Visits (L : Layout) (v : Visitor) (i : ℕ) : Prop where
  lt : i < L.entries.length
  entry : v.entry = L.entry i
  next : ∀ m, i + m < L.entries.length → ∃ w, v.repeated Visitor.moveNext m = .ok w ∧
    w.entry = L.entry (i + m) ∧ w.canMoveNext = decide (i + m + 1 < L.entries.length) ∧
      (i + m + 1 < L.entries.length → w.moveNext.bind Visitor.movePrevious = .ok w)
  previous : ∀ m, m ≤ i → ∃ w, v.repeated Visitor.movePrevious m = .ok w ∧
    w.entry = L.entry (i - m) ∧ w.canMovePrevious = decide (0 < i - m)

theorem visits_visitor (h : L.Ordered) (hholds : L.Holds nodeStorage entryStorage)
    (hi : i < L.entries.length) : L.Visits (L.visitor nodeStorage entryStorage i) i where
  lt := hi
  entry := rfl
  next m hm := by
    refine ⟨_, repeated_moveNext h hholds hm, rfl, canMoveNext_visitor h hm, fun hnext => ?_⟩
    rw [moveNext_eq h hholds hnext id]
    exact movePrevious_eq h hholds hnext id
  previous m hm := by
    have hrun := repeated_movePrevious (i := i - m) (m := m) h hholds (by omega)
    rw [Nat.sub_add_cancel hm] at hrun
    exact ⟨_, hrun, rfl, canMovePrevious_visitor⟩

/-- A tree made from its files finds the last entry that is not above an address,
and its visitors move along all entries. -/
theorem tree_search (h : L.Ordered) (hholds : L.Holds nodeStorage entryStorage)
    {tree : BucketTree}
    (hinit : initializeFrom nodeStorage entryStorage L.nodeSize L.entrySize L.entries.length =
      .ok tree) (va : ℤ) :
    (L.virt 0 ≤ va → va < L.endOffset → ∃ i v, tree.find va = .ok v ∧ L.Visits v i ∧
      L.virt i ≤ va ∧ ∀ j, j < L.entries.length → L.virt j ≤ va → j ≤ i) ∧
    (va < L.virt 0 ∨ L.endOffset ≤ va → ∃ code, tree.find va = .error (.result code)) := by
  obtain rfl := initialize_tree h hholds.first hinit
  have hzero : L.start 0 = L.virt 0 := by
    rw [start_eq_bound h, Nat.zero_mul, bound_entry h.nonempty]
  constructor
  · intro hstart hend
    obtain ⟨i, hi⟩ := exists_covers h (hzero.trans_le hstart) hend
    refine ⟨i, _, find_eq h hholds hi ⟨id, fun _ _ => id⟩, visits_visitor h hholds hi.lt, hi.le,
      fun j hj hle => ?_⟩
    by_contra hlt
    have hbound := bound_le h (show i + 1 ≤ j by omega)
    rw [bound_entry hj] at hbound
    exact absurd (hi.below.trans_le hbound) (not_lt.mpr hle)
  · intro hva
    rw [← hzero] at hva
    exact find_outside h hholds hva

/-! ### A tree of three entries -/

def smallEntry (offset : UInt8) : List UInt8 := offset :: List.replicate 503 0

def small : Layout where
  nodeSize := 1024
  entrySize := 504
  entries := [smallEntry 0, smallEntry 16, smallEntry 48]
  endOffset := 64
  nodeCount := 0

def smallNode : VfsFile :=
  ⟨[], [0, 0, 0, 0, 2, 0, 0, 0, 64, 0, 0, 0, 0, 0, 0, 0, 0, 0, 0, 0, 0, 0, 0, 0, 48] ++
    List.replicate 999 0⟩

def smallSets : VfsFile :=
  ⟨[], [0, 0, 0, 0, 2, 0, 0, 0, 48, 0, 0, 0, 0, 0, 0, 0] ++ smallEntry 0 ++ smallEntry 16 ++
    [1, 0, 0, 0, 1, 0, 0, 0, 64, 0, 0, 0, 0, 0, 0, 0] ++ smallEntry 48 ++ List.replicate 504 0⟩

theorem length_smallEntry (offset : UInt8) : (smallEntry offset).length = 504 :=
  congrArg (· + 1) List.length_replicate

theorem small_ordered : small.Ordered where
  entrySize_ge := by decide
  nodeSize_ge := by decide
  nonempty := by decide
  length_eq e he := by
    simp only [small, List.mem_cons, List.not_mem_nil, or_false] at he
    obtain rfl | rfl | rfl := he <;> exact length_smallEntry _
  nonneg := by decide
  ascending i j hij hj := by
    have hall : ∀ j, j < 3 → ∀ i, i < j → small.virt i < small.virt j := by decide
    exact hall j hj i hij
  below := by decide
  oneLevel _ := rfl
  twoLevels := by decide

theorem small_holds : small.Holds smallNode smallSets where
  first :=
    { fits := by
        simp only [small, smallNode, List.length_append, List.length_replicate]
        decide
      oneLevel := fun _ => ⟨by decide, by decide, by decide, by decide⟩
      twoLevels := fun htwo => absurd htwo (Nat.lt_irrefl 0)
      tail := by decide }
  setFits k hk _ := by
    have hk : k < 2 := hk
    simp only [small, smallSets, List.length_append, length_smallEntry, List.length_replicate,
      List.length_cons, List.length_nil]
    omega
  sets k hk _ := by
    have hk : k < 2 := hk
    obtain rfl | rfl : k = 0 ∨ k = 1 := by omega
    · exact ⟨by decide, by decide, by decide, by decide +kernel⟩
    · exact ⟨by decide +kernel, by decide +kernel, by decide +kernel, by decide +kernel⟩
  badSets _ _ := False.elim
  nodeFits := by decide
  nodes _ hi := absurd hi (Nat.not_lt_zero _)
  badNodes _ _ := False.elim

theorem tree_search_small :
    (small.virt 0 ≤ 20 → 20 < small.endOffset → ∃ i v,
      (small.tree smallNode smallSets).find 20 = .ok v ∧ small.Visits v i ∧ small.virt i ≤ 20 ∧
        ∀ j, j < small.entries.length → small.virt j ≤ 20 → j ≤ i) ∧
    (20 < small.virt 0 ∨ small.endOffset ≤ 20 →
      ∃ code, (small.tree smallNode smallSets).find 20 = .error (.result code)) :=
  tree_search small_ordered small_holds
    (initialize_eq small_ordered small_holds.first (by decide) (by decide)) 20

end Layout

end Ruzu.FileSys
