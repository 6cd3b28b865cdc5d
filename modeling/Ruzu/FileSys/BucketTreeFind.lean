import Ruzu.FileSys.BucketTreeLayout

/-!
# Finding an entry

The set of an address is found in the offsets of the first node, in those of
the first sets behind them, or in a node of the second level; each way gives the
set whose offsets enclose the address.
-/

set_option autoImplicit false

namespace Ruzu.FileSys

open BucketTree UpperBound

namespace Layout

variable {L : Layout} {badSet badNode : ℕ → Prop} {nodeStorage entryStorage : VfsFile}
  {va : ℤ} {i k : ℕ}

/-- The set encloses the address. -/
structure Encloses (L : Layout) (k : ℕ) (va : ℤ) : Prop where
  lt : k < L.setCount
  le : L.start k ≤ va
  below : va < L.start (k + 1)

/-- Where an entry begins, and the ones before it end. -/
def bound (L : Layout) (i : ℕ) : ℤ := if i < L.entries.length then L.virt i else L.endOffset

/-- The entry covers the address. -/
structure Covers (L : Layout) (i : ℕ) (va : ℤ) : Prop where
  lt : i < L.entries.length
  le : L.virt i ≤ va
  below : va < L.bound (i + 1)

/-- The visitor at an entry. -/
def visitor (L : Layout) (nodeStorage entryStorage : VfsFile) (i : ℕ) : Visitor where
  tree := L.tree nodeStorage entryStorage
  entry := L.entry i
  entryIndex := (i % L.perSet : ℕ)
  entrySetCount := L.setCount
  entrySet :=
    { index := (i / L.perSet : ℕ)
      count := L.setSize (i / L.perSet)
      stop := L.start (i / L.perSet + 1)
      start := L.start (i / L.perSet) }

/-- The visitor that a search begins with. -/
def unplaced (L : Layout) (nodeStorage entryStorage : VfsFile) : Visitor :=
  ⟨L.tree nodeStorage entryStorage, List.replicate L.entrySize 0, -1, 0, ⟨0, 0, 0, 0⟩⟩

section Order

variable (h : L.Ordered)

include h

theorem Ordered.ascending_start : Ascending L.start L.setCount :=
  fun _ _ hij hj => h.start_le hij.le hj.le

theorem Ordered.exists_encloses (hstart : L.start 0 ≤ va) (hend : va < L.endOffset) :
    ∃ k, L.Encloses k va := by
  obtain ⟨p, hp⟩ := h.ascending_start.exists va
  have hpos : p ≠ 0 := by
    rintro rfl
    exact absurd (hp.above 0 le_rfl h.setCount_pos) (not_lt.mpr hstart)
  obtain ⟨k, rfl⟩ := Nat.exists_eq_succ_of_ne_zero hpos
  refine ⟨k, hp.le, hp.below k k.lt_succ_self, ?_⟩
  rcases Nat.lt_or_ge (k + 1) L.setCount with hlt | hge
  · exact hp.above _ le_rfl hlt
  · rwa [Ordered.start_end hge]

theorem Encloses.isUpperBound (hk : L.Encloses k va) :
    IsUpperBound L.start L.setCount va (k + 1) where
  le := hk.lt
  below j hj := (h.start_le (by omega) hk.lt.le).trans hk.le
  above j hj hn := hk.below.trans_le (h.start_le hj hn.le)

end Order

theorem verify_error {header : NodeHeader} {index : ℤ} {nodeSize entrySize : ℕ}
    (h : header.verify index nodeSize entrySize ≠ .ok ()) :
    ∃ code, header.verify index nodeSize entrySize = .error (.result code) := by
  unfold NodeHeader.verify at h ⊢
  split
  · exact ⟨_, rfl⟩
  split
  · exact ⟨_, rfl⟩
  split
  · exact ⟨_, rfl⟩
  split
  · exact ⟨_, rfl⟩
  · simp_all

/-! ### The offsets in the first node -/

section First

variable (h : L.Ordered) (hfirst : L.HoldsFirst nodeStorage)

include h hfirst

omit h in
theorem length_nodeL1 : (L.tree nodeStorage entryStorage).nodeL1.length = L.nodeSize :=
  length_block (by have := hfirst.fits; omega)

theorem partitionPoint_eq {a m p : ℕ} {g : ℕ → ℤ} (ham : a + m ≤ L.perNode)
    (hg : ∀ j, j < m → i64At nodeStorage.data (nodeHeaderSize + (a + j) * 8) = g j)
    (hp : IsUpperBound g m va p) :
    partitionPoint ((L.tree nodeStorage entryStorage).readL1Offsets a m) va = p := by
  have hfit : L.perNode * 8 ≤ L.nodeSize - nodeHeaderSize := Nat.div_mul_le_self _ _
  have hsize := h.nodeSize_ge
  have hall : (List.range m).filter (fun i => decide (nodeHeaderSize + (a + i) * 8 + 8 ≤
      (L.tree nodeStorage entryStorage).nodeL1.length)) = List.range m := by
    refine List.filter_eq_self.mpr fun i hi => decide_eq_true ?_
    rw [length_nodeL1 hfirst]
    have hlt := List.mem_range.mp hi
    omega
  have hmap : ((List.range m).map fun i =>
      i64At (L.tree nodeStorage entryStorage).nodeL1 (nodeHeaderSize + (a + i) * 8)) =
        (List.range m).map g := by
    refine List.map_congr_left fun i hi => ?_
    have hlt := List.mem_range.mp hi
    rw [← hg i hlt]
    exact nodeL1_offset h (by omega)
  rw [partitionPoint, readL1Offsets, hall, hmap, hp.length_takeWhile]

theorem tree_header : nodeHeader (L.tree nodeStorage entryStorage).nodeL1 =
    ⟨0, L.l1Count, L.endOffset⟩ := nodeL1_header h hfirst

theorem tree_endOffset : (L.tree nodeStorage entryStorage).getL1EndOffset = L.endOffset := by
  rw [getL1EndOffset, tree_header h hfirst]

theorem tree_isExistOffsetL2OnL1 : (L.tree nodeStorage entryStorage).isExistOffsetL2OnL1 =
    decide (L.perNode < L.setCount ∧ L.l1Count < L.perNode) := by
  rw [isExistOffsetL2OnL1, tree_header h hfirst]
  simp [isExistL2, Layout.tree]

omit h in
theorem l1Offset_oneLevel (hone : L.nodeCount = 0) {j : ℕ} (hj : j < L.setCount) :
    i64At nodeStorage.data (nodeHeaderSize + j * 8) = L.start j := by
  have hoffset := (hfirst.oneLevel hone).offset_eq j hj
  rwa [Nat.zero_mul, Nat.zero_add] at hoffset

omit h in
theorem l1Offset_twoLevels (htwo : 0 < L.nodeCount) {i : ℕ} (hi : i < L.nodeCount) :
    i64At nodeStorage.data (nodeHeaderSize + i * 8) = L.start (L.nodeStart i) := by
  have hoffset := (hfirst.twoLevels htwo).offset_eq i hi
  rwa [Nat.zero_mul, Nat.zero_add] at hoffset

theorem tree_beginOffset (htwo : 0 < L.nodeCount) :
    (L.tree nodeStorage entryStorage).getL1BeginOffset = L.start L.onL1 := by
  have hread : i64At ((nodeStorage.data.drop 0).take L.nodeSize) (nodeHeaderSize + 0 * 8) =
      i64At nodeStorage.data (nodeHeaderSize + 0 * 8) := nodeL1_offset h h.perNode_pos
  exact hread.trans (l1Offset_twoLevels hfirst htwo htwo)

variable {v : Visitor} (hv : v.tree = L.tree nodeStorage entryStorage) {p : ℕ}

include hv

theorem findSetIndex_oneLevel (hone : L.setCount ≤ L.perNode)
    (hp : IsUpperBound L.start L.setCount va p) :
    v.findSetIndex va = if p = 0 then .error (.result .outOfRange) else .ok (p - 1 : ℤ) := by
  obtain ⟨-, -, -, hcount⟩ := l1Count_bounds h
  obtain ⟨hcount, hnode⟩ := hcount hone
  have hpoint : partitionPoint ((L.tree nodeStorage entryStorage).readL1Offsets 0 L.setCount) va =
      p := by
    refine partitionPoint_eq h hfirst (by omega) (fun j hj => ?_) hp
    rw [Nat.zero_add]
    exact l1Offset_oneLevel hfirst hnode hj
  have hexist : (L.tree nodeStorage entryStorage).isExistL2 = false :=
    decide_eq_false (not_lt.mpr (Int.ofNat_le.mpr hone))
  rw [Visitor.findSetIndex, hv, tree_isExistOffsetL2OnL1 h hfirst, tree_header h hfirst]
  dsimp only
  rw [if_neg (by simp [hone]), Int.toNat_natCast, hcount, hpoint, hexist]
  rfl

/-- The lookup in the offsets behind those of the second level. -/
theorem findSetIndex_tail (htwo : L.perNode < L.setCount) (hpositive : 0 < L.onL1)
    (hva : va < L.start L.onL1) (hp : IsUpperBound L.start L.onL1 va p) :
    v.findSetIndex va = if p = 0 then .error (.result .outOfRange) else .ok (p - 1 : ℤ) := by
  obtain ⟨-, -, hcount, -⟩ := l1Count_bounds h
  obtain ⟨hcount, hnode⟩ := hcount htwo
  have hlt : L.nodeCount < L.perNode := by
    rw [onL1] at hpositive
    omega
  have hpoint : partitionPoint
      ((L.tree nodeStorage entryStorage).readL1Offsets L.nodeCount L.onL1) va = p :=
    partitionPoint_eq h hfirst (by rw [onL1]; omega) (fun j hj => hfirst.tail hnode j hj) hp
  rw [Visitor.findSetIndex, hv, tree_isExistOffsetL2OnL1 h hfirst, tree_header h hfirst,
    tree_beginOffset h hfirst hnode]
  dsimp only
  rw [if_pos (by simp [htwo, hcount, hlt, hva]), Int.toNat_natCast, hcount,
    show (L.tree nodeStorage entryStorage).offsetCount.toNat - L.nodeCount = L.onL1 from rfl, hpoint]

theorem findSetIndex_node (htwo : L.perNode < L.setCount)
    (hva : L.onL1 = 0 ∨ L.start L.onL1 ≤ va)
    (hp : IsUpperBound (fun i => L.start (L.nodeStart i)) L.nodeCount va p) :
    v.findSetIndex va =
      if p = 0 then .error (.result .outOfRange) else v.findEntrySet va (p - 1 : ℤ) := by
  obtain ⟨-, hle, hcount, -⟩ := l1Count_bounds h
  obtain ⟨hcount, hnode⟩ := hcount htwo
  have hpoint : partitionPoint ((L.tree nodeStorage entryStorage).readL1Offsets 0 L.nodeCount) va =
      p := by
    refine partitionPoint_eq h hfirst (by omega) (fun j hj => ?_) hp
    rw [Nat.zero_add]
    exact l1Offset_twoLevels hfirst hnode hj
  have hexist : (L.tree nodeStorage entryStorage).isExistL2 = true :=
    decide_eq_true (Int.ofNat_lt.mpr htwo)
  have hbelow : ¬(L.l1Count < L.perNode ∧ va < L.start L.onL1) := by
    rintro ⟨hlt, hbelow⟩
    rcases hva with hzero | hva
    · rw [onL1] at hzero
      omega
    · exact absurd hbelow (not_lt.mpr hva)
  have hfit : ¬((p - 1 : ℤ) < 0 ∨ (p - 1 : ℤ) ≥ L.perNode) ∨ p = 0 := by
    have hple := hp.le
    omega
  rw [Visitor.findSetIndex, hv, tree_isExistOffsetL2OnL1 h hfirst, tree_header h hfirst,
    tree_beginOffset h hfirst hnode]
  dsimp only
  rw [if_neg (by simpa [htwo] using hbelow), Int.toNat_natCast, hcount, hpoint, hexist]
  rcases hfit with hfit | rfl
  · rw [if_pos rfl, show (L.tree nodeStorage entryStorage).offsetCount = (L.perNode : ℤ) from rfl,
      if_neg hfit]
  · rfl

/-! ### The second level and the sets -/

omit hfirst hv in
theorem nodeStart_lt (hi : i < L.nodeCount) (htwo : L.perNode < L.setCount) :
    L.nodeStart i < L.setCount := by
  obtain ⟨-, -, hlast, -⟩ := h.twoLevels htwo
  have hle : L.perNode * i ≤ L.perNode * (L.nodeCount - 1) := Nat.mul_le_mul_left _ (by omega)
  rw [nodeStart] at hlast ⊢
  omega

theorem findEntrySet_eq (htwo : L.perNode < L.setCount)
    (hfits : (i + 1 + 1) * L.nodeSize ≤ nodeStorage.data.length)
    (hnode : L.HoldsNode nodeStorage (i + 1) i (L.nodeLength i) (L.start (L.nodeStart (i + 1)))
      fun j => L.start (L.nodeStart i + j))
    (hp : IsUpperBound (fun j => L.start (L.nodeStart i + j)) (L.nodeLength i) va (p + 1)) :
    v.findEntrySet va i = .ok ((L.nodeStart i + p : ℕ) : ℤ) := by
  have hfit : L.perNode * 8 ≤ L.nodeSize - nodeHeaderSize := Nat.div_mul_le_self _ _
  have hsize := h.nodeSize_ge
  have hentry := h.entrySize_ge
  have hheaderSize : nodeHeaderSize = 16 := rfl
  have hlength : L.nodeLength i ≤ L.perNode := Nat.min_le_left _ _
  obtain ⟨hpos, hle, -, -⟩ := h.twoLevels htwo
  obtain ⟨-, -, hcount, -⟩ := l1Count_bounds h
  have hpositive : 0 < L.nodeLength i := hp.le.trans_lt' p.succ_pos
  have hblock : (i + 1) * L.nodeSize + L.nodeSize ≤ nodeStorage.data.length := by
    rwa [Nat.succ_mul (i + 1)] at hfits
  have hheader : nodeHeader ((nodeStorage.data.drop ((i + 1) * L.nodeSize)).take L.nodeSize) =
      ⟨i, L.nodeLength i, L.start (L.nodeStart (i + 1))⟩ := by
    rw [nodeHeader, i32At_block (by omega), i32At_block (by omega), i64At_block (by omega),
      Nat.add_zero, hnode.index_eq, hnode.count_eq, hnode.stop_eq]
  have hnext := h.start_nonneg (L.nodeStart (i + 1))
  have hsearch : storageNodeFindInBuffer
      ((nodeStorage.data.drop ((i + 1) * L.nodeSize)).take L.nodeSize) 8 (L.nodeLength i)
      nodeHeaderSize va = (p + 1 : ℕ) - 1 := by
    refine storageNodeFindInBuffer_eq (fun j hj => ?_) (fun j hj => ?_) hp
    · rw [length_block hblock]
      omega
    · rw [i64At_block (by omega), ← Nat.add_assoc]
      exact hnode.offset_eq j hj
  rw [Visitor.findEntrySet, hv]
  dsimp only [Layout.tree, Int.toNat_natCast]
  rw [readInto_block hblock, hheader]
  dsimp only
  rw [h.verify_node hpositive hlength hnext, hsearch]
  change (if _ then _ else Except.ok
    ((L.tree nodeStorage entryStorage).getEntrySetIndex i ((p + 1 : ℕ) - 1))) = _
  rw [if_neg (by omega), getEntrySetIndex, tree_header h hfirst]
  dsimp only [Layout.tree]
  rw [(hcount htwo).1, nodeStart, onL1]
  push_cast [hle]
  ring_nf

omit h hfirst in
theorem findEntrySet_bad (hbad : L.Rejected nodeStorage ((i + 1) * L.nodeSize) i 8)
    (hsize : nodeHeaderSize ≤ L.nodeSize) :
    ∃ code, v.findEntrySet va i = .error (.result code) := by
  obtain ⟨code, hverify⟩ := verify_error (hbad L.nodeSize hsize)
  rw [Visitor.findEntrySet, hv]
  dsimp only [Layout.tree, Int.toNat_natCast]
  rw [hverify]
  exact ⟨code, rfl⟩

omit hfirst hv in
/-- The header of a set: its start is the offset of the first entry. -/
theorem entrySetHeader_eq (hk : k < L.setCount) (hset : L.HoldsSet entryStorage k) {m : ℕ}
    (hm : 24 ≤ m) : entrySetHeader ((entryStorage.data.drop (k * L.nodeSize)).take m) =
      ⟨k, L.setSize k, L.start (k + 1), L.start k⟩ := by
  have hstart := i64At_piece (hset.entry_eq 0 (h.setSize_pos hk)) h.entrySize_ge
  rw [Nat.zero_mul, Nat.add_zero, Nat.add_zero] at hstart
  rw [entrySetHeader, i32At_block (by omega), i32At_block (by omega), i64At_block (by omega),
    i64At_block (by omega), Nat.add_zero, hset.index_eq, hset.count_eq, hset.stop_eq,
    Ordered.start_set hk]
  exact congrArg _ hstart

omit hfirst in
theorem findEntry_eq (hk : k < L.setCount)
    (hfits : (k + 1) * L.nodeSize ≤ entryStorage.data.length) (hset : L.HoldsSet entryStorage k)
    (hentry : v.entry.length = L.entrySize)
    (hp : IsUpperBound (fun j => L.virt (k * L.perSet + j)) (L.setSize k) va (p + 1)) :
    v.findEntry va k = .ok
      { v with
        entry := L.entry (k * L.perSet + p)
        entryIndex := p
        entrySet := ⟨k, L.setSize k, L.start (k + 1), L.start k⟩ } := by
  have hfit : L.perSet * L.entrySize ≤ L.nodeSize - nodeHeaderSize := Nat.div_mul_le_self _ _
  have hsize := h.nodeSize_ge
  have hentrySize := h.entrySize_ge
  have hheaderSize : nodeHeaderSize = 16 := rfl
  have hset_le := Ordered.setSize_le (L := L) (k := k)
  have hpositive : 0 < L.setSize k := hp.le.trans_lt' p.succ_pos
  have hblock : k * L.nodeSize + L.nodeSize ≤ entryStorage.data.length := by
    rwa [Nat.succ_mul k] at hfits
  have hplace : ∀ j, j < L.setSize k →
      nodeHeaderSize + j * L.entrySize + L.entrySize ≤ L.nodeSize := by
    intro j hj
    have hmul : (j + 1) * L.entrySize ≤ L.perSet * L.entrySize :=
      Nat.mul_le_mul_right _ (by omega)
    rw [Nat.succ_mul] at hmul
    omega
  have hpiece : ∀ j, j < L.setSize k →
      (((entryStorage.data.drop (k * L.nodeSize)).take L.nodeSize).drop
        (nodeHeaderSize + j * L.entrySize)).take L.entrySize = L.entry (k * L.perSet + j) := by
    intro j hj
    rw [take_block (hplace j hj), ← Nat.add_assoc]
    exact hset.entry_eq j hj
  have hheader := entrySetHeader_eq h hk hset (show 24 ≤ L.nodeSize by omega)
  have hsearch : storageNodeFindInBuffer
      ((entryStorage.data.drop (k * L.nodeSize)).take L.nodeSize) L.entrySize (L.setSize k)
      nodeHeaderSize va = (p + 1 : ℕ) - 1 := by
    refine storageNodeFindInBuffer_eq (fun j hj => ?_) (fun j hj => ?_) hp
    · rw [length_block hblock]
      have hj := hplace j hj
      omega
    · exact i64At_piece (hpiece j hj) hentrySize
  have hstorage : v.tree.entryStorage = some entryStorage := by rw [hv]; rfl
  have htreeNode : v.tree.nodeSize = L.nodeSize := by rw [hv]; rfl
  have htreeEntry : v.tree.entrySize = L.entrySize := by rw [hv]; rfl
  rw [Visitor.findEntry, Visitor.entryStorage, hstorage, htreeNode, htreeEntry, Int.toNat_natCast]
  dsimp only [bind, Except.bind]
  rw [readInto_block hblock, hheader]
  have hverify : (EntrySetHeader.toNodeHeader
      ⟨k, L.setSize k, L.start (k + 1), L.start k⟩).verify k L.nodeSize L.entrySize = .ok () :=
    h.verify_set hk
  rw [hverify]
  dsimp only
  rw [hsearch, if_neg (by omega), length_block hblock,
    show ((p + 1 : ℕ) - 1 : ℤ) = (p : ℤ) by omega, Int.toNat_natCast, getBucketTreeEntryOffset,
    Nat.zero_add, if_pos (hplace p hp.le), hpiece p hp.le, List.drop_eq_nil_of_le hentry.le,
    List.append_nil]

omit h hfirst in
theorem findEntry_bad (hbad : L.Rejected entryStorage (k * L.nodeSize) k L.entrySize)
    (hsize : nodeHeaderSize ≤ L.nodeSize) :
    ∃ code, v.findEntry va k = .error (.result code) := by
  obtain ⟨code, hverify⟩ := verify_error (hbad L.nodeSize hsize)
  have hverify' : (entrySetHeader (entryStorage.readInto (List.replicate L.nodeSize 0) L.nodeSize
      (k * L.nodeSize))).toNodeHeader.verify k L.nodeSize L.entrySize =
      .error (.result code) := hverify
  rw [Visitor.findEntry, Visitor.entryStorage, hv]
  dsimp only [Layout.tree, Int.toNat_natCast, bind, Except.bind]
  rw [hverify']
  exact ⟨code, rfl⟩

end First

/-! ### The whole search -/

section Search

variable (h : L.Ordered)

include h

omit h in
theorem bound_entry (hi : i < L.entries.length) : L.bound i = L.virt i := if_pos hi

theorem bound_lt {j : ℕ} (hij : i < j) (hi : i < L.entries.length) : L.bound i < L.bound j := by
  rw [bound_entry hi, bound]
  split
  case isTrue hj => exact h.ascending i j hij hj
  case isFalse => exact h.below i hi

theorem bound_le {j : ℕ} (hij : i ≤ j) : L.bound i ≤ L.bound j := by
  rcases Nat.lt_or_ge i L.entries.length with hi | hi
  · rcases hij.lt_or_eq with hlt | rfl
    · exact (bound_lt h hlt hi).le
    · exact le_rfl
  · rw [bound, bound, if_neg (by omega), if_neg (by omega)]

theorem start_eq_bound (k : ℕ) : L.start k = L.bound (k * L.perSet) := by
  rw [Layout.start, bound]
  simp only [h.lt_setCount_iff]

theorem start_mono {k' : ℕ} (hk : k ≤ k') : L.start k ≤ L.start k' := by
  rw [start_eq_bound h, start_eq_bound h]
  exact bound_le h (Nat.mul_le_mul_right _ hk)

theorem Covers.encloses (hi : L.Covers i va) : L.Encloses (i / L.perSet) va where
  lt := h.div_lt_setCount hi.lt
  le := by
    rw [start_eq_bound h]
    exact (bound_le h (Nat.div_mul_le_self i _)).trans ((bound_entry hi.lt).trans_le hi.le)
  below := by
    rw [start_eq_bound h]
    have hlt : i < i / L.perSet * L.perSet + L.perSet := Nat.lt_div_mul_add h.perSet_pos
    exact hi.below.trans_le (bound_le h (by rw [Nat.succ_mul]; omega))

theorem Covers.isUpperBound (hi : L.Covers i va) :
    IsUpperBound (fun j => L.virt (i / L.perSet * L.perSet + j)) (L.setSize (i / L.perSet)) va
      (i % L.perSet + 1) where
  le := h.mod_lt_setSize hi.lt
  below j hj := by
    have hdiv := Nat.div_add_mod' i L.perSet
    have hle : i / L.perSet * L.perSet + j ≤ i := by omega
    rw [← bound_entry (hle.trans_lt hi.lt)]
    exact (bound_le h hle).trans ((bound_entry hi.lt).trans_le hi.le)
  above j hj hlt := by
    have hdiv := Nat.div_add_mod' i L.perSet
    rw [← bound_entry (Ordered.entry_lt hlt)]
    exact hi.below.trans_le (bound_le h (by omega))

theorem exists_covers (hstart : L.start 0 ≤ va) (hend : va < L.endOffset) :
    ∃ i, L.Covers i va := by
  have hasc : Ascending L.virt L.entries.length := fun i j hij hj => (h.ascending i j hij hj).le
  obtain ⟨p, hp⟩ := hasc.exists va
  have hpos : p ≠ 0 := by
    rintro rfl
    rw [start_eq_bound h, Nat.zero_mul, bound_entry h.nonempty] at hstart
    exact absurd (hp.above 0 le_rfl h.nonempty) (not_lt.mpr hstart)
  obtain ⟨i, rfl⟩ := Nat.exists_eq_succ_of_ne_zero hpos
  refine ⟨i, hp.le, hp.below i i.lt_succ_self, ?_⟩
  rw [bound]
  split
  case isTrue hlt => exact hp.above _ le_rfl hlt
  case isFalse => exact hend

/-- The node of the second level that a set's offset is in. -/
def nodeOf (L : Layout) (k : ℕ) : ℕ := (k - L.onL1) / L.perNode

/-- The set can be found and read. -/
structure Intact (L : Layout) (badSet badNode : ℕ → Prop) (k : ℕ) : Prop where
  set : ¬badSet k
  node : L.perNode < L.setCount → L.onL1 ≤ k → ¬badNode (L.nodeOf k)

variable (hstored : L.Stored badSet badNode nodeStorage entryStorage) {v : Visitor}
  (hv : v.tree = L.tree nodeStorage entryStorage)

theorem nodeOf_bounds (htwo : L.perNode < L.setCount) (hk : k < L.setCount) (htail : L.onL1 ≤ k) :
    L.nodeOf k < L.nodeCount ∧ L.nodeStart (L.nodeOf k) ≤ k ∧
      k < L.nodeStart (L.nodeOf k + 1) := by
  obtain ⟨-, -, -, hlast⟩ := h.twoLevels htwo
  have hdiv := Nat.div_mul_le_self (k - L.onL1) L.perNode
  have hmod : k - L.onL1 < (k - L.onL1) / L.perNode * L.perNode + L.perNode :=
    Nat.lt_div_mul_add h.perNode_pos
  rw [nodeStart] at hlast
  refine ⟨?_, ?_, ?_⟩
  · rw [nodeOf, Nat.div_lt_iff_lt_mul h.perNode_pos, Nat.mul_comm]
    omega
  · rw [nodeStart, nodeOf, Nat.mul_comm]
    omega
  · rw [nodeStart, nodeOf, Nat.mul_succ, Nat.mul_comm L.perNode]
    omega

/-- The first level leads to the node of the set. -/
theorem Encloses.isUpperBound_node (hk : L.Encloses k va) (htwo : L.perNode < L.setCount)
    (htail : L.onL1 ≤ k) :
    IsUpperBound (fun i => L.start (L.nodeStart i)) L.nodeCount va (L.nodeOf k + 1) := by
  obtain ⟨hlt, hle, hnext⟩ := nodeOf_bounds h htwo hk.lt htail
  refine ⟨hlt, fun j hj => ?_, fun j hj _ => ?_⟩
  · have hmul : L.perNode * j ≤ L.perNode * L.nodeOf k := Nat.mul_le_mul_left _ (by omega)
    rw [nodeStart] at hle
    exact (start_mono h (by rw [nodeStart]; omega)).trans hk.le
  · have hmul : L.perNode * (L.nodeOf k + 1) ≤ L.perNode * j := Nat.mul_le_mul_left _ hj
    rw [nodeStart] at hnext
    exact hk.below.trans_le (start_mono h (by rw [nodeStart]; omega))

include hstored hv

theorem findSetIndex_eq (hk : L.Encloses k va)
    (hnode : L.perNode < L.setCount → L.onL1 ≤ k → ¬badNode (L.nodeOf k)) :
    v.findSetIndex va = .ok (k : ℤ) := by
  have hbound := hk.isUpperBound h
  have hpred : ((k + 1 : ℕ) - 1 : ℤ) = k := by omega
  rcases Nat.lt_or_ge L.perNode L.setCount with htwo | hone
  case inr =>
    rw [findSetIndex_oneLevel h hstored.first hv hone hbound, if_neg k.succ_ne_zero, hpred]
  rcases Nat.lt_or_ge k L.onL1 with hlt | htail
  case inl =>
    have honL1 : L.onL1 ≤ L.perNode := Nat.sub_le _ _
    have hva := hk.below.trans_le (start_mono h hlt)
    rw [findSetIndex_tail h hstored.first hv htwo (by omega) hva (hbound.take hlt (by omega)),
      if_neg k.succ_ne_zero, hpred]
  obtain ⟨hnodeLt, hle, hnext⟩ := nodeOf_bounds h htwo hk.lt htail
  have hgood := hnode htwo htail
  have hlast : k + 1 ≤ L.nodeStart (L.nodeOf k) + L.nodeLength (L.nodeOf k) := by
    have hlt := hk.lt
    rw [nodeStart, Nat.mul_succ] at hnext
    rw [nodeLength, nodeStart]
    omega
  have hfits : L.nodeStart (L.nodeOf k) + L.nodeLength (L.nodeOf k) ≤ L.setCount := by
    have hlt := hk.lt
    rw [nodeLength]
    omega
  have hslice := hbound.slice (hle.trans k.le_succ) hlast hfits
  rw [Nat.succ_sub hle] at hslice
  have hva := (start_mono h htail).trans hk.le
  rw [findSetIndex_node h hstored.first hv htwo (.inr hva) (hk.isUpperBound_node h htwo htail),
    if_neg (Nat.succ_ne_zero _), show ((L.nodeOf k + 1 : ℕ) - 1 : ℤ) = (L.nodeOf k : ℕ) by omega,
    findEntrySet_eq h hstored.first hv htwo (hstored.nodeFits _ hnodeLt hgood)
      (hstored.nodes _ hnodeLt hgood) hslice, Nat.add_sub_cancel' hle]

theorem findSetIndex_bad (hk : L.Encloses k va) (htwo : L.perNode < L.setCount)
    (htail : L.onL1 ≤ k) (hbad : badNode (L.nodeOf k)) :
    ∃ code, v.findSetIndex va = .error (.result code) := by
  obtain ⟨hnodeLt, -, -⟩ := nodeOf_bounds h htwo hk.lt htail
  have hsize := h.nodeSize_ge
  have hva := (start_mono h htail).trans hk.le
  rw [findSetIndex_node h hstored.first hv htwo (.inr hva) (hk.isUpperBound_node h htwo htail),
    if_neg (Nat.succ_ne_zero _), show ((L.nodeOf k + 1 : ℕ) - 1 : ℤ) = (L.nodeOf k : ℕ) by omega]
  exact findEntrySet_bad hv (hstored.badNodes _ hnodeLt hbad) (by omega)

theorem findSetIndex_below (hva : va < L.start 0) :
    v.findSetIndex va = .error (.result .outOfRange) := by
  have hbound : ∀ m, IsUpperBound L.start m va 0 := fun m =>
    ⟨Nat.zero_le m, by omega, fun j _ _ => hva.trans_le (start_mono h (Nat.zero_le j))⟩
  rcases Nat.lt_or_ge L.perNode L.setCount with htwo | hone
  case inr => rw [findSetIndex_oneLevel h hstored.first hv hone (hbound _), if_pos rfl]
  rcases Nat.eq_zero_or_pos L.onL1 with hzero | hpos
  · have hnode : IsUpperBound (fun i => L.start (L.nodeStart i)) L.nodeCount va 0 :=
      ⟨Nat.zero_le _, by omega, fun j _ _ => hva.trans_le (start_mono h (Nat.zero_le _))⟩
    rw [findSetIndex_node h hstored.first hv htwo (.inl hzero) hnode, if_pos rfl]
  · have honL1 := hva.trans_le (start_mono h (Nat.zero_le L.onL1))
    rw [findSetIndex_tail h hstored.first hv htwo hpos honL1 (hbound _), if_pos rfl]

omit hv

omit hstored in
theorem tree_find (hva : 0 ≤ va) : (L.tree nodeStorage entryStorage).find va =
    (L.unplaced nodeStorage entryStorage).find va := by
  have hsize := h.nodeSize_ge
  have hentry := h.entrySize_ge
  have hinit : (L.tree nodeStorage entryStorage).isInitialized = true :=
    decide_eq_true (show 0 < L.nodeSize by omega)
  have hempty : (L.tree nodeStorage entryStorage).isEmpty = false :=
    decide_eq_false (show ¬L.entrySize = 0 by omega)
  rw [BucketTree.find, hinit, if_neg (by simp), if_neg (not_lt.mpr hva), hempty,
    if_neg Bool.false_ne_true]
  rfl

omit h hstored in
theorem index_fits (hk : k < L.setCount) : ¬((k : ℤ) < 0 ∨ (k : ℤ) ≥ L.setCount) := by
  omega

omit hstored in
theorem Encloses.lt_end (hk : L.Encloses k va) : va < L.endOffset :=
  hk.below.trans_le ((start_mono h hk.lt).trans_eq (Ordered.start_end le_rfl))

/-- The entry that covers the address is found. -/
theorem find_eq (hi : L.Covers i va) (hintact : L.Intact badSet badNode (i / L.perSet)) :
    (L.tree nodeStorage entryStorage).find va = .ok (L.visitor nodeStorage entryStorage i) := by
  have hencloses := hi.encloses h
  have hlt := hencloses.lt
  have hnonneg := (h.start_nonneg _).trans hencloses.le
  have hv : (L.unplaced nodeStorage entryStorage).tree = L.tree nodeStorage entryStorage := rfl
  rw [tree_find h hnonneg, Visitor.find, hv, tree_endOffset h hstored.first, if_neg (not_le.mpr (hencloses.lt_end h)),
    findSetIndex_eq h hstored hv hencloses hintact.node]
  dsimp only [bind, Except.bind]
  rw [show (L.tree nodeStorage entryStorage).entrySetCount = (L.setCount : ℤ) from rfl,
    if_neg (index_fits hlt), findEntry_eq h hv hlt (hstored.setFits _ hlt hintact.set)
      (hstored.sets _ hlt hintact.set) List.length_replicate (hi.isUpperBound h),
    Nat.div_add_mod']
  rfl

theorem find_damaged (hi : L.Covers i va) (hbad : ¬L.Intact badSet badNode (i / L.perSet)) :
    ∃ code, (L.tree nodeStorage entryStorage).find va = .error (.result code) := by
  have hencloses := hi.encloses h
  have hlt := hencloses.lt
  have hsize := h.nodeSize_ge
  have hnonneg := (h.start_nonneg _).trans hencloses.le
  have hv : (L.unplaced nodeStorage entryStorage).tree = L.tree nodeStorage entryStorage := rfl
  rw [tree_find h hnonneg, Visitor.find, hv, tree_endOffset h hstored.first, if_neg (not_le.mpr (hencloses.lt_end h))]
  by_cases hnode : L.perNode < L.setCount → L.onL1 ≤ i / L.perSet →
      ¬badNode (L.nodeOf (i / L.perSet))
  · have hset : badSet (i / L.perSet) := by
      by_contra hgood
      exact hbad ⟨hgood, hnode⟩
    obtain ⟨code, hentry⟩ : ∃ code, (L.unplaced nodeStorage entryStorage).findEntry va
        (i / L.perSet : ℕ) = .error (.result code) :=
      findEntry_bad hv (hstored.badSets _ hlt hset) (by omega)
    rw [findSetIndex_eq h hstored hv hencloses hnode]
    dsimp only [bind, Except.bind]
    rw [show (L.tree nodeStorage entryStorage).entrySetCount = (L.setCount : ℤ) from rfl,
      if_neg (index_fits hlt), hentry]
    exact ⟨code, rfl⟩
  · push Not at hnode
    obtain ⟨htwo, htail, hbadNode⟩ := hnode
    obtain ⟨code, hindex⟩ := findSetIndex_bad h hstored hv hencloses htwo htail hbadNode
    rw [hindex]
    exact ⟨code, rfl⟩

theorem find_outside (hva : va < L.start 0 ∨ L.endOffset ≤ va) :
    ∃ code, (L.tree nodeStorage entryStorage).find va = .error (.result code) := by
  rcases lt_or_ge va 0 with hneg | hnonneg
  · have hsize := h.nodeSize_ge
    have hentry := h.entrySize_ge
    have hinit : (L.tree nodeStorage entryStorage).isInitialized = true :=
      decide_eq_true (show 0 < L.nodeSize by omega)
    rw [BucketTree.find, hinit, if_neg (by simp), if_pos hneg]
    exact ⟨_, rfl⟩
  have hv : (L.unplaced nodeStorage entryStorage).tree = L.tree nodeStorage entryStorage := rfl
  rw [tree_find h hnonneg, Visitor.find, hv, tree_endOffset h hstored.first]
  split
  case isTrue => exact ⟨_, rfl⟩
  case isFalse hend =>
    rw [findSetIndex_below h hstored hv (hva.resolve_right (not_le.mpr (not_le.mp hend)))]
    exact ⟨_, rfl⟩

end Search

end Layout

end Ruzu.FileSys
