import Ruzu.FileSys.BucketTree
import Ruzu.Lib.UpperBound

/-!
# The layout of a bucket tree

What the files of a tree hold: all sets but the last are full, and so are the
nodes of the second level. The first node has the offsets of the sets, or those
of the nodes of the second level and, behind them, those of the first sets.
-/

set_option autoImplicit false

namespace Ruzu.FileSys

open BucketTree UpperBound

structure Layout where
  nodeSize : ℕ
  entrySize : ℕ
  entries : List (List UInt8)
  endOffset : ℤ
  /-- The nodes of the second level. -/
  nodeCount : ℕ

namespace Layout

variable (L : Layout)

def perSet : ℕ := (L.nodeSize - nodeHeaderSize) / L.entrySize

def perNode : ℕ := (L.nodeSize - nodeHeaderSize) / 8

def setCount : ℕ := (L.entries.length + L.perSet - 1) / L.perSet

def entry (i : ℕ) : List UInt8 := L.entries.getD i []

def virt (i : ℕ) : ℤ := i64At (L.entry i) 0

/-- The offset of a set's first entry. -/
def start (k : ℕ) : ℤ := if k < L.setCount then L.virt (k * L.perSet) else L.endOffset

def setSize (k : ℕ) : ℕ := min L.perSet (L.entries.length - k * L.perSet)

/-- The sets whose offsets are kept in the first node beside those of the second level. -/
def onL1 : ℕ := L.perNode - L.nodeCount

/-- The first set of a node of the second level. -/
def nodeStart (i : ℕ) : ℕ := L.onL1 + L.perNode * i

def nodeLength (i : ℕ) : ℕ := min L.perNode (L.setCount - L.nodeStart i)

/-- The entries ascend below the end, and the nodes are as many as the sets need. -/
structure Ordered : Prop where
  entrySize_ge : 8 ≤ L.entrySize
  nodeSize_ge : L.entrySize + nodeHeaderSize ≤ L.nodeSize
  nonempty : 0 < L.entries.length
  length_eq : ∀ e ∈ L.entries, e.length = L.entrySize
  nonneg : 0 ≤ L.virt 0
  ascending : ∀ i j, i < j → j < L.entries.length → L.virt i < L.virt j
  below : ∀ i, i < L.entries.length → L.virt i < L.endOffset
  oneLevel : L.setCount ≤ L.perNode → L.nodeCount = 0
  twoLevels : L.perNode < L.setCount → 0 < L.nodeCount ∧ L.nodeCount ≤ L.perNode ∧
    L.nodeStart (L.nodeCount - 1) < L.setCount ∧ L.setCount ≤ L.nodeStart L.nodeCount

/-- A set of entries with its header. -/
structure HoldsSet (file : VfsFile) (k : ℕ) : Prop where
  index_eq : i32At file.data (k * L.nodeSize) = k
  count_eq : i32At file.data (k * L.nodeSize + 4) = L.setSize k
  stop_eq : i64At file.data (k * L.nodeSize + 8) = L.start (k + 1)
  entry_eq : ∀ j, j < L.setSize k →
    (file.data.drop (k * L.nodeSize + nodeHeaderSize + j * L.entrySize)).take L.entrySize =
      L.entry (k * L.perSet + j)

/-- A node with its header and the offsets of sets. -/
structure HoldsNode (file : VfsFile) (i : ℕ) (index count : ℕ) (stop : ℤ) (offset : ℕ → ℤ) :
    Prop where
  index_eq : i32At file.data (i * L.nodeSize) = index
  count_eq : i32At file.data (i * L.nodeSize + 4) = count
  stop_eq : i64At file.data (i * L.nodeSize + 8) = stop
  offset_eq : ∀ j, j < count →
    i64At file.data (i * L.nodeSize + nodeHeaderSize + j * 8) = offset j

/-- The first node, which a tree cannot be made without. -/
structure HoldsFirst (file : VfsFile) : Prop where
  fits : L.nodeSize ≤ file.data.length
  oneLevel : L.nodeCount = 0 → L.HoldsNode file 0 0 L.setCount L.endOffset L.start
  twoLevels : 0 < L.nodeCount →
    L.HoldsNode file 0 0 L.nodeCount L.endOffset fun i => L.start (L.nodeStart i)
  tail : 0 < L.nodeCount → ∀ k, k < L.onL1 →
    i64At file.data (nodeHeaderSize + (L.nodeCount + k) * 8) = L.start k

/-- The header that is read at a place is rejected, however much is read with it. -/
def Rejected (file : VfsFile) (pos index entrySize : ℕ) : Prop :=
  ∀ m, nodeHeaderSize ≤ m →
    (nodeHeader (file.readInto (List.replicate m 0) m pos)).verify index L.nodeSize entrySize ≠
      .ok ()

/-- The files of the tree, with some sets and nodes of the second level damaged. -/
structure Stored (badSet badNode : ℕ → Prop) (nodeStorage entryStorage : VfsFile) : Prop where
  first : L.HoldsFirst nodeStorage
  setFits : ∀ k, k < L.setCount → ¬badSet k → (k + 1) * L.nodeSize ≤ entryStorage.data.length
  sets : ∀ k, k < L.setCount → ¬badSet k → L.HoldsSet entryStorage k
  badSets : ∀ k, k < L.setCount → badSet k →
    L.Rejected entryStorage (k * L.nodeSize) k L.entrySize
  nodeFits : ∀ i, i < L.nodeCount → ¬badNode i →
    (i + 1 + 1) * L.nodeSize ≤ nodeStorage.data.length
  nodes : ∀ i, i < L.nodeCount → ¬badNode i →
    L.HoldsNode nodeStorage (i + 1) i (L.nodeLength i) (L.start (L.nodeStart (i + 1)))
      fun j => L.start (L.nodeStart i + j)
  badNodes : ∀ i, i < L.nodeCount → badNode i →
    L.Rejected nodeStorage ((i + 1) * L.nodeSize) i 8

/-- The files of the whole tree. -/
def Holds (nodeStorage entryStorage : VfsFile) : Prop :=
  L.Stored (fun _ => False) (fun _ => False) nodeStorage entryStorage

end Layout

/-! ### Reading a block of a file -/

section Block

variable {file : VfsFile} {n pos p : ℕ}

theorem readInto_block (h : pos + n ≤ file.data.length) :
    file.readInto (List.replicate n 0) n pos = (file.data.drop pos).take n := by
  have hlength : ((file.data.drop pos).take n).length = n := by
    rw [List.length_take, List.length_drop]
    omega
  rw [VfsFile.readInto, VfsFile.read, hlength, List.drop_eq_nil_of_le (List.length_replicate.le), List.append_nil]

theorem length_block (h : pos + n ≤ file.data.length) :
    ((file.data.drop pos).take n).length = n := by
  rw [List.length_take, List.length_drop]
  omega

theorem take_block {k : ℕ} (h : p + k ≤ n) :
    (((file.data.drop pos).take n).drop p).take k = (file.data.drop (pos + p)).take k := by
  rw [List.drop_take, List.take_take, List.drop_drop, Nat.min_eq_left (by omega)]

theorem i32At_block (h : p + 4 ≤ n) :
    i32At ((file.data.drop pos).take n) p = i32At file.data (pos + p) := by
  rw [i32At, take_block h, i32At]

theorem i64At_block (h : p + 8 ≤ n) :
    i64At ((file.data.drop pos).take n) p = i64At file.data (pos + p) := by
  rw [i64At, take_block h, i64At]

theorem i64At_piece {bytes piece : List UInt8} (hpiece : (bytes.drop p).take n = piece)
    (hn : 8 ≤ n) : i64At bytes p = i64At piece 0 := by
  rw [← hpiece, i64At, i64At, List.drop_zero, List.take_take, Nat.min_eq_left hn]

end Block

/-! ### Sets and entries -/

namespace Layout.Ordered

variable {L : Layout} (h : L.Ordered) {i j k k' : ℕ}

include h

theorem perSet_pos : 0 < L.perSet := by
  have hsize := h.nodeSize_ge
  have hentry := h.entrySize_ge
  exact Nat.div_pos (by omega) (by omega)

theorem perNode_pos : 0 < L.perNode := by
  have hsize := h.nodeSize_ge
  have hentry := h.entrySize_ge
  exact Nat.div_pos (by omega) (by omega)

theorem lt_setCount_iff : k < L.setCount ↔ k * L.perSet < L.entries.length := by
  have hpos := h.perSet_pos
  rw [Layout.setCount, Nat.lt_div_iff_mul_lt hpos]
  omega

theorem setCount_pos : 0 < L.setCount := by
  rw [h.lt_setCount_iff, Nat.zero_mul]
  exact h.nonempty

theorem setSize_pos (hk : k < L.setCount) : 0 < L.setSize k := by
  have hlt := h.lt_setCount_iff.mp hk
  have hpos := h.perSet_pos
  rw [Layout.setSize]
  omega

omit h in
theorem setSize_le : L.setSize k ≤ L.perSet := Nat.min_le_left _ _

theorem setSize_full (hk : k + 1 < L.setCount) : L.setSize k = L.perSet := by
  have hlt := h.lt_setCount_iff.mp hk
  rw [Nat.succ_mul] at hlt
  rw [Layout.setSize]
  omega

omit h in
theorem entry_lt (hj : j < L.setSize k) : k * L.perSet + j < L.entries.length := by
  rw [Layout.setSize] at hj
  omega

theorem div_lt_setCount (hi : i < L.entries.length) : i / L.perSet < L.setCount :=
  h.lt_setCount_iff.mpr ((Nat.div_mul_le_self _ _).trans_lt hi)

theorem mod_lt_setSize (hi : i < L.entries.length) : i % L.perSet < L.setSize (i / L.perSet) := by
  have hmod := Nat.mod_lt i h.perSet_pos
  have hdiv := Nat.div_add_mod' i L.perSet
  rw [Layout.setSize]
  omega

omit h in
theorem start_set (hk : k < L.setCount) : L.start k = L.virt (k * L.perSet) := if_pos hk

omit h in
theorem start_end (hk : L.setCount ≤ k) : L.start k = L.endOffset := if_neg (not_lt.mpr hk)

theorem virt_lt_start (hj : j < L.setSize k) : L.virt (k * L.perSet + j) < L.start (k + 1) := by
  have hlt := entry_lt hj
  have hle := setSize_le (L := L) (k := k)
  rw [Layout.start]
  split
  case isTrue hnext =>
    refine h.ascending _ _ ?_ (h.lt_setCount_iff.mp hnext)
    rw [Nat.succ_mul]
    omega
  case isFalse => exact h.below _ hlt

theorem start_lt_succ (hk : k < L.setCount) : L.start k < L.start (k + 1) := by
  rw [start_set hk]
  exact h.virt_lt_start (j := 0) (h.setSize_pos hk)

theorem start_le (hle : k ≤ k') (hk : k' ≤ L.setCount) : L.start k ≤ L.start k' := by
  induction k' with
  | zero =>
    obtain rfl : k = 0 := by omega
    exact le_rfl
  | succ k' ih =>
    rcases Nat.lt_or_ge k (k' + 1) with hlt | hge
    · exact (ih (by omega) (by omega)).trans (h.start_lt_succ hk).le
    · obtain rfl : k = k' + 1 := by omega
      exact le_rfl

theorem start_nonneg (k : ℕ) : 0 ≤ L.start k := by
  rcases Nat.lt_or_ge k L.setCount with hlt | hge
  · have hzero := start_set h.setCount_pos
    rw [Nat.zero_mul] at hzero
    exact (h.nonneg.trans_eq hzero.symm).trans (h.start_le (Nat.zero_le k) hlt.le)
  · rw [start_end hge]
    exact h.nonneg.trans (h.below 0 h.nonempty).le

end Layout.Ordered

/-! ### Searching in a block -/

theorem findLoop_eq {buffer : List UInt8} {stride base count : ℕ} {va : ℤ}
    (hfit : ∀ j, j < count → base + j * stride + 8 ≤ buffer.length) (fuel : ℕ) {stop pos : ℕ}
    (hstop : pos + stop ≤ count) :
    findLoop buffer stride base va fuel stop pos =
      bisect (fun j => i64At buffer (base + j * stride)) va fuel stop pos := by
  induction fuel generalizing stop pos with
  | zero => rfl
  | succ fuel ih =>
    rw [findLoop, bisect]
    dsimp only
    split
    case isTrue => rfl
    case isFalse hpos =>
      rw [if_pos (hfit (pos + stop / 2) (by omega)), ih (by omega), ih (by omega)]

/-- The search in a buffer returns the last offset that is not above. -/
theorem storageNodeFindInBuffer_eq {buffer : List UInt8} {stride base count p : ℕ} {va : ℤ}
    {g : ℕ → ℤ} (hfit : ∀ j, j < count → base + j * stride + 8 ≤ buffer.length)
    (hg : ∀ j, j < count → i64At buffer (base + j * stride) = g j)
    (h : IsUpperBound g count va p) :
    storageNodeFindInBuffer buffer stride count base va = p - 1 := by
  rw [storageNodeFindInBuffer, Int.toNat_natCast, findLoop_eq hfit _ (by omega),
    (h.congr hg).bisect_eq le_rfl (Nat.zero_le _) (h.le.trans_eq (Nat.zero_add _).symm) (by omega)]

/-! ### The tree of a layout -/

namespace Layout

variable (L : Layout)

def tree (nodeStorage entryStorage : VfsFile) : BucketTree where
  nodeStorage := some nodeStorage
  entryStorage := some entryStorage
  nodeL1 := (nodeStorage.data.drop 0).take L.nodeSize
  nodeSize := L.nodeSize
  entrySize := L.entrySize
  offsetCount := L.perNode
  entrySetCount := L.setCount
  offsetCache := some ⟨L.start 0, L.endOffset⟩

variable {L} {nodeStorage entryStorage : VfsFile}

theorem Ordered.verify_node (h : L.Ordered) {index count : ℕ} {offset : ℤ} (hpos : 0 < count)
    (hle : count ≤ L.perNode) (hoffset : 0 ≤ offset) :
    NodeHeader.verify ⟨index, count, offset⟩ index L.nodeSize 8 = .ok () := by
  have hsize := h.nodeSize_ge
  have hentry := h.entrySize_ge
  rw [perNode] at hle
  rw [NodeHeader.verify, getEntryCount]
  dsimp only
  rw [if_neg (by simp), if_neg (by omega), if_neg (by omega), if_neg (by omega)]

theorem Ordered.verify_set (h : L.Ordered) {k : ℕ} (hk : k < L.setCount) :
    NodeHeader.verify ⟨k, L.setSize k, L.start (k + 1)⟩ k L.nodeSize L.entrySize = .ok () := by
  have hsize := h.nodeSize_ge
  have hentry := h.entrySize_ge
  have hpos := h.setSize_pos hk
  have hle := setSize_le (L := L) (k := k)
  have hnonneg := h.start_nonneg (k + 1)
  rw [perSet] at hle
  rw [NodeHeader.verify, getEntryCount]
  dsimp only
  rw [if_neg (by simp), if_neg (by omega), if_neg (by omega), if_neg (by omega)]

/-- The offsets in the first node: of all sets, or of the nodes of the second level. -/
def l1Count (L : Layout) : ℕ := if L.nodeCount = 0 then L.setCount else L.nodeCount

section Initialize

variable (h : L.Ordered) (hfirst : L.HoldsFirst nodeStorage)

include h hfirst

theorem nodeL1_header : nodeHeader ((nodeStorage.data.drop 0).take L.nodeSize) =
    ⟨0, L.l1Count, L.endOffset⟩ := by
  have hsize := h.nodeSize_ge
  have hentry := h.entrySize_ge
  have hheader : nodeHeaderSize = 16 := rfl
  have hnode : L.HoldsNode nodeStorage 0 0 L.l1Count L.endOffset
      (if L.nodeCount = 0 then L.start else fun i => L.start (L.nodeStart i)) := by
    rw [l1Count]
    split
    case isTrue hone => exact hfirst.oneLevel hone
    case isFalse htwo => exact hfirst.twoLevels (by omega)
  have hindex := hnode.index_eq
  have hcount := hnode.count_eq
  have hstop := hnode.stop_eq
  rw [Nat.zero_mul] at hindex hcount hstop
  rw [nodeHeader, i32At_block (by omega), i32At_block (by omega), i64At_block (by omega), hindex,
    hcount, hstop]
  rfl

omit hfirst in
/-- The offsets behind the header of the first node. -/
theorem nodeL1_offset {i : ℕ} (hi : i < L.perNode) :
    i64At ((nodeStorage.data.drop 0).take L.nodeSize) (nodeHeaderSize + i * 8) =
      i64At nodeStorage.data (nodeHeaderSize + i * 8) := by
  have hfit : L.perNode * 8 ≤ L.nodeSize - nodeHeaderSize := Nat.div_mul_le_self _ _
  have hsize := h.nodeSize_ge
  rw [i64At_block (by omega), Nat.zero_add]

omit hfirst in
theorem l1Count_bounds : 0 < L.l1Count ∧ L.l1Count ≤ L.perNode ∧
    (L.perNode < L.setCount → L.l1Count = L.nodeCount ∧ 0 < L.nodeCount) ∧
    (L.setCount ≤ L.perNode → L.l1Count = L.setCount ∧ L.nodeCount = 0) := by
  have hpos := h.setCount_pos
  rw [l1Count]
  rcases Nat.lt_or_ge L.perNode L.setCount with htwo | hone
  · obtain ⟨hnode, hle, -, -⟩ := h.twoLevels htwo
    rw [if_neg (by omega)]
    omega
  · rw [if_pos (h.oneLevel hone)]
    exact ⟨hpos, hone, fun hlt => absurd hlt (by omega), fun _ => ⟨rfl, h.oneLevel hone⟩⟩

end Initialize

end Layout

end Ruzu.FileSys
