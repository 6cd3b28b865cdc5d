import Ruzu.FileSys.VfsConcat
import Ruzu.Lib.Image

/-!
# Bucket trees

`bucket_tree.rs`. Entries with ascending virtual offsets lie in sets of one node
each. The first node holds the offsets of the sets, or else those of a second
level of nodes, and in what is left of it the offsets of the first sets. A panic
and an arithmetic overflow are failures of their own.
-/

set_option autoImplicit false

namespace Ruzu.FileSys

inductive ResultCode
  | outOfRange
  | invalidArgument
  | invalidOffset
  | invalidSize
  | invalidBucketTreeNodeIndex
  | invalidBucketTreeNodeEntryCount
  | invalidBucketTreeNodeOffset
  | invalidBucketTreeEntryOffset
  | invalidBucketTreeEntrySetOffset
  | invalidBucketTreeVirtualOffset
  deriving DecidableEq

inductive Failure
  | panic
  | result (code : ResultCode)
  deriving DecidableEq

/-- The little-endian number of a few bytes, as a two's complement. -/
def i32At (bytes : List UInt8) (pos : ℕ) : ℤ :=
  (BitVec.ofNat 32 (Image.fromLe ((bytes.drop pos).take 4))).toInt

def i64At (bytes : List UInt8) (pos : ℕ) : ℤ :=
  (BitVec.ofNat 64 (Image.fromLe ((bytes.drop pos).take 8))).toInt

namespace BucketTree

def nodeSizeMin : ℕ := 1024

def nodeSizeMax : ℕ := 512 * 1024

def nodeHeaderSize : ℕ := 16

structure NodeHeader where
  index : ℤ
  count : ℤ
  offset : ℤ
  deriving DecidableEq

def nodeHeader (bytes : List UInt8) : NodeHeader := ⟨i32At bytes 0, i32At bytes 4, i64At bytes 8⟩

structure Offsets where
  startOffset : ℤ
  endOffset : ℤ
  deriving DecidableEq

def Offsets.isIncludeOffset (o : Offsets) (offset : ℤ) : Bool :=
  o.startOffset ≤ offset ∧ offset < o.endOffset

def Offsets.isIncludeRange (o : Offsets) (offset size : ℤ) : Bool :=
  size > 0 ∧ o.startOffset ≤ offset ∧ size ≤ o.endOffset - offset

def getEntryCount (nodeSize entrySize : ℕ) : ℤ := ((nodeSize - nodeHeaderSize) / entrySize : ℕ)

def getOffsetCount (nodeSize : ℕ) : ℤ := ((nodeSize - nodeHeaderSize) / 8 : ℕ)

def getEntrySetCount (nodeSize entrySize : ℕ) (entryCount : ℤ) : Except Failure ℤ :=
  let entryCountPerNode := getEntryCount nodeSize entrySize
  if entryCount + entryCountPerNode ≥ 2 ^ 31 then .error .panic
  else .ok ((entryCount + entryCountPerNode - 1) / entryCountPerNode)

def NodeHeader.verify (header : NodeHeader) (nodeIndex : ℤ) (nodeSize entrySize : ℕ) :
    Except Failure Unit :=
  if header.index ≠ nodeIndex then .error (.result .invalidBucketTreeNodeIndex)
  else if entrySize = 0 ∨ nodeSize < entrySize + nodeHeaderSize then .error (.result .invalidSize)
  else if header.count ≤ 0 ∨ header.count > getEntryCount nodeSize entrySize then
    .error (.result .invalidBucketTreeNodeEntryCount)
  else if header.offset < 0 then .error (.result .invalidBucketTreeNodeOffset)
  else .ok ()

/-- The offsets that the first node gives. -/
def readOffsets (nodeL1 : List UInt8) (offsetCount entrySetCount : ℤ) : Except Failure Offsets :=
  let header := nodeHeader nodeL1
  let firstOffset := i64At nodeL1 nodeHeaderSize
  let startOffset :=
    if offsetCount < entrySetCount ∧ header.count < offsetCount then
      i64At nodeL1 (nodeHeaderSize + header.count.toNat * 8)
    else firstOffset
  let endOffset := header.offset
  if startOffset < 0 ∨ startOffset > firstOffset ∨ startOffset ≥ endOffset then
    .error (.result .invalidBucketTreeEntryOffset)
  else .ok ⟨startOffset, endOffset⟩

end BucketTree

open BucketTree

structure BucketTree where
  nodeStorage : Option VfsFile
  entryStorage : Option VfsFile
  nodeL1 : List UInt8
  nodeSize : ℕ
  entrySize : ℕ
  offsetCount : ℤ
  entrySetCount : ℤ
  offsetCache : Option Offsets

namespace BucketTree

/-- The sizes that `initialize` asserts. -/
def SizesOk (nodeSize entrySize : ℕ) : Prop :=
  entrySize ≥ 8 ∧ nodeSize ≥ entrySize + nodeHeaderSize ∧ nodeSizeMin ≤ nodeSize ∧
    nodeSize ≤ nodeSizeMax ∧ nodeSize &&& (nodeSize - 1) = 0

instance (nodeSize entrySize : ℕ) : Decidable (SizesOk nodeSize entrySize) :=
  inferInstanceAs (Decidable (_ ∧ _))

/-- `initialize` of a new tree. -/
def initializeFrom (nodeStorage entryStorage : VfsFile) (nodeSize entrySize : ℕ) (entryCount : ℤ) :
    Except Failure BucketTree :=
  if ¬SizesOk nodeSize entrySize then .error .panic
  else if entryCount ≤ 0 then .error (.result .invalidArgument)
  else do
    let nodeL1 := nodeStorage.readInto (List.replicate nodeSize 0) nodeSize 0
    (nodeHeader nodeL1).verify 0 nodeSize 8
    let offsetCount := getOffsetCount nodeSize
    let entrySetCount ← getEntrySetCount nodeSize entrySize entryCount
    let offsets ← readOffsets nodeL1 offsetCount entrySetCount
    .ok ⟨some nodeStorage, some entryStorage, nodeL1, nodeSize, entrySize, offsetCount,
      entrySetCount, some offsets⟩

/-- `initialize_empty` of a new tree. -/
def initializeEmpty (nodeSize : ℕ) (endOffset : ℤ) : Except Failure BucketTree :=
  if ¬(nodeSizeMin ≤ nodeSize ∧ nodeSize ≤ nodeSizeMax ∧ nodeSize &&& (nodeSize - 1) = 0 ∧
      endOffset > 0) then .error .panic
  else .ok ⟨none, none, [], nodeSize, 0, 0, 0, some ⟨0, endOffset⟩⟩

variable (tree : BucketTree)

def isInitialized : Bool := tree.nodeSize > 0

def isEmpty : Bool := tree.entrySize = 0

/-- `ensure_offset_cache`: without cached offsets the first node is read again. -/
def ensureOffsetCache : Except Failure BucketTree :=
  match tree.offsetCache, tree.nodeStorage with
  | some _, _ => .ok tree
  | none, none => .error (.result .outOfRange)
  | none, some nodeStorage => do
    let nodeL1 := nodeStorage.readInto tree.nodeL1 tree.nodeSize 0
    if nodeL1.length < nodeHeaderSize then .error (.result .invalidBucketTreeNodeEntryCount)
    else
      (nodeHeader nodeL1).verify 0 tree.nodeSize 8
      let offsets ← readOffsets nodeL1 tree.offsetCount tree.entrySetCount
      .ok { tree with nodeL1, offsetCache := some offsets }

def getOffsets : Except Failure (Offsets × BucketTree) := do
  let tree ← tree.ensureOffsetCache
  match tree.offsetCache with
  | some offsets => .ok (offsets, tree)
  | none => .error .panic

def isExistL2 : Bool := tree.offsetCount < tree.entrySetCount

def isExistOffsetL2OnL1 : Bool :=
  tree.isExistL2 ∧ (nodeHeader tree.nodeL1).count < tree.offsetCount

def getEntrySetIndex (nodeIndex offsetIndex : ℤ) : ℤ :=
  tree.offsetCount - (nodeHeader tree.nodeL1).count + tree.offsetCount * nodeIndex + offsetIndex

def getL1BeginOffset : ℤ := i64At tree.nodeL1 nodeHeaderSize

def getL1EndOffset : ℤ := (nodeHeader tree.nodeL1).offset

def readL1Offsets (startIdx count : ℕ) : List ℤ :=
  ((List.range count).filter fun i =>
    nodeHeaderSize + (startIdx + i) * 8 + 8 ≤ tree.nodeL1.length).map fun i =>
      i64At tree.nodeL1 (nodeHeaderSize + (startIdx + i) * 8)

end BucketTree

/-- `partition_point` of `o <= virtual_address` on ascending offsets. -/
def partitionPoint (offsets : List ℤ) (virtualAddress : ℤ) : ℕ :=
  (offsets.takeWhile (· ≤ virtualAddress)).length

/-- The loop of `storage_node_find_in_buffer`, which ends after `fuel` halvings. -/
def findLoop (buffer : List UInt8) (stride baseOffset : ℕ) (virtualAddress : ℤ) :
    (fuel stop pos : ℕ) → ℕ
  | 0, _, pos => pos
  | fuel + 1, stop, pos =>
    if stop = 0 then pos
    else
      let half := stop / 2
      let mid := pos + half
      let byteOffset := baseOffset + mid * stride
      if byteOffset + 8 ≤ buffer.length then
        if i64At buffer byteOffset ≤ virtualAddress then
          findLoop buffer stride baseOffset virtualAddress fuel (stop - (half + 1)) (mid + 1)
        else findLoop buffer stride baseOffset virtualAddress fuel half pos
      else pos

def storageNodeFindInBuffer (buffer : List UInt8) (stride : ℕ) (count : ℤ) (baseOffset : ℕ)
    (virtualAddress : ℤ) : ℤ :=
  findLoop buffer stride baseOffset virtualAddress count.toNat count.toNat 0 - 1

structure EntrySetHeader where
  index : ℤ
  count : ℤ
  stop : ℤ
  start : ℤ
  deriving DecidableEq

def entrySetHeader (bytes : List UInt8) : EntrySetHeader :=
  ⟨i32At bytes 0, i32At bytes 4, i64At bytes 8, i64At bytes 16⟩

def EntrySetHeader.toNodeHeader (set : EntrySetHeader) : NodeHeader :=
  ⟨set.index, set.count, set.stop⟩

def getBucketTreeEntryOffset (entrySetOffset entrySize entryIndex : ℕ) : ℕ :=
  entrySetOffset + nodeHeaderSize + entryIndex * entrySize

structure Visitor where
  tree : BucketTree
  entry : List UInt8
  entryIndex : ℤ
  entrySetCount : ℤ
  entrySet : EntrySetHeader

namespace Visitor

variable (v : Visitor)

def isValid : Bool := v.entryIndex ≥ 0

def canMoveNext : Bool :=
  v.isValid ∧ (v.entryIndex + 1 < v.entrySet.count ∨ v.entrySet.index + 1 < v.entrySetCount)

def canMovePrevious : Bool := v.isValid ∧ (v.entryIndex > 0 ∨ v.entrySet.index > 0)

def entryStorage : Except Failure VfsFile :=
  match v.tree.entryStorage with
  | some storage => .ok storage
  | none => .error (.result .outOfRange)

def findEntrySet (virtualAddress nodeIndex : ℤ) : Except Failure ℤ := do
  let nodeSize := v.tree.nodeSize
  let nodeOffset := (nodeIndex.toNat + 1) * nodeSize
  match v.tree.nodeStorage with
  | none => .error (.result .outOfRange)
  | some nodeStorage =>
    let buf := nodeStorage.readInto (List.replicate nodeSize 0) nodeSize nodeOffset
    let header := nodeHeader buf
    header.verify nodeIndex nodeSize 8
    let index := storageNodeFindInBuffer buf 8 header.count nodeHeaderSize virtualAddress
    if index < 0 then .error (.result .invalidBucketTreeVirtualOffset)
    else .ok (v.tree.getEntrySetIndex header.index index)

def findEntry (virtualAddress entrySetIndex : ℤ) : Except Failure Visitor := do
  let entrySize := v.tree.entrySize
  let entrySetSize := v.tree.nodeSize
  let entrySetOffset := entrySetIndex.toNat * entrySetSize
  let storage ← v.entryStorage
  let buf := storage.readInto (List.replicate entrySetSize 0) entrySetSize entrySetOffset
  let entrySet := entrySetHeader buf
  entrySet.toNodeHeader.verify entrySetIndex entrySetSize entrySize
  let index := storageNodeFindInBuffer buf entrySize entrySet.count nodeHeaderSize virtualAddress
  if index < 0 then .error (.result .outOfRange)
  else
    let entryOffset := getBucketTreeEntryOffset 0 entrySize index.toNat
    let entry :=
      if entryOffset + entrySize ≤ buf.length then
        (buf.drop entryOffset).take entrySize ++ v.entry.drop entrySize
      else v.entry
    .ok { v with entry, entrySet, entryIndex := index }

/-- The set that an address is in, as `find` looks it up. -/
def findSetIndex (virtualAddress : ℤ) : Except Failure ℤ :=
  let tree := v.tree
  let header := nodeHeader tree.nodeL1
  if tree.isExistOffsetL2OnL1 ∧ virtualAddress < tree.getL1BeginOffset then
    let l2Start := header.count.toNat
    let offsets := tree.readL1Offsets l2Start (tree.offsetCount.toNat - l2Start)
    let pos := partitionPoint offsets virtualAddress
    if pos = 0 then .error (.result .outOfRange) else .ok (pos - 1 : ℤ)
  else
    let offsets := tree.readL1Offsets 0 header.count.toNat
    let pos := partitionPoint offsets virtualAddress
    if pos = 0 then .error (.result .outOfRange)
    else if tree.isExistL2 then
      if (pos - 1 : ℤ) < 0 ∨ (pos - 1 : ℤ) ≥ tree.offsetCount then
        .error (.result .invalidBucketTreeNodeOffset)
      else v.findEntrySet virtualAddress (pos - 1)
    else .ok (pos - 1 : ℤ)

def find (virtualAddress : ℤ) : Except Failure Visitor :=
  let tree := v.tree
  if virtualAddress ≥ tree.getL1EndOffset then .error (.result .outOfRange)
  else do
    let entrySetIndex ← v.findSetIndex virtualAddress
    if entrySetIndex < 0 ∨ entrySetIndex ≥ tree.entrySetCount then
      .error (.result .invalidBucketTreeNodeOffset)
    else
      let v ← v.findEntry virtualAddress entrySetIndex
      .ok { v with entrySetCount := tree.entrySetCount }

/-- The entry of a set that the visitor moves to. -/
def readEntry (entryIndex : ℤ) : Except Failure Visitor := do
  let storage ← v.entryStorage
  let entryOffset := getBucketTreeEntryOffset (v.entrySet.index.toNat * v.tree.nodeSize)
    v.tree.entrySize entryIndex.toNat
  .ok { v with entry := storage.readInto v.entry v.tree.entrySize entryOffset, entryIndex }

/-- The header of the set that the visitor moves to. -/
def readEntrySet (entrySetIndex : ℤ) : Except Failure EntrySetHeader := do
  let storage ← v.entryStorage
  let entrySet := entrySetHeader
    (storage.readInto (List.replicate 24 0) 24 (entrySetIndex.toNat * v.tree.nodeSize))
  entrySet.toNodeHeader.verify entrySetIndex v.tree.nodeSize v.tree.entrySize
  .ok entrySet

def moveNext : Except Failure Visitor :=
  if ¬v.isValid then .error (.result .outOfRange)
  else
    let entryIndex := v.entryIndex + 1
    if entryIndex = v.entrySet.count then
      let entrySetIndex := v.entrySet.index + 1
      if entrySetIndex ≥ v.entrySetCount then .error (.result .outOfRange)
      else do
        let entrySet ← v.readEntrySet entrySetIndex
        if entrySet.start ≠ v.entrySet.stop ∨ entrySet.start ≥ entrySet.stop then
          .error (.result .invalidBucketTreeEntrySetOffset)
        else readEntry { v with entrySet } 0
    else v.readEntry entryIndex

def movePrevious : Except Failure Visitor :=
  if ¬v.isValid then .error (.result .outOfRange)
  else if v.entryIndex = 0 then
    if v.entrySet.index ≤ 0 then .error (.result .outOfRange)
    else do
      let entrySet ← v.readEntrySet (v.entrySet.index - 1)
      if entrySet.stop ≠ v.entrySet.start ∨ entrySet.start ≥ entrySet.stop then
        .error (.result .invalidBucketTreeEntrySetOffset)
      else readEntry { v with entrySet } (entrySet.count - 1)
  else v.readEntry (v.entryIndex - 1)

end Visitor

/-- `BucketTree::find`. -/
def BucketTree.find (tree : BucketTree) (virtualAddress : ℤ) : Except Failure Visitor :=
  if ¬tree.isInitialized then .error .panic
  else if virtualAddress < 0 then .error (.result .invalidOffset)
  else if tree.isEmpty then .error (.result .outOfRange)
  else do
    let (_, tree) ← tree.getOffsets
    Visitor.find ⟨tree, List.replicate tree.entrySize 0, -1, 0, ⟨0, 0, 0, 0⟩⟩ virtualAddress

end Ruzu.FileSys
