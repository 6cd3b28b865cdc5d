import Ruzu.FileSys.AesStorage
import Ruzu.FileSys.BucketTreeVisit

/-!
# Counters from a table

`aes_ctr_counter_extended_storage.rs`. A bucket tree gives each part of the data
the generation that is in the upper half of its counters. What is read of the
storage below is decrypted in place, entry by entry.
-/

set_option autoImplicit false

namespace Ruzu.FileSys

open BucketTree

/-- `as i64`. -/
def toI64 (n : ℕ) : ℤ := (BitVec.ofNat 64 n).toInt

/-- `as usize`. -/
def toUsize (z : ℤ) : ℕ := (BitVec.ofInt 64 z).toNat

theorem toI64_eq {n : ℕ} (h : n < 2 ^ 63) : toI64 n = n := by
  have hnat : (BitVec.ofNat 64 n).toNat = n := by
    rw [BitVec.toNat_ofNat, Nat.mod_eq_of_lt (by omega)]
  rw [toI64, BitVec.toInt_eq_toNat_of_lt (by omega), hnat]

theorem toUsize_eq {n : ℕ} (h : n < 2 ^ 64) : toUsize n = n := by
  rw [toUsize, BitVec.ofInt_natCast, BitVec.toNat_ofNat, Nat.mod_eq_of_lt h]

/-- A block of the counter mode, the upper and the lower half with the highest byte first. -/
def ivBlock (upper lower : ℕ) : List UInt8 :=
  (Image.le 8 upper).reverse ++ (Image.le 8 lower).reverse

/-- `AesCtrStorage::make_iv`, which asserts that the offset is not negative. -/
def AesCtrStorage.makeIv (upper : UInt64) (offset : ℤ) : Option (List UInt8) :=
  if offset < 0 then none else some (ivBlock upper.toNat (offset.toNat / blockSize))

/-- `NcaAesCtrUpperIv::set_generation`. -/
def setGeneration (value : UInt64) (generation : UInt32) : UInt64 :=
  (value &&& 0xFFFFFFFF00000000) ||| generation.toUInt64

/-- The bytes after the decryption of a buffer by a key and an initial counter. -/
abbrev IDecryptor := List UInt8 → List UInt8 → List UInt8 → List UInt8

def softwareDecryptor (aes : Aes) : IDecryptor := fun buf key iv => transcodeCtr aes key iv buf

structure AesCtrCounterExtendedStorage where
  table : BucketTree
  dataStorage : Option VfsFile
  key : List UInt8
  secureValue : UInt32
  counterOffset : ℤ
  decryptor : Option IDecryptor

namespace AesCtrCounterExtendedStorage

def nodeSize : ℕ := 16 * 1024

def entrySize : ℕ := 16

def keySize : ℕ := 16

structure Entry where
  offset : ℤ
  encryptionValue : UInt8
  generation : ℤ

/-- `EntryEncryption::Encrypted`. -/
def encrypted : UInt8 := 0

def entryOf (bytes : List UInt8) : Entry := ⟨i64At bytes 0, bytes.getD 8 0, i32At bytes 12⟩

/-- `initialize` of a new storage. -/
def initializeFrom (key : List UInt8) (secureValue : UInt32) (counterOffset : ℤ)
    (dataStorage nodeStorage entryStorage : VfsFile) (entryCount : ℤ) (decryptor : IDecryptor) :
    Except Failure AesCtrCounterExtendedStorage := do
  let key := key.take keySize ++ List.replicate (keySize - key.length) 0
  let table ← BucketTree.initializeFrom nodeStorage entryStorage nodeSize entrySize entryCount
  .ok ⟨table, some dataStorage, key, secureValue, counterOffset, some decryptor⟩

/-- `Visitor::get`, with its assertions. -/
def getEntry (v : Visitor) : Option Entry :=
  if v.isValid ∧ entrySize ≤ v.entry.length then some (entryOf v.entry) else none

variable (s : AesCtrCounterExtendedStorage)

/-- The offset of the next entry and the visitor, which has moved there. After a move that failed
the visitor is not valid, and its entry cannot be taken. -/
def nextEntryOffset (v : Visitor) (endOffset : ℤ) : Option (ℤ × Visitor) :=
  if v.canMoveNext then
    match v.moveNext with
    | .ok v => (getEntry v).map fun next => (next.offset, v)
    | .error _ => none
  else
    match s.table.getOffsets with
    | .ok (offsets, _) => some (offsets.endOffset, v)
    | .error (.result _) => some (endOffset, v)
    | .error .panic => none

def upperIv (entry : Entry) : UInt64 :=
  (setGeneration 0 (UInt32.ofInt entry.generation) &&& (0xFFFFFFFF : UInt64)) |||
    (s.secureValue.toUInt64 <<< 32)

/-- The part of the buffer that an entry is for. A counter that leaves the range of `i64` is a
panic, at the addition or at the assertion of `make_iv`. -/
def decryptPiece (entry : Entry) (buffer : List UInt8) (curDataOffset curSize : ℕ)
    (dataOffsetInEntry : ℤ) : Option (List UInt8) :=
  match s.decryptor with
  | none => some buffer
  | some decryptor =>
    if entry.encryptionValue = encrypted then
      let counterOffset := s.counterOffset + entry.offset + dataOffsetInEntry
      if counterOffset ≥ 2 ^ 63 then none
      else do
        let iv ← AesCtrStorage.makeIv (s.upperIv entry) counterOffset
        let piece ← Image.slice buffer curDataOffset curSize
        Image.write buffer curDataOffset (decryptor piece s.key iv)
    else some buffer

/-- The loop of `read`. Each round takes a byte at least, so that there are `fuel` of them. -/
def readLoop : (fuel : ℕ) → Visitor → List UInt8 → ℕ → ℤ → ℤ → Option (List UInt8)
  | 0, _, _, _, _, _ => none
  | fuel + 1, v, buffer, curDataOffset, curOffset, endOffset =>
    if curOffset < endOffset then do
      let curEntry ← getEntry v
      let (nextEntryOffset, v) ← s.nextEntryOffset v endOffset
      let dataOffsetInEntry := curOffset - curEntry.offset
      let dataSizeInEntry := (nextEntryOffset - curEntry.offset) - dataOffsetInEntry
      let remaining := endOffset - curOffset
      let curSize := toUsize (min remaining dataSizeInEntry)
      if curSize = 0 then some buffer
      else
        let buffer ← s.decryptPiece curEntry buffer curDataOffset curSize dataOffsetInEntry
        if curDataOffset + curSize ≥ 2 ^ 64 then none
        else readLoop fuel v buffer (curDataOffset + curSize) (curOffset + toI64 curSize) endOffset
    else some buffer

/-- The size and the buffer; `none` is a panic. -/
def read (buffer : List UInt8) (offset : ℕ) : Option (ℕ × List UInt8) :=
  let size := buffer.length
  if size = 0 then some (0, buffer)
  else
    match s.dataStorage with
    | none => some (0, buffer)
    | some dataStorage =>
      let read := (dataStorage.read size offset).length
      let buffer := dataStorage.readInto buffer size offset
      if read = 0 then some (0, buffer)
      else
        match s.table.find (toI64 offset) with
        | .error .panic => none
        | .error (.result _) => some (read, buffer)
        | .ok visitor =>
          (s.readLoop (size + 1) visitor buffer 0 (toI64 offset) (toI64 (offset + size))).map
            fun buffer => (read, buffer)

end AesCtrCounterExtendedStorage

end Ruzu.FileSys
