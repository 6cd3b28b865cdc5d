import Mathlib

/-!
# The page bitmap

`KPageBitmap` and its generator as in `k_page_bitmap.rs`. The entropy words
come from an arbitrary stream, so every sequence of random bits is covered.
Depths count from the root; `none` stands for an index outside the storages.
-/

set_option autoImplicit false

namespace Ruzu.PageBitmap

def maxDepth : ℕ := 4
def bitsPerU64 : ℕ := 64

structure RandomBitGenerator where
  source : ℕ → BitVec 32
  drawn : ℕ
  entropy : BitVec 32
  bitsAvailable : ℕ

namespace RandomBitGenerator

def refreshEntropy (g : RandomBitGenerator) : RandomBitGenerator :=
  { g with entropy := g.source g.drawn, drawn := g.drawn + 1, bitsAvailable := 32 }

def refreshed (g : RandomBitGenerator) : RandomBitGenerator :=
  if g.bitsAvailable = 0 then g.refreshEntropy else g

def generateRandomBit (g : RandomBitGenerator) : Bool × RandomBitGenerator :=
  let g := g.refreshed
  (g.entropy &&& 1 != 0,
    { g with entropy := g.entropy >>> 1, bitsAvailable := g.bitsAvailable - 1 })

/-- Each turn takes at least one bit, so `numBits` turns are enough. The shift
by a full 32 bits is masked to zero, as unchecked shifts are. -/
def generateRandomBitsLoop : ℕ → ℕ → BitVec 64 → RandomBitGenerator →
    BitVec 64 × RandomBitGenerator
  | 0, _, result, g => (result, g)
  | fuel+1, numBits, result, g =>
    if numBits = 0 then (result, g)
    else
      let g := g.refreshed
      let curBits := min numBits g.bitsAvailable
      let mask := ((1 : BitVec 64) <<< curBits) - 1
      generateRandomBitsLoop fuel (numBits - curBits)
        ((result <<< curBits) ||| (g.entropy.setWidth 64 &&& mask))
        { g with
          entropy := g.entropy >>> (curBits % 32)
          bitsAvailable := g.bitsAvailable - curBits }

def generateRandomBits (g : RandomBitGenerator) (numBits : ℕ) : BitVec 64 × RandomBitGenerator :=
  generateRandomBitsLoop numBits numBits 0 g

/-- One halving of the word: the half that holds the selected bit, and how far it was moved. -/
def selectHalf (curNumBits : ℕ) (bitmap : BitVec 64) (g : RandomBitGenerator) :
    BitVec 64 × ℕ × RandomBitGenerator :=
  let high := bitmap >>> curNumBits
  let low := bitmap &&& ~~~(BitVec.allOnes 64 <<< curNumBits)
  if high ≠ 0 then
    if low = 0 then (high, curNumBits, g)
    else
      let (bit, g) := g.generateRandomBit
      if bit then (high, curNumBits, g) else (low, 0, g)
  else (low, 0, g)

def selectRandomBitLoop : List ℕ → BitVec 64 → ℕ → RandomBitGenerator → ℕ × RandomBitGenerator
  | [], _, selected, g => (selected, g)
  | curNumBits::rest, bitmap, selected, g =>
    let (bitmap, moved, g) := selectHalf curNumBits bitmap g
    selectRandomBitLoop rest bitmap (selected + moved) g

def selectRandomBit (g : RandomBitGenerator) (bitmap : BitVec 64) : ℕ × RandomBitGenerator :=
  selectRandomBitLoop [32, 16, 8, 4, 2, 1] bitmap 0 g

/-- The number of binary digits: 64 minus the leading zeros. -/
def bitLength (n : ℕ) : ℕ := if n = 0 then 0 else n.log2 + 1

def generateRandom (g : RandomBitGenerator) (max : ℕ) : ℕ × RandomBitGenerator :=
  let bitsNeeded := if max = 0 then 1 else 1 + bitLength max
  let (rnd, g) := g.generateRandomBits bitsNeeded
  (if max = 0 then 0 else rnd.toNat - rnd.toNat / max * max, g)

end RandomBitGenerator

structure KPageBitmap where
  bitStorages : ℕ → List (BitVec 64)
  rng : RandomBitGenerator
  numBits : ℕ
  usedDepths : ℕ

namespace KPageBitmap

def word (b : KPageBitmap) (depth ind : ℕ) : Option (BitVec 64) :=
  if depth < maxDepth then (b.bitStorages depth)[ind]? else none

def setWord (b : KPageBitmap) (depth ind : ℕ) (v : BitVec 64) : KPageBitmap :=
  { b with bitStorages :=
      Function.update b.bitStorages depth ((b.bitStorages depth).set ind v) }

def getRequiredDepthLoop : ℕ → ℕ → ℕ → ℕ
  | 0, _, depth => depth
  | fuel+1, regionSize, depth =>
    if regionSize / bitsPerU64 = 0 then depth + 1
    else getRequiredDepthLoop fuel (regionSize / bitsPerU64) (depth + 1)

def getRequiredDepth (regionSize : ℕ) : ℕ := getRequiredDepthLoop (regionSize + 1) regionSize 0

/-- From the leaves to the root, one storage of `cur_size` zero words a depth. -/
def initializeStorages : ℕ → ℕ → (ℕ → List (BitVec 64)) → ℕ → List (BitVec 64)
  | 0, _, storages => storages
  | depth+1, curSize, storages =>
    let curSize := (curSize + bitsPerU64 - 1) / bitsPerU64
    initializeStorages depth curSize
      (Function.update storages depth (List.replicate curSize 0))

def initializeBitmap (b : KPageBitmap) (size : ℕ) : Option KPageBitmap :=
  let usedDepths := getRequiredDepth size
  if maxDepth < usedDepths then none
  else some { b with
    numBits := 0
    usedDepths := usedDepths
    bitStorages := initializeStorages usedDepths size b.bitStorages }

def trailingZeros (v : BitVec 64) : ℕ := ((List.range 64).find? fun i => v.getLsbD i).getD 64

/-- The bit `find_free_block` follows in a non-zero word. -/
def selectBit (b : KPageBitmap) (random : Bool) (v : BitVec 64) : ℕ × KPageBitmap :=
  if random then
    let (k, g) := b.rng.selectRandomBit v
    (k, { b with rng := g })
  else (trailingZeros v, b)

/-- The descent from the root; the inner `none` is the result -1. -/
def findFreeBlockLoop (random : Bool) : ℕ → ℕ → ℕ → KPageBitmap →
    Option (Option ℕ × KPageBitmap)
  | 0, _, _, _ => none
  | fuel+1, depth, offset, b => do
    let v ← b.word depth offset
    if v = 0 then some (none, b)
    else
      let (k, b) := b.selectBit random v
      let offset := offset * bitsPerU64 + k
      if b.usedDepths ≤ depth + 1 then some (some offset, b)
      else findFreeBlockLoop random fuel (depth + 1) offset b

def findFreeBlock (b : KPageBitmap) (random : Bool) : Option (Option ℕ × KPageBitmap) :=
  findFreeBlockLoop random maxDepth 0 0 b

/-- The loop from depth `depth - 1` up to the root. -/
def setBitAtDepth : ℕ → ℕ → KPageBitmap → Option KPageBitmap
  | 0, _, b => some b
  | depth+1, offset, b => do
    let ind := offset / bitsPerU64
    let mask := (1 : BitVec 64) <<< (offset % bitsPerU64)
    let v ← b.word depth ind
    let b := b.setWord depth ind (v ||| mask)
    if v ≠ 0 then some b else setBitAtDepth depth ind b

def clearBitAtDepth : ℕ → ℕ → KPageBitmap → Option KPageBitmap
  | 0, _, b => some b
  | depth+1, offset, b => do
    let ind := offset / bitsPerU64
    let mask := (1 : BitVec 64) <<< (offset % bitsPerU64)
    let v ← b.word depth ind
    let newV := v &&& ~~~mask
    let b := b.setWord depth ind newV
    if newV ≠ 0 then some b else clearBitAtDepth depth ind b

def setBit (b : KPageBitmap) (offset : ℕ) : Option KPageBitmap :=
  (setBitAtDepth b.usedDepths offset b).map fun b => { b with numBits := b.numBits + 1 }

def clearBit (b : KPageBitmap) (offset : ℕ) : Option KPageBitmap :=
  (clearBitAtDepth b.usedDepths offset b).map fun b => { b with numBits := b.numBits - 1 }

/-- Whether the words from `ind` on are all ones. -/
def allFull (b : KPageBitmap) (depth ind : ℕ) : ℕ → Option Bool
  | 0 => some true
  | words+1 => do
    let v ← b.word depth ind
    if v ≠ BitVec.allOnes 64 then some false else allFull b depth (ind+1) words

def clearWords (depth : ℕ) : ℕ → ℕ → KPageBitmap → Option KPageBitmap
  | _, 0, b => some b
  | ind, words+1, b => do
    let _ ← b.word depth ind
    let b ← clearBitAtDepth depth ind (b.setWord depth ind 0)
    clearWords depth (ind+1) words b

def clearRange (b : KPageBitmap) (offset count : ℕ) : Option (Bool × KPageBitmap) :=
  let depth := b.usedDepths - 1
  let bitInd := offset / bitsPerU64
  if count < bitsPerU64 then do
    let shift := offset % bitsPerU64
    let mask := (((1 : BitVec 64) <<< count) - 1) <<< shift
    let v ← b.word depth bitInd
    if v &&& mask ≠ mask then some (false, b)
    else
      let newV := v &&& ~~~mask
      let b := b.setWord depth bitInd newV
      let b ← if newV = 0 then clearBitAtDepth depth bitInd b else some b
      some (true, { b with numBits := b.numBits - count })
  else do
    let words := count / bitsPerU64
    let full ← b.allFull depth bitInd words
    if full then
      let b ← clearWords depth bitInd words b
      some (true, { b with numBits := b.numBits - count })
    else some (false, b)

section FindFreeRange

variable (overflowChecks : Bool)

/-- Where overflow is checked, a shift by the full width faults; elsewhere its amount is masked. -/
def shiftAmount (n : ℕ) : Option ℕ :=
  if n < 64 then some n else if overflowChecks then none else some (n % 64)

/-- The locals of `find_free_range`. -/
structure RangeSearch where
  numValidOptions : ℕ
  chosenOffset : Option ℕ
  rng : RandomBitGenerator

def RangeSearch.offer (f : RangeSearch) (offset : ℕ) : RangeSearch :=
  let numValidOptions := f.numValidOptions + 1
  if numValidOptions = 1 then ⟨numValidOptions, some offset, f.rng⟩
  else
    let (k, g) := f.rng.generateRandom numValidOptions
    ⟨numValidOptions, if k = 0 then some offset else f.chosenOffset, g⟩

variable (freeMask : BitVec 64) (count : ℕ)

def optionLoop (storageIndex : ℕ) : ℕ → ℕ → BitVec 64 → RangeSearch → Option RangeSearch
  | 0, _, _, f => some f
  | options+1, option, s, f => do
    let f := if s &&& freeMask = freeMask
      then f.offer (storageIndex * bitsPerU64 + option * count) else f
    let amount ← shiftAmount overflowChecks count
    optionLoop storageIndex options (option + 1) (s >>> amount) f

def storageLoop (optionsPerStorage : ℕ) :
    List (BitVec 64) → ℕ → RangeSearch → Option RangeSearch
  | [], _, f => some f
  | s::storage, storageIndex, f => do
    let f ← optionLoop overflowChecks freeMask count storageIndex optionsPerStorage 0 s f
    storageLoop optionsPerStorage storage (storageIndex + 1) f

/-- The inner `none` is the result -1; a division by zero faults. -/
def findFreeRange (b : KPageBitmap) (count : ℕ) : Option (Option ℕ × KPageBitmap) :=
  if b.usedDepths = 0 ∨ count > bitsPerU64 then some (none, b)
  else
    let storage := b.bitStorages (b.usedDepths - 1)
    if storage.isEmpty then some (none, b)
    else if count = 0 then none
    else do
      let optionsPerStorage := max (bitsPerU64 / count) 1
      let amount ← shiftAmount overflowChecks count
      let freeMask := ((1 : BitVec 64) <<< amount) - 1
      let f ← storageLoop overflowChecks freeMask count optionsPerStorage storage 0
        ⟨0, none, b.rng⟩
      some (f.chosenOffset, { b with rng := f.rng })

end FindFreeRange

end KPageBitmap
end Ruzu.PageBitmap
