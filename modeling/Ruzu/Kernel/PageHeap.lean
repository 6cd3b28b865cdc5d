import Ruzu.Kernel.MemoryBlock
import Ruzu.Kernel.PageBitmap

/-!
# The page heap

`KPageHeap` as in `k_page_heap.rs`: seven block levels, each with a bitmap of
its free blocks. Addresses are natural numbers below `2 ^ 64`; a result of 0
means no block. `none` stands for a panic: an index outside the blocks or the
bitmap, or an address computation that leaves the 64 bits.
-/

set_option autoImplicit false

namespace Ruzu.PageHeap
open Ruzu.MemoryBlock (pageSize)
open Ruzu.PageBitmap

def numMemoryBlockPageShifts : ℕ := 7
def memoryBlockPageShifts : List ℕ := [0x0C, 0x10, 0x15, 0x16, 0x19, 0x1D, 0x1E]

def alignDown (value size : ℕ) : ℕ := value - value % size

/-- The addition wraps. -/
def alignUp (value size : ℕ) : ℕ :=
  if value % size = 0 then value else (value - value % size + size) % 2 ^ 64

structure Block where
  bitmap : KPageBitmap
  heapAddress : ℕ
  endOffset : ℕ
  blockShift : ℕ
  nextBlockShift : ℕ

namespace Block

def getSize (b : Block) : ℕ := 1 <<< b.blockShift
def getNumPages (b : Block) : ℕ := b.getSize / pageSize
def getNumFreeBlocks (b : Block) : ℕ := b.bitmap.numBits
def getNumFreePages (b : Block) : ℕ := b.getNumFreeBlocks * b.getNumPages

def initializeBlock (b : Block) (addr size bs nbs : ℕ) : Option Block := do
  let align := if nbs ≠ 0 then 1 <<< nbs else 1 <<< bs
  if 2 ^ 64 ≤ addr + size then none
  let alignedAddr := alignDown addr align
  let alignedEnd := alignUp (addr + size) align
  if alignedEnd < alignedAddr then none
  let endOffset := (alignedEnd - alignedAddr) / 1 <<< bs
  let bitmap ← b.bitmap.initializeBitmap endOffset
  some
    { bitmap := bitmap
      heapAddress := alignedAddr
      endOffset := endOffset
      blockShift := bs
      nextBlockShift := nbs }

/-- The next level's block that became free with this one, or 0. -/
def pushBlock (b : Block) (address : ℕ) : Option (ℕ × Block) := do
  if address < b.heapAddress then none
  let offset := (address - b.heapAddress) >>> b.blockShift
  let bitmap ← b.bitmap.setBit offset
  if b.nextBlockShift ≠ 0 then
    let diff := 1 <<< (b.nextBlockShift - b.blockShift)
    let alignedOffset := alignDown offset diff
    let (cleared, bitmap) ← bitmap.clearRange alignedOffset diff
    if cleared then some (b.heapAddress + alignedOffset <<< b.blockShift, { b with bitmap })
    else some (0, { b with bitmap })
  else some (0, { b with bitmap })

def popBlock (b : Block) (random : Bool) : Option (ℕ × Block) := do
  match ← b.bitmap.findFreeBlock random with
  | (none, bitmap) => some (0, { b with bitmap })
  | (some offset, bitmap) =>
    let bitmap ← bitmap.clearBit offset
    some (b.heapAddress + offset <<< b.blockShift, { b with bitmap })

end Block

structure KPageHeap where
  heapAddress : ℕ
  heapSize : ℕ
  numBlocks : ℕ
  blocks : ℕ → Block
  rng : RandomBitGenerator

namespace KPageHeap

def getEndAddress (h : KPageHeap) : ℕ := h.heapAddress + h.heapSize
def getPageOffset (h : KPageHeap) (block : ℕ) : ℕ := (block - h.heapAddress) / pageSize
def getPageOffsetToEnd (h : KPageHeap) (block : ℕ) : ℕ := (h.getEndAddress - block) / pageSize

def block (h : KPageHeap) (index : ℕ) : Option Block :=
  if index < numMemoryBlockPageShifts then some (h.blocks index) else none

def setBlock (h : KPageHeap) (index : ℕ) (b : Block) : KPageHeap :=
  { h with blocks := Function.update h.blocks index b }

/-- The blocks are initialised from the first on. -/
def initializeBlocks (heapAddress heapSize : ℕ) :
    List ℕ → ℕ → KPageHeap → Option KPageHeap
  | [], _, h => some h
  | curShift::rest, i, h => do
    let b ← (h.blocks i).initializeBlock heapAddress heapSize curShift (rest.headD 0)
    initializeBlocks heapAddress heapSize rest (i + 1) (h.setBlock i b)

def initializeHeap (h : KPageHeap) (heapAddress heapSize : ℕ) : Option KPageHeap :=
  initializeBlocks heapAddress heapSize memoryBlockPageShifts 0
    { h with
      heapAddress := heapAddress
      heapSize := heapSize
      numBlocks := numMemoryBlockPageShifts }

def getNumFreePages (h : KPageHeap) : ℕ :=
  ((List.range h.numBlocks).map fun i => (h.blocks i).getNumFreePages).sum

/-- Every turn but the last moves a coalesced block one level up. -/
def freeBlockLoop : ℕ → KPageHeap → ℕ → ℕ → Option KPageHeap
  | 0, _, _, _ => none
  | fuel+1, h, block, index => do
    let b ← h.block index
    let (next, b) ← b.pushBlock block
    let h := h.setBlock index b
    if next = 0 then some h else freeBlockLoop fuel h next (index + 1)

def freeBlock (h : KPageHeap) (block index : ℕ) : Option KPageHeap :=
  freeBlockLoop (numMemoryBlockPageShifts + 1) h block index

/-- The largest level, below the given one, with an aligned block in the range. -/
def findBig (h : KPageHeap) (start stop : ℕ) : ℕ → Option (Option (ℕ × ℕ × ℕ))
  | 0 => some none
  | bigIndex+1 => do
    let b ← h.block bigIndex
    let bigStart := alignUp start b.getSize
    let bigEnd := alignDown stop b.getSize
    if bigStart < bigEnd then some (some (bigIndex, bigStart, bigEnd))
    else findBig h start stop bigIndex

def freeBigLoop (index blockSize bigEnd : ℕ) : ℕ → KPageHeap → ℕ → Option KPageHeap
  | 0, _, _ => none
  | fuel+1, h, block =>
    if block < bigEnd then do
      let h ← h.freeBlock block index
      freeBigLoop index blockSize bigEnd fuel h (block + blockSize)
    else some h

def freeBeforeLoop (index blockSize beforeStart : ℕ) : ℕ → KPageHeap → ℕ → Option (KPageHeap × ℕ)
  | 0, _, _ => none
  | fuel+1, h, beforeEnd =>
    if beforeStart + blockSize ≤ beforeEnd then do
      let h ← h.freeBlock (beforeEnd - blockSize) index
      freeBeforeLoop index blockSize beforeStart fuel h (beforeEnd - blockSize)
    else some (h, beforeEnd)

/-- The part below the big blocks, from the largest smaller level down. -/
def freeBefore (fuel beforeStart : ℕ) : ℕ → KPageHeap → ℕ → Option KPageHeap
  | 0, h, _ => some h
  | i+1, h, beforeEnd => do
    let b ← h.block i
    let (h, beforeEnd) ← freeBeforeLoop i b.getSize beforeStart fuel h beforeEnd
    freeBefore fuel beforeStart i h beforeEnd

def freeAfterLoop (index blockSize afterEnd : ℕ) : ℕ → KPageHeap → ℕ → Option (KPageHeap × ℕ)
  | 0, _, _ => none
  | fuel+1, h, afterStart =>
    if afterStart + blockSize ≤ afterEnd then do
      let h ← h.freeBlock afterStart index
      freeAfterLoop index blockSize afterEnd fuel h (afterStart + blockSize)
    else some (h, afterStart)

def freeAfter (fuel afterEnd : ℕ) : ℕ → KPageHeap → ℕ → Option KPageHeap
  | 0, h, _ => some h
  | i+1, h, afterStart => do
    let b ← h.block i
    let (h, afterStart) ← freeAfterLoop i b.getSize afterEnd fuel h afterStart
    freeAfter fuel afterEnd i h afterStart

/-- A loop over blocks takes at most one turn a page, and one to stop. -/
def free (h : KPageHeap) (addr numPages : ℕ) : Option KPageHeap :=
  if numPages = 0 then some h
  else do
    let stop := addr + numPages * pageSize
    match ← h.findBig addr stop h.numBlocks with
    | none => some h
    | some (bigIndex, bigStart, bigEnd) =>
      let b ← h.block bigIndex
      let h ← freeBigLoop bigIndex b.getSize bigEnd (numPages + 1) h bigStart
      let h ← freeBefore (numPages + 1) addr bigIndex h bigStart
      freeAfter (numPages + 1) stop bigIndex h bigEnd

/-- `free` under a condition. -/
def freeIf (h : KPageHeap) (c : Prop) [Decidable c] (addr numPages : ℕ) : Option KPageHeap :=
  if c then h.free addr numPages else some h

def getAlignedBlockIndexLoop (targetPages : ℕ) : List ℕ → ℕ → Option ℕ
  | [], _ => none
  | shift::rest, i =>
    if targetPages ≤ 1 <<< shift / pageSize then some i
    else getAlignedBlockIndexLoop targetPages rest (i + 1)

/-- `none` is the index -1. -/
def getAlignedBlockIndex (numPages alignPages : ℕ) : Option ℕ :=
  getAlignedBlockIndexLoop (max numPages alignPages) memoryBlockPageShifts 0

def getBlockIndexLoop (numPages : ℕ) : ℕ → Option ℕ
  | 0 => none
  | i+1 =>
    if 1 <<< memoryBlockPageShifts.getD i 0 / pageSize ≤ numPages then some i
    else getBlockIndexLoop numPages i

/-- `none` is the index -1. -/
def getBlockIndex (numPages : ℕ) : Option ℕ := getBlockIndexLoop numPages numMemoryBlockPageShifts

def getBlockSize (index : ℕ) : ℕ := 1 <<< memoryBlockPageShifts.getD index 0
def getBlockNumPages (index : ℕ) : ℕ := getBlockSize index / pageSize

/-- The levels from `index` on; a larger block gives its tail back. -/
def allocateByLinearSearchLoop (neededSize : ℕ) : ℕ → ℕ → KPageHeap → Option (ℕ × KPageHeap)
  | 0, _, h => some (0, h)
  | fuel+1, i, h => do
    let b ← h.block i
    let (addr, b) ← b.popBlock false
    let h := h.setBlock i b
    if addr ≠ 0 then
      let allocatedSize := b.getSize
      let h ← h.freeIf (neededSize < allocatedSize) (addr + neededSize)
        ((allocatedSize - neededSize) / pageSize)
      some (addr, h)
    else allocateByLinearSearchLoop neededSize fuel (i + 1) h

def allocateByLinearSearch (h : KPageHeap) (index : ℕ) : Option (ℕ × KPageHeap) := do
  let b ← h.block index
  allocateByLinearSearchLoop b.getSize (h.numBlocks - index) index h

def minimumPossibleAlignments : ℕ := 4

def trailingZeros (n : ℕ) : ℕ := ((List.range 64).find? fun i => n.testBit i).getD 64

/-- How many aligned ranges of the needed size the free blocks of a level hold; a shift by
all 64 bits, for the alignment 0, is an overflow. -/
def alignmentsAt (h : KPageHeap) (neededSize alignShift i : ℕ) : Option ℕ := do
  let b ← h.block i
  if b.getSize < neededSize ∨ 64 ≤ alignShift then none
  some ((1 + (b.getSize - neededSize) >>> alignShift) * b.getNumFreeBlocks)

/-- The first loop: `max_blocks` and the alignments counted below it. -/
def countAlignments (h : KPageHeap) (neededSize alignShift : ℕ) :
    ℕ → ℕ → ℕ → Option (ℕ × ℕ)
  | 0, i, possible => some (i, possible)
  | fuel+1, i, possible => do
    let n ← h.alignmentsAt neededSize alignShift i
    let possible := possible + n
    if minimumPossibleAlignments ≤ possible then some (i + 1, possible)
    else countAlignments h neededSize alignShift fuel (i + 1) possible

/-- The second loop: the level that holds the `rnd`-th alignment. -/
def pickIndex (h : KPageHeap) (neededSize alignShift rnd index : ℕ) :
    ℕ → ℕ → ℕ → Option ℕ
  | 0, _, _ => some index
  | fuel+1, i, possible => do
    let n ← h.alignmentsAt neededSize alignShift i
    let possible := possible + n
    if rnd < possible then some i
    else pickIndex h neededSize alignShift rnd index fuel (i + 1) possible

/-- The block popped at the picked level, less what its random offset leaves on both sides. -/
def allocateAt (h : KPageHeap) (index neededSize alignShift : ℕ) : Option (ℕ × KPageHeap) := do
  let b ← h.block index
  let (addr, b) ← b.popBlock true
  let h := h.setBlock index b
  if addr ≠ 0 then
    if b.getSize < neededSize then none
    else
      let leftoverSize := b.getSize - neededSize
      if 0 < leftoverSize then
        let (k, g) := h.rng.generateRandom (1 + leftoverSize >>> alignShift)
        let h := { h with rng := g }
        let randomOffset := k <<< alignShift
        let h ← h.freeIf (randomOffset ≠ 0) addr (randomOffset / pageSize)
        let addr := addr + randomOffset
        let h ← h.freeIf (randomOffset ≠ leftoverSize) (addr + neededSize)
          ((leftoverSize - randomOffset) / pageSize)
        some (addr, h)
      else some (addr, h)
  else some (0, h)

def allocateByRandom (h : KPageHeap) (index numPages alignPages : ℕ) :
    Option (ℕ × KPageHeap) := do
  let neededSize := numPages * pageSize
  let alignShift := trailingZeros (alignPages * pageSize)
  let (maxBlocks, possible) ←
    h.countAlignments neededSize alignShift (h.numBlocks - index) index 0
  if 0 < possible ∧ index + 1 < maxBlocks then
    let (rnd, g) := h.rng.generateRandom possible
    let h := { h with rng := g }
    let index ← h.pickIndex neededSize alignShift rnd index (maxBlocks - index) index 0
    h.allocateAt index neededSize alignShift
  else h.allocateAt index neededSize alignShift

def allocateBlock (h : KPageHeap) (index : ℕ) (random : Bool) : Option (ℕ × KPageHeap) :=
  if random then do
    let b ← h.block index
    h.allocateByRandom index b.getNumPages b.getNumPages
  else h.allocateByLinearSearch index

def allocateAligned (h : KPageHeap) (index numPages alignPages : ℕ) :
    Option (ℕ × KPageHeap) :=
  h.allocateByRandom index numPages alignPages

end KPageHeap
end Ruzu.PageHeap
