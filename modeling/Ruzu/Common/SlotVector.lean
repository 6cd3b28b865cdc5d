import Ruzu.Lib.Words

/-!
# Slot vectors

`slot_vector.rs`: values in numbered slots, a bit set of the occupied slots and a
list of the free ones. Indices are of the type `u32`. In a build with debug
assertions an overflow and a failed assertion are faults, as an index out of
bounds is in every build.
-/

set_option autoImplicit false

namespace Ruzu

structure SlotId where
  index : ℕ
deriving DecidableEq

namespace SlotId

def taggedMask : ℕ := 0x7fffffff
def taggedValue : ℕ := 0x80000000
def invalidIndex : ℕ := 0xffffffff

/-- The complement of the tag is `taggedMask`. -/
def value (id : SlotId) : ℕ := id.index &&& taggedMask

def invalid : SlotId := ⟨invalidIndex⟩

def isValid (id : SlotId) : Bool := id.index ≠ invalidIndex

def tagged (id : SlotId) : SlotId := ⟨id.index ||| taggedValue⟩

end SlotId

/-- The top of the free list is its end. -/
structure SlotVector (T : Type) where
  values : List (Option T)
  storedBitset : List (BitVec 64)
  freeList : List ℕ

namespace SlotVector

open SlotId (invalidIndex)

variable {T : Type}

def new : SlotVector T := ⟨[], [], []⟩

/-- A result of the type `u32`. -/
def u32 (debug : Bool) (n : ℕ) : Option ℕ :=
  if n < 2 ^ 32 then some n else if debug then none else some (n % 2 ^ 32)

def readBit (bitset : List (BitVec 64)) (index : ℕ) : Option Bool :=
  (bitset[index / 64]?).map fun (word : BitVec 64) => word >>> (index % 64) &&& 1 ≠ 0

def readStorageBit (s : SlotVector T) (index : ℕ) : Option Bool := readBit s.storedBitset index

def setStorageBit (s : SlotVector T) (index : ℕ) : Option (SlotVector T) :=
  (s.storedBitset[index / 64]?).map fun word =>
    { s with storedBitset :=
        s.storedBitset.set (index / 64) (word ||| (1 : BitVec 64) <<< (index % 64)) }

def resetStorageBit (s : SlotVector T) (index : ℕ) : Option (SlotVector T) :=
  (s.storedBitset[index / 64]?).map fun word =>
    { s with storedBitset :=
        s.storedBitset.set (index / 64) (word &&& ~~~((1 : BitVec 64) <<< (index % 64))) }

/-- Three assertions of debug builds. -/
def validateIndex (debug : Bool) (s : SlotVector T) (id : SlotId) : Option Unit :=
  if debug then
    if id.isValid ∧ id.value / 64 < s.storedBitset.length ∧ s.readStorageBit id.value = some true
    then some ()
    else none
  else some ()

def get (debug : Bool) (s : SlotVector T) (id : SlotId) : Option T := do
  s.validateIndex debug id
  s.values[id.value]?.join

def resize {α : Type} (l : List α) (n : ℕ) (x : α) : List α :=
  l.take n ++ List.replicate (n - l.length) x

def reserve (s : SlotVector T) (newCapacity : ℕ) : SlotVector T where
  values := resize s.values newCapacity none
  storedBitset := resize s.storedBitset ((newCapacity + 63) / 64) 0
  freeList := s.freeList ++
    (List.range' s.values.length (newCapacity - s.values.length)).map (· % 2 ^ 32)

def freeValueIndex (s : SlotVector T) : Option (SlotVector T × ℕ) :=
  let s := if s.freeList = [] then
      s.reserve (if s.values = [] then 1 else s.values.length * 2)
    else s
  (s.freeList.getLast?).map fun index => ({ s with freeList := s.freeList.dropLast }, index)

def write (s : SlotVector T) (index : ℕ) (value : Option T) : Option (SlotVector T) :=
  if index < s.values.length then some { s with values := s.values.set index value } else none

def insert (s : SlotVector T) (value : T) : Option (SlotVector T × SlotId) := do
  let (s, index) ← s.freeValueIndex
  let s ← s.write index (some value)
  let s ← s.setStorageBit index
  some (s, ⟨index⟩)

def erase (s : SlotVector T) (id : SlotId) : Option (SlotVector T) := do
  let index := id.value
  let s ← s.write index none
  resetStorageBit { s with freeList := s.freeList ++ [index] } index

def take (debug : Bool) (s : SlotVector T) (id : SlotId) : Option (SlotVector T × T) := do
  s.validateIndex debug id
  let index := id.value
  let value ← s.values[index]?.join
  let s ← s.write index none
  let s ← resetStorageBit { s with freeList := s.freeList ++ [index] } index
  some (s, value)

/-- A difference of the type `usize`. -/
def size (debug : Bool) (s : SlotVector T) : Option ℕ :=
  if s.freeList.length ≤ s.values.length then some (s.values.length - s.freeList.length)
  else if debug then none
  else some (2 ^ 64 + s.values.length - s.freeList.length)

def contains (s : SlotVector T) (id : SlotId) : Bool :=
  if id.isValid then (s.values[id.value]?.join).isSome else false

/-! ### Iterators -/

/-- The first word that is not zero gives the index. -/
def findFirstSetFromBitset (debug : Bool) : ℕ → List (BitVec 64) → Option ℕ
  | _, [] => some invalidIndex
  | wordIdx, word :: bitset =>
    if word ≠ 0 then do
      let base ← u32 debug (wordIdx % 2 ^ 32 * 64)
      u32 debug (base + Words.trailingZeros word)
    else findFirstSetFromBitset debug (wordIdx + 1) bitset

def findFirstSet (debug : Bool) (s : SlotVector T) : Option ℕ :=
  findFirstSetFromBitset debug 0 s.storedBitset

/-- The first index out of `count` indices from `idx` on that is set. -/
def scan (bitset : List (BitVec 64)) : ℕ → ℕ → Option ℕ
  | 0, _ => some invalidIndex
  | count + 1, idx => do
    let set ← readBit bitset idx
    if set then some idx else scan bitset count (idx + 1)

/-- Both iterators have this loop. -/
def findNextSet (debug : Bool) (bitset : List (BitVec 64)) (current : ℕ) : Option ℕ := do
  let size ← u32 debug (bitset.length % 2 ^ 32 * 64)
  let idx ← u32 debug (current + 1)
  scan bitset (size - idx) idx

/-- What is left of an iteration, one unit of fuel for each call of `next`. -/
def iterFrom (debug : Bool) (s : SlotVector T) : ℕ → ℕ → Option (List (SlotId × T))
  | 0, _ => none
  | fuel + 1, current =>
    if current = invalidIndex then some []
    else do
      let value ← s.values[current]?.join
      let next ← findNextSet debug s.storedBitset current
      let rest ← s.iterFrom debug fuel next
      some ((⟨current⟩, value) :: rest)

def iter (debug : Bool) (s : SlotVector T) : Option (List (SlotId × T)) := do
  let first ← s.findFirstSet debug
  s.iterFrom debug (s.storedBitset.length * 64 + 1) first

/-- An iteration that puts `f id value` in place of every value it hands out. The next index
is searched before the value is taken. -/
def iterMutFrom (debug : Bool) (bitset : List (BitVec 64)) (f : SlotId → T → T) :
    ℕ → ℕ → List (Option T) → Option (List (Option T) × List (SlotId × T))
  | 0, _, _ => none
  | fuel + 1, current, values =>
    if current = invalidIndex then some (values, [])
    else do
      let next ← findNextSet debug bitset current
      let value ← values[current]?.join
      let (values, rest) ← iterMutFrom debug bitset f fuel next
        (values.set current (some (f ⟨current⟩ value)))
      some (values, (⟨current⟩, value) :: rest)

def iterMut (debug : Bool) (s : SlotVector T) (f : SlotId → T → T) :
    Option (SlotVector T × List (SlotId × T)) := do
  let first ← findFirstSetFromBitset debug 0 s.storedBitset
  let (values, items) ← iterMutFrom debug s.storedBitset f (s.storedBitset.length * 64 + 1) first
    s.values
  some ({ s with values := values }, items)

end SlotVector

end Ruzu
