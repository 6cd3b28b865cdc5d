import Mathlib

/-!
# Kernel memory blocks

`KMemoryBlock` as in `k_memory_block.rs`, built without debug assertions:
flag words are fixed-width vectors, the five counters are wrapping 16-bit
words, addresses and page counts are natural numbers.
-/

set_option autoImplicit false

namespace Ruzu.MemoryBlock

def pageSize : ℕ := 4096

abbrev KMemoryState := BitVec 32
abbrev KMemoryPermission := BitVec 8
abbrev KMemoryAttribute := BitVec 8
abbrev KMemoryBlockDisableMergeAttribute := BitVec 8

namespace KMemoryState

def free : KMemoryState := 0x00000000
def normal : KMemoryState := 0x077EBD05

end KMemoryState

namespace KMemoryPermission

def none : KMemoryPermission := 0
def kernelRead : KMemoryPermission := 0x08
def kernelWrite : KMemoryPermission := 0x10
def kernelExecute : KMemoryPermission := 0x20
def notMapped : KMemoryPermission := 1 <<< 6
def userRead : KMemoryPermission := 0x01 ||| kernelRead
def userWrite : KMemoryPermission := 0x02 ||| kernelWrite
def userExecute : KMemoryPermission := 0x04
def userReadWrite : KMemoryPermission := userRead ||| userWrite
def ipcLockChangeMask : KMemoryPermission := notMapped ||| userReadWrite

/-- Every named flag; `from_bits_truncate` and complement stay inside it. -/
def all : KMemoryPermission :=
  kernelRead ||| kernelWrite ||| kernelExecute ||| notMapped ||| userReadWrite ||| userExecute

def fromBitsTruncate (b : BitVec 8) : KMemoryPermission := b &&& all

def complement (p : KMemoryPermission) : KMemoryPermission := fromBitsTruncate (~~~p)

end KMemoryPermission

namespace KMemoryAttribute

def none : KMemoryAttribute := 0x00
def locked : KMemoryAttribute := 0x01
def ipcLocked : KMemoryAttribute := 0x02
def deviceShared : KMemoryAttribute := 0x04
def uncached : KMemoryAttribute := 0x08
def permissionLocked : KMemoryAttribute := 0x10

/-- `USER_MASK` is declared as a flag, so all eight bits are known. -/
def userMask : KMemoryAttribute := 0xFF

def fromBitsTruncate (b : BitVec 8) : KMemoryAttribute := b &&& userMask

@[simp] theorem from_bits_truncate_eq (b : BitVec 8) : fromBitsTruncate b = b :=
  BitVec.and_allOnes

/-- The two bits that `has_properties` ignores and `update` carries over. -/
def attributeIgnoreMask : KMemoryAttribute := ipcLocked ||| deviceShared

end KMemoryAttribute

namespace KMemoryBlockDisableMergeAttribute

def none : KMemoryBlockDisableMergeAttribute := 0
def normal : KMemoryBlockDisableMergeAttribute := 1 <<< 0
def deviceLeft : KMemoryBlockDisableMergeAttribute := 1 <<< 1
def ipcLeft : KMemoryBlockDisableMergeAttribute := 1 <<< 2
def locked : KMemoryBlockDisableMergeAttribute := 1 <<< 3
def deviceRight : KMemoryBlockDisableMergeAttribute := 1 <<< 4
def allLeft : KMemoryBlockDisableMergeAttribute := normal ||| deviceLeft ||| ipcLeft ||| locked
def allRight : KMemoryBlockDisableMergeAttribute := deviceRight

def fromBitsTruncate (b : BitVec 8) : KMemoryBlockDisableMergeAttribute :=
  b &&& (allLeft ||| allRight)

def complement (a : KMemoryBlockDisableMergeAttribute) : KMemoryBlockDisableMergeAttribute :=
  fromBitsTruncate (~~~a)

end KMemoryBlockDisableMergeAttribute

open KMemoryBlockDisableMergeAttribute (deviceLeft deviceRight ipcLeft allLeft allRight)

@[ext] structure KMemoryBlock where
  mDeviceDisableMergeLeftCount : BitVec 16
  mDeviceDisableMergeRightCount : BitVec 16
  mAddress : ℕ
  mNumPages : ℕ
  mMemoryState : KMemoryState
  mIpcLockCount : BitVec 16
  mDeviceUseCount : BitVec 16
  mIpcDisableMergeCount : BitVec 16
  mPermission : KMemoryPermission
  mOriginalPermission : KMemoryPermission
  mAttribute : KMemoryAttribute
  mDisableMergeAttribute : KMemoryBlockDisableMergeAttribute
  deriving DecidableEq, Repr

namespace KMemoryBlock

def new : KMemoryBlock :=
  ⟨0, 0, 0, 0, 0, 0, 0, 0, KMemoryPermission.none, KMemoryPermission.none,
    KMemoryAttribute.none, KMemoryBlockDisableMergeAttribute.none⟩

/-- `m_ipc_disable_merge_count` is the one field left as it was. -/
def initializeBlock (b : KMemoryBlock) (addr np : ℕ) (ms : KMemoryState) (p : KMemoryPermission)
    (attr : KMemoryAttribute) : KMemoryBlock :=
  { b with
    mDeviceDisableMergeLeftCount := 0
    mDeviceDisableMergeRightCount := 0
    mAddress := addr
    mNumPages := np
    mMemoryState := ms
    mIpcLockCount := 0
    mDeviceUseCount := 0
    mPermission := p
    mOriginalPermission := KMemoryPermission.none
    mAttribute := attr
    mDisableMergeAttribute := KMemoryBlockDisableMergeAttribute.none }

def getSize (b : KMemoryBlock) : ℕ := b.mNumPages * pageSize

def getEndAddress (b : KMemoryBlock) : ℕ := b.mAddress + b.getSize

def hasProperties (b : KMemoryBlock) (s : KMemoryState) (p : KMemoryPermission)
    (a : KMemoryAttribute) : Bool :=
  b.mMemoryState == s && b.mPermission == p &&
    (b.mAttribute ||| KMemoryAttribute.attributeIgnoreMask) ==
      (a ||| KMemoryAttribute.attributeIgnoreMask)

def hasSameProperties (b rhs : KMemoryBlock) : Bool :=
  b.mMemoryState == rhs.mMemoryState && b.mPermission == rhs.mPermission &&
    b.mOriginalPermission == rhs.mOriginalPermission && b.mAttribute == rhs.mAttribute &&
    b.mIpcLockCount == rhs.mIpcLockCount && b.mDeviceUseCount == rhs.mDeviceUseCount

def canMergeWith (b rhs : KMemoryBlock) : Bool :=
  b.hasSameProperties rhs &&
    (b.mDisableMergeAttribute &&& allRight) == KMemoryBlockDisableMergeAttribute.none &&
    (rhs.mDisableMergeAttribute &&& allLeft) == KMemoryBlockDisableMergeAttribute.none

def add (b added : KMemoryBlock) : KMemoryBlock :=
  { b with
    mNumPages := b.mNumPages + added.mNumPages
    mDisableMergeAttribute := b.mDisableMergeAttribute ||| added.mDisableMergeAttribute
    mDeviceDisableMergeRightCount := added.mDeviceDisableMergeRightCount }

/-- The merge bits after `update`: set on request, then cleared. -/
def updateDisableMerge (d : KMemoryBlockDisableMergeAttribute) (setDisableMergeAttr : Bool)
    (setMask clearMask : BitVec 8) : KMemoryBlockDisableMergeAttribute :=
  let d := if setDisableMergeAttr && setMask != 0
    then d ||| KMemoryBlockDisableMergeAttribute.fromBitsTruncate setMask else d
  if clearMask != 0
    then d &&& KMemoryBlockDisableMergeAttribute.fromBitsTruncate (~~~clearMask) else d

def update (b : KMemoryBlock) (s : KMemoryState) (p : KMemoryPermission) (a : KMemoryAttribute)
    (setDisableMergeAttr : Bool) (setMask clearMask : BitVec 8) : KMemoryBlock :=
  { b with
    mMemoryState := s
    mPermission := p
    mAttribute := KMemoryAttribute.fromBitsTruncate
      (a ||| (b.mAttribute &&& (KMemoryAttribute.ipcLocked ||| KMemoryAttribute.deviceShared)))
    mDisableMergeAttribute :=
      updateDisableMerge b.mDisableMergeAttribute setDisableMergeAttr setMask clearMask }

def updateAttribute (b : KMemoryBlock) (mask attr : KMemoryAttribute) : KMemoryBlock :=
  { b with mAttribute := (b.mAttribute &&& ~~~mask) ||| attr }

/-- The left half `[m_address, addr)` and the right half `[addr, end)`: left
merge bits and counts stay left, right ones stay right. -/
def split (b : KMemoryBlock) (addr : ℕ) : KMemoryBlock × KMemoryBlock :=
  let np := (addr - b.mAddress) / pageSize
  ({ b with
      mNumPages := np
      mDisableMergeAttribute := b.mDisableMergeAttribute &&& allLeft
      mDeviceDisableMergeRightCount := 0 },
   { b with
      mAddress := addr
      mNumPages := b.mNumPages - np
      mIpcDisableMergeCount := 0
      mDeviceDisableMergeLeftCount := 0
      mDisableMergeAttribute := b.mDisableMergeAttribute &&& allRight })

def updateDeviceDisableMergeStateForShareLeft (b : KMemoryBlock) (left : Bool) : KMemoryBlock :=
  if left then
    { b with
      mDisableMergeAttribute := b.mDisableMergeAttribute ||| deviceLeft
      mDeviceDisableMergeLeftCount := b.mDeviceDisableMergeLeftCount + 1 }
  else b

def updateDeviceDisableMergeStateForShareRight (b : KMemoryBlock) (right : Bool) : KMemoryBlock :=
  if right then
    { b with
      mDisableMergeAttribute := b.mDisableMergeAttribute ||| deviceRight
      mDeviceDisableMergeRightCount := b.mDeviceDisableMergeRightCount + 1 }
  else b

def updateDeviceDisableMergeStateForShare (b : KMemoryBlock) (left right : Bool) :
    KMemoryBlock :=
  (b.updateDeviceDisableMergeStateForShareLeft left).updateDeviceDisableMergeStateForShareRight
    right

/-- `left_count = min(left_count, use_count)`, dropping `DEVICE_LEFT` at zero. -/
def clampDeviceLeft (b : KMemoryBlock) : KMemoryBlock :=
  let c := if b.mDeviceDisableMergeLeftCount ≤ b.mDeviceUseCount
    then b.mDeviceDisableMergeLeftCount else b.mDeviceUseCount
  { b with
    mDeviceDisableMergeLeftCount := c
    mDisableMergeAttribute := if c = 0
      then b.mDisableMergeAttribute &&& KMemoryBlockDisableMergeAttribute.complement deviceLeft
      else b.mDisableMergeAttribute }

def updateDeviceDisableMergeStateForUnshareLeft (b : KMemoryBlock) (left : Bool) : KMemoryBlock :=
  if left then
    if b.mDeviceDisableMergeLeftCount = 0 then b
    else { b with
      mDeviceDisableMergeLeftCount := b.mDeviceDisableMergeLeftCount - 1 }.clampDeviceLeft
  else b.clampDeviceLeft

def updateDeviceDisableMergeStateForUnshareRight (b : KMemoryBlock) (right : Bool) :
    KMemoryBlock :=
  if right then
    { b with
      mDeviceDisableMergeRightCount := b.mDeviceDisableMergeRightCount - 1
      mDisableMergeAttribute := if b.mDeviceDisableMergeRightCount = 1
        then b.mDisableMergeAttribute &&& KMemoryBlockDisableMergeAttribute.complement deviceRight
        else b.mDisableMergeAttribute }
  else b

def updateDeviceDisableMergeStateForUnshare (b : KMemoryBlock) (left right : Bool) :
    KMemoryBlock :=
  (b.updateDeviceDisableMergeStateForUnshareLeft
    left).updateDeviceDisableMergeStateForUnshareRight right

def shareToDevice (b : KMemoryBlock) (_newPerm : KMemoryPermission) (left right : Bool) :
    KMemoryBlock :=
  { b with
    mDeviceUseCount := b.mDeviceUseCount + 1
    mAttribute := b.mAttribute ||| KMemoryAttribute.deviceShared
    }.updateDeviceDisableMergeStateForShare left right

def unshareToDevice (b : KMemoryBlock) (_newPerm : KMemoryPermission) (left right : Bool) :
    KMemoryBlock :=
  { b with
    mDeviceUseCount := b.mDeviceUseCount - 1
    mAttribute := if b.mDeviceUseCount = 1
      then b.mAttribute &&& ~~~KMemoryAttribute.deviceShared else b.mAttribute
    }.updateDeviceDisableMergeStateForUnshare left right

/-- The permission a page has while it is IPC-locked. -/
def ipcLockedPermission (original newPerm : KMemoryPermission) : KMemoryPermission :=
  KMemoryPermission.fromBitsTruncate
    ((newPerm &&& KMemoryPermission.ipcLockChangeMask) |||
      (original &&& KMemoryPermission.complement KMemoryPermission.ipcLockChangeMask))

def lockForIpc (b : KMemoryBlock) (newPerm : KMemoryPermission) (left _right : Bool) :
    KMemoryBlock :=
  let first := b.mIpcLockCount + 1 = 1
  { b with
    mIpcLockCount := b.mIpcLockCount + 1
    mOriginalPermission := if first then b.mPermission else b.mOriginalPermission
    mPermission := if first then ipcLockedPermission b.mPermission newPerm else b.mPermission
    mAttribute := b.mAttribute ||| KMemoryAttribute.ipcLocked
    mDisableMergeAttribute :=
      if left then b.mDisableMergeAttribute ||| ipcLeft else b.mDisableMergeAttribute
    mIpcDisableMergeCount :=
      if left then b.mIpcDisableMergeCount + 1 else b.mIpcDisableMergeCount }

def unlockForIpc (b : KMemoryBlock) (_newPerm : KMemoryPermission) (left _right : Bool) :
    KMemoryBlock :=
  let last := b.mIpcLockCount = 1
  { b with
    mIpcLockCount := b.mIpcLockCount - 1
    mPermission := if last then b.mOriginalPermission else b.mPermission
    mOriginalPermission := if last then KMemoryPermission.none else b.mOriginalPermission
    mAttribute := if last then b.mAttribute &&& ~~~KMemoryAttribute.ipcLocked else b.mAttribute
    mIpcDisableMergeCount :=
      if left then b.mIpcDisableMergeCount - 1 else b.mIpcDisableMergeCount
    mDisableMergeAttribute := if left && b.mIpcDisableMergeCount == 1
      then b.mDisableMergeAttribute &&& KMemoryBlockDisableMergeAttribute.complement ipcLeft
      else b.mDisableMergeAttribute }

@[simp] theorem split_left_address (b : KMemoryBlock) (addr : ℕ) :
    (b.split addr).1.mAddress = b.mAddress := rfl

@[simp] theorem split_right_address (b : KMemoryBlock) (addr : ℕ) :
    (b.split addr).2.mAddress = addr := rfl

@[simp] theorem add_address (b c : KMemoryBlock) : (b.add c).mAddress = b.mAddress := rfl

@[simp] theorem add_num_pages (b c : KMemoryBlock) :
    (b.add c).mNumPages = b.mNumPages + c.mNumPages := rfl

end KMemoryBlock

/-- What a block says about each of its pages: the fields compared by
`has_same_properties`. -/
@[ext] structure PageProperties where
  mMemoryState : KMemoryState
  mPermission : KMemoryPermission
  mOriginalPermission : KMemoryPermission
  mAttribute : KMemoryAttribute
  mIpcLockCount : BitVec 16
  mDeviceUseCount : BitVec 16
  deriving DecidableEq, Repr

namespace PageProperties

def hasProperties (q : PageProperties) (s : KMemoryState) (p : KMemoryPermission)
    (a : KMemoryAttribute) : Bool :=
  q.mMemoryState == s && q.mPermission == p &&
    (q.mAttribute ||| KMemoryAttribute.attributeIgnoreMask) ==
      (a ||| KMemoryAttribute.attributeIgnoreMask)

/-- State, permission and attribute replaced, the two kernel-managed
attribute bits carried over. -/
def set (q : PageProperties) (s : KMemoryState) (p : KMemoryPermission) (a : KMemoryAttribute) :
    PageProperties :=
  { q with
    mMemoryState := s
    mPermission := p
    mAttribute := a ||| (q.mAttribute &&& KMemoryAttribute.attributeIgnoreMask) }

end PageProperties

namespace KMemoryBlock

def pageProperties (b : KMemoryBlock) : PageProperties :=
  ⟨b.mMemoryState, b.mPermission, b.mOriginalPermission, b.mAttribute, b.mIpcLockCount,
    b.mDeviceUseCount⟩

theorem has_same_properties_iff (b c : KMemoryBlock) :
    b.hasSameProperties c = true ↔ b.pageProperties = c.pageProperties := by
  simp [hasSameProperties, pageProperties, and_assoc]

theorem has_properties_page (b : KMemoryBlock) (s : KMemoryState) (p : KMemoryPermission)
    (a : KMemoryAttribute) : b.hasProperties s p a = b.pageProperties.hasProperties s p a :=
  rfl

@[simp] theorem update_page (b : KMemoryBlock) (s : KMemoryState) (p : KMemoryPermission)
    (a : KMemoryAttribute) (f : Bool) (x y : BitVec 8) :
    (b.update s p a f x y).pageProperties = b.pageProperties.set s p a := by
  simp [update, pageProperties, PageProperties.set, KMemoryAttribute.attributeIgnoreMask]

@[simp] theorem split_left_page (b : KMemoryBlock) (addr : ℕ) :
    (b.split addr).1.pageProperties = b.pageProperties := rfl

@[simp] theorem split_right_page (b : KMemoryBlock) (addr : ℕ) :
    (b.split addr).2.pageProperties = b.pageProperties := rfl

@[simp] theorem add_page (b c : KMemoryBlock) :
    (b.add c).pageProperties = b.pageProperties := rfl

end KMemoryBlock
end Ruzu.MemoryBlock
