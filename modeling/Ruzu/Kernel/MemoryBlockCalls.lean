import Ruzu.Kernel.MemoryBlockUpdate

/-!
# Runs of the memory block manager

A run starts from `initialize` and makes any number of calls on ranges of the
managed region. Whatever the layout it has reached, the next call returns,
keeps the blocks a tiling of the region, rewrites the pages of its range by
its own page function and leaves every other page alone.
-/

set_option autoImplicit false

namespace Ruzu.MemoryBlockCalls
open MemoryBlock MemoryBlockManager MemoryBlockTiling MemoryBlockCoalesce MemoryBlockUpdate
open KMemoryBlockManager

namespace PageProperties

def lockForIpc (newPerm : KMemoryPermission) (q : PageProperties) : PageProperties :=
  let first := q.mIpcLockCount + 1 = 1
  { q with
    mIpcLockCount := q.mIpcLockCount + 1
    mOriginalPermission := if first then q.mPermission else q.mOriginalPermission
    mPermission := if first then KMemoryBlock.ipcLockedPermission q.mPermission newPerm
      else q.mPermission
    mAttribute := q.mAttribute ||| KMemoryAttribute.ipcLocked }

def unlockForIpc (q : PageProperties) : PageProperties :=
  let last := q.mIpcLockCount = 1
  { q with
    mIpcLockCount := q.mIpcLockCount - 1
    mPermission := if last then q.mOriginalPermission else q.mPermission
    mOriginalPermission := if last then KMemoryPermission.none else q.mOriginalPermission
    mAttribute := if last then q.mAttribute &&& ~~~KMemoryAttribute.ipcLocked
      else q.mAttribute }

def shareToDevice (q : PageProperties) : PageProperties :=
  { q with
    mDeviceUseCount := q.mDeviceUseCount + 1
    mAttribute := q.mAttribute ||| KMemoryAttribute.deviceShared }

def unshareToDevice (q : PageProperties) : PageProperties :=
  { q with
    mDeviceUseCount := q.mDeviceUseCount - 1
    mAttribute := if q.mDeviceUseCount = 1
      then q.mAttribute &&& ~~~KMemoryAttribute.deviceShared else q.mAttribute }

end PageProperties

/-- A lock function keeps the block's place and acts on its pages in a way
that its first/last flags do not influence. -/
structure LockFunc where
  run : LockFunction
  change : KMemoryPermission → PageProperties → PageProperties
  acts : ∀ perm left right, ActsOnPages (fun b => run b perm left right) (change perm)

namespace LockFunc

def lockForIpc : LockFunc where
  run := KMemoryBlock.lockForIpc
  change := PageProperties.lockForIpc
  acts _ _ _ := ⟨fun _ => rfl, fun _ => rfl, fun _ => rfl⟩

def unlockForIpc : LockFunc where
  run := KMemoryBlock.unlockForIpc
  change _ := PageProperties.unlockForIpc
  acts _ _ _ := ⟨fun _ => rfl, fun _ => rfl, fun _ => rfl⟩

theorem share_merge_acts (left right : Bool) :
    ActsOnPages (fun b => b.updateDeviceDisableMergeStateForShare left right) id := by
  cases left <;> cases right <;> exact ⟨fun _ => rfl, fun _ => rfl, fun _ => rfl⟩

theorem clamp_acts : ActsOnPages KMemoryBlock.clampDeviceLeft id :=
  ⟨fun _ => rfl, fun _ => rfl, fun _ => rfl⟩

theorem unshare_left_acts (left : Bool) :
    ActsOnPages (fun b => b.updateDeviceDisableMergeStateForUnshareLeft left) id := by
  cases left with
  | false => exact clamp_acts
  | true =>
    refine ⟨fun b => ?_, fun b => ?_, fun b => ?_⟩ <;>
      simp only [KMemoryBlock.updateDeviceDisableMergeStateForUnshareLeft] <;>
      by_cases h : b.mDeviceDisableMergeLeftCount = 0 <;>
      simp only [h, if_true, if_false] <;> rfl

theorem unshare_merge_acts (left right : Bool) :
    ActsOnPages (fun b => b.updateDeviceDisableMergeStateForUnshare left right) id := by
  have hl := unshare_left_acts left
  cases right with
  | false => exact hl
  | true => exact ⟨fun b => hl.address b, fun b => hl.numPages b, fun b => hl.page b⟩

def shareToDevice : LockFunc where
  run := KMemoryBlock.shareToDevice
  change _ := PageProperties.shareToDevice
  acts _ left right :=
    have h := share_merge_acts left right
    ⟨fun _ => h.address _, fun _ => h.numPages _, fun _ => h.page _⟩

def unshareToDevice : LockFunc where
  run := KMemoryBlock.unshareToDevice
  change _ := PageProperties.unshareToDevice
  acts _ left right :=
    have h := unshare_merge_acts left right
    ⟨fun _ => h.address _, fun _ => h.numPages _, fun _ => h.page _⟩

/-- The partial-map lock functions move merge bits only. -/
def shareMergeState : LockFunc where
  run b _ left right := b.updateDeviceDisableMergeStateForShare left right
  change _ := id
  acts _ left right := share_merge_acts left right

def unshareMergeState : LockFunc where
  run b _ left right := b.updateDeviceDisableMergeStateForUnshare left right
  change _ := id
  acts _ left right := unshare_merge_acts left right

end LockFunc

inductive Call
  | update (address numPages : ℕ) (state : KMemoryState) (perm : KMemoryPermission)
      (attr : KMemoryAttribute)
      (setDisableAttr clearDisableAttr : KMemoryBlockDisableMergeAttribute)
  | updateIfMatch (address numPages : ℕ) (testState : KMemoryState)
      (testPerm : KMemoryPermission) (testAttr : KMemoryAttribute) (state : KMemoryState)
      (perm : KMemoryPermission) (attr : KMemoryAttribute)
      (setDisableAttr clearDisableAttr : KMemoryBlockDisableMergeAttribute)
  | updateAttribute (address numPages : ℕ) (mask attr : KMemoryAttribute)
  | updateLock (address numPages : ℕ) (perm : KMemoryPermission) (lockFunc : LockFunc)

namespace Call

def address : Call → ℕ
  | update a _ _ _ _ _ _ => a
  | updateIfMatch a _ _ _ _ _ _ _ _ _ => a
  | updateAttribute a _ _ _ => a
  | updateLock a _ _ _ => a

def numPages : Call → ℕ
  | update _ n _ _ _ _ _ => n
  | updateIfMatch _ n _ _ _ _ _ _ _ _ => n
  | updateAttribute _ n _ _ => n
  | updateLock _ n _ _ => n

def stop (c : Call) : ℕ := c.address + c.numPages * pageSize

def run (m : KMemoryBlockManager) : Call → Option KMemoryBlockManager
  | update a n s p attr sd cd => m.update a n s p attr sd cd
  | updateIfMatch a n ts tp ta s p attr sd cd => m.updateIfMatch a n ts tp ta s p attr sd cd
  | updateAttribute a n mask attr => m.updateAttribute a n mask attr
  | updateLock a n perm f => m.updateLock a n perm f.run

/-- What the call does to a page of its range. -/
def change : Call → PageProperties → PageProperties
  | update _ _ s p attr _ _ => changeUpdate s p attr
  | updateIfMatch _ _ ts tp ta s p attr _ _ => changeIfMatch s p attr ts tp ta
  | updateAttribute _ _ mask attr => changeAttribute mask attr
  | updateLock _ _ perm f => f.change perm

/-- What the call writes into a block is related to what it found there. -/
def Respects (R : KMemoryBlock → KMemoryBlock → Prop) : Call → Prop
  | update _ _ s p attr sd cd => ∀ b first, R b (b.update s p attr first sd cd)
  | updateIfMatch _ _ _ _ _ s p attr sd cd => ∀ b first, R b (b.update s p attr first sd cd)
  | updateAttribute _ _ mask attr => ∀ b, R b (b.updateAttribute mask attr)
  | updateLock _ _ perm f => ∀ b left right, R b (f.run b perm left right)

/-- The region's ranges a caller may name, and the attribute masks it may change. -/
structure Valid (st nd : ℕ) (c : Call) : Prop where
  aligned : c.address % pageSize = 0
  nonempty : 0 < c.numPages
  start_le : st ≤ c.address
  le_end : c.stop ≤ nd
  mask : ∀ a n mask attr, c = updateAttribute a n mask attr →
    mask &&& KMemoryAttribute.attributeIgnoreMask = 0 ∧ attr &&& ~~~mask = 0

end Call

inductive Reachable (st nd : ℕ) : KMemoryBlockManager → Prop
  | start (startBlock : KMemoryBlock) :
      Reachable st nd (new.initializeManager st nd startBlock)
  | call {m m' : KMemoryBlockManager} (c : Call) (h : Reachable st nd m)
      (hc : c.Valid st nd) (hr : c.run m = some m') : Reachable st nd m'

section Run

variable {st nd : ℕ} {m m' : KMemoryBlockManager}

theorem initialize_entries (startBlock : KMemoryBlock) :
    (new.initializeManager st nd startBlock).memoryBlockTree.entries =
      [(st, startBlock.initializeBlock st ((nd - st) / pageSize) KMemoryState.free
        KMemoryPermission.none KMemoryAttribute.none)] := rfl

theorem initialize_tiled (hst : st % pageSize = 0) (hnd : nd % pageSize = 0) (h : st < nd)
    (startBlock : KMemoryBlock) : Tiled (new.initializeManager st nd startBlock) := by
  have hend : st + (nd - st) / pageSize * pageSize = nd := by
    simp only [pageSize] at hst hnd ⊢
    omega
  refine ⟨?_, ?_, hst⟩
  · rw [initialize_entries]
    refine ⟨rfl, ?_, ?_⟩
    · show st < st + (nd - st) / pageSize * pageSize
      omega
    · exact hend
  · intro e he
    rw [initialize_entries, List.mem_singleton] at he
    rw [he]
    rfl

/-- One call on a tiled manager. -/
theorem call_performs {R : KMemoryBlock → KMemoryBlock → Prop} (c : Call) (h : Tiled m)
    (hc : c.Valid m.mStartAddress m.mEndAddress) (hR : c.Respects R) :
    Performs R m c.address c.numPages c.change (c.run m) := by
  have hr : InRange m c.address c.numPages := ⟨hc.aligned, hc.nonempty, hc.start_le, hc.le_end⟩
  cases c with
  | update a n s p attr sd cd => exact update_spec s p attr sd cd h hr hR
  | updateIfMatch a n ts tp ta s p attr sd cd =>
    exact update_if_match_spec s p attr sd cd h hr hR ts tp ta
  | updateAttribute a n mask attr => exact update_attribute_spec h hr mask attr hR
  | updateLock a n perm f => exact update_lock_spec h hr (f.acts perm) hR

theorem respects_true (c : Call) : c.Respects fun _ _ => True := by
  cases c <;> simp [Call.Respects]

structure Managed (st nd : ℕ) (m : KMemoryBlockManager) : Prop where
  tiled : Tiled m
  start_eq : m.mStartAddress = st
  end_eq : m.mEndAddress = nd
  merged : NoMerge m.memoryBlockTree.entries

theorem initialize_managed (hst : st % pageSize = 0) (hnd : nd % pageSize = 0) (h : st < nd)
    (startBlock : KMemoryBlock) : Managed st nd (new.initializeManager st nd startBlock) := by
  refine ⟨initialize_tiled hst hnd h startBlock, rfl, rfl, fun x hx => ?_⟩
  rw [initialize_entries] at hx
  exact hx

theorem call_managed (c : Call) (h : Managed st nd m) (hc : c.Valid st nd) :
    ∃ m', c.run m = some m' ∧ Managed st nd m' ∧
      Rewritten m m' c.address c.stop c.change := by
  have hc' : c.Valid m.mStartAddress m.mEndAddress := by rwa [h.start_eq, h.end_eq]
  obtain ⟨m', hr, hw, hno, -⟩ := call_performs c h.tiled hc' (respects_true c)
  exact ⟨m', hr, ⟨hw.tiled, hw.start_eq.trans h.start_eq, hw.end_eq.trans h.end_eq,
    hno h.merged⟩, hw⟩

theorem reachable_managed (hst : st % pageSize = 0) (hnd : nd % pageSize = 0) (hlt : st < nd)
    (h : Reachable st nd m) : Managed st nd m := by
  induction h with
  | start startBlock => exact initialize_managed hst hnd hlt startBlock
  | call c _ hc hr ih =>
    obtain ⟨m', hr', hm, -⟩ := call_managed c ih hc
    rw [hr] at hr'
    cases hr'
    exact hm

theorem valid_nonempty {c : Call} (hc : c.Valid st nd) : st < nd := by
  have h1 := hc.start_le
  have h2 := hc.le_end
  have h3 : 0 < c.numPages * pageSize := Nat.mul_pos hc.nonempty (by simp [pageSize])
  simp only [Call.stop] at h2
  omega

/-- Every call of every run returns a tiling of the same region in which the
pages of its range are rewritten and all others are unchanged. -/
theorem reachable_call_rewrites (hst : st % pageSize = 0) (hnd : nd % pageSize = 0)
    (h : Reachable st nd m) (c : Call) (hc : c.Valid st nd) :
    ∃ m', c.run m = some m' ∧ Reachable st nd m' ∧ Tiled m' ∧ m'.mStartAddress = st ∧
      m'.mEndAddress = nd ∧ ∀ p, pageAt m' p =
        if c.address ≤ p ∧ p < c.stop then (pageAt m p).map c.change else pageAt m p := by
  have hm := reachable_managed hst hnd (valid_nonempty hc) h
  obtain ⟨m', hr, hm', hw⟩ := call_managed c hm hc
  exact ⟨m', hr, Reachable.call c h hc hr, hm'.tiled, hm'.start_eq, hm'.end_eq, hw.page⟩

end Run

/-- Remapping the first of two free pages. -/
def remapFirst : Call :=
  .update 0 1 KMemoryState.normal KMemoryPermission.userReadWrite KMemoryAttribute.none 0 0

/-- Back to free memory on both pages, naming one of the carried-over bits. -/
def freeShared : Call :=
  .update 0 2 KMemoryState.free KMemoryPermission.none KMemoryAttribute.deviceShared 0 0

theorem remap_first_valid : remapFirst.Valid 0 8192 :=
  ⟨by decide, by decide, by decide, by decide, fun _ _ _ _ h => nomatch h⟩

theorem free_shared_valid : freeShared.Valid 0 8192 :=
  ⟨by decide, by decide, by decide, by decide, fun _ _ _ _ h => nomatch h⟩

theorem reachable_call_rewrites_remap :
    ∃ m', remapFirst.run (new.initializeManager 0 8192 KMemoryBlock.new) = some m' ∧
      Reachable 0 8192 m' ∧ Tiled m' ∧ m'.mStartAddress = 0 ∧ m'.mEndAddress = 8192 ∧
      ∀ p, pageAt m' p = if remapFirst.address ≤ p ∧ p < remapFirst.stop
        then (pageAt (new.initializeManager 0 8192 KMemoryBlock.new) p).map remapFirst.change
        else pageAt (new.initializeManager 0 8192 KMemoryBlock.new) p :=
  reachable_call_rewrites (by decide) (by decide) (Reachable.start KMemoryBlock.new) remapFirst
    remap_first_valid

/-- The two pages start with the same attribute and are given the same
request, but the page that is free already is skipped. -/
theorem update_skips_shared_bit :
    ∃ m m', Reachable 0 8192 m ∧ freeShared.Valid 0 8192 ∧ freeShared.run m = some m' ∧
      (pageAt m 0).map (fun q => q.mAttribute) = some KMemoryAttribute.none ∧
      (pageAt m 4096).map (fun q => q.mAttribute) = some KMemoryAttribute.none ∧
      (pageAt m' 0).map (fun q => q.mAttribute) = some KMemoryAttribute.deviceShared ∧
      (pageAt m' 4096).map (fun q => q.mAttribute) = some KMemoryAttribute.none ∧
      pageAt m' 4096 ≠ (pageAt m 4096).map (fun q => q.set KMemoryState.free
        KMemoryPermission.none KMemoryAttribute.deviceShared) := by
  have hrun : (remapFirst.run (new.initializeManager 0 8192 KMemoryBlock.new)).bind (fun m =>
      (freeShared.run m).map fun m' => [pageAt m 0, pageAt m 4096, pageAt m' 0, pageAt m' 4096]) =
      some [some ⟨KMemoryState.normal, KMemoryPermission.userReadWrite, 0, 0, 0, 0⟩,
        some ⟨KMemoryState.free, 0, 0, 0, 0, 0⟩,
        some ⟨KMemoryState.free, 0, 0, KMemoryAttribute.deviceShared, 0, 0⟩,
        some ⟨KMemoryState.free, 0, 0, 0, 0, 0⟩] := by decide +kernel
  obtain ⟨m, hm, hrest⟩ := Option.bind_eq_some_iff.mp hrun
  obtain ⟨m', hm', hpages⟩ := Option.map_eq_some_iff.mp hrest
  simp only [List.cons.injEq, and_true] at hpages
  obtain ⟨h0, h1, h2, h3⟩ := hpages
  refine ⟨m, m', Reachable.call remapFirst (Reachable.start KMemoryBlock.new) remap_first_valid hm,
    free_shared_valid, hm', ?_⟩
  rw [h0, h1, h2, h3]
  decide

end Ruzu.MemoryBlockCalls
