import Ruzu.Kernel.MemoryBlockState

/-!
# IPC locks on overlapping ranges

The lock count and the saved permission belong to pages; the disable-merge
count belongs to the block a lock starts at. The start of an outstanding lock
is therefore always the start of a block, which carries `IPC_LEFT`, and no
split or merge moves the count away from it. Unlocks in any order undo the
locks exactly.
-/

set_option autoImplicit false

namespace Ruzu.MemoryBlockIpc
open MemoryBlock MemoryBlockManager MemoryBlockTiling MemoryBlockCoalesce MemoryBlockUpdate
open MemoryBlockCalls MemoryBlockState Tiling
open KMemoryBlockManager
open KMemoryBlockDisableMergeAttribute (ipcLeft allLeft allRight)

/-- The assertions of `lock_for_ipc`, overflow of its two counters included. -/
def LockAsserts (b : KMemoryBlock) (left : Bool) : Prop :=
  (b.mAttribute &&& KMemoryAttribute.ipcLocked = KMemoryAttribute.ipcLocked ∨
    b.mIpcLockCount = 0) ∧ b.mIpcLockCount + 1 ≠ 0 ∧
  (b.mIpcLockCount + 1 = 1 → b.mOriginalPermission = KMemoryPermission.none) ∧
  (left = true → b.mIpcDisableMergeCount + 1 ≠ 0)

/-- The assertions of `unlock_for_ipc`, underflow of its two counters included. -/
def UnlockAsserts (b : KMemoryBlock) (left : Bool) : Prop :=
  b.mAttribute &&& KMemoryAttribute.ipcLocked = KMemoryAttribute.ipcLocked ∧
  b.mIpcLockCount ≠ 0 ∧
  (b.mIpcLockCount = 1 → b.mOriginalPermission ≠ KMemoryPermission.none) ∧
  (left = true → b.mIpcDisableMergeCount ≠ 0)

/-- `P` holds of every block the lock function is run on, with its first flag. -/
def LockedAll (P : KMemoryBlock → Bool → Prop) (lockFunc : LockFunction)
    (perm : KMemoryPermission) (count : ℕ) : List (ℕ × ℕ) → BTreeMap ℕ KMemoryBlock → Prop
  | [], _ => True
  | (key,i)::rest, tree =>
    (∀ b, tree.get key = some b → P b (i == 0)) ∧
    LockedAll P lockFunc perm count rest
      (tree.modify key (fun b => lockFunc b perm (i == 0) (i == count-1)))

/-- `P` holds wherever `update_lock` runs its lock function. -/
def UpdateLockAll (P : KMemoryBlock → Bool → Prop) (m : KMemoryBlockManager)
    (address numPages : ℕ) (perm : KMemoryPermission) (lockFunc : LockFunction) : Prop :=
  let updateEnd := address + numPages * pageSize
  let m := m.splitRange address updateEnd
  let keys := m.keysInRange address updateEnd
  LockedAll P lockFunc perm keys.length keys.zipIdx m.memoryBlockTree

/-- The number of outstanding locks that start at an address. -/
def starting (locks : List Held) (x : ℕ) : ℕ := locks.countP (fun r => r.1 = x)

/-- Merge counts and `IPC_LEFT` sit exactly at the starts of outstanding locks. -/
structure Marked (starts : ℕ → ℕ) (l : List Entry) : Prop where
  count : ∀ e ∈ l, e.2.mIpcDisableMergeCount.toNat = starts e.1
  left : ∀ e ∈ l, e.2.mDisableMergeAttribute &&& ipcLeft = 0 ↔ starts e.1 = 0
  present : ∀ x, starts x ≠ 0 → ∃ e ∈ l, e.1 = x

section Layout

variable {m m' : KMemoryBlockManager} {a stop : ℕ} {starts : ℕ → ℕ} {l l' : List Entry}
  {perm : KMemoryPermission} {lockFunc : LockFunction}

theorem marked_join (h : JoinStep l l') (hm : Marked starts l) : Marked starts l' := by
  cases h with
  | join pre post k a c n hcm =>
    simp only [KMemoryBlock.canMergeWith, Bool.and_eq_true, beq_iff_eq] at hcm
    -- the absorbed block has no left mark, so no lock starts at it
    have hn : n.mDisableMergeAttribute &&& ipcLeft = 0 := by
      have hsub : allLeft &&& ipcLeft = ipcLeft := by decide
      rw [← hsub, ← BitVec.and_assoc, hcm.2]
      exact BitVec.zero_and
    have ha : starts a = 0 := (hm.left (a,n) (by simp)).mp hn
    have hleft : (c.add n).mDisableMergeAttribute &&& ipcLeft =
        c.mDisableMergeAttribute &&& ipcLeft := by
      rw [KMemoryBlock.add, BitVec.and_comm, BitVec.and_or_distrib_left, BitVec.and_comm ipcLeft,
        BitVec.and_comm ipcLeft, hn]
      exact BitVec.or_zero
    refine ⟨fun e he => ?_, fun e he => ?_, fun x hx => ?_⟩
    · rcases List.mem_append.mp he with he | he
      · exact hm.count e (by simp [he])
      · rcases List.mem_cons.mp he with rfl | he
        · exact hm.count (k,c) (by simp)
        · exact hm.count e (by simp [he])
    · rcases List.mem_append.mp he with he | he
      · exact hm.left e (by simp [he])
      · rcases List.mem_cons.mp he with rfl | he
        · rw [hleft]
          exact hm.left (k,c) (by simp)
        · exact hm.left e (by simp [he])
    · obtain ⟨e, he, rfl⟩ := hm.present x hx
      simp only [List.mem_append, List.mem_cons] at he
      rcases he with he | rfl | rfl | he
      · exact ⟨e, by simp [he], rfl⟩
      · exact ⟨(k,c.add n), by simp, rfl⟩
      · exact absurd ha hx
      · exact ⟨e, by simp [he], rfl⟩

theorem marked_joins (h : Joins l l') (hm : Marked starts l) : Marked starts l' := by
  induction h with
  | refl => exact hm
  | tail _ hstep ih => exact marked_join hstep ih

theorem marked_split_at (h : Tiled m) (hs : m.mStartAddress ≤ a) (he : a ≤ m.mEndAddress)
    (hm : Marked starts m.memoryBlockTree.entries) :
    Marked starts (m.splitAt a).memoryBlockTree.entries := by
  rcases split_at_cases h hs he with ⟨heq, -⟩ | ⟨pre, k, b, post, hcut, hk, hlt, -, -, hcut'⟩
  · rwa [heq]
  · -- no lock starts inside a block
    have hb : (k,b) ∈ m.memoryBlockTree.entries := by simp [hcut]
    have ha : starts a = 0 := by
      by_contra hne
      obtain ⟨e, hmem, hea⟩ := hm.present a hne
      have hu := tiles_unique h.tiles hb hmem (p := a) ⟨hk.le, hlt⟩
        ⟨hea.le, hea ▸ (entry_bounds h (k := e.1) hmem).2.1⟩
      have : k = e.1 := congrArg Prod.fst hu
      omega
    have hkeep : ∀ e, e ∈ pre ∨ e ∈ post → e ∈ m.memoryBlockTree.entries := by
      intro e he
      rw [hcut]
      rcases he with he | he <;> simp [he]
    rw [hcut']
    refine ⟨fun e he => ?_, fun e he => ?_, fun x hx => ?_⟩
    · simp only [List.mem_append, List.mem_cons] at he
      rcases he with he | rfl | rfl | he
      · exact hm.count e (hkeep e (Or.inl he))
      · exact hm.count (k,b) hb
      · exact ha.symm
      · exact hm.count e (hkeep e (Or.inr he))
    · simp only [List.mem_append, List.mem_cons] at he
      rcases he with he | rfl | rfl | he
      · exact hm.left e (hkeep e (Or.inl he))
      · have hsub : allLeft &&& ipcLeft = ipcLeft := by decide
        have := hm.left (k,b) hb
        simpa [KMemoryBlock.split, BitVec.and_assoc, hsub] using this
      · have hsub : allRight &&& ipcLeft = 0 := by decide
        simp [KMemoryBlock.split, BitVec.and_assoc, hsub, ha]
      · exact hm.left e (hkeep e (Or.inr he))
    · obtain ⟨e, hmem, rfl⟩ := hm.present x hx
      rw [hcut] at hmem
      simp only [List.mem_append, List.mem_cons] at hmem
      rcases hmem with hmem | rfl | hmem
      · exact ⟨e, by simp [hmem], rfl⟩
      · exact ⟨(k,(b.split a).1), by simp, rfl⟩
      · exact ⟨e, by simp [hmem], rfl⟩

theorem marked_split_range (h : Tiled m) (hs : m.mStartAddress ≤ a) (has : a ≤ stop)
    (he : stop ≤ m.mEndAddress) (hal : a % pageSize = 0)
    (hm : Marked starts m.memoryBlockTree.entries) :
    Marked starts (m.splitRange a stop).memoryBlockTree.entries := by
  have h₁ := split_at_same h hs (by omega) hal
  have hstart := h₁.start_eq
  have hend := h₁.end_eq
  exact marked_split_at h₁.tiled (by omega) (by omega) (marked_split_at h hs (by omega) hm)

/-- An entry after the lock function, given its position in the range. -/
def lockEntry (lockFunc : LockFunction) (perm : KMemoryPermission) (count : ℕ)
    (x : Entry × ℕ) : Entry :=
  (x.1.1, lockFunc x.1.2 perm (x.2 == 0) (x.2 == count-1))

theorem lock_keys_cut (count i : ℕ) (pre seg post : List Entry) {t : BTreeMap ℕ KMemoryBlock}
    (hcut : t.entries = pre ++ seg ++ post) :
    (lockKeys lockFunc perm count ((seg.map Prod.fst).zipIdx i) t).entries =
      pre ++ (seg.zipIdx i).map (lockEntry lockFunc perm count) ++ post := by
  induction seg generalizing pre i t with
  | nil => simpa [lockKeys] using hcut
  | cons e seg ih =>
    have hcut₀ : t.entries = pre ++ (e.1,e.2) :: (seg ++ post) := by simpa using hcut
    have hcut₁ := BTreeMap.modify_cut (fun b => lockFunc b perm (i == 0) (i == count-1)) hcut₀
    rw [List.map_cons, List.zipIdx_cons, lockKeys,
      ih (i+1) (pre ++ [lockEntry lockFunc perm count (e,i)]) (by simpa [lockEntry] using hcut₁)]
    simp [List.zipIdx_cons]

theorem locked_all (P : KMemoryBlock → Bool → Prop) (count i : ℕ) (pre seg post : List Entry)
    {t : BTreeMap ℕ KMemoryBlock} (hcut : t.entries = pre ++ seg ++ post)
    (hP : ∀ x ∈ seg.zipIdx i, P x.1.2 (x.2 == 0)) :
    LockedAll P lockFunc perm count ((seg.map Prod.fst).zipIdx i) t := by
  induction seg generalizing pre i t with
  | nil => trivial
  | cons e seg ih =>
    have hcut₀ : t.entries = pre ++ (e.1,e.2) :: (seg ++ post) := by simpa using hcut
    have hcut₁ := BTreeMap.modify_cut (fun b => lockFunc b perm (i == 0) (i == count-1)) hcut₀
    refine ⟨fun b hb => ?_, ih (i+1) (pre ++ [lockEntry lockFunc perm count (e,i)])
      (by simpa [lockEntry] using hcut₁) fun x hx => hP x (by simp [List.zipIdx_cons, hx])⟩
    rw [BTreeMap.get_cut hcut₀] at hb
    cases hb
    exact hP (e,i) (by simp [List.zipIdx_cons])

/-- `update_lock` as a whole: the blocks of the range are a stretch of the
tree after the two splits, they are edited in place, and then blocks merge. -/
theorem update_lock_layout {n : ℕ} (h : Tiled m) (hr : InRange m a n)
    {f : PageProperties → PageProperties}
    (hc : ∀ left right, ActsOnPages (fun x => lockFunc x perm left right) f) :
    ∃ pre seg post m',
      (m.splitRange a (a + n * pageSize)).memoryBlockTree.entries = pre ++ seg ++ post ∧
      Tiles Prod.fst entryStop a (a + n * pageSize) seg ∧
      SamePages m (m.splitRange a (a + n * pageSize)) ∧
      m.updateLock a n perm lockFunc = some m' ∧
      Joins (pre ++ seg.zipIdx.map (lockEntry lockFunc perm seg.length) ++ post)
        m'.memoryBlockTree.entries ∧
      ∀ P : KMemoryBlock → Bool → Prop, (∀ x ∈ seg.zipIdx, P x.1.2 (x.2 == 0)) →
        UpdateLockAll P m a n perm lockFunc := by
  have hal := hr.aligned
  have hlo := hr.start_le
  have hhi := hr.le_end
  have hpos : 0 < n * pageSize := Nat.mul_pos hr.nonempty (by simp [pageSize])
  obtain ⟨hsame, -, pre, seg, post, hcut, hseg, hkeys⟩ :=
    split_range_spec (R := fun _ _ => True)
    (a + n * pageSize) h hlo (by omega) hhi hal
    (by simp only [pageSize] at hal ⊢; omega)
  obtain ⟨hrw, -⟩ := lock_keys_spec (R := fun _ _ => True) lockFunc perm
    (seg.map Prod.fst).length 0 seg hsame.tiled hc (fun _ _ _ => trivial) hseg (fun e he => by simp [hcut, he])
  have hstart := hrw.start_eq.trans hsame.start_eq
  have hend := hrw.end_eq.trans hsame.end_eq
  obtain ⟨m', hco, -, hjoins, -⟩ := coalesce_spec a n hrw.tiled (by rw [hstart]; exact hlo)
    (by rw [hend]; omega)
  rw [lock_keys_cut _ 0 pre seg post hcut, List.length_map] at hjoins
  refine ⟨pre, seg, post, m', hcut, hseg, hsame, ?_, hjoins, fun P hP => ?_⟩
  · rw [← hkeys] at hco
    exact hco
  · simp only [UpdateLockAll, hkeys]
    exact locked_all P _ 0 pre seg post hcut hP

/-- A lock function that touches the mark of the first block only moves the
marks of the tree at the start of the range. -/
theorem marked_lock (lockFunc : LockFunction) (perm : KMemoryPermission) {starts' : ℕ → ℕ}
    {t : BTreeMap ℕ KMemoryBlock} {pre seg post : List Entry} {x : KMemoryBlock} (count : ℕ) (hcut : t.entries = pre ++ (a,x)::seg ++ post)
    (hm : Marked starts t.entries) (hs : ∀ y, y ≠ a → starts' y = starts y)
    (hfirst : ∀ last, (lockFunc x perm true last).mIpcDisableMergeCount.toNat = starts' a ∧
      ((lockFunc x perm true last).mDisableMergeAttribute &&& ipcLeft = 0 ↔ starts' a = 0))
    (hrest : ∀ b last, (lockFunc b perm false last).mIpcDisableMergeCount =
      b.mIpcDisableMergeCount ∧ (lockFunc b perm false last).mDisableMergeAttribute &&& ipcLeft =
      b.mDisableMergeAttribute &&& ipcLeft) :
    Marked starts' (pre ++ ((a,x)::seg).zipIdx.map (lockEntry lockFunc perm count) ++ post) := by
  have hcut' : t.entries = pre ++ (a,x) :: (seg ++ post) := by simpa using hcut
  have hside : ∀ e, e ∈ pre ∨ e ∈ seg ∨ e ∈ post → e ∈ t.entries ∧ starts' e.1 = starts e.1 := by
    intro e he
    have hne : e.1 ≠ a := by
      rcases he with he | he | he
      · exact (BTreeMap.cut_below hcut' e he).ne
      · exact (BTreeMap.cut_above hcut' e (by simp [he])).ne'
      · exact (BTreeMap.cut_above hcut' e (by simp [he])).ne'
    refine ⟨?_, hs e.1 hne⟩
    rw [hcut]
    rcases he with he | he | he <;> simp [he]
  have hlater : ∀ y ∈ seg.zipIdx 1, y.1 ∈ seg ∧ (y.2 == 0) = false := by
    intro y hy
    have hle := List.le_snd_of_mem_zipIdx hy
    exact ⟨List.fst_mem_of_mem_zipIdx hy, by simpa using by omega⟩
  rw [List.zipIdx_cons, List.map_cons]
  simp only [Nat.zero_add]
  have hcases : ∀ e ∈ pre ++ lockEntry lockFunc perm count ((a,x),0) ::
      (seg.zipIdx 1).map (lockEntry lockFunc perm count) ++ post,
      (e ∈ pre ∨ e ∈ post) ∨ e = lockEntry lockFunc perm count ((a,x),0) ∨
      ∃ y ∈ seg.zipIdx 1, e = lockEntry lockFunc perm count y := by
    intro e he
    simp only [List.mem_append, List.mem_cons, List.mem_map] at he
    rcases he with (he | he | ⟨y, hy, he⟩) | he
    · exact Or.inl (Or.inl he)
    · exact Or.inr (Or.inl he)
    · exact Or.inr (Or.inr ⟨y, hy, he.symm⟩)
    · exact Or.inl (Or.inr he)
  refine ⟨fun e he => ?_, fun e he => ?_, fun y hy => ?_⟩
  · rcases hcases e he with he | rfl | ⟨y, hy, rfl⟩
    · obtain ⟨hmem, heq⟩ := hside e (by tauto)
      rw [heq]
      exact hm.count e hmem
    · exact (hfirst _).1
    · obtain ⟨hseg, hz⟩ := hlater y hy
      obtain ⟨hmem, heq⟩ := hside y.1 (by tauto)
      simp only [lockEntry, hz, heq, (hrest _ _).1]
      exact hm.count y.1 hmem
  · rcases hcases e he with he | rfl | ⟨y, hy, rfl⟩
    · obtain ⟨hmem, heq⟩ := hside e (by tauto)
      rw [heq]
      exact hm.left e hmem
    · exact (hfirst _).2
    · obtain ⟨hseg, hz⟩ := hlater y hy
      obtain ⟨hmem, heq⟩ := hside y.1 (by tauto)
      simp only [lockEntry, hz, heq, (hrest _ _).2]
      exact hm.left y.1 hmem
  · by_cases hya : y = a
    · exact ⟨lockEntry lockFunc perm count ((a,x),0), by simp, hya.symm⟩
    · rw [hs y hya] at hy
      obtain ⟨e, hmem, rfl⟩ := hm.present y hy
      rw [hcut'] at hmem
      simp only [List.mem_append, List.mem_cons] at hmem
      rcases hmem with hmem | rfl | hmem | hmem
      · exact ⟨e, by simp [hmem], rfl⟩
      · exact absurd rfl hya
      · obtain ⟨i, hi⟩ := List.getElem?_of_mem hmem
        have hz : (e,1+i) ∈ seg.zipIdx 1 := List.mk_add_mem_zipIdx_iff_getElem?.mpr hi
        exact ⟨lockEntry lockFunc perm count (e,1+i), List.mem_append_left _
          (List.mem_append_right _ (List.mem_cons_of_mem _ (List.mem_map_of_mem hz))), rfl⟩
      · exact ⟨e, by simp [hmem], rfl⟩

end Layout

section Page

/-- A page of `n` outstanding locks, against the page before any of them. -/
structure PageLocked (n : ℕ) (q₀ q : PageProperties) : Prop where
  count : q.mIpcLockCount.toNat = n
  state : q.mMemoryState = q₀.mMemoryState
  device : q.mDeviceUseCount = q₀.mDeviceUseCount
  unlocked : n = 0 → q = q₀
  saved : 0 < n → q.mOriginalPermission = q₀.mPermission ∧
    q.mAttribute = q₀.mAttribute ||| KMemoryAttribute.ipcLocked

/-- No trace of an IPC lock on a page. -/
structure PageFree (q : PageProperties) : Prop where
  count : q.mIpcLockCount = 0
  original : q.mOriginalPermission = KMemoryPermission.none
  bit : q.mAttribute &&& KMemoryAttribute.ipcLocked = 0

variable {n : ℕ} {q₀ q : PageProperties}

theorem page_lock (perm : KMemoryPermission) (h : PageLocked n q₀ q)
    (hn : n + 1 < 2^16) : PageLocked (n+1) q₀ (PageProperties.lockForIpc perm q) := by
  have hne : q.mIpcLockCount + 1 ≠ 0 := by
    intro hz
    have h1 : (1 : BitVec 16).toNat = 1 := rfl
    have := congrArg BitVec.toNat hz
    rw [BitVec.toNat_add, h1, h.count] at this
    simp at this
    omega
  have hc := count_succ hne
  rw [h.count] at hc
  refine ⟨hc, h.state, h.device, fun hz => absurd hz (by omega), fun _ => ?_⟩
  by_cases hz : n = 0
  · have hfirst : q.mIpcLockCount + 1 = 1 := count_eq_one.mpr (by omega)
    have hq := h.unlocked hz
    simp only [PageProperties.lockForIpc, hfirst, if_true]
    rw [hq]
    exact ⟨rfl, rfl⟩
  · have hfirst : q.mIpcLockCount + 1 ≠ 1 := by
      rw [Ne, count_eq_one]
      omega
    obtain ⟨ho, ha⟩ := h.saved (by omega)
    simp only [PageProperties.lockForIpc, if_neg hfirst]
    refine ⟨ho, ?_⟩
    rw [ha, BitVec.or_assoc, BitVec.or_self]

theorem page_unlock (hf : PageFree q₀) (h : PageLocked (n+1) q₀ q) :
    PageLocked n q₀ (PageProperties.unlockForIpc q) := by
  obtain ⟨ho, ha⟩ := h.saved (by omega)
  have hc := count_pred h.count
  refine ⟨hc, h.state, h.device, fun hz => ?_, fun hz => ?_⟩
  · have hlast : q.mIpcLockCount = 1 := count_eq_one.mpr (by rw [h.count]; omega)
    have hattr : (q₀.mAttribute ||| KMemoryAttribute.ipcLocked) &&&
        ~~~KMemoryAttribute.ipcLocked = q₀.mAttribute := by
      ext i hi
      have hb := congrArg (fun v : BitVec 8 => v[i]) hf.bit
      simp only [BitVec.getElem_and] at hb
      simp only [BitVec.getElem_and, BitVec.getElem_or, BitVec.getElem_not]
      revert hb
      cases q₀.mAttribute[i] <;> cases KMemoryAttribute.ipcLocked[i] <;> simp
    have hz1 : (1 : BitVec 16) - 1 = 0 := by decide
    simp only [PageProperties.unlockForIpc, hlast, if_true, ho, ha, hattr, hz1]
    ext <;> simp [h.state, h.device, hf.original, hf.count]
  · have hlast : q.mIpcLockCount ≠ 1 := by
      rw [Ne, count_eq_one, h.count]
      omega
    simp only [PageProperties.unlockForIpc, if_neg hlast]
    exact ⟨ho, ha⟩

end Page

/-- No trace of an IPC lock anywhere: no locked page, and no mark on a block. -/
structure IpcFree (m : KMemoryBlockManager) : Prop where
  tiled : Tiled m
  page : ∀ p q, pageAt m p = some q → PageFree q
  mark : ∀ e ∈ m.memoryBlockTree.entries, e.2.mIpcDisableMergeCount = 0 ∧
    e.2.mDisableMergeAttribute &&& ipcLeft = 0

/-- What a lock may name: a range inside the region whose pages have a
non-empty permission of their own, with fewer than `2 ^ 16` locks in all. -/
structure Lockable (m₀ : KMemoryBlockManager) (locks : List Held) (r : Held) : Prop where
  inside : r.Inside m₀.mStartAddress m₀.mEndAddress
  permission : ∀ p q, coversPage p r = true → pageAt m₀ p = some q →
    q.mPermission ≠ KMemoryPermission.none
  bound : locks.length + 1 < 2^16

inductive IpcRun (m₀ : KMemoryBlockManager) : KMemoryBlockManager → List Held → Prop
  | start : IpcRun m₀ m₀ []
  | lock {m m' : KMemoryBlockManager} {locks : List Held} (r : Held) (perm : KMemoryPermission)
      (h : IpcRun m₀ m locks) (hr : Lockable m₀ locks r)
      (hrun : (lockCall r perm).run m = some m') : IpcRun m₀ m' (r::locks)
  | unlock {m m' : KMemoryBlockManager} {locks : List Held} (r : Held)
      (perm : KMemoryPermission) (h : IpcRun m₀ m locks) (hr : r ∈ locks)
      (hrun : (unlockCall r perm).run m = some m') : IpcRun m₀ m' (locks.erase r)

structure Balanced (m₀ m : KMemoryBlockManager) (locks : List Held) : Prop where
  tiled : Tiled m
  start_eq : m.mStartAddress = m₀.mStartAddress
  end_eq : m.mEndAddress = m₀.mEndAddress
  page : ∀ p q, pageAt m p = some q →
    ∃ q₀, pageAt m₀ p = some q₀ ∧ PageLocked (holding locks p) q₀ q
  marked : Marked (starting locks) m.memoryBlockTree.entries
  inside : ∀ r ∈ locks, r.Inside m₀.mStartAddress m₀.mEndAddress
  permission : ∀ r ∈ locks, ∀ p q, coversPage p r = true → pageAt m₀ p = some q →
    q.mPermission ≠ KMemoryPermission.none
  bound : locks.length < 2^16

section Step

variable {m₀ m m' : KMemoryBlockManager} {locks : List Held} {r : Held} {starts starts' : ℕ → ℕ}

theorem starting_cons (r : Held) (locks : List Held) :
    starting (r::locks) r.1 = starting locks r.1 + 1 ∧
    ∀ y, y ≠ r.1 → starting (r::locks) y = starting locks y := by
  refine ⟨by simp [starting], fun y hy => ?_⟩
  simp [starting, hy.symm]

theorem starting_erase (hr : r ∈ locks) : starting locks r.1 = starting (locks.erase r) r.1 + 1 ∧
    ∀ y, y ≠ r.1 → starting (locks.erase r) y = starting locks y := by
  have hp : ∀ y, starting locks y = starting (r::locks.erase r) y := fun y =>
    (List.perm_cons_erase hr).countP_eq _
  obtain ⟨h1, h2⟩ := starting_cons r (locks.erase r)
  exact ⟨(hp r.1).trans h1, fun y hy => ((hp y).trans (h2 y hy)).symm⟩

theorem starting_le (locks : List Held) (x : ℕ) : starting locks x ≤ locks.length :=
  List.countP_le_length

theorem holding_le (locks : List Held) (p : ℕ) : holding locks p ≤ locks.length :=
  List.countP_le_length

/-- A lock function on a range: the call returns, its assertions hold on
every block of the range, and the marks move as they do on the first block. -/
theorem ipc_call {P : KMemoryBlock → Bool → Prop} (f : LockFunc) (perm : KMemoryPermission)
    (h : Tiled m)
    (hm : Marked starts m.memoryBlockTree.entries)
    (hin : r.Inside m.mStartAddress m.mEndAddress) (hs : ∀ y, y ≠ r.1 → starts' y = starts y)
    (hfirst : ∀ x : KMemoryBlock, x.mIpcDisableMergeCount.toNat = starts r.1 →
      (x.mDisableMergeAttribute &&& ipcLeft = 0 ↔ starts r.1 = 0) →
      ∀ last, (f.run x perm true last).mIpcDisableMergeCount.toNat = starts' r.1 ∧
        ((f.run x perm true last).mDisableMergeAttribute &&& ipcLeft = 0 ↔ starts' r.1 = 0))
    (hrest : ∀ b last, (f.run b perm false last).mIpcDisableMergeCount =
      b.mIpcDisableMergeCount ∧ (f.run b perm false last).mDisableMergeAttribute &&& ipcLeft =
      b.mDisableMergeAttribute &&& ipcLeft)
    (hP : ∀ (b : KMemoryBlock) (p : ℕ) (left : Bool), coversPage p r = true →
      pageAt m p = some b.pageProperties →
      (left = true → b.mIpcDisableMergeCount.toNat = starts r.1) → P b left) :
    ∃ m', (Call.updateLock r.1 r.2 perm f).run m = some m' ∧
      UpdateLockAll P m r.1 r.2 perm f.run ∧ Marked starts' m'.memoryBlockTree.entries ∧
      Rewritten m m' r.1 r.stop (f.change perm) := by
  obtain ⟨hal, hn, hlo, hhi⟩ := hin
  have hr : InRange m r.1 r.2 := ⟨hal, hn, hlo, hhi⟩
  have hpos : 0 < r.2 * pageSize := Nat.mul_pos hn (by simp [pageSize])
  obtain ⟨m'', hrun, hw, -⟩ := update_lock_spec (R := fun _ _ => True) h hr (f.acts perm)
    fun _ _ _ => trivial
  obtain ⟨pre, seg, post, m', hcut, hseg, hsame, hrun', hjoins, hall⟩ :=
    update_lock_layout h hr (f.acts perm)
  rw [hrun] at hrun'
  cases hrun'
  have hmark := marked_split_range h hlo (by omega : r.1 ≤ r.1 + r.2 * pageSize) hhi hal hm
  cases seg with
  | nil =>
    have hst : r.1 = r.1 + r.2 * pageSize := hseg
    omega
  | cons e seg =>
    obtain ⟨k, x⟩ := e
    have hk : k = r.1 := hseg.1
    subst hk
    have hx := hmark.count (r.1,x) (by simp [hcut])
    have hxl := hmark.left (r.1,x) (by simp [hcut])
    have hmark' := marked_lock f.run perm ((r.1,x)::seg).length hcut hmark hs (hfirst x hx hxl)
      hrest
    refine ⟨m'', hrun, hall P fun y hy => ?_, marked_joins hjoins hmark', hw⟩
    have hmem := List.fst_mem_of_mem_zipIdx hy
    have hb := tiles_mem hseg hmem
    have hent : y.1 ∈ (m.splitRange r.1 (r.1 + r.2 * pageSize)).memoryBlockTree.entries := by
      rw [hcut]
      simp only [List.mem_append]
      exact Or.inl (Or.inr hmem)
    refine hP y.1.2 y.1.1 _ ?_ ?_ fun hleft => ?_
    · have hlt : y.1.1 < r.stop := Nat.lt_of_lt_of_le hb.2.1 hb.2.2
      simp [coversPage, hb.1, hlt]
    · rw [← hsame.page]
      exact page_at_located hsame.tiled hent (le_refl _) hb.2.1
    · have hidx := List.mem_zipIdx_iff_getElem?.mp hy
      have hzero : y.2 = 0 := by simpa using hleft
      rw [hzero] at hidx
      have hy1 : (r.1,x) = y.1 := by simpa using hidx
      rw [← hy1]
      exact hx

theorem succ_ne_zero {c : BitVec 16} (h : c.toNat + 1 < 2^16) : c + 1 ≠ 0 := by
  intro hz
  have h1 : (1 : BitVec 16).toNat = 1 := rfl
  have hs := congrArg BitVec.toNat hz
  rw [BitVec.toNat_add, h1, Nat.mod_eq_of_lt h] at hs
  exact absurd hs (Nat.succ_ne_zero _)

theorem bit_set (z : BitVec 8) : (z ||| ipcLeft) &&& ipcLeft ≠ 0 := by
  rw [bit_of_or_right]
  decide

theorem bit_cleared (z : BitVec 8) :
    (z &&& KMemoryBlockDisableMergeAttribute.complement ipcLeft) &&& ipcLeft = 0 := by
  have hsub : KMemoryBlockDisableMergeAttribute.complement ipcLeft &&& ipcLeft = 0 := by decide
  rw [BitVec.and_assoc, hsub]
  exact BitVec.and_zero

theorem lock_asserts {b : KMemoryBlock} {left : Bool} {n : ℕ} {q₀ : PageProperties}
    (hf : PageFree q₀) (h : PageLocked n q₀ b.pageProperties) (hn : n + 1 < 2^16)
    (hl : left = true → b.mIpcDisableMergeCount.toNat + 1 < 2^16) : LockAsserts b left := by
  have hc : b.mIpcLockCount.toNat = n := h.count
  refine ⟨?_, succ_ne_zero (by omega), fun hone => ?_, fun hleft => succ_ne_zero (hl hleft)⟩
  · by_cases hz : n = 0
    · exact Or.inr (BitVec.eq_of_toNat_eq (hc.trans hz))
    · have ha : b.mAttribute = q₀.mAttribute ||| KMemoryAttribute.ipcLocked :=
        (h.saved (by omega)).2
      exact Or.inl (by rw [ha]; exact bit_of_or_right _)
  · have hz : n = 0 := by
      have h1 := count_succ (succ_ne_zero (by omega : b.mIpcLockCount.toNat + 1 < 2^16))
      rw [count_eq_one.mp hone] at h1
      omega
    have ho : b.mOriginalPermission = q₀.mOriginalPermission :=
      congrArg PageProperties.mOriginalPermission (h.unlocked hz)
    rw [ho, hf.original]

theorem unlock_asserts {b : KMemoryBlock} {left : Bool} {n : ℕ} {q₀ : PageProperties}
    (h : PageLocked (n+1) q₀ b.pageProperties) (hp : q₀.mPermission ≠ KMemoryPermission.none)
    (hl : left = true → 0 < b.mIpcDisableMergeCount.toNat) : UnlockAsserts b left := by
  have hc : b.mIpcLockCount.toNat = n + 1 := h.count
  obtain ⟨ho, ha⟩ := h.saved (Nat.succ_pos n)
  have ho' : b.mOriginalPermission = q₀.mPermission := ho
  have ha' : b.mAttribute = q₀.mAttribute ||| KMemoryAttribute.ipcLocked := ha
  refine ⟨by rw [ha']; exact bit_of_or_right _, fun hz => ?_, fun _ => by rwa [ho'],
    fun hleft hz => ?_⟩
  · rw [hz] at hc
    exact absurd hc (Nat.succ_ne_zero n).symm
  · have := hl hleft
    rw [hz] at this
    exact absurd this (Nat.lt_irrefl 0)

theorem lock_step (h₀ : IpcFree m₀) (h : Balanced m₀ m locks) (hr : Lockable m₀ locks r)
    (perm : KMemoryPermission) : ∃ m', (lockCall r perm).run m = some m' ∧
      UpdateLockAll LockAsserts m r.1 r.2 perm KMemoryBlock.lockForIpc ∧
      Balanced m₀ m' (r::locks) := by
  have hbound := hr.bound
  obtain ⟨hsame, hother⟩ := starting_cons r locks
  have hle := starting_le locks r.1
  obtain ⟨m', hrun, hall, hmark, hw⟩ := ipc_call (P := LockAsserts)
    LockFunc.lockForIpc perm h.tiled h.marked (by rw [h.start_eq, h.end_eq]; exact hr.inside) hother
    (fun x hx _ last => by
      refine ⟨?_, ?_⟩
      · show (x.mIpcDisableMergeCount + 1).toNat = _
        rw [count_succ (succ_ne_zero (by omega)), hx, hsame]
      · show (x.mDisableMergeAttribute ||| ipcLeft) &&& ipcLeft = 0 ↔ _
        rw [hsame]
        exact iff_of_false (bit_set _) (Nat.succ_ne_zero _))
    (fun b last => ⟨rfl, rfl⟩)
    (fun b p left hp hq hleft => by
      obtain ⟨q₀, hq₀, hl⟩ := h.page p _ hq
      have hle' := holding_le locks p
      refine lock_asserts (h₀.page p q₀ hq₀) hl (by omega) fun hl' => ?_
      rw [hleft hl']
      omega)
  refine ⟨m', hrun, hall, hw.tiled, hw.start_eq.trans h.start_eq, hw.end_eq.trans h.end_eq,
    fun p q' hq' => ?_, hmark, ?_, ?_, by simpa using hbound⟩
  · rw [hw.page] at hq'
    by_cases hp : coversPage p r = true
    · rw [if_pos (by simpa [coversPage] using hp)] at hq'
      obtain ⟨q, hq, rfl⟩ := Option.map_eq_some_iff.mp hq'
      obtain ⟨q₀, hq₀, hl⟩ := h.page p q hq
      have hle' := holding_le locks p
      rw [holding_cons_over _ hp]
      exact ⟨q₀, hq₀, page_lock perm hl (by omega)⟩
    · rw [if_neg (by simpa [coversPage] using hp)] at hq'
      rw [holding_cons_away _ (by simpa using hp)]
      exact h.page p q' hq'
  · intro x hx
    rcases List.mem_cons.mp hx with rfl | hx
    · exact hr.inside
    · exact h.inside x hx
  · intro x hx
    rcases List.mem_cons.mp hx with rfl | hx
    · exact hr.permission
    · exact h.permission x hx

theorem unlock_step (h₀ : IpcFree m₀) (h : Balanced m₀ m locks) (hr : r ∈ locks)
    (perm : KMemoryPermission) : ∃ m', (unlockCall r perm).run m = some m' ∧
      UpdateLockAll UnlockAsserts m r.1 r.2 perm KMemoryBlock.unlockForIpc ∧
      Balanced m₀ m' (locks.erase r) := by
  obtain ⟨hsame, hother⟩ := starting_erase hr
  obtain ⟨m', hrun, hall, hmark, hw⟩ := ipc_call (P := UnlockAsserts)
    LockFunc.unlockForIpc perm h.tiled h.marked
    (by rw [h.start_eq, h.end_eq]; exact h.inside r hr) hother
    (fun x hx hxl last => by
      refine ⟨count_pred (hx.trans hsame), ?_⟩
      show (if (true && x.mIpcDisableMergeCount == 1) then x.mDisableMergeAttribute &&&
        KMemoryBlockDisableMergeAttribute.complement ipcLeft else x.mDisableMergeAttribute) &&&
        ipcLeft = 0 ↔ _
      by_cases hone : x.mIpcDisableMergeCount = 1
      · have hz : starting (locks.erase r) r.1 = 0 := by
          rw [count_eq_one] at hone
          omega
        rw [if_pos (by simpa using hone)]
        exact iff_of_true (bit_cleared _) hz
      · have hz : starting (locks.erase r) r.1 ≠ 0 := by
          rw [count_eq_one] at hone
          omega
        rw [if_neg (by simpa using hone), hxl]
        exact iff_of_false (by omega) hz)
    (fun b last => ⟨rfl, rfl⟩)
    (fun b p left hp hq hleft => by
      obtain ⟨q₀, hq₀, hl⟩ := h.page p _ hq
      rw [holding_erase_over hr hp] at hl
      refine unlock_asserts hl (h.permission r hr p q₀ hp hq₀) fun hl' => ?_
      rw [hleft hl']
      omega)
  refine ⟨m', hrun, hall, hw.tiled, hw.start_eq.trans h.start_eq, hw.end_eq.trans h.end_eq,
    fun p q' hq' => ?_, hmark, fun x hx => h.inside x (List.mem_of_mem_erase hx),
    fun x hx => h.permission x (List.mem_of_mem_erase hx),
    Nat.lt_of_le_of_lt (List.length_erase_le) h.bound⟩
  rw [hw.page] at hq'
  by_cases hp : coversPage p r = true
  · rw [if_pos (by simpa [coversPage] using hp)] at hq'
    obtain ⟨q, hq, rfl⟩ := Option.map_eq_some_iff.mp hq'
    obtain ⟨q₀, hq₀, hl⟩ := h.page p q hq
    rw [holding_erase_over hr hp] at hl
    exact ⟨q₀, hq₀, page_unlock (h₀.page p q₀ hq₀) hl⟩
  · rw [if_neg (by simpa [coversPage] using hp)] at hq'
    rw [holding_erase_away hr (by simpa using hp)]
    exact h.page p q' hq'

theorem ipc_run_balanced (h₀ : IpcFree m₀) (h : IpcRun m₀ m locks) : Balanced m₀ m locks := by
  induction h with
  | start =>
    refine ⟨h₀.tiled, rfl, rfl, fun p q hq => ⟨q, hq, ?_⟩, ⟨fun e he => ?_, fun e he => ?_, ?_⟩,
      by simp, by simp, by simp⟩
    · refine ⟨?_, rfl, rfl, fun _ => rfl, fun hz => absurd hz (Nat.lt_irrefl 0)⟩
      rw [(h₀.page p q hq).count]
      rfl
    · rw [(h₀.mark e he).1]
      rfl
    · exact iff_of_true (h₀.mark e he).2 rfl
    · exact fun x hx => absurd rfl hx
  | lock r perm _ hr hrun ih =>
    obtain ⟨m'', hrun', -, hb⟩ := lock_step h₀ ih hr perm
    rw [hrun] at hrun'
    cases hrun'
    exact hb
  | unlock r perm _ hr hrun ih =>
    obtain ⟨m'', hrun', -, hb⟩ := unlock_step h₀ ih hr perm
    rw [hrun] at hrun'
    cases hrun'
    exact hb

/-- Locks and unlocks in any order: no assertion fails and no counter wraps,
the lock count of a page is the number of locks over it, and when none is
left every page and every mark is as it was. -/
theorem ipc_locks_balanced (h₀ : IpcFree m₀) (h : IpcRun m₀ m locks) :
    (∀ p q, pageAt m p = some q → q.mIpcLockCount.toNat = holding locks p) ∧
    (∀ r perm, Lockable m₀ locks r → ∃ m', (lockCall r perm).run m = some m' ∧
      UpdateLockAll LockAsserts m r.1 r.2 perm KMemoryBlock.lockForIpc) ∧
    (∀ r perm, r ∈ locks → ∃ m', (unlockCall r perm).run m = some m' ∧
      UpdateLockAll UnlockAsserts m r.1 r.2 perm KMemoryBlock.unlockForIpc) ∧
    (locks = [] → (∀ p, pageAt m p = pageAt m₀ p) ∧
      (∀ p q, pageAt m p = some q → q.mOriginalPermission = KMemoryPermission.none) ∧
      ∀ e ∈ m.memoryBlockTree.entries, e.2.mDisableMergeAttribute &&& ipcLeft = 0) := by
  have hb := ipc_run_balanced h₀ h
  refine ⟨fun p q hq => ?_, fun r perm hr => ?_, fun r perm hr => ?_, fun hnil => ?_⟩
  · obtain ⟨q₀, -, hl⟩ := hb.page p q hq
    exact hl.count
  · obtain ⟨m', hrun, hall, -⟩ := lock_step h₀ hb hr perm
    exact ⟨m', hrun, hall⟩
  · obtain ⟨m', hrun, hall, -⟩ := unlock_step h₀ hb hr perm
    exact ⟨m', hrun, hall⟩
  · subst hnil
    have hpage : ∀ p, pageAt m p = pageAt m₀ p := by
      intro p
      cases hq : pageAt m p with
      | some q =>
        obtain ⟨q₀, hq₀, hl⟩ := hb.page p q hq
        rw [hq₀, hl.unlocked rfl]
      | none =>
        -- both managers tile the same region
        have hn := page_at_value hb.tiled p
        have hn₀ := page_at_value h₀.tiled p
        have hiff := value_at_isSome (p := p) (fun e : Entry => e.2.pageProperties) hb.tiled.tiles
        have hiff₀ := value_at_isSome (p := p) (fun e : Entry => e.2.pageProperties) h₀.tiled.tiles
        rw [hb.start_eq, hb.end_eq, ← hiff₀, ← hn, ← hn₀, hq] at hiff
        exact (by simpa using hiff : pageAt m₀ p = none).symm
    refine ⟨hpage, fun p q hq => ?_, fun e he => (hb.marked.left e he).mpr rfl⟩
    rw [hpage p] at hq
    exact (h₀.page p q hq).original

end Step

section Free

variable {st nd : ℕ} {m m' : KMemoryBlockManager} {l l' : List Entry}

def Unmarked (b : KMemoryBlock) : Prop :=
  b.mIpcDisableMergeCount = 0 ∧ b.mDisableMergeAttribute &&& ipcLeft = 0

/-- A call that takes no IPC lock: it leaves unmarked blocks unmarked and
pages without a trace of a lock without one. -/
structure LockFree (c : Call) : Prop where
  block : c.Respects fun b b' => Unmarked b → Unmarked b'
  page : ∀ q, PageFree q → PageFree (c.change q)

theorem unmarked_edit {lo hi : ℕ}
    (h : EditStep (fun b b' => Unmarked b → Unmarked b') lo hi l l')
    (hl : ∀ e ∈ l, Unmarked e.2) : ∀ e ∈ l', Unmarked e.2 := by
  intro e he
  cases h with
  | divide pre post k a b _ _ =>
    have hb := hl (k,b) (by simp)
    have hleft : allLeft &&& ipcLeft = ipcLeft := by decide
    have hright : allRight &&& ipcLeft = 0 := by decide
    simp only [List.mem_append, List.mem_cons] at he
    rcases he with he | rfl | rfl | he
    · exact hl e (by simp [he])
    · refine ⟨hb.1, ?_⟩
      simp only [KMemoryBlock.split, BitVec.and_assoc, hleft]
      exact hb.2
    · refine ⟨rfl, ?_⟩
      simp [KMemoryBlock.split, BitVec.and_assoc, hright]
    · exact hl e (by simp [he])
  | rewrite pre post k b b' hR _ _ _ =>
    simp only [List.mem_append, List.mem_cons] at he
    rcases he with he | rfl | he
    · exact hl e (by simp [he])
    · exact hR (hl (k,b) (by simp))
    · exact hl e (by simp [he])

theorem unmarked_join (h : JoinStep l l') (hl : ∀ e ∈ l, Unmarked e.2) :
    ∀ e ∈ l', Unmarked e.2 := by
  intro e he
  cases h with
  | join pre post k a c n _ =>
    have hc := hl (k,c) (by simp)
    have hn := hl (a,n) (by simp)
    simp only [List.mem_append, List.mem_cons] at he
    rcases he with he | rfl | he
    · exact hl e (by simp [he])
    · refine ⟨hc.1, ?_⟩
      rw [KMemoryBlock.add, BitVec.and_comm, BitVec.and_or_distrib_left, BitVec.and_comm ipcLeft,
        BitVec.and_comm ipcLeft, hc.2, hn.2]
      exact BitVec.or_zero
    · exact hl e (by simp [he])

theorem unmarked_result {lo hi : ℕ} {l'' : List Entry}
    (hed : Edits (fun b b' => Unmarked b → Unmarked b') lo hi l l') (hjoins : Joins l' l'')
    (hl : ∀ e ∈ l, Unmarked e.2) : ∀ e ∈ l'', Unmarked e.2 := by
  have hedit : ∀ e ∈ l', Unmarked e.2 := by
    clear hjoins
    induction hed with
    | refl => exact hl
    | tail _ hstep ih => exact unmarked_edit hstep ih
  clear hed
  induction hjoins with
  | refl => exact hedit
  | tail _ hstep ih => exact unmarked_join hstep ih

theorem lock_free_call {c : Call} (hc : c.Valid m.mStartAddress m.mEndAddress)
    (hf : LockFree c) (h : IpcFree m) (hr : c.run m = some m') : IpcFree m' := by
  obtain ⟨m'', hr', hw, -, l, hed, hjoins⟩ := call_performs c h.tiled hc hf.block
  rw [hr] at hr'
  cases hr'
  refine ⟨hw.tiled, fun p q' hq' => ?_, ?_⟩
  · obtain ⟨q, hq, rfl⟩ := page_before (c := c) hw hq'
    split
    · exact hf.page q (h.page p q hq)
    · exact h.page p q hq
  · exact unmarked_result hed hjoins h.mark

theorem initialize_ipc_free (hst : st % pageSize = 0) (hnd : nd % pageSize = 0) (hlt : st < nd) :
    IpcFree (new.initializeManager st nd KMemoryBlock.new) := by
  refine ⟨initialize_tiled hst hnd hlt _, fun p q hq => ?_, fun e he => ?_⟩
  · rw [initialize_page hst hnd hlt _ hq]
    exact ⟨rfl, rfl, by decide⟩
  · rw [initialize_entries, List.mem_singleton] at he
    rw [he]
    exact ⟨rfl, BitVec.zero_and⟩

theorem clear_or {x y z : BitVec 8} (hx : x &&& z = 0) (hy : y &&& z = 0) :
    (x ||| y) &&& z = 0 := by
  rw [BitVec.and_comm, BitVec.and_or_distrib_left, BitVec.and_comm z, BitVec.and_comm z, hx, hy]
  exact BitVec.or_zero

theorem clear_and {x z : BitVec 8} (y : BitVec 8) (hx : x &&& z = 0) : (x &&& y) &&& z = 0 := by
  rw [BitVec.and_assoc, BitVec.and_comm y, ← BitVec.and_assoc, hx]
  exact BitVec.zero_and

/-- Updates that do not name the IPC bits take no lock. -/
theorem update_lock_free (a n : ℕ) (s : KMemoryState) (p : KMemoryPermission)
    (attr : KMemoryAttribute) (sd cd : KMemoryBlockDisableMergeAttribute)
    (hattr : attr &&& KMemoryAttribute.ipcLocked = 0) (hsd : sd &&& ipcLeft = 0) :
    LockFree (.update a n s p attr sd cd) := by
  refine ⟨fun b first hb => ⟨hb.1, ?_⟩, fun q hq => ?_⟩
  · show KMemoryBlock.updateDisableMerge _ _ _ _ &&& ipcLeft = 0
    unfold KMemoryBlock.updateDisableMerge
    split <;> split
    · exact clear_and _ (clear_or hb.2 (clear_and _ hsd))
    · exact clear_or hb.2 (clear_and _ hsd)
    · exact clear_and _ hb.2
    · exact hb.2
  · show PageFree (changeUpdate s p attr q)
    unfold changeUpdate
    split
    · exact hq
    · exact ⟨hq.count, hq.original, clear_or hattr (clear_and _ hq.bit)⟩

theorem lock_free_calls {calls : List Call} (hv : ∀ c ∈ calls, c.Valid st nd)
    (hf : ∀ c ∈ calls, LockFree c) (h : IpcFree m) (hs : m.mStartAddress = st)
    (he : m.mEndAddress = nd) (hr : calls.foldlM Call.run m = some m') : IpcFree m' := by
  induction calls generalizing m with
  | nil =>
    cases hr
    exact h
  | cons c calls ih =>
    rw [List.foldlM_cons] at hr
    obtain ⟨m₁, hr₁, hrest⟩ := Option.bind_eq_some_iff.mp hr
    have hc : c.Valid m.mStartAddress m.mEndAddress := by
      rw [hs, he]
      exact hv c (by simp)
    obtain ⟨m₂, hr₂, hw, -⟩ := call_performs c h.tiled hc (hf c (by simp)).block
    rw [hr₁] at hr₂
    cases hr₂
    exact ih (fun x hx => hv x (by simp [hx])) (fun x hx => hf x (by simp [hx]))
      (lock_free_call hc (hf c (by simp)) h hr₁) (hw.start_eq.trans hs) (hw.end_eq.trans he) hrest

/-- Every state that calls without IPC locks lead to is free of their traces. -/
theorem lock_free_reachable {calls : List Call} (hst : st % pageSize = 0)
    (hnd : nd % pageSize = 0) (hlt : st < nd) (hv : ∀ c ∈ calls, c.Valid st nd)
    (hf : ∀ c ∈ calls, LockFree c)
    (hr : calls.foldlM Call.run (new.initializeManager st nd KMemoryBlock.new) = some m) :
    IpcFree m :=
  lock_free_calls hv hf (initialize_ipc_free hst hnd hlt) rfl rfl hr

theorem ipc_locks_balanced_remap : ∃ m₀ m, remapFirst.run (new.initializeManager 0 8192
      KMemoryBlock.new) = some m₀ ∧ IpcRun m₀ m [(0,1)] ∧
    (∀ p q, pageAt m p = some q → q.mIpcLockCount.toNat = holding [(0,1)] p) ∧
    (∀ r perm, Lockable m₀ [(0,1)] r → ∃ m', (lockCall r perm).run m = some m' ∧
      UpdateLockAll LockAsserts m r.1 r.2 perm KMemoryBlock.lockForIpc) ∧
    (∀ r perm, r ∈ [((0,1) : Held)] → ∃ m', (unlockCall r perm).run m = some m' ∧
      UpdateLockAll UnlockAsserts m r.1 r.2 perm KMemoryBlock.unlockForIpc) ∧
    ([((0,1) : Held)] = [] → (∀ p, pageAt m p = pageAt m₀ p) ∧
      (∀ p q, pageAt m p = some q → q.mOriginalPermission = KMemoryPermission.none) ∧
      ∀ e ∈ m.memoryBlockTree.entries, e.2.mDisableMergeAttribute &&& ipcLeft = 0) := by
  have hfree := initialize_ipc_free (by decide : 0 % pageSize = 0) (by decide : 8192 % pageSize = 0)
    (by decide)
  obtain ⟨m₀, hr₀, hw, -⟩ := call_performs remapFirst hfree.tiled remap_first_valid
    (update_lock_free 0 1 _ _ _ 0 0 (by decide) (by decide)).block
  have h₀ := lock_free_call remap_first_valid
    (update_lock_free 0 1 _ _ _ 0 0 (by decide) (by decide)) hfree hr₀
  have hlock : Lockable m₀ [] (0,1) := by
    refine ⟨?_, fun p q hp hq => ?_, by decide⟩
    · rw [hw.start_eq, hw.end_eq]
      exact ⟨by decide, by decide, by decide, by decide⟩
    · obtain ⟨q₁, hq₁, rfl⟩ := page_before (c := remapFirst) hw hq
      have hp' : remapFirst.address ≤ p ∧ p < remapFirst.stop := by
        simpa [coversPage, remapFirst, Call.address, Call.stop, Call.numPages, Held.stop] using hp
      rw [initialize_page (by decide) (by decide) (by decide) _ hq₁, if_pos hp']
      decide
  have hstart := ipc_run_balanced h₀ IpcRun.start
  obtain ⟨m, hr, -, -⟩ := lock_step h₀ hstart hlock 0
  have hrun := IpcRun.lock (0,1) 0 IpcRun.start hlock hr
  exact ⟨m₀, m, hr₀, hrun, ipc_locks_balanced h₀ hrun⟩

end Free

end Ruzu.MemoryBlockIpc
