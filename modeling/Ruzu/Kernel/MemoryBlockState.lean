import Mathlib
import Ruzu.Kernel.MemoryBlockCalls

/-!
# `check_state` after every call

A run with matched locks and shares is followed by the two lists of ranges
that are still held. The counters of a page are the numbers of held ranges
over it, so a page whose counter is not zero carries its attribute bit; with
the merging pass leaving nothing to merge, `check_state` accepts the tree.
-/

set_option autoImplicit false

namespace Ruzu.MemoryBlockState
open MemoryBlock MemoryBlockManager MemoryBlockTiling MemoryBlockCoalesce MemoryBlockUpdate
open MemoryBlockCalls Tiling
open KMemoryBlockManager

/-- Address and number of pages of a range that is locked or shared. -/
abbrev Held := ℕ × ℕ

def Held.stop (r : Held) : ℕ := r.1 + r.2 * pageSize

def coversPage (p : ℕ) (r : Held) : Bool := r.1 ≤ p ∧ p < r.stop

/-- The number of held ranges over a page. -/
def holding (l : List Held) (p : ℕ) : ℕ := l.countP (coversPage p)

/-- The counters of a page and the attribute bits that go with them. -/
structure PageCounted (locks shares : ℕ) (q : PageProperties) : Prop where
  ipc : q.mIpcLockCount.toNat = locks
  device : q.mDeviceUseCount.toNat = shares
  ipcLocked : 0 < locks → q.mAttribute &&& KMemoryAttribute.ipcLocked = KMemoryAttribute.ipcLocked
  deviceShared : 0 < shares →
    q.mAttribute &&& KMemoryAttribute.deviceShared = KMemoryAttribute.deviceShared

section Bits

variable {x y z w : KMemoryAttribute}

theorem bit_of_or (h : x &&& y = y) : (x ||| z) &&& y = y := by
  rw [BitVec.and_comm, BitVec.and_or_distrib_left, BitVec.and_comm y x, h]
  ext i
  simp only [BitVec.getElem_or, BitVec.getElem_and]
  cases y[i] <;> simp

theorem bit_of_or_right (z : KMemoryAttribute) : (z ||| y) &&& y = y := by
  rw [BitVec.or_comm]
  exact bit_of_or BitVec.and_self

/-- Clearing a mask that misses the bit keeps it. -/
theorem bit_of_clear (h : x &&& y = y) (hz : z &&& y = 0) : (x &&& ~~~z) &&& y = y := by
  ext i
  have hx := congrArg (fun v => v[i]) h
  have hm := congrArg (fun v => v[i]) hz
  simp only [BitVec.getElem_and, BitVec.getElem_not] at hx hm ⊢
  revert hx hm
  cases x[i] <;> cases y[i] <;> cases z[i] <;> simp

theorem bit_of_carry (h : x &&& y = y) (hy : y &&& w = y) : (z ||| (x &&& w)) &&& y = y := by
  have hxw : (x &&& w) &&& y = y := by
    rw [BitVec.and_assoc, BitVec.and_comm w y, hy, h]
  rw [BitVec.or_comm]
  exact bit_of_or hxw

end Bits

section Page

variable {locks shares : ℕ} {q : PageProperties}

theorem set_counted (h : PageCounted locks shares q) (s : KMemoryState) (p : KMemoryPermission)
    (a : KMemoryAttribute) : PageCounted locks shares (q.set s p a) :=
  ⟨h.ipc, h.device, fun hl => bit_of_carry (h.ipcLocked hl) (by decide),
    fun hs => bit_of_carry (h.deviceShared hs) (by decide)⟩

theorem change_update_counted (h : PageCounted locks shares q) (s : KMemoryState)
    (p : KMemoryPermission) (a : KMemoryAttribute) :
    PageCounted locks shares (changeUpdate s p a q) := by
  unfold changeUpdate
  split
  · exact h
  · exact set_counted h s p a

theorem mask_misses {mask bit : KMemoryAttribute}
    (h : mask &&& KMemoryAttribute.attributeIgnoreMask = 0)
    (hb : KMemoryAttribute.attributeIgnoreMask &&& bit = bit) : mask &&& bit = 0 := by
  rw [← hb, ← BitVec.and_assoc, h]
  exact BitVec.zero_and

theorem change_attribute_counted (h : PageCounted locks shares q) {mask : KMemoryAttribute}
    (hm : mask &&& KMemoryAttribute.attributeIgnoreMask = 0) (attr : KMemoryAttribute) :
    PageCounted locks shares (changeAttribute mask attr q) :=
  ⟨h.ipc, h.device,
    fun hl => bit_of_or (bit_of_clear (h.ipcLocked hl) (mask_misses hm (by decide))),
    fun hs => bit_of_or (bit_of_clear (h.deviceShared hs) (mask_misses hm (by decide)))⟩

theorem count_succ {c : BitVec 16} (h : c + 1 ≠ 0) : (c + 1).toNat = c.toNat + 1 := by
  have hne : (c + 1).toNat ≠ 0 := fun hz => h (BitVec.eq_of_toNat_eq hz)
  have hlt := c.isLt
  have h1 : (1 : BitVec 16).toNat = 1 := rfl
  rw [BitVec.toNat_add, h1] at hne ⊢
  omega

theorem count_pred {c : BitVec 16} {n : ℕ} (h : c.toNat = n + 1) : (c - 1).toNat = n := by
  have hlt := c.isLt
  have h1 : (1 : BitVec 16).toNat = 1 := rfl
  rw [BitVec.toNat_sub, h1]
  omega

theorem count_eq_one {c : BitVec 16} : c = 1 ↔ c.toNat = 1 := by
  rw [← BitVec.toNat_inj]
  rfl

theorem lock_counted (h : PageCounted locks shares q) (perm : KMemoryPermission)
    (hc : q.mIpcLockCount + 1 ≠ 0) :
    PageCounted (locks+1) shares (PageProperties.lockForIpc perm q) :=
  ⟨by rw [← h.ipc]; exact count_succ hc, h.device, fun _ => bit_of_or_right _,
    fun hs => bit_of_or (h.deviceShared hs)⟩

theorem unlock_counted (h : PageCounted (locks+1) shares q) :
    PageCounted locks shares (PageProperties.unlockForIpc q) := by
  refine ⟨count_pred h.ipc, h.device, fun hl => ?_, fun hs => ?_⟩
  · have hne : q.mIpcLockCount ≠ 1 := by
      rw [Ne, count_eq_one, h.ipc]
      omega
    show (if q.mIpcLockCount = 1 then _ else q.mAttribute) &&& _ = _
    rw [if_neg hne]
    exact h.ipcLocked (by omega)
  · simp only [PageProperties.unlockForIpc]
    split
    · exact bit_of_clear (h.deviceShared hs) (by decide)
    · exact h.deviceShared hs

theorem share_counted (h : PageCounted locks shares q) (hc : q.mDeviceUseCount + 1 ≠ 0) :
    PageCounted locks (shares+1) (PageProperties.shareToDevice q) :=
  ⟨h.ipc, by rw [← h.device]; exact count_succ hc, fun hl => bit_of_or (h.ipcLocked hl),
    fun _ => bit_of_or_right _⟩

theorem unshare_counted (h : PageCounted locks (shares+1) q) :
    PageCounted locks shares (PageProperties.unshareToDevice q) := by
  refine ⟨h.ipc, count_pred h.device, fun hl => ?_, fun hs => ?_⟩
  · simp only [PageProperties.unshareToDevice]
    split
    · exact bit_of_clear (h.ipcLocked hl) (by decide)
    · exact h.ipcLocked hl
  · have hne : q.mDeviceUseCount ≠ 1 := by
      rw [Ne, count_eq_one, h.device]
      omega
    show (if q.mDeviceUseCount = 1 then _ else q.mAttribute) &&& _ = _
    rw [if_neg hne]
    exact h.deviceShared (by omega)

end Page

/-- The three calls that edit pages without a lock function. -/
def Call.Edit : Call → Prop
  | .updateLock .. => False
  | _ => True

def lockCall (r : Held) (perm : KMemoryPermission) : Call := .updateLock r.1 r.2 perm .lockForIpc
def unlockCall (r : Held) (perm : KMemoryPermission) : Call :=
  .updateLock r.1 r.2 perm .unlockForIpc
def shareCall (r : Held) (perm : KMemoryPermission) : Call :=
  .updateLock r.1 r.2 perm .shareToDevice
def unshareCall (r : Held) (perm : KMemoryPermission) : Call :=
  .updateLock r.1 r.2 perm .unshareToDevice

/-- Runs in which an unlock or unshare names a range that is still held, and a
counter is not taken past its 16 bits (the assertion after each increment). -/
inductive Matched (st nd : ℕ) : KMemoryBlockManager → List Held → List Held → Prop
  | start (startBlock : KMemoryBlock) :
      Matched st nd (new.initializeManager st nd startBlock) [] []
  | edit {m m' : KMemoryBlockManager} {locks shares : List Held} (c : Call) (he : Call.Edit c)
      (h : Matched st nd m locks shares) (hc : c.Valid st nd) (hr : c.run m = some m') :
      Matched st nd m' locks shares
  | lock {m m' : KMemoryBlockManager} {locks shares : List Held} (r : Held)
      (perm : KMemoryPermission) (h : Matched st nd m locks shares)
      (hc : (lockCall r perm).Valid st nd)
      (hcount : ∀ p q, coversPage p r → pageAt m p = some q → q.mIpcLockCount + 1 ≠ 0)
      (hr : (lockCall r perm).run m = some m') : Matched st nd m' (r::locks) shares
  | unlock {m m' : KMemoryBlockManager} {locks shares : List Held} (r : Held)
      (perm : KMemoryPermission) (h : Matched st nd m locks shares) (hheld : r ∈ locks)
      (hr : (unlockCall r perm).run m = some m') : Matched st nd m' (locks.erase r) shares
  | share {m m' : KMemoryBlockManager} {locks shares : List Held} (r : Held)
      (perm : KMemoryPermission) (h : Matched st nd m locks shares)
      (hc : (shareCall r perm).Valid st nd)
      (hcount : ∀ p q, coversPage p r → pageAt m p = some q → q.mDeviceUseCount + 1 ≠ 0)
      (hr : (shareCall r perm).run m = some m') : Matched st nd m' locks (r::shares)
  | unshare {m m' : KMemoryBlockManager} {locks shares : List Held} (r : Held)
      (perm : KMemoryPermission) (h : Matched st nd m locks shares) (hheld : r ∈ shares)
      (hr : (unshareCall r perm).run m = some m') : Matched st nd m' locks (shares.erase r)

section Run

variable {st nd : ℕ} {m m' : KMemoryBlockManager} {locks shares : List Held}

def Held.Inside (st nd : ℕ) (r : Held) : Prop :=
  r.1 % pageSize = 0 ∧ 0 < r.2 ∧ st ≤ r.1 ∧ r.stop ≤ nd

structure Counted (st nd : ℕ) (m : KMemoryBlockManager) (locks shares : List Held) : Prop where
  managed : Managed st nd m
  page : ∀ p q, pageAt m p = some q → PageCounted (holding locks p) (holding shares p) q
  inside : ∀ r ∈ locks ++ shares, r.Inside st nd

theorem lock_valid_of_inside {r : Held} (h : r.Inside st nd) (perm : KMemoryPermission)
    (f : LockFunc) : (Call.updateLock r.1 r.2 perm f).Valid st nd :=
  ⟨h.1, h.2.1, h.2.2.1, h.2.2.2, fun _ _ _ _ he => nomatch he⟩

theorem inside_of_valid {r : Held} {perm : KMemoryPermission} {f : LockFunc}
    (h : (Call.updateLock r.1 r.2 perm f).Valid st nd) : r.Inside st nd :=
  ⟨h.aligned, h.nonempty, h.start_le, h.le_end⟩

theorem initialize_page (hst : st % pageSize = 0) (hnd : nd % pageSize = 0) (hlt : st < nd)
    (startBlock : KMemoryBlock) {p : ℕ} {q : PageProperties}
    (hq : pageAt (new.initializeManager st nd startBlock) p = some q) :
    q = ⟨KMemoryState.free, KMemoryPermission.none, KMemoryPermission.none,
      KMemoryAttribute.none, 0, 0⟩ := by
  have ht := initialize_tiled hst hnd hlt startBlock
  obtain ⟨b, hb, rfl⟩ := Option.map_eq_some_iff.mp hq
  obtain ⟨hmem, -, -⟩ := find_block_mem ht hb
  rw [initialize_entries, List.mem_singleton] at hmem
  rw [(Prod.mk.inj hmem).2]
  rfl

/-- A page after a call, from the same page before it. -/
theorem page_before {c : Call} (hw : Rewritten m m' c.address c.stop c.change) {p : ℕ}
    {q' : PageProperties} (hq : pageAt m' p = some q') : ∃ q, pageAt m p = some q ∧
      q' = if c.address ≤ p ∧ p < c.stop then c.change q else q := by
  rw [hw.page] at hq
  by_cases hp : c.address ≤ p ∧ p < c.stop
  · rw [if_pos hp] at hq
    obtain ⟨q, hq₀, hq₁⟩ := Option.map_eq_some_iff.mp hq
    exact ⟨q, hq₀, by rw [if_pos hp, hq₁]⟩
  · rw [if_neg hp] at hq
    exact ⟨q', hq, by rw [if_neg hp]⟩

theorem edit_counted {i d : ℕ} {q : PageProperties} {c : Call} (he : Call.Edit c)
    (hc : c.Valid st nd) (h : PageCounted i d q) : PageCounted i d (c.change q) := by
  cases c with
  | update a n s p attr sd cd => exact change_update_counted h s p attr
  | updateIfMatch a n ts tp ta s p attr sd cd =>
    simp only [Call.change, changeIfMatch]
    split
    · exact change_update_counted h s p attr
    · exact h
  | updateAttribute a n mask attr =>
    exact change_attribute_counted h (hc.mask a n mask attr rfl).1 attr
  | updateLock a n perm f => exact absurd he id

/-- One lock function on a range, with the held ranges it leaves. -/
theorem locked_counted {locks' shares' : List Held} {r : Held} {perm : KMemoryPermission}
    {f : LockFunc} (h : Counted st nd m locks shares) (hin : r.Inside st nd)
    (hr : (Call.updateLock r.1 r.2 perm f).run m = some m')
    (hover : ∀ p q, coversPage p r = true → pageAt m p = some q →
      PageCounted (holding locks' p) (holding shares' p) (f.change perm q))
    (hrest : ∀ p, coversPage p r = false → holding locks' p = holding locks p ∧
      holding shares' p = holding shares p)
    (hheld : ∀ x ∈ locks' ++ shares', x.Inside st nd) : Counted st nd m' locks' shares' := by
  obtain ⟨m'', hr', hm, hw⟩ := call_managed _ h.managed (lock_valid_of_inside hin perm f)
  rw [hr] at hr'
  cases hr'
  refine ⟨hm, fun p q' hq' => ?_, hheld⟩
  obtain ⟨q, hq, rfl⟩ := page_before hw hq'
  by_cases hp : coversPage p r = true
  · have hp' : r.1 ≤ p ∧ p < r.stop := by simpa [coversPage] using hp
    show PageCounted _ _ (if r.1 ≤ p ∧ p < r.stop then f.change perm q else q)
    rw [if_pos hp']
    exact hover p q hp hq
  · have hp' : ¬ (r.1 ≤ p ∧ p < r.stop) := by simpa [coversPage] using hp
    show PageCounted _ _ (if r.1 ≤ p ∧ p < r.stop then f.change perm q else q)
    rw [if_neg hp']
    obtain ⟨hl, hs⟩ := hrest p (by simpa using hp)
    rw [hl, hs]
    exact h.page p q hq

theorem holding_cons_over {r : Held} (l : List Held) {p : ℕ} (h : coversPage p r = true) :
    holding (r::l) p = holding l p + 1 := by
  simp [holding, h]

theorem holding_cons_away {r : Held} (l : List Held) {p : ℕ} (h : coversPage p r = false) :
    holding (r::l) p = holding l p := by
  simp [holding, h]

theorem holding_erase_over {r : Held} {l : List Held} (hr : r ∈ l) {p : ℕ}
    (h : coversPage p r = true) : holding l p = holding (l.erase r) p + 1 := by
  rw [← holding_cons_over _ h]
  exact (List.perm_cons_erase hr).countP_eq (coversPage p)

theorem holding_erase_away {r : Held} {l : List Held} (hr : r ∈ l) {p : ℕ}
    (h : coversPage p r = false) : holding (l.erase r) p = holding l p := by
  rw [← holding_cons_away _ h]
  exact ((List.perm_cons_erase hr).countP_eq (coversPage p)).symm

theorem matched_counted (hst : st % pageSize = 0) (hnd : nd % pageSize = 0) (hlt : st < nd)
    (h : Matched st nd m locks shares) : Counted st nd m locks shares := by
  induction h with
  | start startBlock =>
    refine ⟨initialize_managed hst hnd hlt startBlock, fun p q hq => ?_, by simp⟩
    rw [initialize_page hst hnd hlt startBlock hq]
    exact ⟨rfl, rfl, fun h => absurd h (Nat.lt_irrefl 0), fun h => absurd h (Nat.lt_irrefl 0)⟩
  | edit c he _ hc hr ih =>
    obtain ⟨m'', hr', hm, hw⟩ := call_managed c ih.managed hc
    rw [hr] at hr'
    cases hr'
    refine ⟨hm, fun p q' hq' => ?_, ih.inside⟩
    obtain ⟨q, hq, rfl⟩ := page_before hw hq'
    split
    · exact edit_counted he hc (ih.page p q hq)
    · exact ih.page p q hq
  | lock r perm _ hc hcount hr ih =>
    refine locked_counted ih (inside_of_valid hc) hr (fun p q hp hq => ?_)
      (fun p hp => ⟨holding_cons_away _ hp, rfl⟩) ?_
    · rw [holding_cons_over _ hp]
      exact lock_counted (ih.page p q hq) perm (hcount p q hp hq)
    · intro x hx
      rcases List.mem_cons.mp hx with rfl | hx
      · exact inside_of_valid hc
      · exact ih.inside x hx
  | unlock r perm _ hheld hr ih =>
    refine locked_counted ih (ih.inside r (by simp [hheld])) hr (fun p q hp hq => ?_)
      (fun p hp => ⟨holding_erase_away hheld hp, rfl⟩) ?_
    · have hq' := ih.page p q hq
      rw [holding_erase_over hheld hp] at hq'
      exact unlock_counted hq'
    · intro x hx
      rcases List.mem_append.mp hx with hx | hx
      · exact ih.inside x (by simp [List.mem_of_mem_erase hx])
      · exact ih.inside x (by simp [hx])
  | share r perm _ hc hcount hr ih =>
    refine locked_counted ih (inside_of_valid hc) hr (fun p q hp hq => ?_)
      (fun p hp => ⟨rfl, holding_cons_away _ hp⟩) ?_
    · rw [holding_cons_over _ hp]
      exact share_counted (ih.page p q hq) (hcount p q hp hq)
    · intro x hx
      rcases List.mem_append.mp hx with hx | hx
      · exact ih.inside x (by simp [hx])
      · rcases List.mem_cons.mp hx with rfl | hx
        · exact inside_of_valid hc
        · exact ih.inside x (by simp [hx])
  | unshare r perm _ hheld hr ih =>
    refine locked_counted ih (ih.inside r (by simp [hheld])) hr (fun p q hp hq => ?_)
      (fun p hp => ⟨rfl, holding_erase_away hheld hp⟩) ?_
    · have hq' := ih.page p q hq
      rw [holding_erase_over hheld hp] at hq'
      exact unshare_counted hq'
    · intro x hx
      rcases List.mem_append.mp hx with hx | hx
      · exact ih.inside x (by simp [hx])
      · exact ih.inside x (by simp [List.mem_of_mem_erase hx])

end Run

section CheckState

variable {m : KMemoryBlockManager}

theorem check_neighbours_of_no_merge {lo hi : ℕ} {l : List Entry}
    (ht : Tiles Prod.fst entryStop lo hi l) (hk : ∀ e ∈ l, e.2.mAddress = e.1)
    (hno : NoMerge l) : checkNeighbours (l.map Prod.snd) = true := by
  induction l generalizing lo with
  | nil => rfl
  | cons e l ih =>
    cases l with
    | nil => rfl
    | cons f l =>
      have hm : e.2.canMergeWith f.2 = false := by
        have := hno f.1
        simp only [mergeableAt_pair, true_and, not_or, Bool.not_eq_true] at this
        exact this.1
      have hadj : e.2.getEndAddress = f.2.mAddress := by
        rw [hk f (by simp)]
        exact ht.2.2.1.symm
      have hrest := ih ht.2.2 (fun x hx => hk x (by simp [hx]))
        fun x hx => hno x (mergeable_cons hx)
      simp only [List.map_cons] at hrest ⊢
      simp [checkNeighbours, hm, hadj, hrest]

theorem tiles_last {lo hi : ℕ} {l : List Entry} {b : KMemoryBlock}
    (ht : Tiles Prod.fst entryStop lo hi l) (hl : (l.map Prod.snd).getLast? = some b) :
    b.getEndAddress = hi := by
  rw [List.getLast?_map, Option.map_eq_some_iff] at hl
  obtain ⟨e, he, rfl⟩ := hl
  obtain ⟨pre, rfl⟩ := List.getLast?_eq_some_iff.mp he
  obtain ⟨-, -, hend⟩ := tiles_cut ht
  exact hend

theorem tiles_first {lo hi : ℕ} {l : List Entry} {b : KMemoryBlock}
    (ht : Tiles Prod.fst entryStop lo hi l) (hk : ∀ e ∈ l, e.2.mAddress = e.1)
    (hf : (l.map Prod.snd).head? = some b) : b.mAddress = lo := by
  cases l with
  | nil => simp at hf
  | cons e l =>
    have hb : e.2 = b := by simpa using hf
    rw [← hb, hk e (by simp)]
    exact ht.1

theorem check_state_of (ht : Tiled m) (hno : NoMerge m.memoryBlockTree.entries)
    (hl : ∀ e ∈ m.memoryBlockTree.entries, checkLocks e.2 = true) : m.checkState = true := by
  unfold checkState
  cases hf : (m.memoryBlockTree.entries.map Prod.snd).head? with
  | none => simp [hf]
  | some first =>
    cases hlast : (m.memoryBlockTree.entries.map Prod.snd).getLast? with
    | none => simp [hf, hlast]
    | some last =>
      have hall : (m.memoryBlockTree.entries.map Prod.snd).all checkLocks = true := by
        rw [List.all_eq_true]
        intro b hb
        obtain ⟨e, he, rfl⟩ := List.mem_map.mp hb
        exact hl e he
      simp only [hf, hlast, Bool.and_eq_true, beq_iff_eq]
      exact ⟨⟨⟨tiles_first ht.tiles ht.keyed hf, tiles_last ht.tiles hlast⟩,
        check_neighbours_of_no_merge ht.tiles ht.keyed hno⟩, hall⟩

theorem check_locks_of_counted {b : KMemoryBlock} {i d : ℕ}
    (h : PageCounted i d b.pageProperties) : checkLocks b = true := by
  have hi : b.mIpcLockCount = 0 ∨
      b.mAttribute &&& KMemoryAttribute.ipcLocked = KMemoryAttribute.ipcLocked := by
    by_cases hz : i = 0
    · exact Or.inl (BitVec.eq_of_toNat_eq (h.ipc.trans hz))
    · exact Or.inr (h.ipcLocked (by omega))
  have hd : b.mDeviceUseCount = 0 ∨
      b.mAttribute &&& KMemoryAttribute.deviceShared = KMemoryAttribute.deviceShared := by
    by_cases hz : d = 0
    · exact Or.inl (BitVec.eq_of_toNat_eq (h.device.trans hz))
    · exact Or.inr (h.deviceShared (by omega))
  simpa [checkLocks] using ⟨hi, hd⟩

/-- On an empty region there is no range to call anything on. -/
theorem matched_empty {st nd : ℕ} {locks shares : List Held} (hlt : ¬ st < nd)
    (h : Matched st nd m locks shares) :
    locks = [] ∧ shares = [] ∧ ∃ b, m = new.initializeManager st nd b := by
  induction h with
  | start startBlock => exact ⟨rfl, rfl, startBlock, rfl⟩
  | edit c _ _ hc _ _ => exact absurd (valid_nonempty hc) hlt
  | lock r perm _ hc _ _ _ => exact absurd (valid_nonempty hc) hlt
  | share r perm _ hc _ _ _ => exact absurd (valid_nonempty hc) hlt
  | unlock r perm _ hheld _ ih => simp [ih.1] at hheld
  | unshare r perm _ hheld _ ih => simp [ih.2.1] at hheld

/-- After every call of a matched run `check_state` holds, and no block can
be merged with its neighbour anywhere in the tree. -/
theorem matched_check_state {st nd : ℕ} {locks shares : List Held} (hst : st % pageSize = 0)
    (hnd : nd % pageSize = 0) (hle : st ≤ nd) (h : Matched st nd m locks shares) :
    m.checkState = true ∧ ∀ pre post e f, m.memoryBlockTree.entries = pre ++ e :: f :: post →
      e.2.canMergeWith f.2 = false := by
  by_cases hlt : st < nd
  · have hc := matched_counted hst hnd hlt h
    have ht := hc.managed.tiled
    refine ⟨check_state_of ht hc.managed.merged fun e he => ?_, fun pre post e f hcut => ?_⟩
    · have hb := entry_bounds ht (k := e.1) he
      have hp := page_at_located ht (k := e.1) he (le_refl e.1) hb.2.1
      exact check_locks_of_counted (hc.page e.1 _ hp)
    · have hno := hc.managed.merged f.1
      rw [hcut, mergeable_middle] at hno
      by_contra hm
      exact hno (Or.inr (Or.inl ⟨rfl, by simpa using hm⟩))
  · obtain ⟨-, -, b, rfl⟩ := matched_empty hlt h
    have heq : st = nd := by omega
    subst heq
    refine ⟨?_, fun pre post e f hcut => ?_⟩
    · unfold checkState
      rw [initialize_entries]
      simp [checkNeighbours, checkLocks, KMemoryBlock.initializeBlock,
        KMemoryBlock.getEndAddress, KMemoryBlock.getSize, initializeManager]
    · have hlen := congrArg List.length hcut
      rw [initialize_entries] at hlen
      simp at hlen
      omega

theorem matched_check_state_lock : ∃ m, (lockCall (0,1) 0).run
    (new.initializeManager 0 8192 KMemoryBlock.new) = some m ∧ m.checkState = true ∧
    ∀ pre post e f, m.memoryBlockTree.entries = pre ++ e :: f :: post →
      e.2.canMergeWith f.2 = false := by
  have hv : (lockCall (0,1) 0).Valid 0 8192 := lock_valid_of_inside
    (r := (0,1)) ⟨by decide, by decide, by decide, by decide⟩ 0 .lockForIpc
  obtain ⟨m, hr, -⟩ := call_managed _
    (initialize_managed (by decide) (by decide) (by decide) KMemoryBlock.new) hv
  refine ⟨m, hr, matched_check_state (by decide) (by decide) (by decide)
    (Matched.lock (0,1) 0 (Matched.start KMemoryBlock.new) hv (fun p q _ hq => ?_) hr)⟩
  rw [initialize_page (by decide) (by decide) (by decide) KMemoryBlock.new hq]
  decide

end CheckState

end Ruzu.MemoryBlockState
