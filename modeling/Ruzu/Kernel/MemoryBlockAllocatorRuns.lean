import Ruzu.Kernel.MemoryBlockAllocator

/-!
# The nodes of an update

The nodes that the slab has handed out are those in the tree, those in the
slots of the allocator and those of others. Every update starts with two
splits at its disposal, needs one at the start of its range and one at the end,
and leaves the tree that the update without an allocator leaves.
-/

set_option autoImplicit false

namespace Ruzu.MemoryBlockAllocator
open MemoryBlock MemoryBlockManager MemoryBlockTiling MemoryBlockCoalesce MemoryBlockUpdate
open MemoryBlockCalls Tiling
open KMemoryBlockManager

/-! ### The slab and the allocator -/

section Slab

variable {slab slab' : KMemoryBlockSlabManager} {b : KMemoryBlock}

theorem used_allocate (h : slab.allocate = some (b, slab')) : slab'.used = slab.used + 1 := by
  rw [KMemoryBlockSlabManager.allocate] at h
  split at h
  · obtain ⟨rfl, rfl⟩ := Prod.mk.inj (Option.some.inj h)
    rfl
  · split at h
    · obtain ⟨rfl, rfl⟩ := Prod.mk.inj (Option.some.inj h)
      rfl
    · cases h

theorem used_allocateMany (n : ℕ) (slab : KMemoryBlockSlabManager) :
    (slab.allocateMany n).2.used = slab.used + (slab.allocateMany n).1.length := by
  induction n generalizing slab with
  | zero => rfl
  | succ n ih =>
    rw [KMemoryBlockSlabManager.allocateMany]
    split
    · rfl
    case h_2 block slab' h =>
      simp only [List.length_cons]
      rw [ih, used_allocate h]
      omega

theorem used_freeMany (blocks : List KMemoryBlock) (slab : KMemoryBlockSlabManager) :
    (slab.freeMany blocks).used = slab.used - blocks.length := by
  induction blocks generalizing slab with
  | nil => rfl
  | cons block blocks ih =>
    rw [KMemoryBlockSlabManager.freeMany, List.foldl_cons, ← KMemoryBlockSlabManager.freeMany, ih,
      List.length_cons, KMemoryBlockSlabManager.free]
    dsimp only
    omega

end Slab

/-- The slots from the index on are full, those in front of it empty. -/
def WellIndexed (a : KMemoryBlockManagerUpdateAllocator) : Prop :=
  ∃ nodes : List KMemoryBlock, a.blocks = List.replicate a.index none ++ nodes.map some ∧
    a.index + nodes.length = maxBlocks

section Allocator

variable {a a' : KMemoryBlockManagerUpdateAllocator} {slab : KMemoryBlockSlabManager}

theorem allocate_spec (h : WellIndexed a) (hroom : a.index < maxBlocks) :
    ∃ b a', a.allocate = some (b, a') ∧ WellIndexed a' ∧ a'.index = a.index + 1 ∧
      a'.slabManager = a.slabManager := by
  obtain ⟨nodes, hblocks, hlen⟩ := h
  cases nodes with
  | nil =>
    rw [List.length_nil] at hlen
    omega
  | cons b nodes =>
    have hslot : a.blocks[a.index]? = some (some b) := by
      rw [hblocks, List.getElem?_append_right (by simp), List.length_replicate, Nat.sub_self]
      rfl
    refine ⟨b, { a with blocks := a.blocks.set a.index none, index := a.index + 1 },
      by rw [KMemoryBlockManagerUpdateAllocator.allocate, hslot], ⟨nodes, ?_, ?_⟩, rfl, rfl⟩
    · simp only [hblocks, List.map_cons]
      rw [List.set_append_right _ _ (by simp), List.length_replicate, Nat.sub_self,
        List.set_cons_zero, List.replicate_succ', List.append_assoc, List.singleton_append]
    · rw [List.length_cons] at hlen
      dsimp only
      omega

/-- A node goes back into the slot in front of the full ones, or to the slab. -/
theorem free_spec (h : WellIndexed a) (b : KMemoryBlock) :
    WellIndexed (a.free b) ∧
      (a.index = 0 ∧ (a.free b).index = 0 ∧
          (a.free b).slabManager = a.slabManager.free b ∨
        (a.free b).index + 1 = a.index ∧ (a.free b).slabManager = a.slabManager) := by
  obtain ⟨nodes, hblocks, hlen⟩ := h
  rw [KMemoryBlockManagerUpdateAllocator.free]
  split
  case isTrue hzero => exact ⟨⟨nodes, hblocks, hlen⟩, .inl ⟨hzero, hzero, rfl⟩⟩
  case isFalse hpos =>
    obtain ⟨i, hi⟩ := Nat.exists_eq_succ_of_ne_zero hpos
    refine ⟨⟨b::nodes, ?_, ?_⟩, .inr ⟨?_, rfl⟩⟩
    · simp only [hblocks, hi, Nat.succ_eq_add_one, Nat.add_sub_cancel, List.map_cons]
      rw [List.replicate_succ', List.append_assoc, List.set_append_right _ _ (by simp),
        List.length_replicate, Nat.sub_self, List.singleton_append, List.set_cons_zero]
    · rw [List.length_cons]
      dsimp only
      omega
    · dsimp only
      omega

theorem new_reserved {n : ℕ} (h : KMemoryBlockManagerUpdateAllocator.new slab n = some (a, 0)) :
    WellIndexed a ∧ a.index = maxBlocks - n ∧ a.slabManager.used = slab.used + n := by
  rw [KMemoryBlockManagerUpdateAllocator.new] at h
  split at h
  case isTrue => cases h
  case isFalse hle =>
    dsimp only at h
    split at h
    case isTrue hall =>
      obtain ⟨rfl, -⟩ := Prod.mk.inj (Option.some.inj h)
      refine ⟨⟨_, rfl, ?_⟩, rfl, ?_⟩
      · rw [hall]
        dsimp only
        omega
      · dsimp only
        rw [used_allocateMany, hall]
    case isFalse => exact absurd (Prod.mk.inj (Option.some.inj h)).2 (by decide)

theorem drop_used (h : WellIndexed a) :
    a.drop.used = a.slabManager.used - (maxBlocks - a.index) := by
  obtain ⟨nodes, hblocks, hlen⟩ := h
  have hnodes : a.blocks.filterMap id = nodes := by
    rw [hblocks, List.filterMap_append]
    simp
  rw [KMemoryBlockManagerUpdateAllocator.drop, used_freeMany, hnodes]
  omega

end Allocator

/-! ### The balance of the nodes -/

/-- The slab's nodes are those of the tree, those in the slots and `others`. -/
structure Balanced (others : ℕ) (m : KMemoryBlockManager)
    (a : KMemoryBlockManagerUpdateAllocator) : Prop where
  indexed : WellIndexed a
  used : a.slabManager.used = others + m.memoryBlockTree.len + (maxBlocks - a.index)

variable {m m' : KMemoryBlockManager} {a a' : KMemoryBlockManagerUpdateAllocator} {others : ℕ}

theorem index_le (h : WellIndexed a) : a.index ≤ maxBlocks := by
  obtain ⟨nodes, -, hlen⟩ := h
  omega

/-- A split is the split without an allocator and takes one node at most. -/
theorem split_at_with (ad : ℕ) (h : Tiled m) (hb : Balanced others m a)
    (hlo : m.mStartAddress ≤ ad) (hhi : ad ≤ m.mEndAddress) (hroom : a.index < maxBlocks) :
    ∃ a', splitAtWithAllocator m a ad = some (m.splitAt ad, a') ∧
      Balanced others (m.splitAt ad) a' ∧ a'.index ≤ a.index + 1 := by
  by_cases hedge : ad = m.mStartAddress ∨ ad = m.mEndAddress
  · rw [splitAtWithAllocator, splitAt, if_pos hedge, if_pos hedge]
    exact ⟨a, rfl, hb, Nat.le_succ _⟩
  obtain ⟨k, x, pre, post, hcut, hk, hlt⟩ := locate h hlo (by omega)
  have hfloor := floor_located h hcut hk hlt
  by_cases hsplit : covers x ad ∧ x.mAddress ≠ ad
  · have hplain : m.splitAt ad = { m with
        memoryBlockTree := ((m.memoryBlockTree.remove k).insert (x.split ad).1.mAddress
          (x.split ad).1).insert (x.split ad).2.mAddress (x.split ad).2 } := by
      rw [splitAt, if_neg hedge, hfloor]
      exact if_pos hsplit
    have hlen : (m.splitAt ad).memoryBlockTree.len = m.memoryBlockTree.len + 1 := by
      rcases split_at_cases h hlo hhi with
        ⟨-, hend | ⟨y, hy⟩⟩ | ⟨pre, k, y, post, hc, -, -, -, -, hc'⟩
      · exact absurd (.inr hend) hedge
      · -- a block that starts at the address would be the one found
        obtain ⟨pre', post', hcut'⟩ := BTreeMap.cut_of_mem hy
        rw [floor_located h hcut' (Nat.le_refl _) (entry_bounds h hy).2.1] at hfloor
        obtain ⟨rfl, rfl⟩ := Prod.mk.inj (Option.some.inj hfloor)
        exact absurd (entry_address h hy) hsplit.2
      · simp only [BTreeMap.len, hc, hc', List.length_append, List.length_cons]
        omega
    obtain ⟨b, a', halloc, hindexed, hindex, hslab⟩ := allocate_spec hb.indexed hroom
    refine ⟨a', ?_, ⟨hindexed, ?_⟩, by omega⟩
    · rw [splitAtWithAllocator, if_neg hedge, hfloor]
      simp only [if_pos hsplit, halloc, hplain]
      rfl
    · rw [hslab, hb.used, hlen]
      omega
  · have hplain : m.splitAt ad = m := by
      rw [splitAt, if_neg hedge, hfloor]
      exact if_neg hsplit
    rw [hplain, splitAtWithAllocator, if_neg hedge, hfloor]
    exact ⟨a, if_neg hsplit, hb, Nat.le_succ _⟩

/-! ### The pass that merges -/

theorem coalesce_step_with (currentKey : ℕ) {nextKey : ℕ} {next : KMemoryBlock}
    (hb : Balanced others m a) (hnext : (nextKey, next) ∈ m.memoryBlockTree.entries) :
    ∃ a', coalesceStepWithAllocator m a currentKey nextKey next =
        (coalesceStep m currentKey nextKey next, a') ∧
      Balanced others (coalesceStep m currentKey nextKey next).1 a' := by
  rw [coalesceStepWithAllocator, coalesceStep]
  cases m.memoryBlockTree.get currentKey with
  | none => exact ⟨a, rfl, hb⟩
  | some cur =>
    dsimp only
    split
    case isTrue hmerge =>
      refine ⟨a.free next, rfl, ?_⟩
      have hlen : ((m.memoryBlockTree.remove nextKey).modify currentKey
          (fun cur => cur.add next)).len + 1 = m.memoryBlockTree.len := by
        have hperm := (BTreeMap.remove_perm hnext).length_eq
        rw [List.length_cons] at hperm
        simp only [BTreeMap.len, BTreeMap.modify, List.length_map]
        omega
      have hused := hb.used
      have hle := index_le hb.indexed
      obtain ⟨hindexed, ⟨hzero, hzero', hslab⟩ | ⟨hindex, hslab⟩⟩ := free_spec hb.indexed next
      · refine ⟨hindexed, ?_⟩
        rw [hslab, hzero', KMemoryBlockSlabManager.free]
        rw [hzero] at hused
        dsimp only
        omega
      · refine ⟨hindexed, ?_⟩
        rw [hslab, hused]
        dsimp only
        omega
    case isFalse => exact ⟨a, rfl, hb⟩

theorem coalesce_loop_with (updateEnd fuel : ℕ) {k : ℕ} (hb : Balanced others m a)
    (h : coalesceLoop updateEnd fuel m k = some m') :
    ∃ a', coalesceLoopWithAllocator updateEnd fuel m a k = some (m', a') ∧
      Balanced others m' a' := by
  induction fuel generalizing m a k with
  | zero => cases h
  | succ fuel ih =>
    rw [coalesceLoop] at h
    rw [coalesceLoopWithAllocator]
    cases hsucc : m.memoryBlockTree.succ k with
    | none =>
      rw [hsucc] at h
      obtain rfl := Option.some.inj h
      exact ⟨a, rfl, hb⟩
    | some e =>
      obtain ⟨nextKey, next⟩ := e
      rw [hsucc] at h
      have hnext : (nextKey, next) ∈ m.memoryBlockTree.entries :=
        List.mem_of_mem_filter (List.mem_of_head? hsucc)
      obtain ⟨a', hstep, hb'⟩ := coalesce_step_with k hb hnext
      dsimp only at h ⊢
      rw [hstep]
      dsimp only
      cases hget : (m.coalesceStep k nextKey next).1.memoryBlockTree.get
          (m.coalesceStep k nextKey next).2 with
      | none =>
        rw [hget] at h
        obtain rfl := Option.some.inj h
        exact ⟨a', rfl, hb'⟩
      | some b =>
        rw [hget] at h
        dsimp only at h ⊢
        split at h
        case isTrue hend =>
          obtain rfl := Option.some.inj h
          exact ⟨a', if_pos hend, hb'⟩
        case isFalse hend =>
          rw [if_neg hend]
          exact ih hb' h

theorem coalesce_with (ad n : ℕ) (hb : Balanced others m a)
    (h : m.coalesceForUpdate ad n = some m') :
    ∃ a', coalesceForUpdateWithAllocator m a ad n = some (m', a') ∧ Balanced others m' a' := by
  rw [coalesceForUpdate] at h
  rw [coalesceForUpdateWithAllocator]
  split at h
  case isTrue hempty =>
    obtain rfl := Option.some.inj h
    exact ⟨a, if_pos hempty, hb⟩
  case isFalse hempty =>
    rw [if_neg hempty]
    exact coalesce_loop_with _ _ hb h

/-! ### The walks -/

theorem balanced_modify {f : KMemoryBlock → KMemoryBlock} (hb : Balanced others m a) (k : ℕ) :
    Balanced others { m with memoryBlockTree := m.memoryBlockTree.modify k f } a :=
  ⟨hb.indexed, by simpa [BTreeMap.len, BTreeMap.modify] using hb.used⟩

section Isolate

variable {cur key : ℕ} {info : KMemoryBlock} {s s' : Isolated}

/-- A block that starts at the address needs no split. -/
theorem isolate_start_with (h : Tiled m) (hb : Balanced others m a)
    (hlo : m.mStartAddress ≤ cur) (hhi : cur ≤ m.mEndAddress)
    (hroom : info.mAddress = cur ∨ a.index < maxBlocks)
    (hs : isolateStart m cur key info = some s) :
    ∃ a', isolateStartWithAllocator m a cur key info = some (s, a') ∧
      Balanced others s.manager a' ∧ a'.index ≤ a.index + 1 ∧
      (info.mAddress = cur → a'.index = a.index) := by
  rw [isolateStart] at hs
  rw [isolateStartWithAllocator]
  by_cases hat : info.mAddress = cur
  · rw [if_neg (not_not.mpr hat)] at hs ⊢
    obtain rfl := Option.some.inj hs
    exact ⟨a, rfl, hb, Nat.le_succ _, fun _ => rfl⟩
  · rw [if_pos hat] at hs ⊢
    obtain ⟨a', hsplit, hb', hindex⟩ := split_at_with cur h hb hlo hhi (hroom.resolve_left hat)
    simp only [Option.bind_eq_bind, Option.bind_eq_some_iff, Option.some.injEq] at hs
    obtain ⟨k, hk, x, hx, rfl⟩ := hs
    refine ⟨a', ?_, hb', hindex, fun heq => absurd heq hat⟩
    simp only [hsplit, Option.bind_eq_bind, Option.bind_some, hk, hx]
    rfl

theorem isolate_end_with (size : ℕ) (h : Tiled s.manager) (hb : Balanced others s.manager a)
    (hlo : s.manager.mStartAddress ≤ s.curAddress + size)
    (hhi : size < s.info.getSize → s.curAddress + size ≤ s.manager.mEndAddress)
    (hroom : a.index < maxBlocks) (hs : isolateEnd s size = some s') :
    ∃ a', isolateEndWithAllocator a s size = some (s', a') ∧ Balanced others s'.manager a' ∧
      a'.index ≤ a.index + 1 ∧ (s.info.getSize ≤ size → a'.index = a.index) := by
  rw [isolateEnd] at hs
  rw [isolateEndWithAllocator]
  by_cases hgt : s.info.getSize > size
  · rw [if_pos hgt] at hs ⊢
    obtain ⟨a', hsplit, hb', hindex⟩ := split_at_with _ h hb hlo (hhi hgt) hroom
    simp only [Option.bind_eq_bind, Option.bind_eq_some_iff, Option.some.injEq] at hs
    obtain ⟨k, hk, x, hx, rfl⟩ := hs
    refine ⟨a', ?_, hb', hindex, fun hle => absurd hgt (Nat.not_lt.mpr hle)⟩
    simp only [hsplit, Option.bind_eq_bind, Option.bind_some, hk, hx]
    rfl
  · rw [if_neg hgt] at hs ⊢
    obtain rfl := Option.some.inj hs
    exact ⟨a, rfl, hb, Nat.le_succ _, fun _ => rfl⟩

end Isolate

/-- A block that ends inside is followed by one that starts there. -/
theorem next_entry {k : ℕ} {x : KMemoryBlock} (h : Tiled m)
    (hx : (k, x) ∈ m.memoryBlockTree.entries) (hlt : x.getEndAddress < m.mEndAddress) :
    ∃ y, (x.getEndAddress, y) ∈ m.memoryBlockTree.entries := by
  have hb := entry_bounds h hx
  obtain ⟨k', y, pre, post, hcut, hk, hend⟩ := locate h (by omega) hlt
  have hy : (k', y) ∈ m.memoryBlockTree.entries := by simp [hcut]
  refine ⟨y, ?_⟩
  rcases Nat.eq_or_lt_of_le hk with rfl | hbefore
  · exact hy
  · -- it would lie over the last page of the block as well
    have hover := tiles_unique h.tiles hx hy (p := x.getEndAddress - 1)
      ⟨by dsimp only; omega, by simp only [entryStop]; omega⟩
      ⟨by dsimp only; omega, by simp only [entryStop]; omega⟩
    obtain ⟨rfl, rfl⟩ := Prod.mk.inj hover
    omega

/-- What a walk from an address on has at its disposal: one split when a block starts there, or
else two. -/
def Room (m : KMemoryBlockManager) (a : KMemoryBlockManagerUpdateAllocator) (cur : ℕ) : Prop :=
  a.index = 0 ∨ a.index ≤ 1 ∧ ∃ x, (cur, x) ∈ m.memoryBlockTree.entries

section Walk

variable {shouldUpdate : KMemoryBlock → Bool} {edit : KMemoryBlock → KMemoryBlock}
  {change : PageProperties → PageProperties} {cur k stop : ℕ} {x : KMemoryBlock}

/-- A block that is longer than the rest of the range ends with the range. -/
theorem isolate_end_cut {s s' : Isolated} {size : ℕ} (h : Tiled s.manager)
    (hmem : (cur, s.info) ∈ s.manager.memoryBlockTree.entries) (hcur : s.curAddress = cur)
    (hal : cur % pageSize = 0) (hsz : size % pageSize = 0) (hpos : 0 < size)
    (hgt : size < s.info.getSize) (hs : isolateEnd s size = some s') :
    s'.info.getEndAddress = cur + size := by
  have hb := entry_bounds h hmem
  have haddr := entry_address h hmem
  have hend : s.info.getEndAddress = cur + s.info.getSize := by
    rw [KMemoryBlock.getEndAddress, haddr]
  have hal' : (cur + size) % pageSize = 0 := by
    simp only [pageSize] at hal hsz ⊢
    omega
  have hsame := split_at_same h (by omega : _ ≤ cur + size) (by omega) hal'
  rw [isolateEnd, if_pos hgt, hcur] at hs
  simp only [Option.bind_eq_bind, Option.bind_eq_some_iff, Option.some.injEq] at hs
  obtain ⟨key, hkey, info, hinfo, rfl⟩ := hs
  rcases split_at_cases h (by omega : _ ≤ cur + size) (by omega) with
    ⟨-, hlast | ⟨y, hy⟩⟩ | ⟨pre, k, x, post, hcut, hk, hlt, -, -, hcut'⟩
  · omega
  · have hover := tiles_unique h.tiles hmem hy (p := cur + size)
      ⟨by simp, by simpa [entryStop, hend] using hgt⟩ ⟨by simp, (entry_bounds h hy).2.1⟩
    have := congrArg Prod.fst hover
    dsimp only at this
    omega
  · have hx : (k, x) ∈ s.manager.memoryBlockTree.entries := by simp [hcut]
    have hover := tiles_unique h.tiles hmem hx (p := cur + size)
      ⟨by simp, by simpa [entryStop, hend] using hgt⟩ ⟨hk.le, hlt⟩
    obtain ⟨rfl, hxi⟩ := Prod.mk.inj hover
    -- the block at `cur` is the left half now
    have hleft : (cur, (x.split (cur + size)).1) ∈
        (s.manager.splitAt (cur + size)).memoryBlockTree.entries := by simp [hcut']
    obtain ⟨hfind, hget⟩ := get_located hsame.tiled hleft (Nat.le_refl cur)
      (entry_bounds hsame.tiled hleft).2.1
    rw [hfind] at hkey
    obtain rfl := Option.some.inj hkey
    rw [hget] at hinfo
    obtain rfl := Option.some.inj hinfo
    exact split_left_end (by rw [← hxi, haddr]; omega) hal' (by rw [← hxi, haddr]; exact hal)

/-- A block is isolated with what the walk has, and the walk goes on from its end. -/
theorem isolate_with {s s' : Isolated} {size : ℕ} (h : Tiled m) (hb : Balanced others m a)
    (hx : (k, x) ∈ m.memoryBlockTree.entries) (hk : k ≤ cur) (hcur : cur < x.getEndAddress)
    (hroom : Room m a cur) (hal : cur % pageSize = 0) (hsz : size % pageSize = 0)
    (hpos : 0 < size) (hend : cur + size ≤ m.mEndAddress)
    (hstart : isolateStart m cur k x = some s) (hstop : isolateEnd s size = some s') :
    ∃ a' a'', isolateStartWithAllocator m a cur k x = some (s, a') ∧
      isolateEndWithAllocator a' s size = some (s', a'') ∧ Balanced others s'.manager a'' ∧
      (s'.info.getEndAddress < cur + size → a''.index ≤ 1) := by
  obtain ⟨t, hstart', hfocus⟩ := isolate_start_spec (R := fun _ _ => True) (cur + size) h hx hk
    hcur hal (by omega)
  rw [hstart] at hstart'
  obtain rfl := Option.some.inj hstart'
  obtain ⟨t', hstop', hfocus', hle⟩ := isolate_end_spec hfocus hal hsz hpos
  rw [hstop] at hstop'
  obtain rfl := Option.some.inj hstop'
  have haddr := entry_address h hx
  have hbounds := entry_bounds h hx
  have hbounds' := entry_bounds hfocus.same.tiled hfocus.mem
  have hfree : x.mAddress = cur ∨ a.index < maxBlocks := by
    rcases hroom with hzero | ⟨hone, -⟩
    · exact .inr (by rw [hzero]; decide)
    · exact .inr (Nat.lt_of_le_of_lt hone (by decide))
  obtain ⟨a', hwith, hb', hindex, hsame⟩ :=
    isolate_start_with h hb (by omega) (by omega) hfree hstart
  have hone : a'.index ≤ 1 := by
    rcases hroom with hzero | ⟨hle', y, hy⟩
    · omega
    · have hat : k = cur := by
        have hover := tiles_unique h.tiles hx hy (p := cur) ⟨hk, hcur⟩
          ⟨Nat.le_refl _, (entry_bounds h hy).2.1⟩
        exact congrArg Prod.fst hover
      rw [hsame (haddr.trans hat)]
      exact hle'
  have hcureq := hfocus.cur_eq
  have hendeq := hfocus.same.end_eq
  have hstarteq := hfocus.same.start_eq
  obtain ⟨a'', hwith', hb'', hindex', hsame'⟩ := isolate_end_with size
    hfocus.same.tiled hb' (by omega) (fun _ => by omega)
    (Nat.lt_of_le_of_lt hone (by decide)) hstop
  refine ⟨a', a'', hwith, hwith', hb'', fun hshort => ?_⟩
  rw [hsame']
  · exact hone
  · -- a block longer than the rest of the range would be cut at its end
    by_contra hgt
    have hcut := isolate_end_cut hfocus.same.tiled hfocus.mem hcureq hal hsz hpos
      (Nat.not_le.mp hgt) hstop
    omega

/-- What is left for the rest of the walk after a block was edited up to its end. -/
theorem room_after {s : Isolated} {size : ℕ} (edit : KMemoryBlock → KMemoryBlock)
    (hs : Focused (fun _ _ => True) m cur (cur + size) s)
    (hindex : s.info.getEndAddress < cur + size → a.index ≤ 1)
    (hend : cur + size ≤ m.mEndAddress) (hlt : s.info.getEndAddress < cur + size) :
    Room { s.manager with memoryBlockTree := s.manager.memoryBlockTree.modify s.key edit } a
      s.info.getEndAddress := by
  have hendeq := hs.same.end_eq
  obtain ⟨y, hy⟩ := next_entry hs.same.tiled hs.mem (by omega)
  have hkey := hs.key_eq
  have hbounds := entry_bounds hs.same.tiled hs.mem
  refine .inr ⟨hindex hlt, y, BTreeMap.mem_modify.mpr ⟨y, hy, ?_⟩⟩
  rw [if_neg (by dsimp only; omega)]

theorem update_loop_with (fuel n : ℕ) (h : Tiled m) (hb : Balanced others m a)
    (hedit : ActsOnPages edit change) (hs : m.mStartAddress ≤ cur)
    (he : cur + n * pageSize ≤ m.mEndAddress) (hal : cur % pageSize = 0) (hf : n ≤ fuel)
    (hroom : n = 0 ∨ Room m a cur)
    (hrun : updateLoop shouldUpdate edit fuel m cur n = some m') :
    ∃ a', updateLoopWithAllocator shouldUpdate edit fuel m a cur n = some (m', a') ∧
      Balanced others m' a' := by
  induction fuel generalizing m a cur n with
  | zero =>
    obtain rfl : n = 0 := by omega
    obtain rfl := Option.some.inj hrun
    exact ⟨a, rfl, hb⟩
  | succ fuel ih =>
    rw [updateLoop] at hrun
    rw [updateLoopWithAllocator]
    by_cases hn : n = 0
    · rw [if_pos hn] at hrun ⊢
      obtain rfl := Option.some.inj hrun
      exact ⟨a, rfl, hb⟩
    have hpos : 0 < n * pageSize := Nat.mul_pos (by omega) (by simp [pageSize])
    obtain ⟨k, x, pre, post, hcut, hk, hlt⟩ := locate h hs (by omega)
    have hx : (k, x) ∈ m.memoryBlockTree.entries := by simp [hcut]
    obtain ⟨hfind, hget⟩ := get_located h hx hk hlt
    rw [if_neg hn] at hrun ⊢
    simp only [hfind, hget, Option.bind_eq_bind, Option.bind_some] at hrun ⊢
    by_cases htest : shouldUpdate x = true
    · -- the block is cut to the range and edited
      rw [if_pos htest] at hrun ⊢
      obtain ⟨s, hstart, hs₁⟩ := isolate_start_spec (R := fun _ _ => True) (cur + n * pageSize) h
        hx hk hlt hal (by omega)
      obtain ⟨s', hend, hs₂, hle⟩ := isolate_end_spec hs₁ hal (Nat.mul_mod_left n pageSize) hpos
      obtain ⟨a₁, a₂, hwith, hwith', hb', hindex⟩ := isolate_with h hb hx hk hlt
        (hroom.resolve_left hn) hal (Nat.mul_mod_left n pageSize) hpos he hstart hend
      obtain ⟨hrw, -, hgt, hsal, hstop⟩ := focused_edit (R := fun _ _ => True) (f := change) hs₂
        hle h hx hk hlt hedit (fun _ => trivial) rfl
      have hcur : s'.curAddress + s'.info.getSize = s'.info.getEndAddress := by
        rw [hs₂.cur_eq, hstop, KMemoryBlock.getSize]
      have hsum : s'.info.getEndAddress + (n - s'.info.mNumPages) * pageSize =
          cur + n * pageSize := by
        simp only [pageSize] at hstop hle ⊢
        omega
      have hnp : s'.info.mNumPages ≠ 0 := by
        intro hz
        rw [hz] at hstop
        omega
      simp only [hstart, hend, Option.bind_some, hcur] at hrun
      simp only [hwith, hwith', Option.bind_some, hcur]
      refine ih (n - s'.info.mNumPages) hrw.tiled (balanced_modify hb' _)
        (by rw [hrw.start_eq]; omega) (by rw [hrw.end_eq]; omega) hsal (by omega) ?_ hrun
      rcases Nat.eq_zero_or_pos (n - s'.info.mNumPages) with hz | hmore
      · exact .inl hz
      · have hmore' := Nat.mul_pos hmore (show 0 < pageSize by decide)
        exact .inr (room_after edit hs₂ hindex he (by omega))
    · -- the block is stepped over
      rw [if_neg htest] at hrun ⊢
      by_cases hin : cur + n * pageSize < x.getEndAddress
      · rw [if_pos hin] at hrun ⊢
        rw [update_loop_done] at hrun
        obtain rfl := Option.some.inj hrun
        refine ⟨a, ?_, hb⟩
        cases fuel <;> simp [updateLoopWithAllocator]
      · rw [if_neg hin] at hrun ⊢
        have hxal := end_address_aligned h hx
        have hsum : x.getEndAddress + (cur + n * pageSize - x.getEndAddress) / pageSize * pageSize
            = cur + n * pageSize := by
          simp only [pageSize] at hal hxal hin ⊢
          omega
        refine ih _ h hb (by omega) (by omega) hxal
          (by simp only [pageSize] at hf hin hlt ⊢; omega) ?_ hrun
        rcases Nat.eq_zero_or_pos ((cur + n * pageSize - x.getEndAddress) / pageSize) with hz | hmore
        · exact .inl hz
        · have hmore' := Nat.mul_pos hmore (show 0 < pageSize by decide)
          refine .inr (hroom.resolve_left hn |>.elim .inl fun hone => .inr ⟨hone.1, ?_⟩)
          exact next_entry h hx (by omega)

theorem isolate_start_split {s : Isolated}
    (h : isolateStartWithAllocator m a cur k x = some (s, a')) :
    (if x.mAddress ≠ cur then splitAtWithAllocator m a cur else some (m, a)) =
      some (s.manager, a') := by
  rw [isolateStartWithAllocator] at h
  split at h
  case isTrue hne =>
    rw [if_pos hne]
    simp only [Option.bind_eq_bind, Option.bind_eq_some_iff] at h
    obtain ⟨⟨m₁, a₁⟩, hsplit, key, -, info, -, heq⟩ := h
    obtain ⟨rfl, rfl⟩ := Prod.mk.inj (Option.some.inj heq)
    exact hsplit
  case isFalse hat =>
    rw [if_neg hat]
    obtain ⟨rfl, rfl⟩ := Prod.mk.inj (Option.some.inj h)
    rfl

theorem isolate_end_split {s s' : Isolated} {size : ℕ}
    (h : isolateEndWithAllocator a s size = some (s', a')) :
    (if s.info.getSize > size then splitAtWithAllocator s.manager a (s.curAddress + size)
      else some (s.manager, a)) = some (s'.manager, a') := by
  rw [isolateEndWithAllocator] at h
  split at h
  case isTrue hgt =>
    rw [if_pos hgt]
    simp only [Option.bind_eq_bind, Option.bind_eq_some_iff] at h
    obtain ⟨⟨m₁, a₁⟩, hsplit, key, -, info, -, heq⟩ := h
    obtain ⟨rfl, rfl⟩ := Prod.mk.inj (Option.some.inj heq)
    exact hsplit
  case isFalse hle =>
    rw [if_neg hle]
    obtain ⟨rfl, rfl⟩ := Prod.mk.inj (Option.some.inj h)
    rfl

theorem update_attribute_loop_with (mask attr : KMemoryAttribute) (stop fuel : ℕ) (h : Tiled m)
    (hb : Balanced others m a) (hs : m.mStartAddress ≤ cur) (he : stop ≤ m.mEndAddress)
    (hal : cur % pageSize = 0) (hsal : stop % pageSize = 0) (has : cur ≤ stop)
    (hroom : cur = stop ∨ Room m a cur)
    (hrun : updateAttributeLoop mask attr stop fuel m cur = some m') :
    ∃ a', updateAttributeLoopWithAllocator mask attr stop fuel m a cur = some (m', a') ∧
      Balanced others m' a' := by
  induction fuel generalizing m a cur with
  | zero =>
    rw [updateAttributeLoop] at hrun
    rw [updateAttributeLoopWithAllocator]
    split at hrun
    case isTrue => cases hrun
    case isFalse hdone =>
      obtain rfl := Option.some.inj hrun
      exact ⟨a, if_neg hdone, hb⟩
  | succ fuel ih =>
    rw [updateAttributeLoop] at hrun
    rw [updateAttributeLoopWithAllocator]
    by_cases hlt : cur < stop
    · obtain ⟨k, x, pre, post, hcut, hk, hax⟩ := locate h hs (by omega)
      have hx : (k, x) ∈ m.memoryBlockTree.entries := by simp [hcut]
      obtain ⟨hfind, hget⟩ := get_located h hx hk hax
      have hsz : cur + (stop - cur) = stop := by omega
      have hroom := hroom.resolve_left (by omega)
      rw [if_pos hlt] at hrun ⊢
      simp only [hfind, hget, Option.bind_eq_bind, Option.bind_some, hsz] at hrun ⊢
      by_cases hattr : x.mAttribute &&& mask = attr
      · -- the block carries the attribute already and is stepped over
        rw [if_neg (not_not.mpr hattr)] at hrun ⊢
        by_cases hin : stop < x.getEndAddress
        · rw [if_pos hin] at hrun ⊢
          exact ih h hb (by omega) he hsal (Nat.le_refl _) (.inl rfl) hrun
        · rw [if_neg hin] at hrun ⊢
          refine ih h hb (by omega) he (end_address_aligned h hx) (by omega) ?_ hrun
          rcases Nat.eq_or_lt_of_le (Nat.not_lt.mp hin) with heq | hmore
          · exact .inl heq
          · exact .inr (hroom.elim .inl fun hone => .inr ⟨hone.1, next_entry h hx (by omega)⟩)
      · rw [if_pos hattr] at hrun ⊢
        obtain ⟨s, hstart, hs₁⟩ := isolate_start_spec (R := fun _ _ => True) stop h hx hk hax hal
          (by omega)
        rw [← hsz] at hs₁
        have hsize : (stop - cur) % pageSize = 0 := by
          simp only [pageSize] at hal hsal ⊢
          omega
        obtain ⟨s', hend, hs₂, hle⟩ := isolate_end_spec hs₁ hal hsize (by omega)
        obtain ⟨a₁, a₂, hwith, hwith', hb', hindex⟩ := isolate_with h hb hx hk hax hroom hal hsize
          (by omega) (by omega) hstart hend
        have hb₁ := entry_bounds hs₁.same.tiled hs₁.mem
        have hb₂ := entry_bounds hs₂.same.tiled hs₂.mem
        have hkey₁ := floor_key_located hs₁.same.tiled hs₁.mem (Nat.le_refl cur) hb₁.2.1
        have hkey₂ := floor_key_located hs₂.same.tiled hs₂.mem (Nat.le_refl cur) hb₂.2.1
        have hget₁ := BTreeMap.get_eq_some_iff.mpr hs₁.mem
        have hget₂ := BTreeMap.get_eq_some_iff.mpr hs₂.mem
        have hman₂ := isolate_end_manager hend
        have hsplit := isolate_start_split hwith
        have hsplit' := isolate_end_split hwith'
        rw [hs₁.cur_eq, hsz] at hman₂ hsplit'
        have hcur : cur + s'.info.getSize = s'.info.getEndAddress := by
          rw [entry_end hs₂.same.tiled hs₂.mem, KMemoryBlock.getSize]
        rw [← isolate_start_manager hstart, hkey₁, hget₁] at hrun
        simp only [Option.bind_some] at hrun
        rw [← hman₂, hkey₂, hget₂] at hrun
        simp only [Option.bind_some, hcur] at hrun
        rw [hsplit]
        simp only [Option.bind_some, hkey₁, hget₁]
        rw [hsplit']
        simp only [Option.bind_some, hkey₂, hget₂, hcur]
        obtain ⟨hrw, -, hgt, hsal', -⟩ := focused_edit (R := fun _ _ => True) hs₂ hle h hx hk hax
          (update_attribute_acts mask attr) (fun _ => trivial) rfl
        have hkey := hs₂.key_eq
        rw [hkey] at hrw
        refine ih hrw.tiled (balanced_modify hb' _) (by rw [hrw.start_eq]; omega)
          (by rw [hrw.end_eq]; omega) hsal' (by omega) ?_ hrun
        rcases Nat.eq_or_lt_of_le hle with heq | hmore
        · exact .inl (by omega)
        · have hnext := room_after (fun b => b.updateAttribute mask attr) hs₂ hindex
            (by omega) hmore
          rw [hkey] at hnext
          exact .inr hnext
    · rw [if_neg hlt] at hrun ⊢
      obtain rfl := Option.some.inj hrun
      exact ⟨a, rfl, hb⟩

theorem length_lockKeys (lockFunc : LockFunction) (perm : KMemoryPermission) (count : ℕ)
    (keys : List (ℕ × ℕ)) (tree : BTreeMap ℕ KMemoryBlock) :
    (lockKeys lockFunc perm count keys tree).len = tree.len := by
  induction keys generalizing tree with
  | nil => rfl
  | cons e keys ih =>
    rw [lockKeys, ih]
    simp [BTreeMap.len, BTreeMap.modify]

end Walk

/-! ### Whole calls -/

/-- The range of a call lies in the region. -/
structure Placed (st nd : ℕ) (c : Call) : Prop where
  aligned : c.address % pageSize = 0
  nonempty : 0 < c.numPages
  start_le : st ≤ c.address
  le_end : c.stop ≤ nd

/-- A call with two nodes in reserve does what the call without an allocator does, and the nodes
stay balanced. -/
theorem run_with {c : Call} (h : Tiled m) (hc : Placed m.mStartAddress m.mEndAddress c)
    (hb : Balanced others m a) (hfresh : a.index = 0) (hrun : c.run m = some m') :
    ∃ a', runWithAllocator m a c = some (m', a') ∧ Balanced others m' a' := by
  have hroom : Room m a c.address := .inl hfresh
  have hlo := hc.start_le
  have hhi := hc.le_end
  have hal := hc.aligned
  rw [Call.stop] at hhi
  cases c with
  | update ad n state perm attr sd cd =>
    simp only [Call.run, KMemoryBlockManager.update, Option.bind_eq_bind,
      Option.bind_eq_some_iff] at hrun
    obtain ⟨m₁, hloop, hmerge⟩ := hrun
    simp only [Call.address, Call.numPages] at hal hlo hhi hroom
    obtain ⟨a₁, hwith, hb₁⟩ := update_loop_with n n h hb
      (block_update_acts state perm attr sd cd (fun b => b.mAddress == ad)) hlo hhi hal
      (Nat.le_refl n) (.inr hroom) hloop
    obtain ⟨a₂, hwith', hb₂⟩ := coalesce_with ad n hb₁ hmerge
    refine ⟨a₂, ?_, hb₂⟩
    simp only [runWithAllocator, updateWithAllocator, hwith, Option.bind_eq_bind, Option.bind_some,
      hwith']
  | updateIfMatch ad n ts tp ta state perm attr sd cd =>
    simp only [Call.run, KMemoryBlockManager.updateIfMatch, Option.bind_eq_bind,
      Option.bind_eq_some_iff] at hrun
    obtain ⟨m₁, hloop, hmerge⟩ := hrun
    simp only [Call.address, Call.numPages] at hal hlo hhi hroom
    obtain ⟨a₁, hwith, hb₁⟩ := update_loop_with n n h hb
      (block_update_acts state perm attr sd cd (fun _ => false)) hlo hhi hal
      (Nat.le_refl n) (.inr hroom) hloop
    obtain ⟨a₂, hwith', hb₂⟩ := coalesce_with ad n hb₁ hmerge
    refine ⟨a₂, ?_, hb₂⟩
    simp only [runWithAllocator, updateIfMatchWithAllocator, hwith, Option.bind_eq_bind,
      Option.bind_some, hwith']
  | updateAttribute ad n mask attr =>
    simp only [Call.run, KMemoryBlockManager.updateAttribute, Option.bind_eq_bind,
      Option.bind_eq_some_iff] at hrun
    obtain ⟨m₁, hloop, hmerge⟩ := hrun
    simp only [Call.address, Call.numPages] at hal hlo hhi hroom
    obtain ⟨a₁, hwith, hb₁⟩ := update_attribute_loop_with mask attr _ n h hb hlo hhi hal
      (by simp only [pageSize] at hal ⊢; omega) (Nat.le_add_right _ _) (.inr hroom) hloop
    obtain ⟨a₂, hwith', hb₂⟩ := coalesce_with ad n hb₁ hmerge
    refine ⟨a₂, ?_, hb₂⟩
    simp only [runWithAllocator, updateAttributeWithAllocator, hwith, Option.bind_eq_bind,
      Option.bind_some, hwith']
  | updateLock ad n perm f =>
    simp only [Call.run, KMemoryBlockManager.updateLock, splitRange] at hrun
    simp only [Call.address, Call.numPages] at hal hlo hhi
    obtain ⟨a₁, hsplit₁, hb₁, hindex₁⟩ := split_at_with ad h hb hlo (by omega)
      (by rw [hfresh]; decide)
    have hsame := split_at_same h hlo (by omega) hal
    have hstart := hsame.start_eq
    have hend := hsame.end_eq
    obtain ⟨a₂, hsplit₂, hb₂, -⟩ := split_at_with (ad + n * pageSize) hsame.tiled hb₁
      (by omega) (by omega) (Nat.lt_of_le_of_lt hindex₁ (by rw [hfresh]; decide))
    obtain ⟨a₃, hwith, hb₃⟩ := coalesce_with ad n
      ⟨hb₂.indexed, by rw [length_lockKeys]; exact hb₂.used⟩ hrun
    refine ⟨a₃, ?_, hb₃⟩
    simp only [runWithAllocator, updateLockWithAllocator, hsplit₁, hsplit₂, Option.bind_eq_bind,
      Option.bind_some, hwith]

/-- A call that is done without an allocator. -/
theorem placed_performs {c : Call} (h : Tiled m) (hc : Placed m.mStartAddress m.mEndAddress c) :
    ∃ m', c.run m = some m' ∧ Rewritten m m' c.address c.stop c.change := by
  have hr : InRange m c.address c.numPages := ⟨hc.aligned, hc.nonempty, hc.start_le, hc.le_end⟩
  have hperforms : Performs (fun _ _ => True) m c.address c.numPages c.change (c.run m) := by
    cases c with
    | update ad n state perm attr sd cd =>
      exact update_spec state perm attr sd cd h hr fun _ _ => trivial
    | updateIfMatch ad n ts tp ta state perm attr sd cd =>
      exact update_if_match_spec state perm attr sd cd h hr (fun _ _ => trivial) ts tp ta
    | updateAttribute ad n mask attr =>
      exact update_attribute_spec h hr mask attr fun _ => trivial
    | updateLock ad n perm f => exact update_lock_spec h hr (f.acts perm) fun _ _ _ => trivial
  obtain ⟨m', hrun, hw, -⟩ := hperforms
  exact ⟨m', hrun, hw⟩

/-- A manager over a slab: its first node comes from the slab, every call reserves two nodes and
drops its allocator, and in between others take nodes and give them back. -/
inductive ReachableSlab (st nd : ℕ) : KMemoryBlockSlabManager → KMemoryBlockManager → Prop
  | start {slab slab' : KMemoryBlockSlabManager} {startBlock : KMemoryBlock}
      (h : slab.allocate = some (startBlock, slab')) :
      ReachableSlab st nd slab' (new.initializeManager st nd startBlock)
  | call {slab : KMemoryBlockSlabManager} {m m' : KMemoryBlockManager}
      {a a' : KMemoryBlockManagerUpdateAllocator} (c : Call) (h : ReachableSlab st nd slab m)
      (hc : Placed st nd c)
      (hnew : KMemoryBlockManagerUpdateAllocator.new slab 2 = some (a, 0))
      (hrun : runWithAllocator m a c = some (m', a')) : ReachableSlab st nd a'.drop m'
  | take {slab slab' : KMemoryBlockSlabManager} {m : KMemoryBlockManager} {b : KMemoryBlock}
      (h : ReachableSlab st nd slab m) (halloc : slab.allocate = some (b, slab')) :
      ReachableSlab st nd slab' m
  | giveBack {slab : KMemoryBlockSlabManager} {m : KMemoryBlockManager} (b : KMemoryBlock)
      (h : ReachableSlab st nd slab m) (hheld : m.memoryBlockTree.len < slab.used) :
      ReachableSlab st nd (slab.free b) m

section Run

variable {st nd : ℕ} {slab : KMemoryBlockSlabManager}

theorem balanced_new (hnew : KMemoryBlockManagerUpdateAllocator.new slab 2 = some (a, 0))
    (hle : m.memoryBlockTree.len ≤ slab.used) :
    Balanced (slab.used - m.memoryBlockTree.len) m a ∧ a.index = 0 := by
  obtain ⟨hindexed, hindex, hused⟩ := new_reserved hnew
  have hzero : a.index = 0 := hindex
  refine ⟨⟨hindexed, ?_⟩, hzero⟩
  rw [hused, hzero, maxBlocks]
  omega

theorem balanced_drop (h : Balanced others m a) :
    a.drop.used = others + m.memoryBlockTree.len := by
  rw [drop_used h.indexed, h.used, Nat.add_sub_cancel]

/-- What a call keeps of a manager that holds nodes of the slab. -/
theorem call_kept {c : Call} (h : Tiled m) (hle : m.memoryBlockTree.len ≤ slab.used)
    (hc : Placed m.mStartAddress m.mEndAddress c)
    (hnew : KMemoryBlockManagerUpdateAllocator.new slab 2 = some (a, 0)) :
    ∃ m' a', runWithAllocator m a c = some (m', a') ∧ c.run m = some m' ∧ WellIndexed a' ∧
      a'.drop.used + m.memoryBlockTree.len = slab.used + m'.memoryBlockTree.len ∧
      Rewritten m m' c.address c.stop c.change := by
  obtain ⟨hb, hfresh⟩ := balanced_new hnew hle
  obtain ⟨m', hrun, hw⟩ := placed_performs h hc
  obtain ⟨a', hwith, hb'⟩ := run_with h hc hb hfresh hrun
  refine ⟨m', a', hwith, hrun, hb'.indexed, ?_, hw⟩
  rw [balanced_drop hb']
  omega

theorem reachable_kept (hst : st % pageSize = 0) (hnd : nd % pageSize = 0) (hlt : st < nd)
    (h : ReachableSlab st nd slab m) :
    (Tiled m ∧ m.mStartAddress = st ∧ m.mEndAddress = nd) ∧
      m.memoryBlockTree.len ≤ slab.used := by
  induction h with
  | start halloc =>
    refine ⟨⟨initialize_tiled hst hnd hlt _, rfl, rfl⟩, ?_⟩
    rw [used_allocate halloc, BTreeMap.len, initialize_entries]
    exact Nat.le_add_left _ _
  | call c _ hc hnew hrun ih =>
    obtain ⟨⟨htiled, hstart, hend⟩, hle⟩ := ih
    obtain ⟨m', a', hwith, -, -, hused, hw⟩ :=
      call_kept htiled hle (by rw [hstart, hend]; exact hc) hnew
    rw [hrun] at hwith
    obtain ⟨rfl, rfl⟩ := Prod.mk.inj (Option.some.inj hwith)
    exact ⟨⟨hw.tiled, hw.start_eq.trans hstart, hw.end_eq.trans hend⟩, by omega⟩
  | take _ halloc ih =>
    refine ⟨ih.1, ?_⟩
    rw [used_allocate halloc]
    exact Nat.le_succ_of_le ih.2
  | giveBack b _ hheld ih => exact ⟨ih.1, Nat.le_sub_one_of_lt hheld⟩

/-- Every call with two nodes in reserve finds the nodes it needs, does what the call without an
allocator does, and changes the nodes in use by as many as the blocks of the tree. -/
theorem reserved_call_balances {c : Call} (hst : st % pageSize = 0) (hnd : nd % pageSize = 0)
    (h : ReachableSlab st nd slab m) (hc : Placed st nd c)
    (hnew : KMemoryBlockManagerUpdateAllocator.new slab 2 = some (a, 0)) :
    ∃ m' a', runWithAllocator m a c = some (m', a') ∧ c.run m = some m' ∧ WellIndexed a' ∧
      a'.drop.used + m.memoryBlockTree.len = slab.used + m'.memoryBlockTree.len := by
  have hlt : st < nd := by
    have hlo := hc.start_le
    have hhi := hc.le_end
    have hpos := Nat.mul_pos hc.nonempty (show 0 < pageSize by decide)
    rw [Call.stop] at hhi
    omega
  obtain ⟨⟨htiled, hstart, hend⟩, hle⟩ := reachable_kept hst hnd hlt h
  obtain ⟨m', a', hwith, hrun, hindexed, hused, -⟩ :=
    call_kept htiled hle (by rw [hstart, hend]; exact hc) hnew
  exact ⟨m', a', hwith, hrun, hindexed, hused⟩

end Run

/-- A slab of four nodes, one of which went into the manager. -/
def fourNodes : KMemoryBlockSlabManager :=
  ⟨List.replicate 4 KMemoryBlock.new, 4, 0, 0, none, 1⟩

/-- Remapping the middle page of three, which takes both nodes. -/
theorem reserved_call_balances_middle :
    ∃ m' a', runWithAllocator (new.initializeManager 0 12288 KMemoryBlock.new)
        ⟨[some KMemoryBlock.new, some KMemoryBlock.new], 0,
          ⟨[KMemoryBlock.new], 4, 3, 3, none, 1⟩⟩
        (.update 4096 1 KMemoryState.normal KMemoryPermission.userReadWrite KMemoryAttribute.none
          0 0) = some (m', a') ∧
      Call.run (new.initializeManager 0 12288 KMemoryBlock.new)
        (.update 4096 1 KMemoryState.normal KMemoryPermission.userReadWrite KMemoryAttribute.none
          0 0) = some m' ∧ WellIndexed a' ∧
      a'.drop.used + 1 = 1 + m'.memoryBlockTree.len :=
  have hstart : fourNodes.allocate = some (KMemoryBlock.new,
      ⟨List.replicate 3 KMemoryBlock.new, 4, 1, 1, none, 1⟩) := rfl
  reserved_call_balances (by decide) (by decide) (.start hstart)
    (⟨by decide, by decide, by decide, by decide⟩ : Placed 0 12288 _) rfl

end Ruzu.MemoryBlockAllocator
