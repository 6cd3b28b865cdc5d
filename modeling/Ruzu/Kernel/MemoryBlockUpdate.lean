import Ruzu.Kernel.MemoryBlockCoalesce

/-!
# What the four update operations do to the pages

Each loop isolates one block at a time, edits it and moves to its end. A pass
over the range edits every page of it once and no other page, and all its
splits and rewrites fall inside the range, so the merging pass that follows
settles every boundary again.
-/

set_option autoImplicit false

namespace Ruzu.MemoryBlockUpdate
open MemoryBlock MemoryBlockManager MemoryBlockTiling MemoryBlockCoalesce Tiling
open KMemoryBlockManager

/-- The pages of `[address, stop)` are rewritten by `f` and no other page changes. -/
structure Rewritten (m m' : KMemoryBlockManager) (address stop : ℕ)
    (f : PageProperties → PageProperties) : Prop where
  tiled : Tiled m'
  start_eq : m'.mStartAddress = m.mStartAddress
  end_eq : m'.mEndAddress = m.mEndAddress
  page : ∀ p, pageAt m' p =
    if address ≤ p ∧ p < stop then (pageAt m p).map f else pageAt m p

variable {m m' m'' : KMemoryBlockManager} {a b c stop : ℕ} {f : PageProperties → PageProperties}
  {R : KMemoryBlock → KMemoryBlock → Prop}

theorem rewritten_nothing (h : Tiled m) : Rewritten m m a a f := by
  refine ⟨h, rfl, rfl, fun p => ?_⟩
  have hp : ¬ (a ≤ p ∧ p < a) := by omega
  simp [hp]

theorem rewritten_append (h : Rewritten m m' a b f) (h' : Rewritten m' m'' b c f) (hab : a ≤ b)
    (hbc : b ≤ c) : Rewritten m m'' a c f := by
  refine ⟨h'.tiled, h'.start_eq.trans h.start_eq, h'.end_eq.trans h.end_eq, fun p => ?_⟩
  rw [h'.page, h.page]
  by_cases hb : p < b
  · rw [if_neg (by omega : ¬ (b ≤ p ∧ p < c))]
    by_cases ha : a ≤ p
    · simp [ha, hb, show p < c by omega]
    · simp [ha]
  · by_cases hc : p < c
    · simp [hb, hc, show b ≤ p by omega, show a ≤ p by omega]
    · simp [hb, hc]

theorem rewritten_same_left (h : SamePages m m') (h' : Rewritten m' m'' a b f) :
    Rewritten m m'' a b f := by
  refine ⟨h'.tiled, h'.start_eq.trans h.start_eq, h'.end_eq.trans h.end_eq, fun p => ?_⟩
  rw [h'.page, h.page]

theorem rewritten_same_right (h : Rewritten m m' a b f) (h' : SamePages m' m'') :
    Rewritten m m'' a b f := by
  refine ⟨h'.tiled, h'.start_eq.trans h.start_eq, h'.end_eq.trans h.end_eq, fun p => ?_⟩
  rw [h'.page, h.page]

/-- A stretch of one block whose pages the rewriting leaves as they are. -/
theorem rewritten_fixed {k : ℕ} {x : KMemoryBlock} (h : Tiled m)
    (hx : (k,x) ∈ m.memoryBlockTree.entries) (ha : k ≤ a) (hb : b ≤ x.getEndAddress)
    (hf : f x.pageProperties = x.pageProperties) : Rewritten m m a b f := by
  refine ⟨h, rfl, rfl, fun p => ?_⟩
  by_cases hp : a ≤ p ∧ p < b
  · rw [if_pos hp, page_at_located h hx (by omega) (by omega), Option.map_some, hf]
  · rw [if_neg hp]

theorem edits_widen {lo hi lo' hi' : ℕ} {l l' : List Entry} (h : Edits R lo' hi' l l')
    (hlo : lo ≤ lo') (hhi : hi' ≤ hi) : Edits R lo hi l l' := by
  refine Relation.ReflTransGen.mono (fun x y hxy => ?_) _ _ h
  cases hxy with
  | divide pre post k a b h1 h2 => exact EditStep.divide pre post k a b (by omega) (by omega)
  | rewrite pre post k b b' hR h1 h2 h3 =>
    refine EditStep.rewrite pre post k b b' hR (by omega) (by omega) fun e he => ?_
    have := h3 e he
    omega

theorem edits_trans {lo hi : ℕ} {l l' l'' : List Entry} (h : Edits R lo hi l l')
    (h' : Edits R lo hi l' l'') : Edits R lo hi l l'' := Relation.ReflTransGen.trans h h'

theorem split_at_edits {lo hi : ℕ} (h : Tiled m) (hs : m.mStartAddress ≤ a)
    (he : a ≤ m.mEndAddress) (hlo : lo ≤ a) (hhi : a ≤ hi) :
    Edits R lo hi m.memoryBlockTree.entries (m.splitAt a).memoryBlockTree.entries := by
  rcases split_at_cases h hs he with ⟨heq, -⟩ | ⟨pre, k, x, post, hcut, -, -, -, -, hcut'⟩
  · rw [heq]
  · rw [hcut, hcut']
    exact Relation.ReflTransGen.single (EditStep.divide pre post k a x hlo hhi)

/-- Editing one block that lies inside the window, as a rewriting of its pages. -/
theorem modify_rewritten (lo hi : ℕ) {k : ℕ} {x : KMemoryBlock} {g : KMemoryBlock → KMemoryBlock}
    (h : Tiled m) (hx : (k,x) ∈ m.memoryBlockTree.entries) (ha : (g x).mAddress = x.mAddress)
    (hn : (g x).mNumPages = x.mNumPages) (hg : (g x).pageProperties = f x.pageProperties)
    (hR : R x (g x)) (hlo : lo ≤ k) (hhi : x.getEndAddress ≤ hi) :
    Rewritten m { m with memoryBlockTree := m.memoryBlockTree.modify k g } k x.getEndAddress f ∧
    Edits R lo hi m.memoryBlockTree.entries (m.memoryBlockTree.modify k g).entries := by
  obtain ⟨htiled, hpage⟩ := modify_pages h hx ha hn
  have hb := entry_bounds h hx
  refine ⟨⟨htiled, rfl, rfl, fun p => ?_⟩, ?_⟩
  · rw [hpage p]
    by_cases hp : k ≤ p ∧ p < x.getEndAddress
    · rw [if_pos hp, if_pos hp, page_at_located h hx hp.1 hp.2, Option.map_some, hg]
    · rw [if_neg hp, if_neg hp]
  · obtain ⟨pre, post, hcut⟩ := List.append_of_mem hx
    have hpost : ∀ e ∈ post.head?, lo ≤ e.1 ∧ e.1 ≤ hi := by
      intro e he
      have ht := h.tiles
      rw [hcut] at ht
      cases post with
      | nil => simp at he
      | cons y post =>
        obtain ⟨-, -, hy, -⟩ := tiles_cut ht
        have hey : y = e := by simpa using he
        have hye : e.1 = x.getEndAddress := by rw [← hey]; exact hy
        omega
    rw [hcut, BTreeMap.modify_cut g hcut]
    exact Relation.ReflTransGen.single (EditStep.rewrite pre post k x (g x) hR hlo (by omega) hpost)

section Isolate

/-- The block at `a` after the splits: same pages as before, splits inside the window. -/
structure Focused (R : KMemoryBlock → KMemoryBlock → Prop) (m : KMemoryBlockManager)
    (a stop : ℕ) (s : Isolated) : Prop where
  same : SamePages m s.manager
  edits : Edits R a stop m.memoryBlockTree.entries s.manager.memoryBlockTree.entries
  key_eq : s.key = a
  cur_eq : s.curAddress = a
  mem : (a,s.info) ∈ s.manager.memoryBlockTree.entries

theorem get_located {k p : ℕ} {x : KMemoryBlock} (h : Tiled m)
    (hx : (k,x) ∈ m.memoryBlockTree.entries) (hk : k ≤ p) (hp : p < x.getEndAddress) :
    m.findKeyContaining p = some k ∧ m.memoryBlockTree.get k = some x :=
  ⟨find_key_located h hx hk hp, BTreeMap.get_eq_some_iff.mpr hx⟩

theorem isolate_start_spec (stop : ℕ) {k : ℕ} {x : KMemoryBlock} (h : Tiled m)
    (hx : (k,x) ∈ m.memoryBlockTree.entries) (hk : k ≤ a) (ha : a < x.getEndAddress)
    (hal : a % pageSize = 0) (hstop : a ≤ stop) :
    ∃ s, isolateStart m a k x = some s ∧ Focused R m a stop s := by
  have hb := entry_bounds h hx
  have haddr := entry_address h hx
  by_cases hka : x.mAddress = a
  · have hk' : k = a := haddr.symm.trans hka
    subst hk'
    exact ⟨⟨m, k, x, k⟩, by simp [isolateStart, hka],
      ⟨same_pages_refl h, Relation.ReflTransGen.refl, rfl, rfl, hx⟩⟩
  · have hsame := split_at_same h (by omega) (by omega) hal
    obtain ⟨y, hy⟩ := split_at_boundary h (by omega) (by omega : a < m.mEndAddress)
    have hyb := entry_bounds hsame.tiled hy
    obtain ⟨hfind, hget⟩ := get_located hsame.tiled hy (le_refl a) (by omega)
    refine ⟨⟨m.splitAt a, a, y, y.mAddress⟩, by simp [isolateStart, hka, hfind, hget], hsame,
      split_at_edits h (by omega) (by omega) (le_refl a) hstop, rfl, ?_, hy⟩
    exact entry_address hsame.tiled hy

theorem isolate_end_spec {s : Isolated} {size : ℕ} (hs : Focused R m a (a + size) s)
    (hal : a % pageSize = 0) (hsz : size % pageSize = 0) (hpos : 0 < size) :
    ∃ s', isolateEnd s size = some s' ∧ Focused R m a (a + size) s' ∧
      s'.info.getEndAddress ≤ a + size := by
  have ht := hs.same.tiled
  have hb := entry_bounds ht hs.mem
  have haddr := entry_address ht hs.mem
  have hend : s.info.getEndAddress = a + s.info.getSize := by
    rw [KMemoryBlock.getEndAddress, haddr]
  by_cases hgt : size < s.info.getSize
  · have hal' : (a + size) % pageSize = 0 := by
      simp only [pageSize] at hal hsz ⊢
      omega
    have hsame := split_at_same ht (by omega : _ ≤ a + size) (by omega) hal'
    -- the block at `a` is now the left half, which ends at the split
    rcases split_at_cases ht (by omega : _ ≤ a + size) (by omega) with
      ⟨-, hend' | ⟨y, hy⟩⟩ | ⟨pre, k, x, post, hcut, hk, hlt, -, -, hcut'⟩
    · omega
    · have hu := tiles_unique ht.tiles hs.mem hy
        (p := a + size) ⟨by simp, by simpa [entryStop, hend] using hgt⟩
        ⟨by simp, (entry_bounds ht hy).2.1⟩
      have : a = a + size := congrArg Prod.fst hu
      omega
    · have hx : (k,x) ∈ s.manager.memoryBlockTree.entries := by simp [hcut]
      have hu := tiles_unique ht.tiles hs.mem hx
        (p := a + size) ⟨by simp, by simpa [entryStop, hend] using hgt⟩ ⟨hk.le, hlt⟩
      have hka : a = k := congrArg Prod.fst hu
      have hxi : s.info = x := congrArg Prod.snd hu
      subst hka
      have hy : (a,(x.split (a + size)).1) ∈
          (s.manager.splitAt (a + size)).memoryBlockTree.entries := by simp [hcut']
      have hyb := entry_bounds hsame.tiled hy
      obtain ⟨hfind, hget⟩ := get_located hsame.tiled hy (le_refl a) hyb.2.1
      refine ⟨⟨s.manager.splitAt (a + size), a, (x.split (a + size)).1, a⟩, ?_,
        ⟨same_pages_trans hs.same hsame, edits_trans hs.edits
          (split_at_edits ht (by omega) (by omega) (by omega) (le_refl _)), rfl, rfl, hy⟩, ?_⟩
      · simp [isolateEnd, hgt, hs.cur_eq, hfind, hget]
      · have hxal : x.mAddress % pageSize = 0 := by
          rw [← hxi, haddr]
          exact hal
        rw [split_left_end (by rw [← hxi, haddr]; omega) hal' hxal]
  · refine ⟨s, by simp [isolateEnd, hgt], hs, by omega⟩

end Isolate

section Loop

variable {shouldUpdate : KMemoryBlock → Bool} {edit : KMemoryBlock → KMemoryBlock}
  {test : PageProperties → Bool} {change : PageProperties → PageProperties}

/-- An edit acts on pages: it keeps the block's place and what it writes is
determined by what the block said about its pages. -/
structure ActsOnPages (edit : KMemoryBlock → KMemoryBlock)
    (change : PageProperties → PageProperties) : Prop where
  address : ∀ x, (edit x).mAddress = x.mAddress
  numPages : ∀ x, (edit x).mNumPages = x.mNumPages
  page : ∀ x, (edit x).pageProperties = change x.pageProperties

theorem end_address_aligned {k : ℕ} {x : KMemoryBlock} (h : Tiled m)
    (hx : (k,x) ∈ m.memoryBlockTree.entries) : x.getEndAddress % pageSize = 0 := by
  have := entry_aligned h hx
  rw [entry_end h hx]
  simp only [pageSize] at this ⊢
  omega

/-- Editing the isolated block, seen from the manager before the splits. -/
theorem focused_edit {k : ℕ} {x : KMemoryBlock} {s : Isolated} (hs : Focused R m a stop s)
    (hle : s.info.getEndAddress ≤ stop) (h : Tiled m) (hx : (k,x) ∈ m.memoryBlockTree.entries)
    (hk : k ≤ a) (ha : a < x.getEndAddress) (hc : ActsOnPages edit change)
    (hR : ∀ x, R x (edit x)) (hf : f x.pageProperties = change x.pageProperties) :
    Rewritten m { s.manager with memoryBlockTree := s.manager.memoryBlockTree.modify s.key edit }
      a s.info.getEndAddress f ∧
    Edits R a stop m.memoryBlockTree.entries
      (s.manager.memoryBlockTree.modify s.key edit).entries ∧
    a < s.info.getEndAddress ∧ s.info.getEndAddress % pageSize = 0 ∧
    s.info.getEndAddress = a + s.info.mNumPages * pageSize := by
  have htiled := hs.same.tiled
  have hbd := entry_bounds htiled hs.mem
  have hpage : s.info.pageProperties = x.pageProperties := by
    have hp := hs.same.page a
    rw [page_at_located htiled hs.mem (le_refl a) hbd.2.1, page_at_located h hx hk ha] at hp
    exact Option.some.inj hp
  obtain ⟨hrw, hed⟩ := modify_rewritten a stop (g := edit) (f := f) htiled hs.mem
    (hc.address _) (hc.numPages _) (by rw [hc.page, hpage, hf])
    (hR _) (le_refl a) hle
  rw [hs.key_eq]
  exact ⟨rewritten_same_left hs.same hrw, edits_trans hs.edits hed, hbd.2.1,
    end_address_aligned htiled hs.mem, entry_end htiled hs.mem⟩

theorem update_loop_done (fuel : ℕ) : updateLoop shouldUpdate edit fuel m a 0 = some m := by
  cases fuel <;> simp [updateLoop]

theorem update_loop_spec (shouldUpdate : KMemoryBlock → Bool) (test : PageProperties → Bool)
    (fuel n : ℕ) (h : Tiled m) (ht : ∀ x, shouldUpdate x = test x.pageProperties) (hc : ActsOnPages edit change)
    (hR : ∀ x, R x (edit x)) (hs : m.mStartAddress ≤ a) (he : a + n * pageSize ≤ m.mEndAddress)
    (hal : a % pageSize = 0) (hf : n ≤ fuel) :
    ∃ m', updateLoop shouldUpdate edit fuel m a n = some m' ∧
      Rewritten m m' a (a + n * pageSize) (fun q => if test q then change q else q) ∧
      Edits R a (a + n * pageSize) m.memoryBlockTree.entries m'.memoryBlockTree.entries := by
  induction fuel generalizing m a n with
  | zero =>
    have hn : n = 0 := by omega
    subst hn
    rw [Nat.zero_mul, Nat.add_zero]
    exact ⟨m, update_loop_done 0, rewritten_nothing h, Relation.ReflTransGen.refl⟩
  | succ fuel ih =>
    by_cases hn : n = 0
    · subst hn
      rw [Nat.zero_mul, Nat.add_zero]
      exact ⟨m, update_loop_done _, rewritten_nothing h, Relation.ReflTransGen.refl⟩
    have hpos : 0 < n * pageSize := Nat.mul_pos (by omega) (by simp [pageSize])
    obtain ⟨k, x, pre, post, hcut, hk, hlt⟩ := locate h hs (by omega)
    have hx : (k,x) ∈ m.memoryBlockTree.entries := by simp [hcut]
    obtain ⟨hfind, hget⟩ := get_located h hx hk hlt
    simp only [updateLoop, if_neg hn, hfind, hget, Option.bind_eq_bind, Option.bind_some]
    by_cases htest : test x.pageProperties = true
    · -- the block is cut to the range and edited
      rw [if_pos (by rw [ht, htest])]
      obtain ⟨s, hstart, hs₁⟩ := isolate_start_spec (R := R) (a + n * pageSize) h hx hk hlt hal
        (by omega)
      obtain ⟨s', hend, hs₂, hle⟩ := isolate_end_spec hs₁ hal (Nat.mul_mod_left n pageSize) hpos
      obtain ⟨hrw, hed, hgt, hsal, hstop⟩ := focused_edit hs₂ hle h hx hk hlt hc hR
        (f := fun q => if test q then change q else q) (if_pos htest)
      have hcur : s'.curAddress + s'.info.getSize = s'.info.getEndAddress := by
        rw [hs₂.cur_eq, hstop, KMemoryBlock.getSize]
      have hsum : s'.info.getEndAddress + (n - s'.info.mNumPages) * pageSize
          = a + n * pageSize := by
        simp only [pageSize] at hstop hle ⊢
        omega
      have hnp : s'.info.mNumPages ≠ 0 := by
        intro hz
        rw [hz] at hstop
        omega
      simp only [hstart, hend, Option.bind_some, hcur]
      obtain ⟨m', hl, hr, hed'⟩ := ih (n - s'.info.mNumPages) hrw.tiled
        (by rw [hrw.start_eq]; omega) (by rw [hrw.end_eq]; omega) hsal (by omega)
      rw [hsum] at hr hed'
      exact ⟨m', hl, rewritten_append hrw hr (by omega) hle,
        edits_trans hed (edits_widen hed' (by omega) (le_refl _))⟩
    · -- the block is stepped over
      rw [if_neg (by rw [ht]; exact htest)]
      have hfix : (fun q => if test q then change q else q) x.pageProperties =
          x.pageProperties := if_neg htest
      by_cases hin : a + n * pageSize < x.getEndAddress
      · rw [if_pos hin, update_loop_done]
        exact ⟨m, rfl, rewritten_fixed h hx hk (by omega) hfix, Relation.ReflTransGen.refl⟩
      · rw [if_neg hin]
        have hxal := end_address_aligned h hx
        have hsum : x.getEndAddress + (a + n * pageSize - x.getEndAddress) / pageSize * pageSize
            = a + n * pageSize := by
          simp only [pageSize] at hal hxal hin ⊢
          omega
        obtain ⟨m', hl, hr, hed⟩ := ih (a := x.getEndAddress)
          ((a + n * pageSize - x.getEndAddress) / pageSize) h (by omega) (by omega) hxal
          (by simp only [pageSize] at hf hin hlt ⊢; omega)
        rw [hsum] at hr hed
        exact ⟨m', hl, rewritten_append (rewritten_fixed h hx hk (le_refl _) hfix) hr
          (by omega) (by omega), edits_widen hed (by omega) (le_refl _)⟩

end Loop

section Attribute

variable {mask attr : KMemoryAttribute}

def changeAttribute (mask attr : KMemoryAttribute) (q : PageProperties) : PageProperties :=
  { q with mAttribute := (q.mAttribute &&& ~~~mask) ||| attr }

theorem update_attribute_acts (mask attr : KMemoryAttribute) :
    ActsOnPages (fun b => b.updateAttribute mask attr) (changeAttribute mask attr) :=
  ⟨fun _ => rfl, fun _ => rfl, fun _ => rfl⟩

theorem change_attribute_fixed {q : PageProperties} (h : q.mAttribute &&& mask = attr) :
    changeAttribute mask attr q = q := by
  have ha : (q.mAttribute &&& ~~~mask) ||| attr = q.mAttribute := by
    rw [← h, ← BitVec.and_or_distrib_left, BitVec.not_or_self]
    exact BitVec.and_allOnes
  rw [changeAttribute, ha]

theorem floor_key_located {k : ℕ} {x : KMemoryBlock} (h : Tiled m)
    (hx : (k,x) ∈ m.memoryBlockTree.entries) (hk : k ≤ a) (ha : a < x.getEndAddress) :
    m.floorKey a = k := by
  obtain ⟨pre, post, hcut⟩ := List.append_of_mem hx
  simp [floorKey, floor_located h hcut hk ha]

theorem isolate_start_manager {k : ℕ} {x : KMemoryBlock} {s : Isolated}
    (h : isolateStart m a k x = some s) :
    s.manager = if x.mAddress ≠ a then m.splitAt a else m := by
  unfold isolateStart at h
  by_cases hx : x.mAddress ≠ a
  · rw [if_pos hx] at h ⊢
    simp only [Option.bind_eq_bind, Option.bind_eq_some_iff, Option.some.injEq] at h
    obtain ⟨-, -, -, -, rfl⟩ := h
    rfl
  · rw [if_neg hx] at h ⊢
    cases h
    rfl

theorem isolate_end_manager {s s' : Isolated} {size : ℕ} (h : isolateEnd s size = some s') :
    s'.manager = if s.info.getSize > size then s.manager.splitAt (s.curAddress + size)
      else s.manager := by
  unfold isolateEnd at h
  by_cases hs : s.info.getSize > size
  · rw [if_pos hs] at h ⊢
    simp only [Option.bind_eq_bind, Option.bind_eq_some_iff, Option.some.injEq] at h
    obtain ⟨-, -, -, -, rfl⟩ := h
    rfl
  · rw [if_neg hs] at h ⊢
    cases h
    rfl

theorem update_attribute_loop_spec (mask attr : KMemoryAttribute) (stop fuel : ℕ) (h : Tiled m)
    (hR : ∀ x, R x (x.updateAttribute mask attr)) (hs : m.mStartAddress ≤ a)
    (he : stop ≤ m.mEndAddress) (hal : a % pageSize = 0) (hsal : stop % pageSize = 0)
    (has : a ≤ stop) (hf : stop - a ≤ fuel * pageSize) :
    ∃ m', updateAttributeLoop mask attr stop fuel m a = some m' ∧
      Rewritten m m' a stop (changeAttribute mask attr) ∧
      Edits R a stop m.memoryBlockTree.entries m'.memoryBlockTree.entries := by
  induction fuel generalizing m a with
  | zero =>
    have hst : stop = a := by omega
    subst hst
    exact ⟨m, by simp [updateAttributeLoop], rewritten_nothing h, Relation.ReflTransGen.refl⟩
  | succ fuel ih =>
    by_cases hlt : a < stop
    · obtain ⟨k, x, pre, post, hcut, hk, hax⟩ := locate h hs (by omega)
      have hx : (k,x) ∈ m.memoryBlockTree.entries := by simp [hcut]
      obtain ⟨hfind, hget⟩ := get_located h hx hk hax
      have hsz : a + (stop - a) = stop := by omega
      simp only [updateAttributeLoop, if_pos hlt, hfind, hget, Option.bind_eq_bind,
        Option.bind_some, hsz]
      by_cases hattr : x.mAttribute &&& mask = attr
      · -- the block carries the attribute already and is stepped over
        rw [if_neg (by simpa using hattr)]
        have hfix : changeAttribute mask attr x.pageProperties = x.pageProperties :=
          change_attribute_fixed hattr
        by_cases hin : stop < x.getEndAddress
        · rw [if_pos hin]
          refine ⟨m, ?_, rewritten_fixed h hx hk (by omega) hfix, Relation.ReflTransGen.refl⟩
          cases fuel <;> simp [updateAttributeLoop]
        · rw [if_neg hin]
          have hxal := end_address_aligned h hx
          obtain ⟨m', hl, hr, hed⟩ := ih (a := x.getEndAddress) h (by omega) he hxal (by omega)
            (by simp only [pageSize] at hal hsal hxal hf ⊢; omega)
          exact ⟨m', hl, rewritten_append (rewritten_fixed h hx hk (le_refl _) hfix) hr
            (by omega) (by omega), edits_widen hed (by omega) (le_refl _)⟩
      · rw [if_pos hattr]
        obtain ⟨s, hstart, hs₁⟩ := isolate_start_spec (R := R) stop h hx hk hax hal (by omega)
        rw [← hsz] at hs₁
        obtain ⟨s', hend, hs₂, hle⟩ := isolate_end_spec hs₁ hal
          (by simp only [pageSize] at hal hsal ⊢; omega) (by omega)
        have hb₁ := entry_bounds hs₁.same.tiled hs₁.mem
        have hb₂ := entry_bounds hs₂.same.tiled hs₂.mem
        have hkey₁ := floor_key_located hs₁.same.tiled hs₁.mem (le_refl a) hb₁.2.1
        have hkey₂ := floor_key_located hs₂.same.tiled hs₂.mem (le_refl a) hb₂.2.1
        have hget₁ := BTreeMap.get_eq_some_iff.mpr hs₁.mem
        have hget₂ := BTreeMap.get_eq_some_iff.mpr hs₂.mem
        have hman₂ := isolate_end_manager hend
        rw [hs₁.cur_eq, hsz] at hman₂
        rw [← isolate_start_manager hstart, hkey₁, hget₁]
        simp only [Option.bind_some]
        rw [← hman₂, hkey₂, hget₂]
        have hcur : a + s'.info.getSize = s'.info.getEndAddress := by
          rw [entry_end hs₂.same.tiled hs₂.mem, KMemoryBlock.getSize]
        rw [hsz] at hs₂ hle
        obtain ⟨hrw, hed, hgt, hsal', -⟩ := focused_edit hs₂ hle h hx hk hax
          (update_attribute_acts mask attr) hR rfl
        rw [hs₂.key_eq] at hrw hed
        simp only [Option.bind_some, hcur]
        obtain ⟨m', hl, hr, hed'⟩ := ih hrw.tiled (by rw [hrw.start_eq]; omega)
          (by rw [hrw.end_eq]; omega) hsal' hle
          (by simp only [pageSize] at hal hsal hsal' hf ⊢; omega)
        exact ⟨m', hl, rewritten_append hrw hr (by omega) hle,
          edits_trans hed (edits_widen hed' (by omega) (le_refl _))⟩
    · have hst : stop = a := by omega
      subst hst
      exact ⟨m, by simp [updateAttributeLoop], rewritten_nothing h, Relation.ReflTransGen.refl⟩

end Attribute

section Lock

/-- The address is the end of the range or the start of a block. -/
def Boundary (m : KMemoryBlockManager) (x : ℕ) : Prop :=
  x = m.mEndAddress ∨ ∃ e ∈ m.memoryBlockTree.entries, e.1 = x

theorem split_at_keeps_boundary (h : Tiled m) (hs : m.mStartAddress ≤ a)
    (he : a ≤ m.mEndAddress) {x : ℕ} (hx : Boundary m x) : Boundary (m.splitAt a) x := by
  rcases split_at_cases h hs he with ⟨heq, -⟩ | ⟨pre, k, y, post, hcut, -, -, -, hend, hcut'⟩
  · rwa [heq]
  · rcases hx with hx | ⟨e, hmem, rfl⟩
    · exact Or.inl (by rw [hend, hx])
    · rw [hcut, List.mem_append, List.mem_cons] at hmem
      rcases hmem with hmem | rfl | hmem
      · exact Or.inr ⟨e, by simp [hcut', hmem], rfl⟩
      · exact Or.inr ⟨(k,(y.split a).1), by simp [hcut'], rfl⟩
      · exact Or.inr ⟨e, by simp [hcut', hmem], rfl⟩

theorem split_at_boundary_made (h : Tiled m) (hs : m.mStartAddress ≤ a)
    (he : a ≤ m.mEndAddress) (hal : a % pageSize = 0) : Boundary (m.splitAt a) a := by
  by_cases hlt : a < m.mEndAddress
  · obtain ⟨y, hy⟩ := split_at_boundary h hs hlt
    exact Or.inr ⟨(a,y), hy, rfl⟩
  · have hsame := split_at_same h hs he hal
    exact Or.inl (by rw [hsame.end_eq]; omega)

theorem range_cut {t : BTreeMap ℕ KMemoryBlock} {lo hi : ℕ} {pre seg post : List Entry}
    (hcut : t.entries = pre ++ seg ++ post) (hpre : Tiles Prod.fst entryStop lo a pre)
    (hseg : Tiles Prod.fst entryStop a stop seg) (hpost : Tiles Prod.fst entryStop stop hi post) :
    t.range a stop = seg := by
  have h1 : pre.filter (fun e => a ≤ e.1 ∧ e.1 < stop) = [] := by
    rw [List.filter_eq_nil_iff]
    intro e he
    have := tiles_mem hpre he
    simp only [decide_eq_true_eq]
    omega
  have h2 : seg.filter (fun e => a ≤ e.1 ∧ e.1 < stop) = seg := by
    rw [List.filter_eq_self]
    intro e he
    have := tiles_mem hseg he
    simp only [decide_eq_true_eq]
    omega
  have h3 : post.filter (fun e => a ≤ e.1 ∧ e.1 < stop) = [] := by
    rw [List.filter_eq_nil_iff]
    intro e he
    have := tiles_mem hpost he
    simp only [decide_eq_true_eq]
    omega
  rw [BTreeMap.range, hcut, List.filter_append, List.filter_append, h1, h2, h3]
  simp

/-- With both ends made boundaries, the blocks of the range are a stretch of the tree. -/
theorem split_range_spec (stop : ℕ) (h : Tiled m) (hs : m.mStartAddress ≤ a) (has : a ≤ stop)
    (he : stop ≤ m.mEndAddress) (hal : a % pageSize = 0) (hsal : stop % pageSize = 0) :
    SamePages m (m.splitRange a stop) ∧
    Edits R a stop m.memoryBlockTree.entries (m.splitRange a stop).memoryBlockTree.entries ∧
    ∃ pre seg post, (m.splitRange a stop).memoryBlockTree.entries = pre ++ seg ++ post ∧
      Tiles Prod.fst entryStop a stop seg ∧
      (m.splitRange a stop).keysInRange a stop = seg.map Prod.fst := by
  have h₁ := split_at_same h hs (by omega) hal
  have hstart := h₁.start_eq
  have hend := h₁.end_eq
  have h₂ := split_at_same h₁.tiled (a := stop) (by omega) (by omega) hsal
  have hb₁ := split_at_keeps_boundary h₁.tiled (a := stop) (by omega) (by omega)
    (split_at_boundary_made h hs (by omega) hal)
  have hb₂ := split_at_boundary_made h₁.tiled (a := stop) (by omega) (by omega) hsal
  refine ⟨same_pages_trans h₁ h₂, edits_trans
    (split_at_edits h hs (by omega) (le_refl a) has)
    (split_at_edits h₁.tiled (by omega) (by omega) has (le_refl stop)), ?_⟩
  obtain ⟨pre, rest, hcut, hpre, hrest⟩ := tiles_boundary h₂.tiled.tiles hb₁
  have hb₃ : stop = ((m.splitAt a).splitAt stop).mEndAddress ∨ ∃ e ∈ rest, e.1 = stop := by
    rcases hb₂ with hb₂ | ⟨e, hmem, hes⟩
    · exact Or.inl hb₂
    · rw [hcut, List.mem_append] at hmem
      rcases hmem with hmem | hmem
      · have := tiles_mem hpre hmem
        omega
      · exact Or.inr ⟨e, hmem, hes⟩
  obtain ⟨seg, post, hcut', hseg, hpost⟩ := tiles_boundary hrest hb₃
  have hall : (m.splitRange a stop).memoryBlockTree.entries = pre ++ seg ++ post := by
    rw [splitRange, hcut, hcut', List.append_assoc]
  refine ⟨pre, seg, post, hall, hseg, ?_⟩
  rw [keysInRange, range_cut hall hpre hseg hpost]

theorem lock_keys_spec (lockFunc : LockFunction) (perm : KMemoryPermission) (count i : ℕ) (seg : List Entry) (h : Tiled m)
    (hc : ∀ left right, ActsOnPages (fun x => lockFunc x perm left right) f)
    (hR : ∀ x left right, R x (lockFunc x perm left right)) (hseg : Tiles Prod.fst entryStop a stop seg)
    (hmem : ∀ e ∈ seg, e ∈ m.memoryBlockTree.entries) :
    Rewritten m { m with
      memoryBlockTree := lockKeys lockFunc perm count ((seg.map Prod.fst).zipIdx i)
        m.memoryBlockTree } a stop f ∧
    Edits R a stop m.memoryBlockTree.entries
      (lockKeys lockFunc perm count ((seg.map Prod.fst).zipIdx i) m.memoryBlockTree).entries := by
  induction seg generalizing m a i with
  | nil =>
    have hst : a = stop := hseg
    subst hst
    exact ⟨rewritten_nothing h, Relation.ReflTransGen.refl⟩
  | cons e seg ih =>
    obtain ⟨k, x⟩ := e
    obtain ⟨hk, hlt, hrest⟩ := hseg
    have hka : k = a := hk
    subst hka
    have hx := hmem (k,x) (by simp)
    have hle := tiles_le hrest
    have hact := hc (i == 0) (i == count-1)
    obtain ⟨hrw, hed⟩ := modify_rewritten k stop
      (g := fun b => lockFunc b perm (i == 0) (i == count-1)) h hx (hact.address x) (hact.numPages x) (hact.page x) (hR x _ _) (le_refl k) hle
    have hmem' : ∀ e ∈ seg, e ∈ (m.memoryBlockTree.modify k
        (fun b => lockFunc b perm (i == 0) (i == count-1))).entries := by
      intro e he
      have hne : e.1 ≠ k := by
        have hge := (tiles_mem hrest he).1
        have hlt' : k < x.getEndAddress := hlt
        have hge' : x.getEndAddress ≤ e.1 := hge
        omega
      refine List.mem_map.mpr ⟨e, hmem e (by simp [he]), ?_⟩
      simp [BTreeMap.alterEntry, hne]
    obtain ⟨hr, hed'⟩ := ih (i+1) hrw.tiled hrest hmem'
    have hlt' : k < x.getEndAddress := hlt
    exact ⟨rewritten_append hrw hr (by omega) hle,
      edits_trans hed (edits_widen hed' (by omega) (le_refl _))⟩

end Lock

section Operations

/-- A call returns a manager whose pages are rewritten by `f` in the range
only, and a tree with nothing left to merge stays one. The new tree comes from
the old one by edits in `R` and merges. -/
def Performs (R : KMemoryBlock → KMemoryBlock → Prop) (m : KMemoryBlockManager)
    (address numPages : ℕ) (f : PageProperties → PageProperties)
    (r : Option KMemoryBlockManager) : Prop :=
  ∃ m', r = some m' ∧ Rewritten m m' address (address + numPages * pageSize) f ∧
    (NoMerge m.memoryBlockTree.entries → NoMerge m'.memoryBlockTree.entries) ∧
    ∃ l, Edits R address (address + numPages * pageSize) m.memoryBlockTree.entries l ∧
      Joins l m'.memoryBlockTree.entries

/-- The range of a call: aligned, non-empty, inside the manager's own range. -/
structure InRange (m : KMemoryBlockManager) (address numPages : ℕ) : Prop where
  aligned : address % pageSize = 0
  nonempty : 0 < numPages
  start_le : m.mStartAddress ≤ address
  le_end : address + numPages * pageSize ≤ m.mEndAddress

theorem coalesce_performs {n : ℕ} (hr : InRange m a n)
    (hw : Rewritten m m' a (a + n * pageSize) f)
    (hed : Edits R a (a + n * pageSize) m.memoryBlockTree.entries m'.memoryBlockTree.entries) :
    Performs R m a n f (m'.coalesceForUpdate a n) := by
  have hpos : 0 < n * pageSize := Nat.mul_pos hr.nonempty (by simp [pageSize])
  have hlo := hr.start_le
  have hhi := hr.le_end
  obtain ⟨m'', hc, hsame, hjoins, hno⟩ := coalesce_spec a n hw.tiled
    (by rw [hw.start_eq]; omega) (by rw [hw.end_eq]; omega : a < m'.mEndAddress)
  exact ⟨m'', hc, rewritten_same_right hw hsame, fun h => hno (edits_merge_within hed h),
    m'.memoryBlockTree.entries, hed, hjoins⟩

section Update

variable (state : KMemoryState) (perm : KMemoryPermission) (attr : KMemoryAttribute)
  (setDisableAttr clearDisableAttr : KMemoryBlockDisableMergeAttribute)

theorem block_update_acts (first : KMemoryBlock → Bool) :
    ActsOnPages (fun b => b.update state perm attr (first b) setDisableAttr clearDisableAttr)
      (fun q => q.set state perm attr) :=
  ⟨fun _ => rfl, fun _ => rfl, fun _ => KMemoryBlock.update_page _ _ _ _ _ _ _⟩

/-- The pages `update` touches are those without the requested properties. -/
def changeUpdate (q : PageProperties) : PageProperties :=
  if q.hasProperties state perm attr then q else q.set state perm attr

def changeIfMatch (testState : KMemoryState) (testPerm : KMemoryPermission)
    (testAttr : KMemoryAttribute) (q : PageProperties) : PageProperties :=
  if q.hasProperties testState testPerm testAttr then changeUpdate state perm attr q else q

theorem update_spec {n : ℕ} (h : Tiled m) (hr : InRange m a n)
    (hR : ∀ x first, R x (x.update state perm attr first setDisableAttr clearDisableAttr)) :
    Performs R m a n (changeUpdate state perm attr)
      (m.update a n state perm attr setDisableAttr clearDisableAttr) := by
  obtain ⟨m₁, hl, hw, hed⟩ := update_loop_spec
    (fun b => !b.hasProperties state perm attr) (fun q => !q.hasProperties state perm attr)
    n n h (fun _ => rfl)
    (block_update_acts state perm attr setDisableAttr clearDisableAttr
      (fun b => b.mAddress == a)) (fun x => hR x _) hr.start_le hr.le_end hr.aligned (le_refl n)
  have hf : (fun q : PageProperties => if (!q.hasProperties state perm attr) = true
      then q.set state perm attr else q) = changeUpdate state perm attr := by
    funext q
    cases hq : q.hasProperties state perm attr <;> simp [changeUpdate, hq]
  rw [hf] at hw
  simpa [KMemoryBlockManager.update, hl] using coalesce_performs hr hw hed

theorem update_if_match_spec {n : ℕ} (h : Tiled m) (hr : InRange m a n)
    (hR : ∀ x first, R x (x.update state perm attr first setDisableAttr clearDisableAttr))
    (testState : KMemoryState) (testPerm : KMemoryPermission) (testAttr : KMemoryAttribute) :
    Performs R m a n (changeIfMatch state perm attr testState testPerm testAttr)
      (m.updateIfMatch a n testState testPerm testAttr state perm attr setDisableAttr
        clearDisableAttr) := by
  obtain ⟨m₁, hl, hw, hed⟩ := update_loop_spec
    (fun b => b.hasProperties testState testPerm testAttr && !b.hasProperties state perm attr)
    (fun q => q.hasProperties testState testPerm testAttr && !q.hasProperties state perm attr)
    n n h (fun _ => rfl)
    (block_update_acts state perm attr setDisableAttr clearDisableAttr (fun _ => false))
    (fun x => hR x false) hr.start_le hr.le_end hr.aligned (le_refl n)
  have hf : (fun q : PageProperties => if (q.hasProperties testState testPerm testAttr &&
      !q.hasProperties state perm attr) = true then q.set state perm attr else q) =
      changeIfMatch state perm attr testState testPerm testAttr := by
    funext q
    cases ht : q.hasProperties testState testPerm testAttr <;>
      cases hq : q.hasProperties state perm attr <;> simp [changeIfMatch, changeUpdate, ht, hq]
  rw [hf] at hw
  simpa [KMemoryBlockManager.updateIfMatch, hl] using coalesce_performs hr hw hed

end Update

theorem update_attribute_spec {n : ℕ} (h : Tiled m) (hr : InRange m a n)
    (mask attr : KMemoryAttribute) (hR : ∀ x, R x (x.updateAttribute mask attr)) :
    Performs R m a n (changeAttribute mask attr) (m.updateAttribute a n mask attr) := by
  obtain ⟨m₁, hl, hw, hed⟩ := update_attribute_loop_spec mask attr (a + n * pageSize)
    n h hR hr.start_le hr.le_end hr.aligned
    (by have := hr.aligned; simp only [pageSize] at this ⊢; omega) (by omega) (by omega)
  simpa [KMemoryBlockManager.updateAttribute, hl] using coalesce_performs hr hw hed

theorem update_lock_spec {n : ℕ} {lockFunc : LockFunction} {perm : KMemoryPermission}
    (h : Tiled m) (hr : InRange m a n)
    (hc : ∀ left right, ActsOnPages (fun x => lockFunc x perm left right) f)
    (hR : ∀ x left right, R x (lockFunc x perm left right)) :
    Performs R m a n f (m.updateLock a n perm lockFunc) := by
  obtain ⟨hsame, hed, pre, seg, post, hcut, hseg, hkeys⟩ := split_range_spec (R := R)
    (a + n * pageSize) h hr.start_le (by omega) hr.le_end hr.aligned
    (by have := hr.aligned; simp only [pageSize] at this ⊢; omega)
  obtain ⟨hrw, hed'⟩ := lock_keys_spec lockFunc perm
    (seg.map Prod.fst).length 0 seg hsame.tiled hc hR hseg (fun e he => by simp [hcut, he])
  have hp := coalesce_performs hr (rewritten_same_left hsame hrw) (edits_trans hed hed')
  rw [← hkeys] at hp
  exact hp

end Operations

end Ruzu.MemoryBlockUpdate
