import Ruzu.Lib.Tiling
import Ruzu.Kernel.MemoryBlockManager

/-!
# The block tree tiles the address range

`Tiled` is the shape every operation keeps: entries keyed by their own
address, non-empty, and following one another from the manager's start to its
end. A tiled tree reads as a function from addresses to page properties, and
the primitive edits are described by how they cut the entry list.
-/

set_option autoImplicit false

namespace Ruzu.MemoryBlockTiling
open MemoryBlock MemoryBlockManager Tiling
open KMemoryBlockManager

abbrev Entry := ℕ × KMemoryBlock

def entryStop (e : Entry) : ℕ := e.2.getEndAddress

structure Tiled (m : KMemoryBlockManager) : Prop where
  tiles : Tiles Prod.fst entryStop m.mStartAddress m.mEndAddress m.memoryBlockTree.entries
  keyed : ∀ e ∈ m.memoryBlockTree.entries, e.2.mAddress = e.1
  aligned : m.mStartAddress % pageSize = 0

def pageAt (m : KMemoryBlockManager) (p : ℕ) : Option PageProperties :=
  (m.findBlock p).map KMemoryBlock.pageProperties

theorem tiles_aligned {lo hi : ℕ} {l : List Entry} (h : Tiles Prod.fst entryStop lo hi l)
    (hk : ∀ e ∈ l, e.2.mAddress = e.1) (ha : lo % pageSize = 0) :
    (∀ e ∈ l, e.1 % pageSize = 0) ∧ hi % pageSize = 0 := by
  induction l generalizing lo with
  | nil =>
    have hlo : lo = hi := h
    simp [← hlo, ha]
  | cons e l ih =>
    obtain ⟨he, -, hl⟩ := h
    have hstop : entryStop e % pageSize = 0 := by
      have hke := hk e (by simp)
      simp only [entryStop, KMemoryBlock.getEndAddress, KMemoryBlock.getSize, pageSize] at *
      omega
    obtain ⟨hmem, hhi⟩ := ih hl (fun x hx => hk x (by simp [hx])) hstop
    refine ⟨fun x hx => ?_, hhi⟩
    rcases List.mem_cons.mp hx with rfl | hx
    · rwa [he]
    · exact hmem x hx

section Located

variable {m : KMemoryBlockManager} {p k : ℕ} {b : KMemoryBlock} {pre post : List Entry}

theorem entry_aligned (h : Tiled m) {e : Entry} (he : e ∈ m.memoryBlockTree.entries) :
    e.1 % pageSize = 0 := (tiles_aligned h.tiles h.keyed h.aligned).1 e he

theorem end_aligned (h : Tiled m) : m.mEndAddress % pageSize = 0 :=
  (tiles_aligned h.tiles h.keyed h.aligned).2

theorem entry_bounds (h : Tiled m) (hb : (k,b) ∈ m.memoryBlockTree.entries) :
    m.mStartAddress ≤ k ∧ k < b.getEndAddress ∧ b.getEndAddress ≤ m.mEndAddress :=
  tiles_mem h.tiles hb

theorem entry_address (h : Tiled m) (hb : (k,b) ∈ m.memoryBlockTree.entries) :
    b.mAddress = k := h.keyed (k,b) hb

theorem entry_end (h : Tiled m) (hb : (k,b) ∈ m.memoryBlockTree.entries) :
    b.getEndAddress = k + b.mNumPages * pageSize := by
  rw [KMemoryBlock.getEndAddress, entry_address h hb, KMemoryBlock.getSize]

theorem entry_covers (h : Tiled m) (hb : (k,b) ∈ m.memoryBlockTree.entries) :
    covers b p ↔ k ≤ p ∧ p < b.getEndAddress := by
  rw [covers, entry_address h hb]

theorem later_entries (h : Tiled m) (hcut : m.memoryBlockTree.entries = pre ++ (k,b) :: post) :
    ∀ e ∈ post, b.getEndAddress ≤ e.1 := by
  intro e he
  have ho := tiles_ordered h.tiles
  rw [hcut, List.pairwise_append, List.pairwise_cons] at ho
  exact ho.2.1.1 e he

theorem floor_located (h : Tiled m) (hcut : m.memoryBlockTree.entries = pre ++ (k,b) :: post)
    (hk : k ≤ p) (hp : p < b.getEndAddress) : m.memoryBlockTree.floor p = some (k,b) :=
  BTreeMap.floor_cut hcut hk fun e he => Nat.lt_of_lt_of_le hp (later_entries h hcut e he)

/-- The block over an address, with the cut of the tree it makes. -/
theorem locate (h : Tiled m) (hlo : m.mStartAddress ≤ p) (hhi : p < m.mEndAddress) :
    ∃ k b pre post, m.memoryBlockTree.entries = pre ++ (k,b) :: post ∧ k ≤ p ∧
      p < b.getEndAddress := by
  obtain ⟨⟨k,b⟩, hmem, hk, hp⟩ := tiles_cover h.tiles hlo hhi
  obtain ⟨pre, post, hcut⟩ := List.append_of_mem hmem
  exact ⟨k, b, pre, post, hcut, hk, hp⟩

theorem find_key_located (h : Tiled m) (hb : (k,b) ∈ m.memoryBlockTree.entries) (hk : k ≤ p)
    (hp : p < b.getEndAddress) : m.findKeyContaining p = some k := by
  obtain ⟨pre, post, hcut⟩ := List.append_of_mem hb
  rw [findKeyContaining, floor_located h hcut hk hp]
  simp [(entry_covers h hb).mpr ⟨hk, hp⟩]

theorem find_block_located (h : Tiled m) (hb : (k,b) ∈ m.memoryBlockTree.entries) (hk : k ≤ p)
    (hp : p < b.getEndAddress) : m.findBlock p = some b := by
  obtain ⟨pre, post, hcut⟩ := List.append_of_mem hb
  rw [findBlock, floor_located h hcut hk hp]
  simp [(entry_covers h hb).mpr ⟨hk, hp⟩]

theorem find_block_mem (h : Tiled m) (hf : m.findBlock p = some b) :
    (b.mAddress,b) ∈ m.memoryBlockTree.entries ∧ b.mAddress ≤ p ∧ p < b.getEndAddress := by
  unfold findBlock at hf
  cases hfl : m.memoryBlockTree.floor p with
  | none => simp [hfl] at hf
  | some e =>
    obtain ⟨hmem, -⟩ := BTreeMap.floor_eq_some hfl
    simp only [hfl, Option.ite_none_right_eq_some, Option.some.injEq] at hf
    obtain ⟨hc, rfl⟩ := hf
    exact ⟨by rwa [entry_address h (k := e.1) hmem], hc.1, hc.2⟩

/-- Reading a page through `find_block` is reading the tiling. -/
theorem page_at_value (h : Tiled m) (p : ℕ) :
    pageAt m p = valueAt Prod.fst entryStop (fun e => e.2.pageProperties)
      m.memoryBlockTree.entries p := by
  by_cases hp : m.mStartAddress ≤ p ∧ p < m.mEndAddress
  · obtain ⟨k, b, pre, post, hcut, hk, hlt⟩ := locate h hp.1 hp.2
    have hb : (k,b) ∈ m.memoryBlockTree.entries := by simp [hcut]
    rw [pageAt, find_block_located h hb hk hlt,
      value_at_mem (fun e => e.2.pageProperties) h.tiles hb ⟨hk, hlt⟩]
    rfl
  · have hn := mt (value_at_isSome (fun e : Entry => e.2.pageProperties) h.tiles).mp hp
    rw [Option.not_isSome_iff_eq_none] at hn
    rw [hn, pageAt, Option.map_eq_none_iff]
    cases hf : m.findBlock p with
    | none => rfl
    | some b =>
      obtain ⟨hmem, hlo, hhi⟩ := find_block_mem h hf
      have hbd := entry_bounds h hmem
      omega

theorem page_at_located (h : Tiled m) (hb : (k,b) ∈ m.memoryBlockTree.entries) (hk : k ≤ p)
    (hp : p < b.getEndAddress) : pageAt m p = some b.pageProperties := by
  rw [pageAt, find_block_located h hb hk hp]
  rfl

end Located

/-- The same range, tiled by a list of entries that reads the same everywhere. -/
structure SamePages (m m' : KMemoryBlockManager) : Prop where
  tiled : Tiled m'
  start_eq : m'.mStartAddress = m.mStartAddress
  end_eq : m'.mEndAddress = m.mEndAddress
  page : ∀ p, pageAt m' p = pageAt m p

theorem same_pages_refl {m : KMemoryBlockManager} (h : Tiled m) : SamePages m m :=
  ⟨h, rfl, rfl, fun _ => rfl⟩

theorem same_pages_trans {m m' m'' : KMemoryBlockManager} (h : SamePages m m')
    (h' : SamePages m' m'') : SamePages m m'' :=
  ⟨h'.tiled, h'.start_eq.trans h.start_eq, h'.end_eq.trans h.end_eq,
    fun p => (h'.page p).trans (h.page p)⟩

section Edits

variable {m m' : KMemoryBlockManager} {k a : ℕ} {b c n : KMemoryBlock} {pre post : List Entry}

theorem tiled_of_entries (h : Tiled m) (hs : m'.mStartAddress = m.mStartAddress)
    (he : m'.mEndAddress = m.mEndAddress)
    (ht : Tiles Prod.fst entryStop m.mStartAddress m.mEndAddress m'.memoryBlockTree.entries)
    (hk : ∀ e ∈ m'.memoryBlockTree.entries, e.2.mAddress = e.1) : Tiled m' :=
  ⟨by rwa [hs, he], hk, by rw [hs]; exact h.aligned⟩

theorem split_left_end (ha : b.mAddress < a) (hal : a % pageSize = 0)
    (hb : b.mAddress % pageSize = 0) : (b.split a).1.getEndAddress = a := by
  simp only [KMemoryBlock.split, KMemoryBlock.getEndAddress, KMemoryBlock.getSize, pageSize] at *
  omega

theorem split_right_end (ha : b.mAddress < a) (hlt : a < b.getEndAddress)
    (hal : a % pageSize = 0) (hb : b.mAddress % pageSize = 0) :
    (b.split a).2.getEndAddress = b.getEndAddress := by
  simp only [KMemoryBlock.split, KMemoryBlock.getEndAddress, KMemoryBlock.getSize, pageSize] at *
  omega

/-- The two outcomes of `split_at`: the address was a boundary already, or the
block over it is replaced by its two halves. -/
theorem split_at_cases (h : Tiled m) (hlo : m.mStartAddress ≤ a) (hhi : a ≤ m.mEndAddress) :
    (m.splitAt a = m ∧ (a = m.mEndAddress ∨ ∃ b, (a,b) ∈ m.memoryBlockTree.entries)) ∨
    ∃ pre k b post, m.memoryBlockTree.entries = pre ++ (k,b) :: post ∧ k < a ∧
      a < b.getEndAddress ∧ (m.splitAt a).mStartAddress = m.mStartAddress ∧
      (m.splitAt a).mEndAddress = m.mEndAddress ∧
      (m.splitAt a).memoryBlockTree.entries =
        pre ++ (k,(b.split a).1) :: (a,(b.split a).2) :: post := by
  by_cases hend : a = m.mEndAddress
  · exact Or.inl ⟨by simp [splitAt, hend], Or.inl hend⟩
  obtain ⟨k, b, pre, post, hcut, hk, hlt⟩ := locate h hlo (by omega)
  have hb : (k,b) ∈ m.memoryBlockTree.entries := by simp [hcut]
  have haddr := entry_address h hb
  have hfloor := floor_located h hcut hk hlt
  by_cases hka : k = a
  · subst hka
    refine Or.inl ⟨?_, Or.inr ⟨b, hb⟩⟩
    simp [splitAt, hfloor, haddr]
  · have hst : a ≠ m.mStartAddress := by
      have := entry_bounds h hb
      omega
    have hc : covers b a := (entry_covers h hb).mpr ⟨hk, hlt⟩
    have hpost : ∀ e ∈ post, a < e.1 := fun e he =>
      Nat.lt_of_lt_of_le hlt (later_entries h hcut e he)
    have hcut1 := BTreeMap.insert_gap (k := k) (v := (b.split a).1) (BTreeMap.remove_cut hcut)
      (BTreeMap.cut_below hcut) (BTreeMap.cut_above hcut)
    rw [List.append_cons] at hcut1
    have hpre : ∀ e ∈ pre ++ [(k,(b.split a).1)], e.1 < a := by
      intro e he
      rcases List.mem_append.mp he with he | he
      · have := BTreeMap.cut_below hcut e he
        omega
      · rw [List.mem_singleton.mp he]
        change k < a
        omega
    have hcut2 := BTreeMap.insert_gap (v := (b.split a).2) hcut1 hpre hpost
    refine Or.inr ⟨pre, k, b, post, hcut, by omega, hlt, ?_⟩
    have hsplit : m.splitAt a = { m with memoryBlockTree :=
        ((m.memoryBlockTree.remove k).insert k (b.split a).1).insert a (b.split a).2 } := by
      simp [splitAt, hend, hst, hfloor, hc, haddr, hka]
    rw [hsplit]
    exact ⟨rfl, rfl, by simpa using hcut2⟩

theorem split_at_same (h : Tiled m) (hlo : m.mStartAddress ≤ a) (hhi : a ≤ m.mEndAddress)
    (hal : a % pageSize = 0) : SamePages m (m.splitAt a) := by
  rcases split_at_cases h hlo hhi with ⟨he, -⟩ | ⟨pre, k, b, post, hcut, hka, hlt, hs, he, hcut'⟩
  · rw [he]
    exact same_pages_refl h
  · have hb : (k,b) ∈ m.memoryBlockTree.entries := by simp [hcut]
    have haddr := entry_address h hb
    have hkal : b.mAddress % pageSize = 0 := by
      rw [haddr]
      exact entry_aligned h hb
    have hle : (b.split a).1.getEndAddress = a := split_left_end (by omega) hal hkal
    have hre : (b.split a).2.getEndAddress = b.getEndAddress :=
      split_right_end (by omega) hlt hal hkal
    have ht := h.tiles
    rw [hcut] at ht
    have hdiv : Tiles Prod.fst entryStop m.mStartAddress m.mEndAddress
        (pre ++ (k,(b.split a).1) :: (a,(b.split a).2) :: post) :=
      tiles_divide (x := (k,b)) (y := (k,(b.split a).1)) (z := (a,(b.split a).2)) ht rfl hle hre
        (by simpa [entryStop, hle] using hka) (by simpa [entryStop, hre] using hlt)
    have htiled : Tiled (m.splitAt a) := by
      refine tiled_of_entries h hs he (by rwa [hcut']) fun e hmem => ?_
      rw [hcut'] at hmem
      simp only [List.mem_append, List.mem_cons] at hmem
      rcases hmem with hmem | rfl | rfl | hmem
      · exact h.keyed e (by simp [hcut, hmem])
      · simpa using haddr
      · simp
      · exact h.keyed e (by simp [hcut, hmem])
    refine ⟨htiled, hs, he, fun p => ?_⟩
    rw [page_at_value htiled, page_at_value h, hcut', hcut]
    exact value_at_divide (x := (k,b)) (y := (k,(b.split a).1)) (z := (a,(b.split a).2)) _ ht
      rfl hle hre (by simpa [entryStop, hle] using hka) (by simpa [entryStop, hre] using hlt)
      rfl rfl p

/-- After `split_at`, the address is a boundary. -/
theorem split_at_boundary (h : Tiled m) (hlo : m.mStartAddress ≤ a) (hhi : a < m.mEndAddress) :
    ∃ b, (a,b) ∈ (m.splitAt a).memoryBlockTree.entries := by
  rcases split_at_cases h hlo (Nat.le_of_lt hhi) with ⟨he, hend | hb⟩ | ⟨pre, k, b, post, -, -, -, -, -, hcut⟩
  · omega
  · rwa [he]
  · exact ⟨(b.split a).2, by simp [hcut]⟩

/-- Editing one block in place changes exactly its own pages. -/
theorem modify_pages {f : KMemoryBlock → KMemoryBlock} (h : Tiled m)
    (hb : (k,b) ∈ m.memoryBlockTree.entries) (ha : (f b).mAddress = b.mAddress)
    (hn : (f b).mNumPages = b.mNumPages) :
    Tiled { m with memoryBlockTree := m.memoryBlockTree.modify k f } ∧
    ∀ p, pageAt { m with memoryBlockTree := m.memoryBlockTree.modify k f } p =
      if k ≤ p ∧ p < b.getEndAddress then some (f b).pageProperties else pageAt m p := by
  obtain ⟨pre, post, hcut⟩ := List.append_of_mem hb
  have hcut' := BTreeMap.modify_cut f hcut
  have hstop : entryStop (k,f b) = entryStop (k,b) := by
    simp [entryStop, KMemoryBlock.getEndAddress, KMemoryBlock.getSize, ha, hn]
  have ht := h.tiles
  rw [hcut] at ht
  have htiled : Tiled { m with memoryBlockTree := m.memoryBlockTree.modify k f } := by
    refine tiled_of_entries h rfl rfl (by rw [hcut']; exact tiles_rewrite ht rfl hstop)
      fun e hmem => ?_
    rw [hcut'] at hmem
    simp only [List.mem_append, List.mem_cons] at hmem
    rcases hmem with hmem | rfl | hmem
    · exact h.keyed e (by simp [hcut, hmem])
    · exact ha.trans (entry_address h hb)
    · exact h.keyed e (by simp [hcut, hmem])
  refine ⟨htiled, fun p => ?_⟩
  rw [page_at_value htiled, page_at_value h, hcut, hcut']
  exact value_at_rewrite (x := (k,b)) (y := (k,f b)) _ ht rfl hstop p

/-- Absorbing the next block keeps every page. -/
theorem join_same (h : Tiled m)
    (hcut : m.memoryBlockTree.entries = pre ++ (k,c) :: (a,n) :: post)
    (hm : c.canMergeWith n = true) (hs : m'.mStartAddress = m.mStartAddress)
    (he : m'.mEndAddress = m.mEndAddress)
    (hcut' : m'.memoryBlockTree.entries = pre ++ (k,c.add n) :: post) : SamePages m m' := by
  have hpages : c.pageProperties = n.pageProperties := by
    simp only [KMemoryBlock.canMergeWith, Bool.and_eq_true] at hm
    exact (KMemoryBlock.has_same_properties_iff c n).mp hm.1.1
  have hc : (k,c) ∈ m.memoryBlockTree.entries := by simp [hcut]
  have hn : (a,n) ∈ m.memoryBlockTree.entries := by simp [hcut]
  have ht := h.tiles
  rw [hcut] at ht
  have hadj : c.getEndAddress = a := by
    obtain ⟨-, -, ha, -⟩ := tiles_cut ht
    exact ha.symm
  have hstop : entryStop (k,c.add n) = entryStop (a,n) := by
    have hce := entry_end h hc
    have hne := entry_end h hn
    have hca := entry_address h hc
    simp only [entryStop, KMemoryBlock.getEndAddress, KMemoryBlock.getSize,
      KMemoryBlock.add_address, KMemoryBlock.add_num_pages] at *
    rw [Nat.add_mul]
    omega
  have hjoin : Tiles Prod.fst entryStop m.mStartAddress m.mEndAddress
      (pre ++ (k,c.add n) :: post) := tiles_join ht rfl hstop
  have htiled : Tiled m' := by
    refine tiled_of_entries h hs he (by rwa [hcut']) fun e hmem => ?_
    rw [hcut'] at hmem
    simp only [List.mem_append, List.mem_cons] at hmem
    rcases hmem with hmem | rfl | hmem
    · exact h.keyed e (by simp [hcut, hmem])
    · simpa using entry_address h hc
    · exact h.keyed e (by simp [hcut, hmem])
  refine ⟨htiled, hs, he, fun p => ?_⟩
  rw [page_at_value htiled, page_at_value h, hcut', hcut]
  exact value_at_join (x := (k,c.add n)) _ ht rfl hstop rfl hpages.symm p

end Edits

end Ruzu.MemoryBlockTiling
