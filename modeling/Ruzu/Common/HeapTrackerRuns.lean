import Ruzu.Common.HeapTrackerMaps

/-!
# Runs of the separate heap tracker

The tracker is compared with a host memory in which every separate heap
mapping is in place at once. `Faithful` says that the tracker records exactly
that memory and that the host agrees with it where a mapping is resident and
has nothing where it is not. Faults and evictions leave the compared memory
alone.
-/

set_option autoImplicit false

namespace Ruzu

namespace HostMemory

variable {m : HostMemory} {v n : ℕ} {perm : MemoryPermission}

theorem protect_untouched {x : ℕ} (hx : ¬ (v ≤ x ∧ x < v+n)) : m.protect v n perm x = m x := by
  rw [protect, if_neg hx]

theorem protect_adjacent (a b : ℕ) :
    (m.protect v a perm).protect (v+a) b perm = m.protect v (a+b) perm := by
  funext x
  unfold protect
  by_cases h1 : v+a ≤ x ∧ x < v+a+b
  · rw [if_pos h1, if_neg (by omega), if_pos (by omega)]
  · rw [if_neg h1]
    by_cases h2 : v ≤ x ∧ x < v+a
    · rw [if_pos h2, if_pos (by omega)]
    · rw [if_neg h2, if_neg (by omega)]

/-- A stretch that holds nothing may be skipped. -/
theorem protect_skip (a b : ℕ) (hnone : ∀ x, v ≤ x → x < v+a → m x = none) :
    m.protect (v+a) b perm = m.protect v (a+b) perm := by
  rw [← protect_adjacent]
  congr 1
  funext x
  unfold protect
  split
  · rename_i hx
    rw [hnone x hx.1 hx.2]
    rfl
  · rfl

end HostMemory

namespace HeapTracker

/-- The tracker records `given`, and the host has its resident part. -/
structure Faithful (h : HeapTracker) (given : HostMemory) : Prop extends Sound h.inner where
  recorded : ∀ x, given x = (pageAt h.inner x).map fun w => (w.1, w.2.1)
  backed : ∀ x p q r, pageAt h.inner x = some (p, q, r) →
    h.buffer x = if r = true then some (p, q) else none

variable {h h' : HeapTracker} {given : HostMemory} {perm : MemoryPermission} {k v u : ℕ}
  {d : SeparateHeapMapData} {key : ℕ ×ₗ ℕ}

theorem new_faithful (buffer : HostMemory) (value : Option ℤ) :
    Faithful (new buffer value) fun _ => none := by
  have hnil : (new buffer value).inner.mappings.entries = [] := rfl
  have hl : Laid (new buffer value).inner :=
    ⟨by simp [hnil], by simp [hnil], by simp [hnil]⟩
  have hpage : ∀ x, pageAt (new buffer value).inner x = none := by
    intro x
    rw [pageAt_eq_none hl]
    simp [hnil]
  refine ⟨⟨hl, rfl, rfl, ?_⟩, fun x => by rw [hpage]; rfl, fun x p q r hx => ?_⟩
  · intro k v
    simp [new, BTreeMap.empty]
  · rw [hpage] at hx
    cases hx

/-! ### Eviction -/

theorem nonResident_keeps : KeepsRange nonResident := ⟨fun _ => rfl, fun _ => rfl, fun _ => rfl⟩

theorem resident_keeps (t : ℕ) : KeepsRange (resident t) :=
  ⟨fun _ => rfl, fun _ => rfl, fun _ => rfl⟩

theorem withPerm_keeps (perm : MemoryPermission) : KeepsRange (withPerm perm) :=
  ⟨fun _ => rfl, fun _ => rfl, fun _ => rfl⟩

theorem evict_spec (hf : Faithful h given) (hkey : (key,v) ∈ h.inner.residentMappings.entries) :
    ∃ h', evict h key = some h' ∧ Faithful h' given ∧
      h'.inner.residentMappings = h.inner.residentMappings.remove key := by
  obtain ⟨d, hd, hr, rfl⟩ := (hf.index _ _).mp hkey
  have hv : d.vaddr = v := hf.keyed _ hd
  have hcounts := modify_counts hd nonResident
  rw [if_pos hr, if_neg (by simp [nonResident])] at hcounts
  have hres := hf.resident_count
  have hrun : evict h (toLex (d.tick, v)) = some (dropResident h (toLex (d.tick, v)) v) := by
    simp only [evict, BTreeMap.get_eq_some_iff.mpr hkey, Option.bind_some]
    rw [if_neg (by omega)]
  have hget := BTreeMap.get_eq_some_iff.mpr hd
  refine ⟨_, hrun, ⟨⟨modify_laid hf.toLaid nonResident_keeps rfl, ?_, ?_, ?_⟩, ?_, ?_⟩, rfl⟩
  · simp only [dropResident]
    rw [hf.map_count, hcounts.1]
  · simp only [dropResident]
    omega
  · intro key u
    refine Iff.trans ?_ (mem_modify_resident hd).symm
    simp only [dropResident, BTreeMap.mem_remove, hf.index, nonResident, Bool.false_eq_true, false_and, and_false,
      false_or]
    constructor
    · rintro ⟨⟨w, hw, hwr, rfl⟩, hne⟩
      refine ⟨?_, w, hw, hwr, rfl⟩
      rintro rfl
      exact hne (by rw [BTreeMap.key_injective hw hd])
    · rintro ⟨huv, w, hw, hwr, rfl⟩
      exact ⟨⟨w, hw, hwr, rfl⟩, fun heq => huv (congrArg (fun p => (ofLex p).2) heq)⟩
  · intro x
    rw [hf.recorded, modify_pageAt (dropResident h (toLex (d.tick, v)) v).inner hf.toLaid
      nonResident_keeps rfl hd]
    split
    · rename_i hx
      rw [pageAt_of_mem hf.toLaid hd hx]
      rfl
    · rfl
  · intro x p q r hx
    rw [modify_pageAt (dropResident h (toLex (d.tick, v)) v).inner hf.toLaid nonResident_keeps rfl
      hd] at hx
    simp only [dropResident, hget, Option.elim_some, HostMemory.unmap, hv]
    split at hx
    · rename_i hin
      change v ≤ x ∧ x < v+d.size at hin
      rw [if_pos hin]
      simp only [pageOf, nonResident, Option.some.injEq, Prod.mk.injEq] at hx
      rw [← hx.2.2]
      rfl
    · rename_i hout
      change ¬ (_ ≤ x ∧ x < _+d.size) at hout
      rw [if_neg hout]
      exact hf.backed x p q r hx

theorem evict_all (keys : List (ℕ ×ₗ ℕ)) : ∀ h, Faithful h given → keys.Nodup →
    (∀ key ∈ keys, ∃ v, (key,v) ∈ h.inner.residentMappings.entries) →
    ∃ h', keys.foldlM evict h = some h' ∧ Faithful h' given := by
  induction keys with
  | nil => exact fun h hf _ _ => ⟨h, rfl, hf⟩
  | cons key keys ih =>
    intro h hf hnodup hkeys
    obtain ⟨v, hv⟩ := hkeys key (by simp)
    obtain ⟨h₁, hrun₁, hf₁, hidx⟩ := evict_spec hf hv
    obtain ⟨hfresh, hnodup'⟩ := List.nodup_cons.mp hnodup
    obtain ⟨h₂, hrun₂, hf₂⟩ := ih h₁ hf₁ hnodup' fun key' hkey' => by
      obtain ⟨v', hv'⟩ := hkeys key' (by simp [hkey'])
      refine ⟨v', ?_⟩
      rw [hidx]
      exact BTreeMap.mem_remove.mpr ⟨hv', fun heq => hfresh (heq ▸ hkey')⟩
    refine ⟨h₂, ?_, hf₂⟩
    rw [List.foldlM_cons, hrun₁]
    exact hrun₂

theorem rebuild_spec (hf : Faithful h given) (hne : h.inner.residentMappings.entries ≠ []) :
    ∃ h', rebuildSeparateHeapAddressSpace h = some h' ∧ Faithful h' given := by
  unfold rebuildSeparateHeapAddressSpace
  rw [if_neg (by simpa [BTreeMap.isEmpty] using hne)]
  refine evict_all _ h hf ?_ ?_
  · refine List.Nodup.sublist (List.take_sublist _ _) ?_
    refine List.Pairwise.imp (R := fun a b => a < b) (fun hlt => hlt.ne) ?_
    exact List.pairwise_map.mpr h.inner.residentMappings.sorted
  · intro key hkey
    obtain ⟨e, he, rfl⟩ := List.mem_map.mp (List.mem_of_mem_take hkey)
    exact ⟨e.2, he⟩

/-! ### Faults -/

/-- The host need not agree yet on the mapping that becomes resident. -/
theorem makeResident_faithful (hf : Sound h.inner)
    (hrec : ∀ x, given x = (pageAt h.inner x).map fun w => (w.1, w.2.1))
    (hback : ∀ x p q r, ¬ Within (k,d) x → pageAt h.inner x = some (p, q, r) →
      h.buffer x = if r = true then some (p, q) else none)
    (hd : (k,d) ∈ h.inner.mappings.entries) (hr : d.isResident = false) :
    Faithful (makeResident h k d) given := by
  have hv : d.vaddr = k := hf.keyed _ hd
  have hg := resident_keeps h.inner.tick
  have hcounts := modify_counts hd (resident h.inner.tick)
  rw [if_neg (by simp [hr]), if_pos (by simp [resident])] at hcounts
  have hres := hf.resident_count
  refine ⟨⟨modify_laid hf.toLaid hg rfl, ?_, ?_, ?_⟩, ?_, ?_⟩
  · simp only [makeResident]
    rw [hf.map_count, hcounts.1]
  · simp only [makeResident]
    omega
  · intro key u
    refine Iff.trans ?_ (mem_modify_resident hd).symm
    simp only [makeResident, hv, BTreeMap.mem_insert, Prod.mk.injEq, hf.index, resident, true_and]
    constructor
    · rintro (⟨rfl, rfl⟩ | ⟨hne, w, hw, hwr, rfl⟩)
      · exact Or.inl ⟨rfl, rfl⟩
      · refine Or.inr ⟨?_, w, hw, hwr, rfl⟩
        rintro rfl
        rw [BTreeMap.key_injective hw hd, hr] at hwr
        cases hwr
    · rintro (⟨rfl, rfl⟩ | ⟨huk, w, hw, hwr, rfl⟩)
      · exact Or.inl ⟨rfl, rfl⟩
      · exact Or.inr ⟨fun heq => huk (congrArg (fun p => (ofLex p).2) heq), w, hw, hwr, rfl⟩
  · intro x
    rw [hrec, modify_pageAt (makeResident h k d).inner hf.toLaid hg rfl hd]
    split
    · rename_i hx
      rw [pageAt_of_mem hf.toLaid hd hx]
      rfl
    · rfl
  · intro x p q r hx
    rw [modify_pageAt (makeResident h k d).inner hf.toLaid hg rfl hd] at hx
    simp only [makeResident, HostMemory.map, hv]
    split at hx
    · rename_i hin
      change k ≤ x ∧ x < k+d.size at hin
      rw [if_pos hin]
      simp only [pageOf, resident, Option.some.injEq, Prod.mk.injEq] at hx
      rw [← hx.1, ← hx.2.1, ← hx.2.2]
      rfl
    · rename_i hout
      rw [if_neg (show ¬ (k ≤ x ∧ x < k+d.size) from hout)]
      exact hback x p q r hout hx

theorem finishDeferred_spec (hf : Faithful (makeResident h k d) given) :
    ∃ h', (if h.maxResidentMapCount < h.inner.residentMapCount then
        (rebuildSeparateHeapAddressSpace (makeResident h k d)).map fun h => (true, h)
      else some (true, makeResident h k d)) = some (true, h') ∧ Faithful h' given := by
  split
  · obtain ⟨h', hrun, hfin⟩ := rebuild_spec hf (by simp [makeResident, BTreeMap.insert])
    exact ⟨h', by rw [hrun]; rfl, hfin⟩
  · exact ⟨_, rfl, hf⟩

theorem deferredMap_spec (hf : Faithful h given) (x : ℕ) :
    ∃ b h', deferredMapSeparateHeapOffset h x = some (b, h') ∧ Faithful h' given := by
  unfold deferredMapSeparateHeapOffset
  cases hfind : findMappingAt h.inner x with
  | none => exact ⟨false, h, rfl, hf⟩
  | some k =>
    obtain ⟨d, hd, -⟩ := (findMappingAt_eq_some hf.toLaid).mp hfind
    simp only [BTreeMap.get_eq_some_iff.mpr hd, Option.bind_some]
    cases hr : d.isResident with
    | true => exact ⟨false, h, rfl, hf⟩
    | false =>
      have hf' := makeResident_faithful hf.toSound hf.recorded
        (fun x p q r _ => hf.backed x p q r) hd hr
      obtain ⟨h', hrun, hfin⟩ := finishDeferred_spec hf'
      rw [if_neg Bool.false_ne_true]
      exact ⟨true, h', hrun, hfin⟩

/-! ### The calls -/

variable {p len size : ℕ}

theorem mapSeparate_spec (hf : Faithful h given) (hlen : 0 < len)
    (hu : Untracked h.inner v len) :
    ∃ h', map h v p len perm true = some h' ∧ Faithful h' (given.map v p len perm) := by
  have hs : Sound (track h.inner v p len perm) := track_sound hf.toSound hlen hu
  have hpage : ∀ x, pageAt (track h.inner v p len perm) x =
      if v ≤ x ∧ x < v+len then some (p+(x-v), perm, false) else pageAt h.inner x :=
    track_pageAt hf.toSound hlen hu
  have hd : (v, ⟨v, p, len, h.inner.tick, perm, false⟩) ∈
      (track h.inner v p len perm).mappings.entries := BTreeMap.mem_insert.mpr (Or.inl rfl)
  have hfind : findMappingAt (track h.inner v p len perm) v = some v :=
    (findMappingAt_eq_some hs.toLaid).mpr ⟨_, hd, le_refl v, by simp only; omega⟩
  have hmade : Faithful (makeResident { h with inner := track h.inner v p len perm } v
      ⟨v, p, len, h.inner.tick, perm, false⟩) (given.map v p len perm) := by
    refine makeResident_faithful hs (fun x => ?_) (fun x a q r hout hx => ?_) hd rfl
    · simp only
      rw [hpage x, HostMemory.map, hf.recorded]
      split <;> rfl
    · simp only at hx
      rw [hpage x, if_neg (show ¬ (v ≤ x ∧ x < v+len) from hout)] at hx
      exact hf.backed x a q r hx
  obtain ⟨h', hrun, hfin⟩ := finishDeferred_spec hmade
  refine ⟨h', ?_, hfin⟩
  simp only [map, if_true, deferredMapSeparateHeapOffset, hfind, BTreeMap.get_eq_some_iff.mpr hd,
    Option.bind_some]
  rw [if_neg Bool.false_ne_true, hrun]
  rfl

/-- What is not tracked may change on the host. -/
theorem Faithful.rehost (hf : Faithful h given) (buffer : HostMemory) {v n : ℕ}
    (hu : Untracked h.inner v n)
    (hsame : ∀ x, ¬ (v ≤ x ∧ x < v+n) → buffer x = h.buffer x) :
    Faithful { h with buffer := buffer } given := by
  refine ⟨hf.toSound, hf.recorded, fun x p q r hx => ?_⟩
  rw [← hf.backed x p q r hx]
  refine hsame x fun hin => ?_
  have hnone := hu.pageAt hf.toLaid hin.1 hin.2
  simp only at hx
  rw [hnone] at hx
  cases hx

theorem unmapSeparate_spec (hf : Faithful h given) (v size : ℕ) :
    ∃ h', unmap h v size true = some h' ∧ Faithful h' (given.unmap v size) := by
  obtain ⟨s', hrun, hs', hpage⟩ := untrack_spec hf.toSound v size
  refine ⟨{ h with inner := s', buffer := h.buffer.unmap v size }, ?_, hs', fun x => ?_,
    fun x p q r hx => ?_⟩
  · simp only [unmap, if_true, hrun, Option.map_some]
  · simp only
    rw [hpage x, HostMemory.unmap]
    split
    · rfl
    · exact hf.recorded x
  · simp only at hx ⊢
    rw [hpage x] at hx
    rw [HostMemory.unmap]
    split at hx
    · cases hx
    · rename_i hout
      rw [if_neg hout]
      exact hf.backed x p q r hx

/-! ### Reprotection -/

section Protect

variable {cur stop : ℕ}

/-- A stretch of the walk that holds no mapping. -/
theorem protectGap_faithful (hf : Faithful h given) {n : ℕ}
    (hgap : ∀ x, cur ≤ x → x < cur+n → pageAt h.inner x = none) :
    Faithful { h with buffer := h.buffer.protect cur n perm } given := by
  refine ⟨hf.toSound, hf.recorded, fun x p q r hx => ?_⟩
  simp only at hx ⊢
  rw [HostMemory.protect_untouched]
  · exact hf.backed x p q r hx
  · rintro ⟨hlo, hhi⟩
    rw [hgap x hlo hhi] at hx
    cases hx

theorem withPerm_sound (hs : Sound h.inner) (hd : (k,d) ∈ h.inner.mappings.entries) :
    Sound { h.inner with mappings := h.inner.mappings.modify k (withPerm perm) } := by
  have hcounts := modify_counts hd (withPerm perm)
  refine ⟨modify_laid hs.toLaid (withPerm_keeps perm) rfl, ?_, ?_, ?_⟩
  · simp only
    rw [hs.map_count, hcounts.1]
  · have hres := hs.resident_count
    have hsame : (withPerm perm d).isResident = d.isResident := rfl
    rw [hsame] at hcounts
    simp only
    omega
  · intro key u
    refine Iff.trans ?_ (mem_modify_resident hd).symm
    simp only [hs.index, withPerm]
    constructor
    · rintro ⟨w, hw, hwr, rfl⟩
      by_cases huk : u = k
      · subst huk
        obtain rfl := BTreeMap.key_injective hw hd
        exact Or.inl ⟨rfl, hwr, rfl⟩
      · exact Or.inr ⟨huk, w, hw, hwr, rfl⟩
    · rintro (⟨rfl, hr, rfl⟩ | ⟨-, w, hw, hwr, rfl⟩)
      · exact ⟨d, hd, hr, rfl⟩
      · exact ⟨w, hw, hwr, rfl⟩

/-- A stretch of the walk that is one mapping; the host follows where it is
resident. -/
theorem protectMapping_faithful (perm : MemoryPermission) (hf : Faithful h given) (hd : (k,d) ∈ h.inner.mappings.entries)
    {buffer : HostMemory}
    (hb : buffer = if d.isResident = true then h.buffer.protect k d.size perm else h.buffer) :
    Faithful { h with
      inner := { h.inner with mappings := h.inner.mappings.modify k (withPerm perm) }
      buffer := buffer } (given.protect k d.size perm) := by
  have hpage := modify_pageAt
    { h.inner with mappings := h.inner.mappings.modify k (withPerm perm) } hf.toLaid
    (withPerm_keeps perm) rfl hd
  refine ⟨withPerm_sound hf.toSound hd, fun x => ?_, fun x p q r hx => ?_⟩
  · simp only
    rw [hpage x, HostMemory.protect, hf.recorded]
    by_cases hx : Within (k,d) x
    · rw [if_pos hx, if_pos (show k ≤ x ∧ x < k+d.size from hx), pageAt_of_mem hf.toLaid hd hx]
      rfl
    · rw [if_neg hx, if_neg (show ¬ (k ≤ x ∧ x < k+d.size) from hx)]
  · simp only at hx ⊢
    rw [hpage x] at hx
    by_cases hin : Within (k,d) x
    · rw [if_pos hin] at hx
      simp only [pageOf, withPerm, Option.some.injEq, Prod.mk.injEq] at hx
      obtain ⟨rfl, rfl, rfl⟩ := hx
      have hold := hf.backed x _ _ _ (pageAt_of_mem hf.toLaid hd hin)
      rw [hb]
      cases hr : d.isResident with
      | true =>
        simp only [hr] at hold
        simp only [if_true, HostMemory.protect]
        rw [if_pos (show k ≤ x ∧ x < k+d.size from hin), hold]
        rfl
      | false =>
        simp only [hr] at hold
        exact hold
    · rw [if_neg hin] at hx
      rw [← hf.backed x p q r hx, hb]
      split
      · exact HostMemory.protect_untouched hin
      · rfl

theorem withPerm_boundary {b : ℕ} (hb : Boundary h.inner b) :
    Boundary { h.inner with mappings := h.inner.mappings.modify k (withPerm perm) } b := by
  intro e he hlt
  obtain ⟨w, hw, heq⟩ := BTreeMap.mem_modify.mp he
  have hsize : e.2.size = w.size := by
    rw [heq]
    split <;> rfl
  rw [hsize]
  exact hb _ hw hlt

theorem gap_of_free {s : HeapTrackerState} {n : ℕ} (hl : Laid s) (hfind : findMappingAt s cur = none)
    (hfree : ∀ e ∈ s.mappings.entries, e.1 < cur ∨ n ≤ e.1) :
    ∀ x, cur ≤ x → x < n → pageAt s x = none := by
  intro x hlo hhi
  rw [pageAt_eq_none hl]
  rintro e he ⟨hle, hlt⟩
  rcases hfree e he with hec | hne
  · rw [(findMappingAt_eq_some hl).mpr ⟨e.2, he, hec.le, by simp only; omega⟩] at hfind
    cases hfind
  · omega

/-- Where no mapping covers `cur`, the walk goes on at the next mapping or at
the end. -/
theorem protectNext_gap {s : HeapTrackerState} (hl : Laid s) (hfind : findMappingAt s cur = none)
    (hlt : cur < stop) (hstop : Boundary s stop) :
    ∃ n, protectNext s cur stop perm = some (s, n, true) ∧ cur < n ∧ n ≤ stop ∧ Boundary s n ∧
      ∀ x, cur ≤ x → x < n → pageAt s x = none := by
  unfold protectNext
  simp only [hfind]
  cases hceil : s.mappings.ceil cur with
  | none =>
    have hbelow := BTreeMap.ceil_eq_none hceil
    exact ⟨stop, rfl, hlt, le_rfl, hstop,
      gap_of_free hl hfind fun e he => Or.inl (hbelow e he)⟩
  | some e =>
    obtain ⟨he, hle⟩ := BTreeMap.ceil_eq_some hceil
    have hfirst : ∀ f ∈ s.mappings.entries, f.1 < cur ∨ e.1 ≤ f.1 := by
      intro f hf
      rcases lt_or_ge f.1 cur with hfc | hfc
      · exact Or.inl hfc
      · exact Or.inr (BTreeMap.ceil_first hceil hf hfc)
    have hne : cur ≠ e.1 := by
      rintro heq
      have hpos := hl.sized e he
      rw [(findMappingAt_eq_some hl).mpr ⟨e.2, he, heq.ge, by simp only; omega⟩] at hfind
      cases hfind
    by_cases hes : e.1 < stop
    · refine ⟨e.1, by simp only [if_pos hes], by omega, hes.le, ?_, gap_of_free hl hfind hfirst⟩
      intro f hf hfe
      exact hl.disjoint f hf e he hfe
    · refine ⟨stop, by simp only [if_neg hes], hlt, le_rfl, hstop, ?_⟩
      refine gap_of_free hl hfind fun f hf => ?_
      rcases hfirst f hf with h | h
      · exact Or.inl h
      · exact Or.inr (by omega)

/-- Between two boundaries the walk reprotects everything. -/
theorem protectLoop_spec (stop : ℕ) (perm : MemoryPermission) (fuel : ℕ) : ∀ (h : HeapTracker) (given : HostMemory) (cur : ℕ),
    Faithful h given → Boundary h.inner cur → Boundary h.inner stop → cur ≤ stop →
    stop-cur ≤ fuel → ∃ h', protectLoop stop perm fuel h cur = some h' ∧
      Faithful h' (given.protect cur (stop-cur) perm) := by
  induction fuel with
  | zero =>
    intro h given cur hf _ _ hle hfuel
    have hsame : given.protect cur (stop-cur) perm = given := by
      funext x
      exact HostMemory.protect_untouched (by omega)
    rw [hsame]
    exact ⟨h, by rw [protectLoop, if_neg (by omega)], hf⟩
  | succ fuel ih =>
    intro h given cur hf hcur hstop hle hfuel
    by_cases hlt : cur < stop
    · cases hfind : findMappingAt h.inner cur with
      | none =>
        obtain ⟨n, hnext, hn, hnstop, hnb, hgap⟩ : ∃ n, protectNext h.inner cur stop perm =
            some (h.inner, n, true) ∧ cur < n ∧ n ≤ stop ∧ Boundary h.inner n ∧
            ∀ x, cur ≤ x → x < n → pageAt h.inner x = none :=
          protectNext_gap hf.toLaid hfind hlt hstop
        have hcn : cur+(n-cur) = n := by omega
        have hf' : Faithful { h with buffer := h.buffer.protect cur (n-cur) perm } given :=
          protectGap_faithful hf fun x hlo hhi => hgap x hlo (by omega)
        obtain ⟨h', hrun, hfin⟩ := ih _ given n hf' hnb hstop hnstop (by omega)
        refine ⟨h', ?_, ?_⟩
        · rw [protectLoop, if_pos hlt, hnext]
          simp only [Option.bind_some, min_eq_left hnstop]
          rw [if_pos trivial, if_neg (by omega)]
          exact hrun
        · have hskip : given.protect n (stop-n) perm = given.protect cur (stop-cur) perm := by
            have heq : given.protect (cur+(n-cur)) (stop-n) perm =
                given.protect cur (n-cur+(stop-n)) perm :=
              HostMemory.protect_skip _ _ fun x hlo hhi => by
                rw [hf.recorded, hgap x hlo (by omega)]
                rfl
            rw [hcn, show n-cur+(stop-n) = stop-cur by omega] at heq
            exact heq
          rw [← hskip]
          exact hfin
      | some k =>
        obtain ⟨d, hd, hkc, hck⟩ := (findMappingAt_eq_some hf.toLaid).mp hfind
        simp only at hkc hck
        have hk : k = cur := by
          by_contra hne
          have := hcur _ hd (show k < cur by omega)
          simp only at this
          omega
        subst hk
        have hv : d.vaddr = k := hf.keyed _ hd
        have hend : k+d.size ≤ stop := hstop _ hd hlt
        have hnext : protectNext h.inner k stop perm = some
            ({ h.inner with mappings := h.inner.mappings.modify k (withPerm perm) }, k+d.size,
              d.isResident) := by
          simp only [protectNext, hfind, BTreeMap.get_eq_some_iff.mpr hd, Option.map_some,
            if_pos hv]
        have hf' := protectMapping_faithful perm hf hd rfl
        have hb' : Boundary { h.inner with mappings := h.inner.mappings.modify k (withPerm perm) }
            (k+d.size) := by
          refine withPerm_boundary fun e he hek => ?_
          rcases lt_trichotomy e.1 k with hlt' | heq | hlt'
          · have := hf.disjoint e he _ hd hlt'
            simp only at this
            omega
          · rw [heq, BTreeMap.key_injective (show (k,e.2) ∈ h.inner.mappings.entries by
              rw [← heq]; exact he) hd]
          · have := hf.disjoint _ hd e he hlt'
            simp only at this
            omega
        obtain ⟨h', hrun, hfin⟩ := ih _ _ (k+d.size) hf' hb' (withPerm_boundary hstop) hend
          (by omega)
        refine ⟨h', ?_, ?_⟩
        · rw [protectLoop, if_pos hlt, hnext]
          simp only [Option.bind_some, min_eq_left hend]
          have hsub : k+d.size-k = d.size := by omega
          cases hr : d.isResident with
          | true =>
            rw [if_pos rfl, if_neg (by omega), hsub]
            rw [hr, if_pos rfl] at hrun
            exact hrun
          | false =>
            rw [if_neg Bool.false_ne_true]
            rw [hr, if_neg Bool.false_ne_true] at hrun
            exact hrun
        · rw [HostMemory.protect_adjacent, show d.size+(stop-(k+d.size)) = stop-k by omega] at hfin
          exact hfin
    · have hsame : given.protect cur (stop-cur) perm = given := by
        funext x
        exact HostMemory.protect_untouched (by omega)
      rw [hsame]
      exact ⟨h, by rw [protectLoop, if_neg hlt], hf⟩

theorem protect_spec (hf : Faithful h given) (v size : ℕ) (perm : MemoryPermission) :
    ∃ h', protect h v size perm = some h' ∧ Faithful h' (given.protect v size perm) := by
  obtain ⟨s', hsplit, hs', hpage, hlo, hhi⟩ := splitHeapMap_spec hf.toSound v size
  have hf' : Faithful { h with inner := s' } given := by
    refine ⟨hs', fun x => ?_, fun x p q r hx => ?_⟩
    · simp only
      rw [hpage x]
      exact hf.recorded x
    · simp only at hx
      rw [hpage x] at hx
      exact hf.backed x p q r hx
  obtain ⟨h', hrun, hfin⟩ := protectLoop_spec (v+size) perm (size+1) _ given v hf' hlo
    hhi (by omega) (by omega)
  refine ⟨h', ?_, ?_⟩
  · simp only [protect, hsplit, Option.bind_some]
    exact hrun
  · rw [show v+size-v = size by omega] at hfin
    exact hfin

end Protect

/-! ### Runs -/

inductive Call where
  | map (virtualOffset hostOffset length : ℕ) (perm : MemoryPermission) (isSeparateHeap : Bool)
  | unmap (virtualOffset size : ℕ) (isSeparateHeap : Bool)
  | protect (virtualOffset size : ℕ) (perm : MemoryPermission)
  | deferredMap (virtualOffset : ℕ)

def Call.run (h : HeapTracker) : Call → Option HeapTracker
  | .map v p len perm sep => h.map v p len perm sep
  | .unmap v size sep => h.unmap v size sep
  | .protect v size perm => h.protect v size perm
  | .deferredMap v => (h.deferredMapSeparateHeapOffset v).map Prod.snd

/-- The page and permission last given to each address of the separate heap. -/
def Call.give (given : HostMemory) : Call → HostMemory
  | .map v p len perm sep => if sep then given.map v p len perm else given
  | .unmap v size sep => if sep then given.unmap v size else given
  | .protect v size perm => given.protect v size perm
  | .deferredMap _ => given

/-- Separate heap mappings go to untracked ranges. -/
def Claimed (s : HeapTrackerState) : Call → Prop
  | .map v _ len _ true => Untracked s v len
  | _ => True

/-- Separate heap mappings are nonempty and go to untracked ranges, and other
memory is mapped and unmapped in untracked ranges only. -/
def Allowed (s : HeapTrackerState) : Call → Prop
  | .map v _ len _ true => 0 < len ∧ Untracked s v len
  | .map v _ len _ false => Untracked s v len
  | .unmap v size false => Untracked s v size
  | _ => True

instance (s : HeapTrackerState) : DecidablePred (Claimed s)
  | .map v _ len _ true => inferInstanceAs (Decidable (Untracked s v len))
  | .map _ _ _ _ false => inferInstanceAs (Decidable True)
  | .unmap _ _ _ => inferInstanceAs (Decidable True)
  | .protect _ _ _ => inferInstanceAs (Decidable True)
  | .deferredMap _ => inferInstanceAs (Decidable True)

instance (s : HeapTrackerState) : DecidablePred (Allowed s)
  | .map v _ len _ true => inferInstanceAs (Decidable (0 < len ∧ Untracked s v len))
  | .map v _ len _ false => inferInstanceAs (Decidable (Untracked s v len))
  | .unmap v size false => inferInstanceAs (Decidable (Untracked s v size))
  | .unmap _ _ true => inferInstanceAs (Decidable True)
  | .protect _ _ _ => inferInstanceAs (Decidable True)
  | .deferredMap _ => inferInstanceAs (Decidable True)

/-- The trackers that calls within `Ok` lead to, with what they last gave. -/
inductive Reachable (Ok : HeapTrackerState → Call → Prop) : HeapTracker → HostMemory → Prop
  | new (buffer : HostMemory) (value : Option ℤ) : Reachable Ok (new buffer value) fun _ => none
  | call {h h' : HeapTracker} {given : HostMemory} (c : Call) (hr : Reachable Ok h given)
      (hok : Ok h.inner c) (hrun : c.run h = some h') : Reachable Ok h' (c.give given)

/-- Mappings, counters, resident index and host are in step. -/
structure InStep (h : HeapTracker) (given : HostMemory) : Prop where
  disjoint : ∀ e ∈ h.inner.mappings.entries, ∀ f ∈ h.inner.mappings.entries,
    e.1 < f.1 → e.1+e.2.size ≤ f.1
  map_count : h.inner.mapCount = h.inner.mappings.len
  resident_count : h.inner.residentMapCount =
    h.inner.mappings.entries.countP (fun e => e.2.isResident)
  index : ∀ k v, (k,v) ∈ h.inner.residentMappings.entries ↔
    ∃ d, (v,d) ∈ h.inner.mappings.entries ∧ d.isResident = true ∧ k = toLex (d.tick, v)
  tracked : ∀ x, (given x).isSome ↔ ∃ e ∈ h.inner.mappings.entries, Within e x
  given_page : ∀ e ∈ h.inner.mappings.entries, ∀ x, Within e x →
    given x = some (e.2.paddr+(x-e.1), e.2.perm)
  host_page : ∀ e ∈ h.inner.mappings.entries, ∀ x, Within e x →
    h.buffer x = if e.2.isResident = true then given x else none

theorem Faithful.in_step (hf : Faithful h given) : InStep h given := by
  have hgiven : ∀ e ∈ h.inner.mappings.entries, ∀ x, Within e x →
      given x = some (e.2.paddr+(x-e.1), e.2.perm) := by
    intro e he x hx
    rw [hf.recorded, pageAt_of_mem hf.toLaid he hx]
    rfl
  refine ⟨hf.disjoint, hf.map_count, hf.resident_count, hf.index, fun x => ?_, hgiven, ?_⟩
  · rw [hf.recorded, Option.isSome_map]
    constructor
    · intro hsome
      obtain ⟨w, hw⟩ := Option.isSome_iff_exists.mp hsome
      obtain ⟨e, he, hx, -⟩ := (pageAt_eq_some hf.toLaid).mp hw
      exact ⟨e, he, hx⟩
    · rintro ⟨e, he, hx⟩
      rw [pageAt_of_mem hf.toLaid he hx]
      rfl
  · intro e he x hx
    rw [hf.backed x _ _ _ (pageAt_of_mem hf.toLaid he hx), hgiven e he x hx]

theorem call_faithful (hf : Faithful h given) (c : Call) (hok : Allowed h.inner c) :
    ∃ h', c.run h = some h' ∧ Faithful h' (c.give given) := by
  cases c with
  | map v p len perm sep =>
    cases sep with
    | true => exact mapSeparate_spec hf hok.1 hok.2
    | false =>
      exact ⟨_, rfl, hf.rehost _ hok fun x hx => by rw [HostMemory.map, if_neg hx]⟩
  | unmap v size sep =>
    cases sep with
    | true => exact unmapSeparate_spec hf v size
    | false =>
      exact ⟨_, rfl, hf.rehost _ hok fun x hx => by rw [HostMemory.unmap, if_neg hx]⟩
  | protect v size perm => exact protect_spec hf v size perm
  | deferredMap v =>
    obtain ⟨b, h', hrun, hf'⟩ := deferredMap_spec hf v
    exact ⟨h', by rw [Call.run, hrun]; rfl, hf'⟩

theorem reachable_faithful (hr : Reachable Allowed h given) : Faithful h given := by
  induction hr with
  | new buffer value => exact new_faithful buffer value
  | call c _ hok hrun ih =>
    obtain ⟨h', hrun', hf'⟩ := call_faithful ih c hok
    rw [hrun] at hrun'
    obtain rfl := Option.some.inj hrun'
    exact hf'

/-- Run calls as long as they are within `Ok`. -/
def runWithin (Ok : HeapTrackerState → Call → Prop) [∀ s, DecidablePred (Ok s)]
    (r : HeapTracker × HostMemory) (c : Call) : Option (HeapTracker × HostMemory) :=
  if Ok r.1.inner c then (c.run r.1).map fun h => (h, c.give r.2) else none

theorem runWithin_reachable {Ok : HeapTrackerState → Call → Prop} [∀ s, DecidablePred (Ok s)]
    (calls : List Call) : ∀ r r' : HeapTracker × HostMemory, Reachable Ok r.1 r.2 →
    calls.foldlM (runWithin Ok) r = some r' → Reachable Ok r'.1 r'.2 := by
  induction calls with
  | nil =>
    intro r r' hr hrun
    cases hrun
    exact hr
  | cons c calls ih =>
    intro r r' hr hrun
    rw [List.foldlM_cons, Option.bind_eq_bind, Option.bind_eq_some_iff] at hrun
    obtain ⟨r₁, h₁, hrest⟩ := hrun
    refine ih r₁ r' ?_ hrest
    unfold runWithin at h₁
    split at h₁
    · rename_i hok
      obtain ⟨h', hc, rfl⟩ := Option.map_eq_some_iff.mp h₁
      exact Reachable.call c hr hok hc
    · cases h₁

/-- A fresh tracker over a host that maps nothing, which keeps one resident
mapping before it evicts. -/
def freshTracker : HeapTracker × HostMemory := (new (fun _ => none) (some 20001), fun _ => none)

theorem freshTracker_reachable (Ok : HeapTrackerState → Call → Prop) :
    Reachable Ok freshTracker.1 freshTracker.2 := Reachable.new _ _

end HeapTracker
end Ruzu
