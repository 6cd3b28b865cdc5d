import Ruzu.Common.HeapTracker

/-!
# Edits of the tracked mappings

`Laid` keeps the mappings nonempty and disjoint, `Counted` keeps both counters
and the resident index in step with them. `pageAt` reads off what is recorded
of one address. Each edit of the tracker (a cut, a new mapping, a removal, an
update in place) preserves the two and changes `pageAt` on its own range.
-/

set_option autoImplicit false

namespace Ruzu.HeapTracker

/-- The entry covers the address. -/
def Within (e : ℕ × SeparateHeapMapData) (x : ℕ) : Prop := e.1 ≤ x ∧ x < e.1+e.2.size

instance (e : ℕ × SeparateHeapMapData) (x : ℕ) : Decidable (Within e x) :=
  inferInstanceAs (Decidable (e.1 ≤ x ∧ x < e.1+e.2.size))

structure Laid (s : HeapTrackerState) : Prop where
  keyed : ∀ e ∈ s.mappings.entries, e.2.vaddr = e.1
  sized : ∀ e ∈ s.mappings.entries, 0 < e.2.size
  disjoint : ∀ e ∈ s.mappings.entries, ∀ f ∈ s.mappings.entries, e.1 < f.1 → e.1+e.2.size ≤ f.1

structure Counted (s : HeapTrackerState) : Prop where
  map_count : s.mapCount = s.mappings.len
  resident_count : s.residentMapCount = s.mappings.entries.countP (fun e => e.2.isResident)
  /-- One `(tick, vaddr)` entry for each resident mapping and no other. -/
  index : ∀ k v, (k,v) ∈ s.residentMappings.entries ↔
    ∃ d, (v,d) ∈ s.mappings.entries ∧ d.isResident = true ∧ k = toLex (d.tick, v)

structure Sound (s : HeapTrackerState) : Prop extends Laid s, Counted s

/-- What an entry records of an address: host offset, permission, residency. -/
def pageOf (e : ℕ × SeparateHeapMapData) (x : ℕ) : ℕ × MemoryPermission × Bool :=
  (e.2.paddr+(x-e.1), e.2.perm, e.2.isResident)

def pageAt (s : HeapTrackerState) (x : ℕ) : Option (ℕ × MemoryPermission × Bool) :=
  (findMappingAt s x).bind fun k => (s.mappings.get k).map fun d => pageOf (k,d) x

variable {s s' : HeapTrackerState} {e f : ℕ × SeparateHeapMapData} {x k o lo size : ℕ}
  {d : SeparateHeapMapData}

theorem Laid.unique (hl : Laid s) (he : e ∈ s.mappings.entries) (hf : f ∈ s.mappings.entries)
    (hex : Within e x) (hfx : Within f x) : e = f := by
  unfold Within at hex hfx
  have hkey : e.1 = f.1 := by
    rcases lt_trichotomy e.1 f.1 with hlt | heq | hlt
    · have := hl.disjoint e he f hf hlt
      omega
    · exact heq
    · have := hl.disjoint f hf e he hlt
      omega
  have hfe : (e.1,f.2) ∈ s.mappings.entries := by rw [hkey]; exact hf
  exact Prod.ext hkey (BTreeMap.key_injective he hfe)

theorem findMappingAt_eq_some (hl : Laid s) :
    findMappingAt s x = some k ↔ ∃ d, (k,d) ∈ s.mappings.entries ∧ Within (k,d) x := by
  unfold findMappingAt
  constructor
  · intro h
    split at h
    · rename_i vaddr item hfloor
      obtain ⟨hmem, hle⟩ := BTreeMap.floor_eq_some hfloor
      split at h
      · rename_i hlt
        cases h
        exact ⟨item, hmem, hle, hlt⟩
      · cases h
    · cases h
  · rintro ⟨d, hmem, hle, hlt⟩
    cases hfloor : s.mappings.floor x with
    | none =>
      have := BTreeMap.floor_eq_none hfloor _ hmem
      omega
    | some e =>
      obtain ⟨hme, hex⟩ := BTreeMap.floor_eq_some hfloor
      have hke := BTreeMap.floor_last hfloor hmem hle
      have hkey : e.1 = k := by
        by_contra hne
        have := hl.disjoint _ hmem e hme (show k < e.1 by simp only at hke; omega)
        simp only at this hlt
        omega
      have hd : e.2 = d := BTreeMap.key_injective (m := s.mappings) (k := k)
        (by rw [← hkey]; exact hme) hmem
      simp only
      rw [hkey, hd, if_pos hlt]

theorem pageAt_eq_some (hl : Laid s) {w : ℕ × MemoryPermission × Bool} :
    pageAt s x = some w ↔ ∃ e ∈ s.mappings.entries, Within e x ∧ w = pageOf e x := by
  unfold pageAt
  simp only [Option.bind_eq_some_iff, Option.map_eq_some_iff, findMappingAt_eq_some hl,
    BTreeMap.get_eq_some_iff]
  constructor
  · rintro ⟨k, ⟨_, _, _⟩, d', hd', rfl⟩
    rename_i d hd hw
    have hdd := BTreeMap.key_injective hd hd'
    exact ⟨(k,d'), hd', hdd ▸ hw, rfl⟩
  · rintro ⟨e, he, hw, rfl⟩
    exact ⟨e.1, ⟨e.2, he, hw⟩, e.2, he, rfl⟩

theorem pageAt_of_mem (hl : Laid s) (he : e ∈ s.mappings.entries) (hx : Within e x) :
    pageAt s x = some (pageOf e x) :=
  (pageAt_eq_some hl).mpr ⟨e, he, hx, rfl⟩

theorem pageAt_eq_none (hl : Laid s) :
    pageAt s x = none ↔ ∀ e ∈ s.mappings.entries, ¬ Within e x := by
  rw [Option.eq_none_iff_forall_ne_some]
  constructor
  · intro h e he hx
    exact h _ (pageAt_of_mem hl he hx)
  · intro h w hw
    obtain ⟨e, he, hx, -⟩ := (pageAt_eq_some hl).mp hw
    exact h e he hx

/-- No tracked mapping meets the range. -/
def Untracked (s : HeapTrackerState) (lo size : ℕ) : Prop :=
  ∀ e ∈ s.mappings.entries, e.1+e.2.size ≤ lo ∨ lo+size ≤ e.1

instance (s : HeapTrackerState) (lo size : ℕ) : Decidable (Untracked s lo size) :=
  inferInstanceAs (Decidable (∀ e ∈ s.mappings.entries, e.1+e.2.size ≤ lo ∨ lo+size ≤ e.1))

theorem Untracked.pageAt (hl : Laid s) (hu : Untracked s lo size) (hlo : lo ≤ x)
    (hhi : x < lo+size) : pageAt s x = none := by
  rw [pageAt_eq_none hl]
  rintro e he ⟨hle, hlt⟩
  rcases hu e he with h | h <;> omega

/-! ### Cutting a mapping in two -/

theorem mem_cut (hl : Laid s) (hd : (k,d) ∈ s.mappings.entries) (hko : k < o) (hod : o < k+d.size) :
    e ∈ (cutMapping s k d (rightOf d o) (o-d.vaddr)).mappings.entries ↔
      e = (k, leftOf (o-k) d) ∨ e = (o, rightOf d o) ∨ e ∈ s.mappings.entries ∧ e.1 ≠ k := by
  have hv : d.vaddr = k := hl.keyed _ hd
  have hright : (rightOf d o).vaddr = o := by
    simp only [rightOf, hv]
    omega
  have hfree : ∀ w, (o,w) ∉ s.mappings.entries := by
    intro w hw
    have := hl.disjoint _ hd _ hw hko
    simp only at this
    omega
  unfold cutMapping
  simp only [hright, hv, BTreeMap.mem_insert, BTreeMap.mem_modify]
  constructor
  · rintro (rfl | ⟨-, w, hw, hwe⟩)
    · exact Or.inr (Or.inl rfl)
    · by_cases hek : e.1 = k
      · have hwd : w = d := BTreeMap.key_injective hw (by rw [hek]; exact hd)
        rw [if_pos hek, hwd] at hwe
        exact Or.inl (Prod.ext hek hwe)
      · rw [if_neg hek] at hwe
        refine Or.inr (Or.inr ⟨?_, hek⟩)
        rw [← hwe] at hw
        exact hw
  · rintro (rfl | rfl | ⟨he, hek⟩)
    · refine Or.inr ⟨by simp only; omega, d, hd, ?_⟩
      rw [if_pos rfl]
    · exact Or.inl rfl
    · refine Or.inr ⟨fun heo => hfree e.2 (by rw [← heo]; exact he), e.2, he, ?_⟩
      rw [if_neg hek]

theorem cut_laid (hl : Laid s) (hd : (k,d) ∈ s.mappings.entries) (hko : k < o)
    (hod : o < k+d.size) : Laid (cutMapping s k d (rightOf d o) (o-d.vaddr)) := by
  have hv : d.vaddr = k := hl.keyed _ hd
  refine ⟨?_, ?_, ?_⟩
  · intro e he
    rcases (mem_cut hl hd hko hod).mp he with rfl | rfl | ⟨he, -⟩
    · exact hv
    · simp only [rightOf, hv]
      omega
    · exact hl.keyed e he
  · intro e he
    rcases (mem_cut hl hd hko hod).mp he with rfl | rfl | ⟨he, -⟩
    · simp only [leftOf]
      omega
    · simp only [rightOf, hv]
      omega
    · exact hl.sized e he
  · intro e he f hf hef
    rcases (mem_cut hl hd hko hod).mp he with rfl | rfl | ⟨he, hek⟩ <;>
      rcases (mem_cut hl hd hko hod).mp hf with rfl | rfl | ⟨hf, hfk⟩
    · exact absurd hef (lt_irrefl _)
    · simp only [leftOf]
      omega
    · have := hl.disjoint _ hd f hf hef
      simp only [leftOf] at this ⊢
      omega
    · simp only at hef
      omega
    · exact absurd hef (lt_irrefl _)
    · have hkf : k < f.1 := by simp only at hef; omega
      have := hl.disjoint _ hd f hf hkf
      simp only [rightOf, hv] at this ⊢
      omega
    · exact hl.disjoint e he (k,d) hd hef
    · rcases lt_or_gt_of_ne hek with hlt | hlt
      · have := hl.disjoint e he _ hd hlt
        simp only at this ⊢
        omega
      · have := hl.disjoint _ hd e he hlt
        simp only at this hef
        omega
    · exact hl.disjoint e he f hf hef

theorem cut_pageAt (hl : Laid s) (hd : (k,d) ∈ s.mappings.entries) (hko : k < o)
    (hod : o < k+d.size) : pageAt (cutMapping s k d (rightOf d o) (o-d.vaddr)) x = pageAt s x := by
  have hv : d.vaddr = k := hl.keyed _ hd
  have hl' := cut_laid hl hd hko hod
  cases hx : pageAt s x with
  | none =>
    rw [pageAt_eq_none hl] at hx
    rw [pageAt_eq_none hl']
    intro e he hex
    rcases (mem_cut hl hd hko hod).mp he with rfl | rfl | ⟨he, -⟩
    · exact hx _ hd ⟨hex.1, by have := hex.2; simp only [leftOf] at this ⊢; omega⟩
    · have h1 := hex.1
      have h2 := hex.2
      simp only [rightOf, hv] at h1 h2
      exact hx _ hd ⟨by simp only; omega, by simp only; omega⟩
    · exact hx e he hex
  | some w =>
    obtain ⟨e, he, hex, rfl⟩ := (pageAt_eq_some hl).mp hx
    by_cases hek : e.1 = k
    · have hed : e = (k,d) := Prod.ext hek (BTreeMap.key_injective he (by rw [hek]; exact hd))
      subst hed
      obtain ⟨h1, h2⟩ := hex
      simp only at h1 h2
      rcases lt_or_ge x o with hxo | hxo
      · rw [pageAt_of_mem hl' ((mem_cut hl hd hko hod).mpr (Or.inl rfl))
          ⟨h1, by simp only [leftOf]; omega⟩]
        rfl
      · rw [pageAt_of_mem hl' ((mem_cut hl hd hko hod).mpr (Or.inr (Or.inl rfl)))
          ⟨hxo, by simp only [rightOf, hv]; omega⟩]
        simp only [pageOf, rightOf, hv, Option.some.injEq, Prod.mk.injEq, and_true]
        omega
    · exact pageAt_of_mem hl' ((mem_cut hl hd hko hod).mpr (Or.inr (Or.inr ⟨he, hek⟩))) hex

theorem cut_counted (hs : Sound s) (hd : (k,d) ∈ s.mappings.entries) (hko : k < o)
    (hod : o < k+d.size) : Counted (cutMapping s k d (rightOf d o) (o-d.vaddr)) := by
  have hl := hs.toLaid
  have hv : d.vaddr = k := hl.keyed _ hd
  have hright : (rightOf d o).vaddr = o := by
    simp only [rightOf, hv]
    omega
  have hfree : ∀ w, (o,w) ∉ s.mappings.entries := by
    intro w hw
    have := hl.disjoint _ hd _ hw hko
    simp only at this
    omega
  have hnew : ∀ w, (o,w) ∉ (s.mappings.modify k (leftOf (o-d.vaddr))).entries := by
    intro w hw
    obtain ⟨w', hw', -⟩ := BTreeMap.mem_modify.mp hw
    exact hfree w' hw'
  have hcut : (cutMapping s k d (rightOf d o) (o-d.vaddr)).mappings.entries.Perm
      ((o, rightOf d o) :: (k, leftOf (o-d.vaddr) d) :: (s.mappings.remove k).entries) := by
    simp only [cutMapping, hright]
    exact (BTreeMap.insert_perm hnew).trans ((BTreeMap.modify_perm hd _).cons _)
  have hold := BTreeMap.remove_perm hd
  refine ⟨?_, ?_, ?_⟩
  · have h1 := hcut.length_eq
    have h2 := hold.length_eq
    have h3 := hs.map_count
    simp only [BTreeMap.len, List.length_cons] at h1 h2 h3 ⊢
    rw [h1]
    simp only [cutMapping]
    omega
  · have h1 := hcut.countP_eq fun e => e.2.isResident
    have h2 := hold.countP_eq fun e => e.2.isResident
    have h3 := hs.resident_count
    rw [h1]
    simp only [List.countP_cons, rightOf, leftOf, cutMapping] at h2 ⊢
    split <;> simp_all
  · intro key v
    have hidx : (key,v) ∈ (cutMapping s k d (rightOf d o) (o-d.vaddr)).residentMappings.entries ↔
        d.isResident = true ∧ key = toLex (d.tick, o) ∧ v = o ∨ (key,v) ∈ s.residentMappings.entries := by
      unfold cutMapping
      simp only [hright]
      by_cases hr : d.isResident = true
      · rw [if_pos hr, BTreeMap.mem_insert, Prod.mk.injEq]
        simp only [rightOf, hr, true_and]
        constructor
        · rintro (h | ⟨-, h⟩)
          · exact Or.inl h
          · exact Or.inr h
        · rintro (h | h)
          · exact Or.inl h
          · refine Or.inr ⟨?_, h⟩
            rintro rfl
            obtain ⟨w, hw, -, heq⟩ := (hs.index _ _).mp h
            have hvo : o = v := congrArg (fun p => (ofLex p).2) heq
            exact hfree w (by rw [hvo]; exact hw)
      · rw [if_neg hr]
        simp [hr]
    rw [hidx, hs.index]
    constructor
    · rintro (⟨hr, rfl, rfl⟩ | ⟨w, hw, hr, rfl⟩)
      · exact ⟨rightOf d v, (mem_cut hl hd hko hod).mpr (Or.inr (Or.inl rfl)), hr, rfl⟩
      · by_cases hvk : v = k
        · subst hvk
          obtain rfl := BTreeMap.key_injective hw hd
          exact ⟨_, (mem_cut hl hd hko hod).mpr (Or.inl rfl), hr, rfl⟩
        · exact ⟨w, (mem_cut hl hd hko hod).mpr (Or.inr (Or.inr ⟨hw, hvk⟩)), hr, rfl⟩
    · rintro ⟨w, hw, hr, rfl⟩
      rcases (mem_cut hl hd hko hod).mp hw with heq | heq | ⟨hw, -⟩
      · obtain ⟨rfl, rfl⟩ := Prod.mk.inj heq
        exact Or.inr ⟨d, hd, hr, rfl⟩
      · obtain ⟨rfl, rfl⟩ := Prod.mk.inj heq
        exact Or.inl ⟨hr, rfl, rfl⟩
      · exact Or.inr ⟨w, hw, hr, rfl⟩

/-- No mapping reaches over the address. -/
def Boundary (s : HeapTrackerState) (o : ℕ) : Prop :=
  ∀ e ∈ s.mappings.entries, e.1 < o → e.1+e.2.size ≤ o

theorem cut_boundary (hl : Laid s) (hd : (k,d) ∈ s.mappings.entries) (hko : k < o)
    (hod : o < k+d.size) {b : ℕ} (hb : Boundary s b ∨ b = o) :
    Boundary (cutMapping s k d (rightOf d o) (o-d.vaddr)) b := by
  have hv : d.vaddr = k := hl.keyed _ hd
  intro e he heb
  rcases (mem_cut hl hd hko hod).mp he with rfl | rfl | ⟨hmem, hek⟩
  · rcases hb with hb | rfl
    · have := hb _ hd heb
      simp only [leftOf] at this ⊢
      omega
    · simp only [leftOf]
      omega
  · rcases hb with hb | rfl
    · have hkb : k < b := by simp only at heb; omega
      have := hb _ hd hkb
      simp only [rightOf, hv] at this ⊢
      omega
    · exact absurd heb (lt_irrefl _)
  · rcases hb with hb | rfl
    · exact hb e hmem heb
    · rcases lt_or_gt_of_ne hek with hlt | hlt
      · have := hl.disjoint e hmem _ hd hlt
        simp only at this
        omega
      · have := hl.disjoint _ hd e hmem hlt
        simp only at this
        omega

/-- A split only adds a boundary. -/
theorem split_spec (hs : Sound s) (o : ℕ) : ∃ s', splitHeapMapLocked s o = some s' ∧ Sound s' ∧
    (∀ x, pageAt s' x = pageAt s x) ∧ s'.tick = s.tick ∧
    ∀ b, Boundary s b ∨ b = o → Boundary s' b := by
  have hl := hs.toLaid
  cases hfind : findMappingAt s o with
  | none =>
    refine ⟨s, by simp only [splitHeapMapLocked, hfind], hs, fun _ => rfl, rfl, ?_⟩
    rintro b (hb | rfl)
    · exact hb
    · intro e he heb
      by_contra hlt
      rw [(findMappingAt_eq_some hl).mpr ⟨e.2, he, heb.le, by simp only; omega⟩] at hfind
      cases hfind
  | some k =>
    obtain ⟨d, hd, hle, hlt⟩ := (findMappingAt_eq_some hl).mp hfind
    simp only at hle hlt
    by_cases hk : k = o
    · refine ⟨s, by simp only [splitHeapMapLocked, hfind, if_pos hk], hs, fun _ => rfl, rfl, ?_⟩
      rintro b (hb | rfl)
      · exact hb
      · intro e he heb
        exact hl.disjoint e he _ hd (by rw [← hk] at heb; exact heb) |>.trans hle
    · have hko : k < o := by omega
      refine ⟨cutMapping s k d (rightOf d o) (o-d.vaddr), ?_,
        ⟨cut_laid hl hd hko hlt, cut_counted hs hd hko hlt⟩,
        fun x => cut_pageAt hl hd hko hlt, rfl, fun b => cut_boundary hl hd hko hlt⟩
      simp only [splitHeapMapLocked, hfind, if_neg hk, BTreeMap.get_eq_some_iff.mpr hd,
        Option.map_some]

theorem splitHeapMap_spec (hs : Sound s) (o size : ℕ) : ∃ s', splitHeapMap s o size = some s' ∧
    Sound s' ∧ (∀ x, pageAt s' x = pageAt s x) ∧ Boundary s' o ∧ Boundary s' (o+size) := by
  obtain ⟨s₁, h₁, hs₁, hpage₁, -, hb₁⟩ := split_spec hs o
  obtain ⟨s₂, h₂, hs₂, hpage₂, -, hb₂⟩ := split_spec hs₁ (o+size)
  refine ⟨s₂, ?_, hs₂, fun x => (hpage₂ x).trans (hpage₁ x), hb₂ o (Or.inl (hb₁ o (Or.inr rfl))),
    hb₂ _ (Or.inr rfl)⟩
  simp only [splitHeapMap, h₁, Option.bind_some, h₂]

/-! ### A new mapping, a removal, an update in place -/

variable {v p len : ℕ} {perm : MemoryPermission}

theorem track_sound (hs : Sound s) (hlen : 0 < len) (hu : Untracked s v len) :
    Sound (track s v p len perm) := by
  have hnew : ∀ w, (v,w) ∉ s.mappings.entries := by
    intro w hw
    have hpos := hs.sized _ hw
    rcases hu _ hw with h | h <;> simp only at h hpos <;> omega
  have hmem : ∀ {e}, e ∈ (track s v p len perm).mappings.entries →
      e = (v, ⟨v, p, len, s.tick, perm, false⟩) ∨ e ∈ s.mappings.entries := by
    intro e he
    rcases BTreeMap.mem_insert.mp he with rfl | ⟨-, he⟩
    · exact Or.inl rfl
    · exact Or.inr he
  have hperm : (track s v p len perm).mappings.entries.Perm
      ((v, ⟨v, p, len, s.tick, perm, false⟩) :: s.mappings.entries) := BTreeMap.insert_perm hnew
  refine ⟨⟨?_, ?_, ?_⟩, ⟨?_, ?_, ?_⟩⟩
  · intro e he
    rcases hmem he with rfl | he
    · rfl
    · exact hs.keyed e he
  · intro e he
    rcases hmem he with rfl | he
    · exact hlen
    · exact hs.sized e he
  · intro e he f hf hef
    rcases hmem he with rfl | he <;> rcases hmem hf with rfl | hf
    · exact absurd hef (lt_irrefl _)
    · rcases hu f hf with h | h
      · simp only at hef
        omega
      · exact h
    · rcases hu e he with h | h
      · exact h
      · simp only at hef
        omega
    · exact hs.disjoint e he f hf hef
  · have h1 := hperm.length_eq
    have h2 := hs.map_count
    simp only [BTreeMap.len, List.length_cons] at h1 h2 ⊢
    rw [h1]
    simp only [track]
    omega
  · have h1 := hperm.countP_eq fun e => e.2.isResident
    have h2 := hs.resident_count
    rw [h1]
    simpa [track] using h2
  · intro key u
    have hidx := hs.index key u
    change (key,u) ∈ s.residentMappings.entries ↔ _
    rw [hidx]
    constructor
    · rintro ⟨w, hw, hr, rfl⟩
      exact ⟨w, BTreeMap.mem_insert.mpr (Or.inr ⟨fun h => hnew w (by rw [← h]; exact hw), hw⟩), hr, rfl⟩
    · rintro ⟨w, hw, hr, rfl⟩
      rcases hmem hw with heq | hw
      · obtain ⟨rfl, rfl⟩ := Prod.mk.inj heq
        cases hr
      · exact ⟨w, hw, hr, rfl⟩

theorem track_pageAt (hs : Sound s) (hlen : 0 < len) (hu : Untracked s v len) (x : ℕ) :
    pageAt (track s v p len perm) x =
      if v ≤ x ∧ x < v+len then some (p+(x-v), perm, false) else pageAt s x := by
  have hl' : Laid (track s v p len perm) := (track_sound hs hlen hu).toLaid
  split
  · rename_i hx
    exact pageAt_of_mem hl' (BTreeMap.mem_insert.mpr (Or.inl rfl)) hx
  · rename_i hx
    cases hpage : pageAt s x with
    | none =>
      rw [pageAt_eq_none hs.toLaid] at hpage
      rw [pageAt_eq_none hl']
      intro e he hex
      rcases BTreeMap.mem_insert.mp he with rfl | ⟨-, he⟩
      · exact hx hex
      · exact hpage e he hex
    | some w =>
      obtain ⟨e, he, hex, rfl⟩ := (pageAt_eq_some hs.toLaid).mp hpage
      have hev : e.1 ≠ v := by
        rintro rfl
        have hpos := hs.sized e he
        rcases hu e he with h | h <;> omega
      exact pageAt_of_mem hl' (BTreeMap.mem_insert.mpr (Or.inr ⟨hev, he⟩)) hex

theorem remove_laid (hl : Laid s) (hm : s'.mappings = s.mappings.remove k) : Laid s' := by
  have hmem : ∀ {e}, e ∈ s'.mappings.entries → e ∈ s.mappings.entries := by
    intro e he
    rw [hm] at he
    exact (BTreeMap.mem_remove.mp he).1
  exact ⟨fun e he => hl.keyed e (hmem he), fun e he => hl.sized e (hmem he),
    fun e he f hf => hl.disjoint e (hmem he) f (hmem hf)⟩

/-- `forget` drops the mapping at the key and leaves every other entry. -/
theorem forget_spec (hs : Sound s) (k : ℕ) : ∃ s', forget s k = some s' ∧ Sound s' ∧
    ∀ e, e ∈ s'.mappings.entries ↔ e ∈ s.mappings.entries ∧ e.1 ≠ k := by
  cases hget : s.mappings.get k with
  | none =>
    refine ⟨s, by simp only [forget, hget], hs, fun e => ⟨fun he => ⟨he, ?_⟩, fun he => he.1⟩⟩
    rintro rfl
    exact BTreeMap.get_eq_none_iff.mp hget e.2 he
  | some d =>
    have hd := BTreeMap.get_eq_some_iff.mp hget
    have hv : d.vaddr = k := hs.keyed _ hd
    have hold := BTreeMap.remove_perm hd
    have hlen := hold.length_eq
    have hcount := hold.countP_eq fun e => e.2.isResident
    have hmap := hs.map_count
    have hres := hs.resident_count
    simp only [BTreeMap.len, List.length_cons, List.countP_cons] at hlen hcount hmap
    have hindex : ∀ key u, (∃ w, (u,w) ∈ (s.mappings.remove k).entries ∧ w.isResident = true ∧
        key = toLex (w.tick, u)) ↔ (key,u) ∈ s.residentMappings.entries ∧ u ≠ k := by
      intro key u
      rw [hs.index]
      constructor
      · rintro ⟨w, hw, hr, rfl⟩
        have hw' := BTreeMap.mem_remove.mp hw
        exact ⟨⟨w, hw'.1, hr, rfl⟩, hw'.2⟩
      · rintro ⟨⟨w, hw, hr, rfl⟩, huk⟩
        exact ⟨w, BTreeMap.mem_remove.mpr ⟨hw, huk⟩, hr, rfl⟩
    have hsome : forget s k = some (dropMapping s k d) := by
      simp only [forget, hget]
      rw [if_neg]
      rintro (⟨hr, hlt⟩ | hlt)
      · rw [if_pos hr] at hcount
        omega
      · omega
    refine ⟨dropMapping s k d, hsome, ⟨remove_laid hs.toLaid rfl, ?_, ?_, ?_⟩,
      fun e => BTreeMap.mem_remove⟩
    · simp only [BTreeMap.len, dropMapping]
      omega
    · simp only [dropMapping]
      split <;> simp_all
    · intro key u
      change _ ↔ ∃ w, (u,w) ∈ (s.mappings.remove k).entries ∧ w.isResident = true ∧
        key = toLex (w.tick, u)
      rw [hindex]
      simp only [dropMapping]
      split
      · simp only [BTreeMap.mem_remove, hv]
        refine and_congr_right fun hkey => not_congr ?_
        obtain ⟨w, hw, -, rfl⟩ := (hs.index _ _).mp hkey
        constructor
        · intro heq
          exact congrArg (fun p => (ofLex p).2) heq
        · rintro rfl
          rw [BTreeMap.key_injective hw hd]
      · rename_i hr
        refine ⟨fun hkey => ⟨hkey, ?_⟩, fun hkey => hkey.1⟩
        rintro rfl
        obtain ⟨w, hw, hwr, -⟩ := (hs.index _ _).mp hkey
        exact hr (by rw [← BTreeMap.key_injective hw hd]; exact hwr)

theorem forget_all (keys : List ℕ) : ∀ s, Sound s → ∃ s', keys.foldlM forget s = some s' ∧
    Sound s' ∧ ∀ e, e ∈ s'.mappings.entries ↔ e ∈ s.mappings.entries ∧ e.1 ∉ keys := by
  induction keys with
  | nil =>
    intro s hs
    exact ⟨s, rfl, hs, by simp⟩
  | cons k keys ih =>
    intro s hs
    obtain ⟨s₁, h₁, hs₁, hmem₁⟩ := forget_spec hs k
    obtain ⟨s₂, h₂, hs₂, hmem₂⟩ := ih s₁ hs₁
    refine ⟨s₂, ?_, hs₂, fun e => ?_⟩
    · rw [List.foldlM_cons, h₁]
      exact h₂
    · rw [hmem₂, hmem₁, List.mem_cons, not_or, and_assoc]

/-- `untrack` forgets what is recorded of the range and of nothing else. -/
theorem untrack_spec (hs : Sound s) (v size : ℕ) : ∃ s', untrack s v size = some s' ∧ Sound s' ∧
    ∀ x, pageAt s' x = if v ≤ x ∧ x < v+size then none else pageAt s x := by
  obtain ⟨s₁, h₁, hs₁, hpage₁, hlo, hhi⟩ := splitHeapMap_spec hs v size
  obtain ⟨s₂, h₂, hs₂, hmem⟩ := forget_all ((s₁.mappings.range v (v+size)).map Prod.fst) s₁ hs₁
  have hkeys : ∀ e ∈ s₁.mappings.entries,
      e.1 ∈ (s₁.mappings.range v (v+size)).map Prod.fst ↔ v ≤ e.1 ∧ e.1 < v+size := by
    intro e he
    rw [List.mem_map]
    constructor
    · rintro ⟨f, hf, hfe⟩
      rw [← hfe]
      exact (BTreeMap.mem_range.mp hf).2
    · intro hx
      exact ⟨e, BTreeMap.mem_range.mpr ⟨he, hx⟩, rfl⟩
  refine ⟨s₂, ?_, hs₂, fun x => ?_⟩
  · simp only [untrack, h₁]
    exact h₂
  · split
    · rename_i hx
      rw [pageAt_eq_none hs₂.toLaid]
      rintro e he ⟨hle, hlt⟩
      obtain ⟨he₁, hout⟩ := (hmem e).mp he
      rw [hkeys e he₁] at hout
      have := hlo e he₁
      omega
    · rename_i hx
      rw [← hpage₁ x]
      cases hpage : pageAt s₁ x with
      | none =>
        rw [pageAt_eq_none hs₁.toLaid] at hpage
        rw [pageAt_eq_none hs₂.toLaid]
        intro e he
        exact hpage e ((hmem e).mp he).1
      | some w =>
        obtain ⟨e, he, hex, rfl⟩ := (pageAt_eq_some hs₁.toLaid).mp hpage
        refine pageAt_of_mem hs₂.toLaid ((hmem e).mpr ⟨he, ?_⟩) hex
        rw [hkeys e he]
        intro hin
        obtain ⟨hle, hlt⟩ := hex
        have := hhi e he hin.2
        omega

/-! ### Updates in place -/

section Update

variable {g : SeparateHeapMapData → SeparateHeapMapData}

/-- The update leaves the range of the mapping alone. -/
structure KeepsRange (g : SeparateHeapMapData → SeparateHeapMapData) : Prop where
  vaddr : ∀ d, (g d).vaddr = d.vaddr
  paddr : ∀ d, (g d).paddr = d.paddr
  size : ∀ d, (g d).size = d.size

theorem modify_laid (hl : Laid s) (hg : KeepsRange g) (hm : s'.mappings = s.mappings.modify k g) :
    Laid s' := by
  have hback : ∀ {e}, e ∈ s'.mappings.entries → ∃ w, (e.1,w) ∈ s.mappings.entries ∧
      e.2.vaddr = w.vaddr ∧ e.2.size = w.size := by
    intro e he
    rw [hm] at he
    obtain ⟨w, hw, heq⟩ := BTreeMap.mem_modify.mp he
    refine ⟨w, hw, ?_, ?_⟩ <;> rw [heq] <;> split <;> simp only [hg.vaddr, hg.size]
  refine ⟨?_, ?_, ?_⟩
  · intro e he
    obtain ⟨w, hw, hv, -⟩ := hback he
    rw [hv]
    exact hl.keyed _ hw
  · intro e he
    obtain ⟨w, hw, -, hsize⟩ := hback he
    rw [hsize]
    exact hl.sized _ hw
  · intro e he f hf hef
    obtain ⟨w, hw, -, hsize⟩ := hback he
    obtain ⟨u, hu, -, -⟩ := hback hf
    rw [hsize]
    exact hl.disjoint (e.1,w) hw (f.1,u) hu hef

theorem modify_pageAt (s' : HeapTrackerState) (hl : Laid s) (hg : KeepsRange g)
    (hm : s'.mappings = s.mappings.modify k g) (hd : (k,d) ∈ s.mappings.entries) (x : ℕ) :
    pageAt s' x = if Within (k,d) x then some (pageOf (k, g d) x) else pageAt s x := by
  have hl' := modify_laid hl hg hm
  split
  · rename_i hx
    have hmem : (k, g d) ∈ s'.mappings.entries := by
      rw [hm]
      exact BTreeMap.mem_modify.mpr ⟨d, hd, by rw [if_pos rfl]⟩
    refine pageAt_of_mem hl' hmem ?_
    unfold Within at hx ⊢
    rw [hg.size]
    exact hx
  · rename_i hx
    cases hpage : pageAt s x with
    | none =>
      rw [pageAt_eq_none hl] at hpage
      rw [pageAt_eq_none hl']
      intro e he hex
      rw [hm] at he
      obtain ⟨w, hw, heq⟩ := BTreeMap.mem_modify.mp he
      refine hpage _ hw ⟨hex.1, ?_⟩
      have hlt := hex.2
      rw [heq] at hlt
      split at hlt
      · rw [hg.size] at hlt
        exact hlt
      · exact hlt
    | some w =>
      obtain ⟨e, he, hex, rfl⟩ := (pageAt_eq_some hl).mp hpage
      have hek : e.1 ≠ k := by
        rintro rfl
        rw [← BTreeMap.key_injective he hd] at hx
        exact hx hex
      refine pageAt_of_mem hl' ?_ hex
      rw [hm]
      exact BTreeMap.mem_modify.mpr ⟨e.2, he, by rw [if_neg hek]⟩

/-- The counts of a state whose mapping at `k` was updated. -/
theorem modify_counts (hd : (k,d) ∈ s.mappings.entries) (g : SeparateHeapMapData → SeparateHeapMapData) :
    (s.mappings.modify k g).len = s.mappings.len ∧
      (s.mappings.modify k g).entries.countP (fun e => e.2.isResident) + (if d.isResident then 1 else 0) =
        s.mappings.entries.countP (fun e => e.2.isResident) + if (g d).isResident then 1 else 0 := by
  have hnew := BTreeMap.modify_perm hd g
  have hold := BTreeMap.remove_perm hd
  refine ⟨hnew.length_eq.trans hold.length_eq.symm, ?_⟩
  have h1 := hnew.countP_eq fun e => e.2.isResident
  have h2 := hold.countP_eq fun e => e.2.isResident
  simp only [List.countP_cons] at h1 h2
  omega

theorem mem_modify_resident (hd : (k,d) ∈ s.mappings.entries) {key : ℕ ×ₗ ℕ} {u : ℕ} :
    (∃ w, (u,w) ∈ (s.mappings.modify k g).entries ∧ w.isResident = true ∧ key = toLex (w.tick, u)) ↔
      (u = k ∧ (g d).isResident = true ∧ key = toLex ((g d).tick, k)) ∨
      (u ≠ k ∧ ∃ w, (u,w) ∈ s.mappings.entries ∧ w.isResident = true ∧ key = toLex (w.tick, u)) := by
  constructor
  · rintro ⟨w, hw, hr, rfl⟩
    obtain ⟨w', hw', heq⟩ := BTreeMap.mem_modify.mp hw
    simp only at hw' heq
    by_cases hu : u = k
    · rw [if_pos hu] at heq
      subst hu
      rw [BTreeMap.key_injective hw' hd] at heq
      subst heq
      exact Or.inl ⟨rfl, hr, rfl⟩
    · rw [if_neg hu] at heq
      subst heq
      exact Or.inr ⟨hu, w, hw', hr, rfl⟩
  · rintro (⟨rfl, hr, rfl⟩ | ⟨hu, w, hw, hr, rfl⟩)
    · exact ⟨g d, BTreeMap.mem_modify.mpr ⟨d, hd, by simp⟩, hr, rfl⟩
    · exact ⟨w, BTreeMap.mem_modify.mpr ⟨w, hw, by simp [hu]⟩, hr, rfl⟩

end Update

end Ruzu.HeapTracker
