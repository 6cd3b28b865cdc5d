import Ruzu.Common.AddressSpaceMap

/-!
# Runs of the flat allocator

The live ranges are the mapped addresses. The slower pass and the skipping loop
pick unmapped blocks; the fast pass takes the range at its cursor without a
look at the flag of the block it lies in.
-/

set_option autoImplicit false

namespace Ruzu.AddressSpace
open Ruzu.Piecewise

variable {w : ℕ} {a a' : FlatAllocatorBool w} {live : List (ℕ × ℕ)}

/-- The block that the fast pass looks at does not put the cursor into a mapped block. -/
def ClearCursor (a : FlatAllocatorBool w) (size : ℕ) : Prop :=
  ∀ pred, a.inner.blocks[partitionPoint a.inner.blocks
      (wrappingAdd w a.currentLinearAllocEnd size) - 1]? = some pred →
    a.currentLinearAllocEnd ≤ wrappingAdd w a.currentLinearAllocEnd size →
    wrappingAdd w a.currentLinearAllocEnd size ≤ a.vaLimit →
    pred.virt ≤ a.currentLinearAllocEnd → pred.mapped = false

def Apart (r s : ℕ × ℕ) : Prop := r.1+r.2 ≤ s.1 ∨ s.1+s.2 ≤ r.1

/-- An allocator and its live ranges, after calls whose allocations meet `P`. -/
inductive Run (w virtStart vaLimit : ℕ) (P : FlatAllocatorBool w → ℕ → Prop) :
    FlatAllocatorBool w → List (ℕ × ℕ) → Prop
  | new : Run w virtStart vaLimit P (.new w virtStart vaLimit) []
  | allocate {a a' : FlatAllocatorBool w} {live : List (ℕ × ℕ)} {size : ℕ} {r : Option ℕ} :
      Run w virtStart vaLimit P a live → 0 < size → size < 2^w → P a size →
      a.allocate size = some (r, a') →
      Run w virtStart vaLimit P a' ((r.map fun s => (s, size)).toList ++ live)
  | allocateFixed {a a' : FlatAllocatorBool w} {live : List (ℕ × ℕ)} {virt size : ℕ} :
      Run w virtStart vaLimit P a live → 0 < size → virtStart ≤ virt → virt+size ≤ vaLimit →
      (∀ r ∈ live, Apart (virt, size) r) → a.allocateFixed virt size = some a' →
      Run w virtStart vaLimit P a' ((virt, size) :: live)
  | free {a a' : FlatAllocatorBool w} {live : List (ℕ × ℕ)} {r : ℕ × ℕ} :
      Run w virtStart vaLimit P a live → r ∈ live → a.free r.1 r.2 = some a' →
      Run w virtStart vaLimit P a' (live.erase r)

/-- Address `x` lies in a live range. -/
def Live (live : List (ℕ × ℕ)) (x : ℕ) : Prop := ∃ r ∈ live, r.1 ≤ x ∧ x < r.1+r.2

/-- The mapping is the live ranges, which lie apart within the bounds. -/
structure Tracks (virtStart vaLimit : ℕ) (a : FlatAllocatorBool w) (live : List (ℕ × ℕ)) :
    Prop where
  wellFormed : WellFormed a.inner.blocks
  limits : a.inner.vaLimit = vaLimit ∧ a.vaLimit = vaLimit
  starts : ∀ b ∈ a.inner.blocks, b.virt = 0 ∨ (virtStart ≤ b.virt ∧ b.virt ≤ vaLimit)
  cursor : virtStart ≤ a.currentLinearAllocEnd
  mapped : ∀ x, mappedAt a.inner.blocks x = true ↔ Live live x
  apart : live.Pairwise Apart
  bounds : ∀ r ∈ live, 0 < r.2 ∧ virtStart ≤ r.1 ∧ r.1+r.2 ≤ vaLimit

theorem Apart.symm {r s : ℕ × ℕ} (h : Apart r s) : Apart s r := Or.symm h

theorem live_cons {r : ℕ × ℕ} (x : ℕ) :
    Live (r::live) x ↔ (r.1 ≤ x ∧ x < r.1+r.2) ∨ Live live x := by
  simp [Live]

variable {virtStart vaLimit : ℕ}

/-- A range mapped apart from the live ones. -/
theorem Tracks.map (h : Tracks virtStart vaLimit a live) (hstart : 0 < virtStart)
    (hlimit : vaLimit < 2^w) {virt size : ℕ} (hs : 0 < size) (hv : virtStart ≤ virt)
    (hend : virt+size ≤ vaLimit) (hapart : ∀ r ∈ live, Apart (virt, size) r) {cursor : ℕ}
    (hcursor : virtStart ≤ cursor) :
    ∃ inner, a.inner.mapLocked virt size = some inner ∧
      Tracks virtStart vaLimit
        { a with inner := inner, currentLinearAllocEnd := cursor } ((virt, size) :: live) := by
  obtain ⟨inner, hmap, hl, hwf, hstarts, hx⟩ := (edit_locked (w := w) h.wellFormed
    (show 0 < virt by omega) hs (by rw [h.limits.1]; exact hend) (by omega)).1
  refine ⟨inner, hmap, hwf, ⟨hl.trans h.limits.1, h.limits.2⟩, ?_, hcursor, ?_, ?_, ?_⟩
  · intro b hb
    rcases hstarts b hb with hb | hb | ⟨c, hc, hcb⟩
    · right
      omega
    · right
      omega
    · rw [← hcb]
      exact h.starts c hc
  · intro x
    rw [hx, live_cons]
    split
    · rename_i hin
      simp [hin]
    · rename_i hin
      rw [h.mapped]
      exact (or_iff_right hin).symm
  · exact List.pairwise_cons.mpr ⟨hapart, h.apart⟩
  · intro r hr
    rcases List.mem_cons.mp hr with rfl | hr
    · exact ⟨hs, hv, hend⟩
    · exact h.bounds r hr

/-- A live range freed. -/
theorem Tracks.unmap (h : Tracks virtStart vaLimit a live) (hstart : 0 < virtStart)
    (hlimit : vaLimit < 2^w) {r : ℕ × ℕ} (hr : r ∈ live) :
    ∃ inner, a.inner.unmapLocked r.1 r.2 = some inner ∧
      Tracks virtStart vaLimit { a with inner } (live.erase r) := by
  obtain ⟨hs, hv, hend⟩ := h.bounds r hr
  obtain ⟨inner, hmap, hl, hwf, hstarts, hx⟩ := (edit_locked (w := w) h.wellFormed
    (show 0 < r.1 by omega) hs (by rw [h.limits.1]; exact hend) (by omega)).2
  have hperm := List.perm_cons_erase hr
  have hpair : (r :: live.erase r).Pairwise Apart :=
    (hperm.pairwise_iff fun h => h.symm).mp h.apart
  rw [List.pairwise_cons] at hpair
  refine ⟨inner, hmap, hwf, ⟨hl.trans h.limits.1, h.limits.2⟩, ?_, h.cursor, ?_, hpair.2, ?_⟩
  · intro b hb
    rcases hstarts b hb with hb | hb | ⟨c, hc, hcb⟩
    · right
      omega
    · right
      omega
    · rw [← hcb]
      exact h.starts c hc
  · intro x
    rw [hx]
    have hall : Live live x ↔ (r.1 ≤ x ∧ x < r.1+r.2) ∨ Live (live.erase r) x := by
      rw [← live_cons, Live, Live]
      simp only [hperm.mem_iff]
    split
    · rename_i hin
      refine iff_of_false (by simp) ?_
      rintro ⟨s, hsl, hsx⟩
      rcases hpair.1 s hsl with hrs | hrs
      · omega
      · omega
    · rename_i hin
      rw [h.mapped, hall]
      exact or_iff_right hin
  · intro s hsl
    exact h.bounds s (List.mem_of_mem_erase hsl)

/-- The flag of the block that an address lies in. -/
theorem mappedAt_block {A D : List Block} {p : Block} {x : ℕ}
    (hs : Sorted Block.virt (A ++ p :: D)) (hp : p.virt ≤ x) (hD : ∀ b ∈ D, x < b.virt) :
    mappedAt (A ++ p :: D) x = p.mapped := by
  have heq : A ++ p :: D = A ++ [p] ++ D := by simp
  rw [heq] at hs ⊢
  obtain ⟨hAp, _, hlt⟩ := sorted_append.mp hs
  rw [mappedAt, eval_append hlt, eval_below hD, eval_above, last_snoc]
  intro b hb
  rcases List.mem_append.mp hb with hb | hb
  · have := (sorted_append.mp hAp).2.2 b hb p (by simp)
    omega
  · rw [List.mem_singleton] at hb
    rwa [hb]

/-- Where the search loops find room: in an unmapped block `p` that is large enough. -/
theorem findGap_spec {size : ℕ} (rest : List Block) : ∀ (A : List Block) (pred : Block) (s : ℕ),
    Sorted Block.virt (A ++ pred :: rest) → (∀ b ∈ pred::rest, b.virt < 2^w) →
    findGap w size pred rest = some s →
    ∃ A' p D, A ++ pred :: rest = A' ++ p :: D ∧ pred.virt ≤ p.virt ∧ p.mapped = false ∧
      s = p.virt ∧ ∃ c ∈ D.head?, p.virt+size ≤ c.virt := by
  induction rest with
  | nil =>
    intro A pred s _ _ h
    exact absurd h (by simp [findGap])
  | cons c rest ih =>
    intro A pred s hs hw h
    have hpc : pred.virt < c.virt :=
      (List.pairwise_cons.mp (sorted_append.mp hs).2.1).1 c (by simp)
    have hc := hw c (by simp)
    have hgap : wrappingSub w c.virt pred.virt = c.virt - pred.virt := by
      rw [wrappingSub, show c.virt+(2^w - pred.virt) = c.virt - pred.virt+2^w by omega,
        Nat.add_mod_right, Nat.mod_eq_of_lt (by omega)]
    rw [findGap, hgap] at h
    split at h
    · rename_i hfit
      cases h
      refine ⟨A, pred, c::rest, rfl, le_rfl, by simpa using hfit.2, rfl, c, rfl, ?_⟩
      omega
    · have heq : A ++ pred :: c :: rest = A ++ [pred] ++ c :: rest := by simp
      rw [heq] at hs ⊢
      obtain ⟨A', p, D, hcut, hle, hp, hsp, hroom⟩ := ih _ c s hs
        (fun b hb => hw b (by simp [hb])) h
      exact ⟨A', p, D, hcut, by omega, hp, hsp, hroom⟩

theorem skipFixed_spec {size : ℕ} (rest : List Block) :
    ∀ (A : List Block) (pred : Block) (s : ℕ),
    Sorted Block.virt (A ++ pred :: rest) → (∀ b ∈ pred::rest, b.virt < 2^w) → size < 2^w →
    lastMapped (A ++ pred :: rest) = false → skipFixed w size vaLimit pred rest = some s →
    ∃ A' p D, A ++ pred :: rest = A' ++ p :: D ∧ pred.virt ≤ p.virt ∧ p.mapped = false ∧
      s = p.virt ∧ ((∃ c ∈ D.head?, p.virt+size ≤ c.virt) ∨
        (D = [] ∧ p.virt+size < 2^w ∧ p.virt+size ≤ vaLimit)) := by
  induction rest with
  | nil =>
    intro A pred s _ _ _ _ h
    exact absurd h (by simp [skipFixed])
  | cons c rest ih =>
    intro A pred s hs hw hsize hlast h
    have hpc : pred.virt < c.virt :=
      (List.pairwise_cons.mp (sorted_append.mp hs).2.1).1 c (by simp)
    have hc := hw c (by simp)
    have hgap : wrappingSub w c.virt pred.virt = c.virt - pred.virt := by
      rw [wrappingSub, show c.virt+(2^w - pred.virt) = c.virt - pred.virt+2^w by omega,
        Nat.add_mod_right, Nat.mod_eq_of_lt (by omega)]
    have heq : A ++ pred :: c :: rest = A ++ [pred] ++ c :: rest := by simp
    rw [skipFixed, hgap] at h
    split at h
    · rename_i hfit
      cases h
      refine ⟨A, pred, c::rest, rfl, le_rfl, by simpa using hfit.2, rfl, .inl ⟨c, rfl, ?_⟩⟩
      omega
    · rw [heq] at hs hlast ⊢
      cases rest with
      | nil =>
        rw [List.isEmpty_nil, if_pos rfl] at h
        dsimp only at h
        split at h
        · rename_i hend
          cases h
          rw [lastMapped, last_snoc] at hlast
          have hnowrap : c.virt+size < 2^w := by
            by_contra hover
            have hsub : wrappingAdd w c.virt size = c.virt+size - 2^w := by
              rw [wrappingAdd, Nat.mod_eq_sub_mod (by omega), Nat.mod_eq_of_lt (by omega)]
            rw [hsub] at hend
            omega
          rw [wrappingAdd, Nat.mod_eq_of_lt hnowrap] at hend
          exact ⟨_, c, [], rfl, hpc.le, hlast, rfl, .inr ⟨rfl, hnowrap, hend.2⟩⟩
        · exact absurd h (by simp)
      | cons d rest =>
        rw [if_neg (by simp)] at h
        obtain ⟨A', p, D, hcut, hle, hp, hsp, hroom⟩ := ih _ c s hs
          (fun b hb => hw b (by simp [hb])) hsize hlast h
        exact ⟨A', p, D, hcut, by omega, hp, hsp, hroom⟩

theorem head_room {A D : List Block} {p : Block} {size : ℕ} (hs : Sorted Block.virt (A ++ p :: D))
    (hroom : ∃ c ∈ D.head?, p.virt+size ≤ c.virt) : ∀ b ∈ D, p.virt+size ≤ b.virt := by
  obtain ⟨c, hc, hle⟩ := hroom
  cases D with
  | nil => exact absurd hc (by simp)
  | cons d D =>
    simp only [List.head?_cons, Option.mem_def, Option.some.injEq] at hc
    subst hc
    have hd := (List.pairwise_cons.mp (List.pairwise_cons.mp (sorted_append.mp hs).2.1).2).1
    intro b hb
    rcases List.mem_cons.mp hb with rfl | hb
    · exact hle
    · exact hle.trans (hd b hb).le

/-- A range without a mapped address is apart from the live ones. -/
theorem Tracks.apart_of_unmapped (h : Tracks virtStart vaLimit a live) {s size : ℕ}
    (hs : 0 < size)
    (hfree : ∀ x, s ≤ x → x < s+size → mappedAt a.inner.blocks x = false) :
    ∀ r ∈ live, Apart (s, size) r := by
  intro r hr
  by_contra hno
  rw [Apart, not_or, not_le, not_le] at hno
  have hpos := (h.bounds r hr).1
  have hx := hfree (max s r.1) (by omega) (by omega)
  have hlive : Live live (max s r.1) := ⟨r, hr, by omega, by omega⟩
  rw [← h.mapped, hx] at hlive
  exact absurd hlive (by simp)

/-- The room that a search found lies within the bounds and is not mapped. -/
theorem Tracks.room (h : Tracks virtStart vaLimit a live) {A D : List Block} {p : Block} {size : ℕ}
    (hcut : a.inner.blocks = A ++ p :: D) (hpos : 0 < p.virt) (hp : p.mapped = false)
    (hroom : (∃ c ∈ D.head?, p.virt+size ≤ c.virt) ∨
      (D = [] ∧ p.virt+size < 2^w ∧ p.virt+size ≤ vaLimit)) :
    virtStart ≤ p.virt ∧ p.virt+size ≤ vaLimit ∧
      ∀ x, p.virt ≤ x → x < p.virt+size → mappedAt a.inner.blocks x = false := by
  have hsorted := h.wellFormed.sorted
  have hstart := h.starts p (by rw [hcut]; simp)
  rw [hcut] at hsorted ⊢
  refine ⟨by omega, ?_, ?_⟩
  · rcases hroom with ⟨c, hc, hle⟩ | ⟨_, _, hle⟩
    · have hmem : c ∈ a.inner.blocks := by
        rw [hcut]
        simp [List.mem_of_mem_head? hc]
      have := h.starts c hmem
      omega
    · exact hle
  · intro x hx hlt
    rw [mappedAt_block hsorted hx, hp]
    intro b hb
    rcases hroom with hroom | ⟨rfl, _⟩
    · exact hlt.trans_le (head_room hsorted hroom b hb)
    · exact absurd hb (by simp)

/-- The last block below the end of the cursor's range. -/
theorem Tracks.pred (h : Tracks virtStart vaLimit a live) {allocEnd : ℕ} (hpos : 0 < allocEnd) :
    ∃ A pred D, a.inner.blocks = A ++ pred :: D ∧
      partitionPoint a.inner.blocks allocEnd = A.length+1 ∧ ∀ b ∈ D, allocEnd ≤ b.virt := by
  obtain ⟨X, D, hcut, hX, hD⟩ := h.wellFormed.sorted.cut allocEnd
  rcases List.eq_nil_or_concat X with rfl | ⟨A, pred, rfl⟩
  · obtain ⟨l, hl⟩ := h.wellFormed.starts
    rw [hl, List.nil_append] at hcut
    have := hD ⟨0, false⟩ (by rw [← hcut]; simp)
    dsimp only at this
    omega
  · rw [List.concat_eq_append] at hcut hX
    refine ⟨A, pred, D, by rw [hcut]; simp, ?_, hD⟩
    rw [hcut, partitionPoint_cut hX hD, List.length_append]
    rfl

theorem below_limit (h : Tracks virtStart vaLimit a live) (hlimit : vaLimit < 2^w) :
    ∀ b ∈ a.inner.blocks, b.virt < 2^w := by
  intro b hb
  have := h.starts b hb
  have := Nat.two_pow_pos w
  omega

theorem no_wrap {cursor size : ℕ} (hsize : size < 2^w)
    (hle : cursor ≤ wrappingAdd w cursor size) : wrappingAdd w cursor size = cursor+size := by
  have hlt : wrappingAdd w cursor size < 2^w := Nat.mod_lt _ (Nat.two_pow_pos w)
  rw [wrappingAdd] at hle hlt ⊢
  by_contra hne
  have hover : 2^w ≤ cursor+size := by
    by_contra hno
    exact hne (Nat.mod_eq_of_lt (by omega))
  rw [Nat.mod_eq_sub_mod hover, Nat.mod_eq_of_lt (by omega)] at hle
  omega

/-- The address that the fast pass picks. -/
theorem linearStart_picks (h : Tracks virtStart vaLimit a live) (hstart : 0 < virtStart)
    (hlimit : vaLimit < 2^w) {size s : ℕ} (hsize : size < 2^w)
    (hclear : ClearCursor a size) (hrun : a.linearStart size = some (some s)) :
    virtStart ≤ s ∧ s+size ≤ vaLimit ∧
      ∀ x, s ≤ x → x < s+size → mappedAt a.inner.blocks x = false := by
  rw [FlatAllocatorBool.linearStart] at hrun
  dsimp only at hrun
  split at hrun
  · rename_i hfits
    have hend := no_wrap hsize hfits.1
    have hcursor := h.cursor
    obtain ⟨A, pred, D, hcut, hpoint, hD⟩ := h.pred
      (show 0 < wrappingAdd w a.currentLinearAllocEnd size by omega)
    have hget : a.inner.blocks[A.length]? = some pred := by rw [hcut, getElem?_length]
    have hsorted := h.wellFormed.sorted
    rw [hpoint, if_neg (by omega), Nat.add_sub_cancel, hget] at hrun
    simp only [bind, Option.bind_some] at hrun
    by_cases hle : pred.virt ≤ a.currentLinearAllocEnd
    · rw [if_pos hle] at hrun
      cases hrun
      have hflag := hclear pred (by rw [hpoint, Nat.add_sub_cancel, hget]) hfits.1 hfits.2 hle
      have hl := h.limits.2
      refine ⟨hcursor, by omega, ?_⟩
      intro x hx hlt
      rw [hcut] at hsorted ⊢
      rw [mappedAt_block hsorted (hle.trans hx), hflag]
      intro b hb
      have := hD b hb
      omega
    · rw [if_neg hle, Option.some.injEq] at hrun
      have hdrop : a.inner.blocks.drop (A.length+1) = D := by
        rw [hcut]
        simp
      have hlast := h.wellFormed.ends
      have hw := below_limit h hlimit
      rw [hcut] at hsorted hlast hw
      rw [hdrop, h.limits.2] at hrun
      obtain ⟨A', p, D', hcut', hle', hp, rfl, hroom⟩ := skipFixed_spec D A pred s hsorted
        (fun b hb => hw b (List.mem_append_right _ hb)) hsize hlast hrun
      exact h.room (hcut.trans hcut') (by omega) hp hroom
  · exact absurd hrun (by simp)

/-- What `allocate` picked: room that is not mapped, or a clear cursor. -/
theorem allocate_picks (h : Tracks virtStart vaLimit a live) (hstart : 0 < virtStart)
    (hlimit : vaLimit < 2^w) {size s : ℕ} (hsize : size < 2^w)
    (hclear : ClearCursor a size) (hrun : a.allocate size = some (some s, a')) :
    virtStart ≤ s ∧ s+size ≤ vaLimit ∧
      (∀ x, s ≤ x → x < s+size → mappedAt a.inner.blocks x = false) ∧
      ∃ inner cursor, a.inner.mapLocked s size = some inner ∧ virtStart ≤ cursor ∧
        a' = { a with inner := inner, currentLinearAllocEnd := cursor } := by
  rw [FlatAllocatorBool.allocate] at hrun
  simp only [bind, Option.bind_eq_some_iff] at hrun
  obtain ⟨start, hlinear, hrun⟩ := hrun
  cases start with
  | some start =>
    simp only [Option.bind_eq_some_iff] at hrun
    obtain ⟨inner, hmap, heq⟩ := hrun
    cases heq
    obtain ⟨hlow, hhigh, hfree⟩ := linearStart_picks h hstart hlimit hsize hclear hlinear
    refine ⟨hlow, hhigh, hfree, inner, _, hmap, ?_, rfl⟩
    rw [wrappingAdd, Nat.mod_eq_of_lt (by omega)]
    omega
  | none =>
    -- the slower pass, from the second block on
    dsimp only at hrun
    split at hrun
    · rename_i b pred succ rest hblocks
      split at hrun
      · rename_i start hgap
        simp only [Option.bind_eq_some_iff] at hrun
        obtain ⟨inner, hmap, heq⟩ := hrun
        cases heq
        have hsorted := h.wellFormed.sorted
        have hw := below_limit h hlimit
        have hcut : a.inner.blocks = [b] ++ pred :: succ :: rest := hblocks
        rw [hcut] at hsorted hw
        obtain ⟨A', p, D, hcut', hle, hp, rfl, hroom⟩ := findGap_spec (succ::rest) [b] pred s
          hsorted (fun c hc => hw c (List.mem_append_right _ hc)) hgap
        have hpos : b.virt < pred.virt :=
          (sorted_append.mp hsorted).2.2 b (by simp) pred (by simp)
        obtain ⟨hlow, hhigh, hfree⟩ := h.room (hcut.trans hcut') (by omega) hp (.inl hroom)
        exact ⟨hlow, hhigh, hfree, inner, _, hmap, h.cursor, rfl⟩
      · exact absurd hrun (by simp)
    · exact absurd hrun (by simp)

theorem run_tracks {P : FlatAllocatorBool w → ℕ → Prop} (hP : ∀ a size, P a size → ClearCursor a size)
    (hstart : 0 < virtStart) (hlimit : vaLimit < 2^w) (h : Run w virtStart vaLimit P a live) :
    Tracks virtStart vaLimit a live := by
  induction h with
  | new =>
    refine ⟨new_wellFormed, ⟨rfl, rfl⟩, ?_, le_rfl, ?_, List.Pairwise.nil, by simp⟩
    · intro b hb
      left
      have hb' : b ∈ [(⟨0, false⟩ : Block)] := hb
      rw [List.mem_singleton] at hb'
      rw [hb']
    · intro x
      simp [Live, FlatAllocatorBool.new, FlatAddressSpaceMapBool.new, mappedAt, eval]
  | @allocate a a' live size r _ hs hsize hp hrun ih =>
    cases r with
    | some s =>
      obtain ⟨hlow, hhigh, hfree, inner, cursor, hmap, hcursor, rfl⟩ :=
        allocate_picks ih hstart hlimit hsize (hP a size hp) hrun
      obtain ⟨inner', hmap', ht⟩ := ih.map hstart hlimit hs hlow hhigh
        (ih.apart_of_unmapped hs hfree) hcursor
      rw [hmap] at hmap'
      cases hmap'
      exact ht
    | none =>
      have heq : a' = a := by
        rw [FlatAllocatorBool.allocate] at hrun
        simp only [bind, Option.bind_eq_some_iff] at hrun
        obtain ⟨start, _, hrun⟩ := hrun
        cases start with
        | some start =>
          simp only [Option.bind_eq_some_iff] at hrun
          obtain ⟨inner, _, heq⟩ := hrun
          cases heq
        | none =>
          dsimp only at hrun
          split at hrun
          · split at hrun
            · simp only [Option.bind_eq_some_iff] at hrun
              obtain ⟨inner, _, heq⟩ := hrun
              cases heq
            · cases hrun
              rfl
          · exact absurd hrun (by simp)
      rw [heq]
      exact ih
  | allocateFixed _ hs hv hend hapart hrun ih =>
    obtain ⟨inner, hmap, ht⟩ := ih.map hstart hlimit hs hv hend hapart ih.cursor
    simp only [FlatAllocatorBool.allocateFixed, bind, hmap, Option.bind_some] at hrun
    cases hrun
    exact ht
  | free _ hr hrun ih =>
    obtain ⟨inner, hmap, ht⟩ := ih.unmap hstart hlimit hr
    simp only [FlatAllocatorBool.free, bind, hmap, Option.bind_some] at hrun
    cases hrun
    exact ht

/-- A cursor that is not clear is what the fast pass returns, mapped as it is. -/
theorem allocate_at_cursor (h : Tracks virtStart vaLimit a live)
    {size s : ℕ} (hs : 0 < size) (hsize : size < 2^w)
    (hclear : ¬ClearCursor a size) (hrun : a.allocate size = some (some s, a')) :
    mappedAt a.inner.blocks s = true := by
  rw [ClearCursor] at hclear
  push Not at hclear
  obtain ⟨pred, hget, hlow, hhigh, hle, hmapped⟩ := hclear
  have hend := no_wrap hsize hlow
  have hcursor := h.cursor
  obtain ⟨A, p, D, hcut, hpoint, hD⟩ := h.pred
    (show 0 < wrappingAdd w a.currentLinearAllocEnd size by omega)
  have hlinear : a.linearStart size = some (some a.currentLinearAllocEnd) := by
    rw [FlatAllocatorBool.linearStart]
    dsimp only
    rw [if_pos ⟨hlow, hhigh⟩, if_neg (by omega)]
    simp only [bind, hget, Option.bind_some]
    rw [if_pos hle]
  have hs' : s = a.currentLinearAllocEnd := by
    rw [FlatAllocatorBool.allocate] at hrun
    simp only [bind, hlinear, Option.bind_some, Option.bind_eq_some_iff] at hrun
    obtain ⟨inner, _, heq⟩ := hrun
    cases heq
    rfl
  have hp : p = pred := by
    rw [hpoint, Nat.add_sub_cancel, hcut, getElem?_length] at hget
    exact Option.some.inj hget
  subst hp
  have hsorted := h.wellFormed.sorted
  rw [hcut] at hsorted ⊢
  rw [hs', mappedAt_block hsorted hle]
  · simpa using hmapped
  · intro b hb
    have := hD b hb
    omega

/-- In a run whose allocations find a clear cursor, what a further allocation returns lies within
the bounds and apart from every live range exactly when its cursor is clear. -/
theorem allocate_apart (hstart : 0 < virtStart) (hlimit : vaLimit < 2^w)
    (h : Run w virtStart vaLimit ClearCursor a live) {size s : ℕ} (hs : 0 < size)
    (hsize : size < 2^w) (hrun : a.allocate size = some (some s, a')) :
    (virtStart ≤ s ∧ s+size ≤ vaLimit ∧ ∀ r ∈ live, Apart (s, size) r) ↔
      ClearCursor a size := by
  have ht := run_tracks (fun _ _ h => h) hstart hlimit h
  constructor
  · rintro ⟨_, _, hapart⟩
    by_contra hclear
    have hmapped := allocate_at_cursor ht hs hsize hclear hrun
    obtain ⟨r, hr, hle, hlt⟩ := (ht.mapped s).mp hmapped
    have hpos := (ht.bounds r hr).1
    rcases hapart r hr with hrs | hrs
    · dsimp only at hrs
      omega
    · dsimp only at hrs
      omega
  · intro hclear
    obtain ⟨hlow, hhigh, hfree, _⟩ := allocate_picks ht hstart hlimit hsize hclear hrun
    exact ⟨hlow, hhigh, ht.apart_of_unmapped hs hfree⟩

/-- A fixed mapping at the cursor is handed out again. -/
theorem allocate_overlaps_fixed : ∃ a a' : FlatAllocatorBool 32,
    Run 32 0x1000 0x100000 (fun _ _ => True) a [(0x1000, 0x10000)] ∧
    a.allocate 0x1000 = some (some 0x1000, a') ∧ ¬Apart (0x1000, 0x1000) (0x1000, 0x10000) := by
  have hfixed : (FlatAllocatorBool.new 32 0x1000 0x100000).allocateFixed 0x1000 0x10000 =
      some ⟨⟨[⟨0, false⟩, ⟨0x1000, true⟩, ⟨0x11000, false⟩], 0x100000⟩, 0x1000, 0x1000,
        0x100000⟩ := by decide
  have hreach := Run.allocateFixed (P := fun _ _ => True) .new (by decide) (by decide) (by decide)
    (by simp) hfixed
  have hrun : (FlatAllocatorBool.allocate ⟨⟨[⟨0, false⟩, ⟨0x1000, true⟩, ⟨0x11000, false⟩],
      0x100000⟩, 0x1000, 0x1000, 0x100000⟩ 0x1000 : Option (_ × FlatAllocatorBool 32)).map
      (·.1) = some (some 0x1000) := by decide
  obtain ⟨⟨r, a'⟩, hr, heq⟩ := Option.map_eq_some_iff.mp hrun
  dsimp only at heq
  subst heq
  refine ⟨_, a', hreach, hr, ?_⟩
  rw [Apart]
  decide

/-- A fixed mapping in front of the cursor is skipped. -/
theorem allocate_apart_skips : ∃ a a' : FlatAllocatorBool 32,
    a.allocate 0x2000 = some (some 0x3000, a') ∧ Apart (0x3000, 0x2000) (0x2000, 0x1000) := by
  have hfixed : (FlatAllocatorBool.new 32 0x1000 0x100000).allocateFixed 0x2000 0x1000 =
      some ⟨⟨[⟨0, false⟩, ⟨0x2000, true⟩, ⟨0x3000, false⟩], 0x100000⟩, 0x1000, 0x1000,
        0x100000⟩ := by decide
  have hreach := Run.allocateFixed (P := ClearCursor) .new (by decide) (by decide) (by decide)
    (by simp) hfixed
  have hrun : (FlatAllocatorBool.allocate ⟨⟨[⟨0, false⟩, ⟨0x2000, true⟩, ⟨0x3000, false⟩],
      0x100000⟩, 0x1000, 0x1000, 0x100000⟩ 0x2000 : Option (_ × FlatAllocatorBool 32)).map
      (·.1) = some (some 0x3000) := by decide
  obtain ⟨⟨r, a'⟩, hr, heq⟩ := Option.map_eq_some_iff.mp hrun
  dsimp only at heq
  subst heq
  have hclear : ClearCursor (w := 32) ⟨⟨[⟨0, false⟩, ⟨0x2000, true⟩, ⟨0x3000, false⟩],
      0x100000⟩, 0x1000, 0x1000, 0x100000⟩ 0x2000 := by
    intro pred hget _ _ hle
    have hpred : pred = ⟨0x2000, true⟩ := by
      have hat : ([⟨0, false⟩, ⟨0x2000, true⟩, ⟨0x3000, false⟩] : List Block)[1]? = some pred :=
        hget
      exact (Option.some.inj hat).symm
    rw [hpred] at hle
    exact absurd hle (by decide)
  obtain ⟨_, _, hapart⟩ := (allocate_apart (by decide) (by decide) hreach (by decide) (by decide)
    hr).mpr hclear
  exact ⟨_, a', hr, hapart _ (by simp)⟩

end Ruzu.AddressSpace
