import Ruzu.Common.FlatAllocator

/-!
# What the search for room overlooks

The slower pass starts behind the first block and stops before the last, so it
does not see room in those two; the fast pass sees the last one only from a
cursor that still has blocks behind its range. This holds of any allocator, also
of one that starts at 0, where several blocks may start.
-/

set_option autoImplicit false

namespace Ruzu.AddressSpace
open Ruzu.Piecewise

variable {virtStart vaLimit virt virtEnd size : ℕ} {A B C P R X l l' : List Block} {a : Block}

/-- The order of the blocks: only some at 0 may start at one address. -/
def Later (a b : Block) : Prop := a.virt < b.virt ∨ (a.virt = 0 ∧ b.virt = 0)

/-- The blocks start with one at 0, and the others lie within the bounds. -/
def Within (virtStart vaLimit : ℕ) (l : List Block) : Prop :=
  ∃ b l', l = b :: l' ∧ b.virt = 0 ∧ ∀ c ∈ l', virtStart ≤ c.virt ∧ c.virt ≤ vaLimit

/-- The blocks of an allocator: in order, within its bounds, never two unmapped ones in a row,
and the last one unmapped. -/
structure Arranged (virtStart vaLimit : ℕ) (l : List Block) : Prop where
  ordered : l.Pairwise Later
  within : Within virtStart vaLimit l
  ends : lastMapped l = false
  alternates : Alternates l

theorem Later.le {a b : Block} (h : Later a b) : a.virt ≤ b.virt := by
  rcases h with h | ⟨ha, -⟩
  · exact h.le
  · omega

theorem later_cut (h : l.Pairwise Later) (k : ℕ) :
    ∃ A D, l = A ++ D ∧ (∀ b ∈ A, b.virt < k) ∧ ∀ b ∈ D, k ≤ b.virt := by
  induction l with
  | nil => exact ⟨[], [], rfl, by simp, by simp⟩
  | cons b l ih =>
    rw [List.pairwise_cons] at h
    by_cases hb : b.virt < k
    · obtain ⟨A, D, rfl, hA, hD⟩ := ih h.2
      refine ⟨b::A, D, rfl, ?_, hD⟩
      intro c hc
      rcases List.mem_cons.mp hc with rfl | hc
      · exact hb
      · exact hA c hc
    · refine ⟨[], b::l, rfl, by simp, ?_⟩
      intro c hc
      rcases List.mem_cons.mp hc with rfl | hc
      · exact not_lt.mp hb
      · exact (not_lt.mp hb).trans (h.1 c hc).le

/-- Blocks behind a positive address are in strict order. -/
theorem later_sorted (h : l.Pairwise Later) (hpos : ∀ b ∈ l, 0 < b.virt) :
    Sorted Block.virt l := by
  refine h.imp_of_mem ?_
  intro a b _ hb hab
  have := hpos b hb
  exact hab.resolve_right fun hzero => by omega

theorem sorted_later (h : Sorted Block.virt l) : l.Pairwise Later := h.imp fun hab => .inl hab

theorem Within.append (h : Within virtStart vaLimit P)
    (hR : ∀ b ∈ R, virtStart ≤ b.virt ∧ b.virt ≤ vaLimit) : Within virtStart vaLimit (P ++ R) := by
  obtain ⟨b, P, rfl, hb, hP⟩ := h
  refine ⟨b, P ++ R, rfl, hb, ?_⟩
  intro c hc
  rcases List.mem_append.mp hc with hc | hc
  · exact hP c hc
  · exact hR c hc

theorem Within.left (h : Within virtStart vaLimit (P ++ R)) (hne : P ≠ []) :
    Within virtStart vaLimit P := by
  obtain ⟨b, l, hl, hb, hrest⟩ := h
  cases P with
  | nil => exact absurd rfl hne
  | cons p P =>
    rw [List.cons_append, List.cons_eq_cons] at hl
    obtain ⟨rfl, rfl⟩ := hl
    exact ⟨p, P, rfl, hb, fun c hc => hrest c (List.mem_append_left _ hc)⟩

theorem Within.right (h : Within virtStart vaLimit (P ++ R)) (hne : P ≠ []) :
    ∀ b ∈ R, virtStart ≤ b.virt ∧ b.virt ≤ vaLimit := by
  obtain ⟨b, l, hl, hb, hrest⟩ := h
  cases P with
  | nil => exact absurd rfl hne
  | cons p P =>
    rw [List.cons_append, List.cons_eq_cons] at hl
    obtain ⟨rfl, rfl⟩ := hl
    exact fun c hc => hrest c (List.mem_append_right _ hc)

/-- Blocks that end below an address and blocks from it on. -/
theorem arranged_append (hord : P.Pairwise Later) (hbelow : ∀ b ∈ P, b.virt < virtEnd)
    (hwithin : Within virtStart vaLimit P) (halt : Alternates P)
    (hsR : Sorted Block.virt R) (hR : ∀ b ∈ R, virtEnd ≤ b.virt)
    (hbounds : ∀ b ∈ R, virtStart ≤ b.virt ∧ b.virt ≤ vaLimit) (haltR : Alternates R)
    (hjoin : ∀ b ∈ P.getLast?, ∀ c ∈ R.head?, b.mapped = true ∨ c.mapped = true)
    (hends : lastMapped (P ++ R) = false) : Arranged virtStart vaLimit (P ++ R) := by
  refine ⟨?_, hwithin.append hbounds, hends, List.isChain_append.mpr ⟨halt, haltR, hjoin⟩⟩
  rw [List.pairwise_append]
  exact ⟨hord, sorted_later hsR, fun b hb c hc => .inl ((hbelow b hb).trans_le (hR c hc))⟩

/-- The blocks behind a mapped range. -/
theorem resume_alternates (h : Alternates (X ++ C)) (hne : X ≠ []) :
    Alternates (resume virtEnd (lastMapped X) C) := by
  have hC := alternates_append h
  cases C with
  | nil => exact .singleton _
  | cons c C =>
    rw [resume]
    split
    · exact hC
    · refine List.isChain_cons_cons.mpr ⟨?_, hC⟩
      cases hlast : lastMapped X with
      | true => exact .inl rfl
      | false =>
        have hfollows : FollowsGap (c::C) := followsGap_of_append h ⟨hne, hlast⟩
        exact .inr (hfollows.2 c rfl)

theorem Arranged.bounds (h : Arranged virtStart vaLimit (X ++ C)) (hne : X ≠ [])
    (hstart : virtStart ≤ virtEnd) (hlimit : virtEnd ≤ vaLimit)
    (hkeys : ∀ b ∈ R, b.virt = virtEnd ∨ b ∈ C) :
    ∀ b ∈ R, virtStart ≤ b.virt ∧ b.virt ≤ vaLimit := by
  intro b hb
  rcases hkeys b hb with hb | hb
  · omega
  · exact h.within.right hne b hb

/-- The blocks from the end of a range on are in strict order. -/
theorem Arranged.behind (h : Arranged virtStart vaLimit (X ++ C)) (hpos : 0 < virtEnd)
    (hC : ∀ b ∈ C, virtEnd ≤ b.virt) : Sorted Block.virt C :=
  later_sorted (List.pairwise_append.mp h.ordered).2.1 fun b hb => hpos.trans_le (hC b hb)

/-- Blocks up to a mapped one, and what was behind the range. -/
theorem Arranged.resume (h : Arranged virtStart vaLimit (X ++ C)) (hne : X ≠ [])
    (hpos : 0 < virtEnd) (hC : ∀ b ∈ C, virtEnd ≤ b.virt) (hstart : virtStart ≤ virtEnd)
    (hlimit : virtEnd ≤ vaLimit) (hv : virt < virtEnd) 
    (hord : (P ++ [(⟨virt, true⟩ : Block)]).Pairwise Later)
    (hbelow : ∀ b ∈ P, b.virt < virtEnd)
    (hwithin : Within virtStart vaLimit (P ++ [⟨virt, true⟩]))
    (halt : Alternates P) :
    Arranged virtStart vaLimit (P ++ ⟨virt, true⟩ :: resume virtEnd (lastMapped X) C) := by
  have hcontinues := continues_resume (v := true) (t := lastMapped X) (h.behind hpos hC) hC
  have heq : P ++ ⟨virt, true⟩ :: AddressSpace.resume virtEnd (lastMapped X) C =
      P ++ [⟨virt, true⟩] ++ AddressSpace.resume virtEnd (lastMapped X) C := by simp
  rw [heq]
  refine arranged_append hord ?_ hwithin ?_ hcontinues.sorted hcontinues.behind
    (h.bounds hne hstart hlimit hcontinues.keys) (resume_alternates h.alternates hne) ?_ ?_
  · intro b hb
    rcases List.mem_append.mp hb with hb | hb
    · exact hbelow b hb
    · rw [List.mem_singleton.mp hb]
      exact hv
  · refine List.isChain_append.mpr ⟨halt, .singleton _, ?_⟩
    intro b _ c hc
    cases hc
    exact .inr rfl
  · intro b hb c _
    rw [List.getLast?_concat] at hb
    cases hb
    exact .inl rfl
  · have hends := h.ends
    rw [lastMapped, last_append] at hends ⊢
    rw [last_snoc, hcontinues.last]
    exact hends

/-- A list cut at the end of a range. -/
theorem Arranged.cut (h : Arranged virtStart vaLimit l) (hpos : 0 < virtEnd) :
    ∃ b X C, l = b :: X ++ C ∧ b.virt = 0 ∧ (∀ c ∈ b :: X, c.virt < virtEnd) ∧
      ∀ c ∈ C, virtEnd ≤ c.virt := by
  obtain ⟨X, C, rfl, hX, hC⟩ := later_cut h.ordered virtEnd
  obtain ⟨b, l', hl, hb, -⟩ := h.within
  cases X with
  | nil =>
    rw [List.nil_append] at hl
    have := hC b (by rw [hl]; exact List.mem_cons_self)
    omega
  | cons x X =>
    rw [List.cons_append, List.cons_eq_cons] at hl
    obtain ⟨rfl, -⟩ := hl
    exact ⟨x, X, C, rfl, hb, hX, hC⟩

/-- `map_locked` returns on every range within the bounds. -/
theorem Arranged.map (h : Arranged virtStart vaLimit l) (hstart : virtStart ≤ virt)
    (hlt : virt < virtEnd) (hlimit : virtEnd ≤ vaLimit) :
    ∃ l', mapBlocks l virt virtEnd = some l' ∧ Arranged virtStart vaLimit l' := by
  have hpos : 0 < virtEnd := by omega
  obtain ⟨b, X, C, rfl, hb, hX, hC⟩ := h.cut hpos
  have hne : b :: X ≠ [] := by simp
  have hordX := (List.pairwise_append.mp h.ordered).1
  have haltX : Alternates (b :: X) := List.IsChain.left_of_append h.alternates
  have hwithin := h.within.left hne
  rcases Nat.eq_zero_or_pos virt with rfl | hvirt
  · -- the range starts with the first block
    have hzero : Within virtStart vaLimit [⟨0, true⟩] := ⟨_, [], rfl, rfl, by simp⟩
    have hfirst := h.resume hne hpos hC (by omega) hlimit hlt (P := [])
      (List.pairwise_singleton _ _) (by simp) hzero .nil
    obtain ⟨Y, a, hY⟩ : ∃ Y a, b :: X = Y ++ [a] := by
      rcases List.eq_nil_or_concat (b :: X) with h | ⟨Y, a, h⟩
      · exact absurd h hne
      · exact ⟨Y, a, by rw [h, List.concat_eq_append]⟩
    have hlast : lastMapped (b :: X) = a.mapped := by rw [hY, lastMapped, last_snoc]
    have hYa : ∀ c ∈ Y ++ [a], c.virt < virtEnd := by rwa [← hY]
    have hends : C = [] → a.mapped = false := by
      rintro rfl
      rw [← hlast, ← h.ends, List.append_nil]
    have hnone : ∀ c ∈ ([] : List Block), c.virt < 0 := by simp
    rw [hlast] at hfirst
    have hcut : b :: X ++ C = Y ++ a :: C := by rw [hY]; simp
    rw [hcut, mapBlocks_pred (fun c hc => hYa c (by simp [hc])) (hYa a (by simp)) hC hends]
    obtain ⟨f, D, hD⟩ := resume_starts virtEnd a.mapped C
    by_cases hmeet : ∀ c ∈ C.head?, c.virt ≠ virtEnd
    · by_cases hlen : 0 < Y.length
      · rw [if_pos ⟨hlen, Nat.zero_le _, hmeet⟩]
        refine ⟨_, ?_, hfirst⟩
        rw [hD]
        have hfinish := finishMap_cut (f := f) (D := D) hnone
          (B := Y) fun c hc => ⟨Nat.zero_le _, hYa c (by simp [hc])⟩
        rw [List.nil_append, List.length_nil, Nat.zero_add] at hfinish
        exact hfinish
      · rw [if_neg (by omega), if_pos hmeet]
        refine ⟨_, rfl, ?_⟩
        obtain rfl := List.length_eq_zero_iff.mp (Nat.eq_zero_of_not_pos hlen)
        rw [List.nil_append, List.cons_eq_cons] at hY
        obtain ⟨rfl, rfl⟩ := hY
        have hbounds : ∀ c ∈ [(⟨0, true⟩ : Block)], virtStart ≤ c.virt ∧ c.virt ≤ vaLimit := by
          intro c hc
          rw [List.mem_singleton.mp hc]
          exact ⟨hstart, Nat.zero_le _⟩
        have hsecond := h.resume (P := [b]) hne hpos hC (by omega) hlimit hlt
          (List.pairwise_pair.mpr (.inr ⟨hb, rfl⟩)) (by simpa using hX)
          (hwithin.append hbounds) (.singleton _)
        rw [hlast] at hsecond
        exact hsecond
    · rw [if_neg (by tauto), if_neg hmeet]
      rw [resume_of_meet hmeet] at hfirst hD
      refine ⟨_, ?_, hfirst⟩
      rw [hD]
      have hfinish := finishMap_cut (f := f) (D := D) hnone
        (B := Y ++ [a]) fun c hc => ⟨Nat.zero_le _, hYa c hc⟩
      rw [List.nil_append, List.length_nil, Nat.zero_add, List.length_append,
        List.length_singleton] at hfinish
      rw [← hfinish]
      simp
  · obtain ⟨A, B, hAB, hA, hB⟩ := later_cut hordX virt
    have hneA : A ≠ [] := by
      rintro rfl
      have := hB b (by rw [List.nil_append] at hAB; rw [← hAB]; exact List.mem_cons_self)
      omega
    rw [hAB] at hordX haltX hwithin hX
    have hends := h.ends
    rw [hAB] at hends
    have hmap := mapBlocks_cut hneA hA (fun c hc => ⟨hB c hc, hX c (by simp [hc])⟩) hC hlt hends
    rw [hAB]
    refine ⟨_, hmap, ?_⟩
    rw [← hAB]
    refine h.resume hne hpos hC (by omega) hlimit hlt ?_ (fun c hc => hX c (by simp [hc])) ?_
      (List.IsChain.left_of_append haltX)
    · rw [List.pairwise_append]
      refine ⟨(List.pairwise_append.mp hordX).1, List.pairwise_singleton _ _, ?_⟩
      intro c hc d hd
      rw [List.mem_singleton.mp hd]
      exact .inl (hA c hc)
    · refine (hwithin.left hneA).append ?_
      intro c hc
      rw [List.mem_singleton.mp hc]
      exact ⟨hstart, by dsimp only; omega⟩

/-- The last block before a range and those that start in it. -/
theorem Arranged.front {b : Block} (h : Arranged virtStart vaLimit (b :: X ++ C))
    (hb : b.virt = 0) (virt : ℕ) :
    ∃ A a B, b :: X = A ++ a :: B ∧ Front virt A a ∧
      (∀ c ∈ A ++ [a], Later c ⟨virt, false⟩) ∧ ∀ c ∈ B, virt ≤ c.virt := by
  rcases Nat.eq_zero_or_pos virt with rfl | hvirt
  · refine ⟨[], b, X, rfl, .inr ⟨rfl, hb⟩, ?_, fun c _ => Nat.zero_le _⟩
    intro c hc
    rw [List.mem_singleton.mp hc]
    exact .inr ⟨hb, rfl⟩
  · obtain ⟨A, B, hAB, hA, hB⟩ := later_cut (List.pairwise_append.mp h.ordered).1 virt
    rcases List.eq_nil_or_concat A with rfl | ⟨A, a, rfl⟩
    · have := hB b (by rw [List.nil_append] at hAB; rw [← hAB]; exact List.mem_cons_self)
      omega
    · rw [List.concat_eq_append] at hAB hA
      exact ⟨A, a, B, by rw [hAB]; simp, .inl hA, fun c hc => .inl (hA c hc), hB⟩

/-- `unmap_locked` on a range within the bounds, when it returns. -/
theorem Arranged.unmap (h : Arranged virtStart vaLimit l) (hstart : virtStart ≤ virt)
    (hlt : virt < virtEnd) (hlimit : virtEnd ≤ vaLimit)
    (hrun : unmapBlocks l virt virtEnd = some l') : Arranged virtStart vaLimit l' := by
  have hpos : 0 < virtEnd := by omega
  obtain ⟨b, X, C, rfl, hb, hX, hC⟩ := h.cut hpos
  have hne : b :: X ≠ [] := by simp
  obtain ⟨A, a, B, hAB, hfront, hlater, hB⟩ := h.front hb virt
  have hlist : b :: X ++ C = A ++ a :: (B ++ C) := by rw [hAB]; simp
  have hAa : A ++ a :: B = A ++ [a] ++ B := by simp
  rw [hAB] at hX
  have hBend : ∀ c ∈ B, virt ≤ c.virt ∧ c.virt < virtEnd :=
    fun c hc => ⟨hB c hc, hX c (by simp [hc])⟩
  have hAend : ∀ c ∈ A ++ [a], c.virt < virtEnd := by
    intro c hc
    exact hX c (by rw [hAa]; exact List.mem_append_left _ hc)
  have hends := h.ends
  rw [hlist] at hends hrun
  rcases unmapBlocks_front hfront hBend hC hAend (h.behind hpos hC) hends with
    ⟨hsame, -⟩ | ⟨C', hclear, hcontinues, hfollows⟩ | ⟨-, -, -, hnone⟩
  · rw [hsame, ← hlist] at hrun
    cases hrun
    exact h
  · rw [hclear] at hrun
    cases hrun
    have halt := h.alternates
    have hord := (List.pairwise_append.mp h.ordered).1
    have hwithin := h.within.left hne
    rw [hAB, hAa] at hord hwithin
    rw [hlist] at halt
    obtain ⟨haltC, hhead⟩ := hfollows halt
    rw [show A ++ a :: (B ++ C) = A ++ [a] ++ (B ++ C) by simp] at halt
    have haltA : Alternates (A ++ [a]) := List.IsChain.left_of_append halt
    have heq : A ++ a :: (gap virt a ++ C') = A ++ [a] ++ gap virt a ++ C' := by simp
    have hgap : ∀ c ∈ gap virt a, c = ⟨virt, false⟩ ∧ a.mapped = true := by
      intro c hc
      rw [gap] at hc
      split at hc
      · rename_i ha
        exact ⟨List.mem_singleton.mp hc, ha⟩
      · exact absurd hc (by simp)
    have hlast : lastMapped (A ++ [a] ++ gap virt a) = false := by
      have hspec : Gap virt (A ++ [a]) (gap virt a) := gap_spec A a
      rcases hspec with ⟨hnil, hunmapped⟩ | hsome
      · rw [hnil, List.append_nil]
        exact hunmapped
      · rw [hsome, lastMapped, last_snoc]
    rw [heq]
    refine arranged_append ?_ ?_ ?_ ?_ hcontinues.sorted hcontinues.behind
      (h.bounds hne (by omega) hlimit hcontinues.keys) haltC ?_ ?_
    · rw [List.pairwise_append]
      refine ⟨(List.pairwise_append.mp hord).1, ?_, ?_⟩
      · rw [gap]
        split
        · exact List.pairwise_singleton _ _
        · exact .nil
      · intro c hc d hd
        rw [(hgap d hd).1]
        exact hlater c hc
    · intro c hc
      rcases List.mem_append.mp hc with hc | hc
      · exact hAend c hc
      · rw [(hgap c hc).1]
        exact hlt
    · refine (hwithin.left (by simp)).append ?_
      intro c hc
      rw [(hgap c hc).1]
      exact ⟨hstart, by dsimp only; omega⟩
    · refine List.isChain_append.mpr ⟨haltA, ?_, ?_⟩
      · rw [gap]
        split
        · exact .singleton _
        · exact .nil
      · intro c hc d hd
        rw [List.getLast?_concat] at hc
        cases hc
        exact .inl (hgap d (List.mem_of_mem_head? hd)).2
    · intro c _ d hd
      exact .inr (hhead d hd)
    · rw [lastMapped, last_append]
      change last _ (lastMapped (A ++ [a] ++ gap virt a)) C' = _
      rw [hlast, hcontinues.last, ← hends, lastMapped, lastMapped, ← last_append]
      simp
  · rw [hnone] at hrun
    cases hrun

/-! ### The searches -/

/-- Room for `size` in an unmapped block at `s` that is not the last one. -/
def RoomAt (size s : ℕ) (l : List Block) : Prop :=
  ∃ A p c D, l = A ++ p :: c :: D ∧ p.mapped = false ∧ p.virt + size ≤ c.virt ∧ s = p.virt

theorem roomAt_single (s : ℕ) (p : Block) : ¬RoomAt size s [p] := by
  rintro ⟨A, q, c, D, h, -⟩
  have := congrArg List.length h
  simp only [List.length_append, List.length_cons, List.length_nil] at this
  omega

theorem roomAt_append {s : ℕ} (h : RoomAt size s l) : RoomAt size s (A ++ l) := by
  obtain ⟨B, p, c, D, rfl, hroom⟩ := h
  exact ⟨A ++ B, p, c, D, by simp, hroom⟩

theorem roomAt_cons {s : ℕ} {p c : Block} :
    RoomAt size s (p :: c :: l) ↔
      (p.mapped = false ∧ p.virt + size ≤ c.virt ∧ s = p.virt) ∨ RoomAt size s (c :: l) := by
  constructor
  · rintro ⟨A, q, d, D, h, hroom⟩
    cases A with
    | nil =>
      rw [List.nil_append] at h
      cases h
      exact .inl hroom
    | cons b A =>
      rw [List.cons_append] at h
      injection h with _ hrest
      exact .inr ⟨A, q, d, D, hrest, hroom⟩
  · rintro (hroom | hroom)
    · exact ⟨[], p, c, l, rfl, hroom⟩
    · exact roomAt_append (A := [p]) hroom

theorem gap_length {w : ℕ} {p c : Block} (h : p.virt ≤ c.virt) (hc : c.virt < 2 ^ w) :
    wrappingSub w c.virt p.virt = c.virt - p.virt := by
  rw [wrappingSub, show c.virt + (2 ^ w - p.virt) = c.virt - p.virt + 2 ^ w by omega,
    Nat.add_mod_right, Nat.mod_eq_of_lt (by omega)]

/-- The test of both search loops. -/
theorem gap_fits {w : ℕ} (size : ℕ) {p c : Block} (h : p.virt ≤ c.virt) (hc : c.virt < 2 ^ w) :
    (size ≤ wrappingSub w c.virt p.virt ∧ (!p.mapped) = true) ↔
      p.mapped = false ∧ p.virt + size ≤ c.virt := by
  have hle : size ≤ c.virt - p.virt ↔ p.virt + size ≤ c.virt := by omega
  rw [gap_length h hc, Bool.not_eq_true', hle, and_comm]

/-- The slower pass finds room exactly if there is some before the last block. -/
theorem findGap_finds {w : ℕ} (size : ℕ) (rest : List Block) (pred : Block)
    (hord : (pred :: rest).Pairwise Later) (hw : ∀ b ∈ rest, b.virt < 2 ^ w) :
    (∃ s, findGap w size pred rest = some s ∧ RoomAt size s (pred :: rest)) ∨
      (findGap w size pred rest = none ∧ ∀ s, ¬RoomAt size s (pred :: rest)) := by
  induction rest generalizing pred with
  | nil => exact .inr ⟨rfl, fun s => roomAt_single s pred⟩
  | cons c rest ih =>
    rw [List.pairwise_cons] at hord
    have hfits := gap_fits size (hord.1 c (by simp)).le (hw c (by simp))
    rw [findGap]
    by_cases hroom : pred.mapped = false ∧ pred.virt + size ≤ c.virt
    · rw [if_pos (hfits.mpr hroom)]
      exact .inl ⟨_, rfl, roomAt_cons.2 (.inl ⟨hroom.1, hroom.2, rfl⟩)⟩
    · rw [if_neg fun h => hroom (hfits.mp h)]
      rcases ih c hord.2 fun b hb => hw b (by simp [hb]) with ⟨s, hf, hat⟩ | ⟨hf, hno⟩
      · exact .inl ⟨s, hf, roomAt_cons.2 (.inr hat)⟩
      · refine .inr ⟨hf, fun s hat => ?_⟩
        rcases roomAt_cons.1 hat with ⟨hm, hle, -⟩ | hat
        · exact hroom ⟨hm, hle⟩
        · exact hno s hat

theorem fits_end {w : ℕ} (start : ℕ) (hsize : size < 2 ^ w) (hlimit : vaLimit < 2 ^ w) :
    (start ≤ wrappingAdd w start size ∧ wrappingAdd w start size ≤ vaLimit) ↔
      start + size ≤ vaLimit := by
  constructor
  · rintro ⟨hle, hend⟩
    rwa [no_wrap hsize hle] at hend
  · intro hle
    rw [wrappingAdd, Nat.mod_eq_of_lt (by omega)]
    omega

/-- The skipping loop finds room in some block from `pred` on, or in the last one if it is not
`pred`. -/
theorem skipFixed_finds {w : ℕ} (hsize : size < 2 ^ w) (hlimit : vaLimit < 2 ^ w)
    (rest : List Block) (pred : Block) (hord : (pred :: rest).Pairwise Later)
    (hw : ∀ b ∈ rest, b.virt < 2 ^ w) :
    (∃ s, skipFixed w size vaLimit pred rest = some s ∧ (RoomAt size s (pred :: rest) ∨
      ∃ d ∈ rest.getLast?, s = d.virt ∧ d.virt + size ≤ vaLimit)) ∨
    (skipFixed w size vaLimit pred rest = none ∧
      ∀ d ∈ rest.getLast?, vaLimit < d.virt + size) := by
  induction rest generalizing pred with
  | nil => exact .inr ⟨rfl, by simp⟩
  | cons c rest ih =>
    rw [List.pairwise_cons] at hord
    have hfits := gap_fits size (hord.1 c (by simp)).le (hw c (by simp))
    rw [skipFixed]
    by_cases hroom : pred.mapped = false ∧ pred.virt + size ≤ c.virt
    · rw [if_pos (hfits.mpr hroom)]
      exact .inl ⟨_, rfl, .inl (roomAt_cons.2 (.inl ⟨hroom.1, hroom.2, rfl⟩))⟩
    · rw [if_neg fun h => hroom (hfits.mp h)]
      cases rest with
      | nil =>
        rw [List.isEmpty_nil, if_pos rfl]
        dsimp only
        by_cases hend : c.virt + size ≤ vaLimit
        · rw [if_pos ((fits_end _ hsize hlimit).mpr hend)]
          exact .inl ⟨_, rfl, .inr ⟨c, rfl, rfl, hend⟩⟩
        · rw [if_neg fun h => hend ((fits_end _ hsize hlimit).mp h)]
          refine .inr ⟨rfl, ?_⟩
          intro d hd
          cases hd
          exact Nat.not_le.mp hend
      | cons d rest =>
        rw [if_neg (by simp), List.getLast?_cons_cons]
        rcases ih c hord.2 fun b hb => hw b (List.mem_cons_of_mem _ hb) with
          ⟨s, hf, hat | hlast⟩ | hnone
        · exact .inl ⟨s, hf, .inl (roomAt_cons.2 (.inr hat))⟩
        · exact .inl ⟨s, hf, .inr hlast⟩
        · exact .inr hnone

/-! ### The states of an allocator -/

variable {w : ℕ} {a a' : FlatAllocatorBool w}

/-- The allocators reached by calls that return; ranges are not empty and within the bounds. -/
inductive Served (w virtStart vaLimit : ℕ) : FlatAllocatorBool w → Prop
  | new : Served w virtStart vaLimit (.new w virtStart vaLimit)
  | allocate {a a' : FlatAllocatorBool w} {size : ℕ} {r : Option ℕ} :
      Served w virtStart vaLimit a → 0 < size → size < 2 ^ w → a.allocate size = some (r, a') →
      Served w virtStart vaLimit a'
  | allocateFixed {a a' : FlatAllocatorBool w} {virt size : ℕ} : Served w virtStart vaLimit a →
      0 < size → virtStart ≤ virt → virt + size ≤ vaLimit →
      a.allocateFixed virt size = some a' → Served w virtStart vaLimit a'
  | free {a a' : FlatAllocatorBool w} {virt size : ℕ} : Served w virtStart vaLimit a →
      0 < size → virtStart ≤ virt → virt + size ≤ vaLimit → a.free virt size = some a' →
      Served w virtStart vaLimit a'

/-- The blocks are arranged and the cursor lies behind the start. -/
structure Ready (virtStart vaLimit : ℕ) (a : FlatAllocatorBool w) : Prop where
  arranged : Arranged virtStart vaLimit a.inner.blocks
  limits : a.inner.vaLimit = vaLimit ∧ a.vaLimit = vaLimit ∧ a.virtStart = virtStart
  cursor : virtStart ≤ a.currentLinearAllocEnd

/-- The range at the cursor ends within the limit and no block starts inside it. -/
def CursorRoom (a : FlatAllocatorBool w) (size : ℕ) : Prop :=
  a.currentLinearAllocEnd + size ≤ a.vaLimit ∧ ∀ b ∈ a.inner.blocks,
    b.virt ≤ a.currentLinearAllocEnd ∨ a.currentLinearAllocEnd + size ≤ b.virt

/-- The last block has room, the cursor's range ends within the limit, and some block starts
behind it. -/
def LastRoom (a : FlatAllocatorBool w) (size : ℕ) : Prop :=
  a.currentLinearAllocEnd + size ≤ a.vaLimit ∧
    (∃ b ∈ a.inner.blocks, a.currentLinearAllocEnd + size ≤ b.virt) ∧
    ∀ d ∈ a.inner.blocks.getLast?, d.virt + size ≤ a.vaLimit

/-- An unmapped block other than the first and the last has room. -/
def MiddleRoom (a : FlatAllocatorBool w) (size : ℕ) : Prop :=
  ∃ s, RoomAt size s a.inner.blocks.tail

/-- There are three blocks or more, and neither the first nor the last has room. -/
def EdgesFull (a : FlatAllocatorBool w) (size : ℕ) : Prop :=
  ∃ b c d l, a.inner.blocks = b :: c :: d :: l ∧
    (b.mapped = true ∨ c.virt < a.virtStart + size) ∧
    ∀ e ∈ (d :: l).getLast?, a.vaLimit < e.virt + size

/-- Room in a block behind the first is within the bounds. -/
theorem Ready.room (h : Ready virtStart vaLimit a) {s : ℕ}
    (hroom : RoomAt size s a.inner.blocks.tail) : virtStart ≤ s ∧ s + size ≤ vaLimit := by
  obtain ⟨b, l, hl, -, hrest⟩ := h.arranged.within
  obtain ⟨A, p, c, D, hcut, -, hle, rfl⟩ := hroom
  rw [hl, List.tail_cons] at hcut
  have hp := hrest p (by rw [hcut]; simp)
  have hc := hrest c (by rw [hcut]; simp)
  omega

section Ready

variable (hlimit : vaLimit < 2 ^ w)
include hlimit

theorem Ready.below (h : Ready virtStart vaLimit a) : ∀ b ∈ a.inner.blocks, b.virt < 2 ^ w := by
  obtain ⟨b, l, hl, hb, hrest⟩ := h.arranged.within
  rw [hl]
  intro c hc
  rcases List.mem_cons.mp hc with rfl | hc
  · rw [hb]
    exact Nat.two_pow_pos w
  · have := hrest c hc
    omega

/-- A range within the bounds is mapped. -/
theorem Ready.map (h : Ready virtStart vaLimit a) (hs : 0 < size) {s : ℕ} (hstart : virtStart ≤ s)
    (hend : s + size ≤ vaLimit) {cursor : ℕ} (hcursor : virtStart ≤ cursor) :
    ∃ inner, a.inner.mapLocked s size = some inner ∧ Ready virtStart vaLimit
      { a with inner := inner, currentLinearAllocEnd := cursor } := by
  obtain ⟨blocks, hmap, harranged⟩ := h.arranged.map hstart (Nat.lt_add_of_pos_right hs) hend
  refine ⟨⟨blocks, vaLimit⟩, ?_, harranged, ⟨rfl, h.limits.2⟩, hcursor⟩
  rw [FlatAddressSpaceMapBool.mapLocked, wrappingAdd, Nat.mod_eq_of_lt (by omega), h.limits.1,
    if_neg (by omega), hmap]
  rfl

theorem Ready.unmap (h : Ready virtStart vaLimit a) (hs : 0 < size) {s : ℕ}
    (hstart : virtStart ≤ s) (hend : s + size ≤ vaLimit) {inner : FlatAddressSpaceMapBool w}
    (hrun : a.inner.unmapLocked s size = some inner) :
    Ready virtStart vaLimit { a with inner } := by
  rw [FlatAddressSpaceMapBool.unmapLocked, wrappingAdd, Nat.mod_eq_of_lt (by omega), h.limits.1,
    if_neg (by omega)] at hrun
  obtain ⟨blocks, hunmap, heq⟩ := Option.bind_eq_some_iff.mp hrun
  cases heq
  exact ⟨h.arranged.unmap hstart (Nat.lt_add_of_pos_right hs) hend hunmap, ⟨rfl, h.limits.2⟩,
    h.cursor⟩

/-- The fast pass, when it finds an address and when it does not. -/
theorem Ready.linearStart (h : Ready virtStart vaLimit a) (hs : 0 < size) (hsize : size < 2 ^ w) :
    (∃ s, a.linearStart size = some (some s) ∧ virtStart ≤ s ∧ s + size ≤ vaLimit ∧
      (CursorRoom a size ∨ MiddleRoom a size ∨ LastRoom a size)) ∨
    (a.linearStart size = some none ∧ ¬CursorRoom a size ∧ ¬LastRoom a size) := by
  have hl := h.limits.2.1
  have hcursor := h.cursor
  have hfits := fits_end a.currentLinearAllocEnd hsize hlimit
  rw [FlatAllocatorBool.linearStart]
  dsimp only
  rw [hl]
  by_cases hend : a.currentLinearAllocEnd + size ≤ vaLimit
  · have hadd : wrappingAdd w a.currentLinearAllocEnd size = a.currentLinearAllocEnd + size := by
      rw [wrappingAdd, Nat.mod_eq_of_lt (by omega)]
    rw [if_pos (hfits.mpr hend), hadd]
    obtain ⟨b, X, D, hcut, hb, hX, hD⟩ := h.arranged.cut
      (show 0 < a.currentLinearAllocEnd + size by omega)
    obtain ⟨A, pred, hA⟩ : ∃ A pred, b :: X = A ++ [pred] := by
      rcases List.eq_nil_or_concat (b :: X) with h | ⟨A, pred, h⟩
      · exact absurd h (by simp)
      · exact ⟨A, pred, by rw [h, List.concat_eq_append]⟩
    have hblocks : a.inner.blocks = A ++ pred :: D := by rw [hcut, hA]; simp
    have hord := h.arranged.ordered
    have hbelow := h.below hlimit
    rw [hA] at hX
    have hpoint : partitionPoint a.inner.blocks (a.currentLinearAllocEnd + size) =
        A.length + 1 := by
      rw [hcut, hA, partitionPoint_cut hX hD, List.length_append, List.length_singleton]
    have hdrop : a.inner.blocks.drop (A.length + 1) = D := by
      rw [hblocks]
      simp
    rw [hpoint, if_neg (by omega), Nat.add_sub_cancel, hdrop]
    rw [hblocks] at hord hbelow ⊢
    simp only [bind, getElem?_length, Option.bind_some]
    have hpred := hX pred (by simp)
    by_cases hle : pred.virt ≤ a.currentLinearAllocEnd
    · rw [if_pos hle]
      refine .inl ⟨_, rfl, hcursor, hend, .inl ⟨by rw [hl]; exact hend, ?_⟩⟩
      intro c hc
      rw [hblocks, List.append_cons] at hc
      rcases List.mem_append.mp hc with hc | hc
      · left
        rcases List.mem_append.mp hc with hc | hc
        · exact ((List.pairwise_append.mp hord).2.2 c hc pred (by simp)).le.trans hle
        · rw [List.mem_singleton.mp hc]
          exact hle
      · exact .inr (hD c hc)
    · rw [if_neg hle]
      have hno : ¬CursorRoom a size := by
        rintro ⟨-, hclear⟩
        have := hclear pred (by rw [hblocks]; simp)
        omega
      -- the first block starts at 0, so `pred` is behind it
      have htail : ∃ A', a.inner.blocks.tail = A' ++ pred :: D := by
        cases A with
        | nil =>
          rw [List.nil_append, List.cons_eq_cons] at hA
          obtain ⟨rfl, -⟩ := hA
          omega
        | cons x A => exact ⟨A, by rw [hblocks]; rfl⟩
      have hordD := (List.pairwise_append.mp hord).2.1
      rcases skipFixed_finds hsize hlimit D pred hordD
        (fun c hc => hbelow c (by simp [hc])) with ⟨s, hf, hroom | hlast⟩ | ⟨hf, hnone⟩
      · obtain ⟨A', hA'⟩ := htail
        have hat : RoomAt size s a.inner.blocks.tail := by
          rw [hA']
          exact roomAt_append hroom
        obtain ⟨hlow, hhigh⟩ := h.room hat
        exact .inl ⟨s, by rw [hf], hlow, hhigh, .inr (.inl ⟨s, hat⟩)⟩
      · obtain ⟨d, hd, rfl, hle'⟩ := hlast
        have hmem : d ∈ D := List.mem_of_getLast? hd
        have hdend := hD d hmem
        refine .inl ⟨_, by rw [hf], by omega, hle', .inr (.inr ⟨by rw [hl]; exact hend, ?_, ?_⟩)⟩
        · exact ⟨d, by rw [hblocks]; simp [hmem], hdend⟩
        · intro e he
          have hsame : a.inner.blocks.getLast? = some d := by
            rw [hblocks, List.append_cons, List.getLast?_append_of_ne_nil _ (List.ne_nil_of_mem hmem)]
            exact hd
          rw [hsame] at he
          cases he
          rw [hl]
          exact hle'
      · refine .inr ⟨by rw [hf], hno, ?_⟩
        rintro ⟨-, ⟨c, hc, hcend⟩, hlast⟩
        have hcD : c ∈ D := by
          rw [hblocks, List.append_cons] at hc
          rcases List.mem_append.mp hc with hc | hc
          · have := hX c hc
            omega
          · exact hc
        have hne := List.ne_nil_of_mem hcD
        have hd := List.getLast?_eq_some_getLast hne
        have hfull := hnone _ hd
        have hroom := hlast (D.getLast hne) (by
          rw [hblocks, List.append_cons, List.getLast?_append_of_ne_nil _ hne]
          exact hd)
        rw [hl] at hroom
        omega
  · rw [if_neg fun h => hend (hfits.mp h)]
    refine .inr ⟨rfl, ?_, ?_⟩
    · rintro ⟨hle, -⟩
      rw [hl] at hle
      exact hend hle
    · rintro ⟨hle, -⟩
      rw [hl] at hle
      exact hend hle

/-- Some pass finds room. -/
theorem Ready.allocate_some (h : Ready virtStart vaLimit a) (hs : 0 < size) (hsize : size < 2 ^ w)
    (hroom : CursorRoom a size ∨ MiddleRoom a size ∨ LastRoom a size) :
    ∃ s a', a.allocate size = some (some s, a') ∧ Ready virtStart vaLimit a' := by
  rw [FlatAllocatorBool.allocate]
  rcases h.linearStart hlimit hs hsize with ⟨s, hlinear, hlow, hhigh, -⟩ | ⟨hlinear, hno, hno'⟩
  · obtain ⟨inner, hmap, hready⟩ := h.map hlimit hs hlow hhigh
      (show virtStart ≤ wrappingAdd w s size by
        rw [wrappingAdd, Nat.mod_eq_of_lt (by omega)]
        omega)
    simp only [bind, hlinear, Option.bind_some, hmap]
    exact ⟨s, _, rfl, hready⟩
  · obtain ⟨t, hat⟩ := (hroom.resolve_left hno).resolve_right hno'
    have hord := h.arranged.ordered
    have hbelow := h.below hlimit
    have hroom : ∀ s, RoomAt size s a.inner.blocks.tail → virtStart ≤ s ∧ s + size ≤ vaLimit :=
      fun _ hat => h.room hat
    have hblocks : ∃ b c d l, a.inner.blocks = b :: c :: d :: l := by
      obtain ⟨A, p, c, D, hcut, -⟩ := hat
      cases hl : a.inner.blocks with
      | nil => rw [hl] at hcut; simp at hcut
      | cons b l =>
        rw [hl, List.tail_cons] at hcut
        subst hcut
        cases A with
        | nil => exact ⟨b, p, c, D, rfl⟩
        | cons x A =>
          cases A with
          | nil => exact ⟨b, x, p, c :: D, rfl⟩
          | cons y A => exact ⟨b, x, y, _, rfl⟩
    obtain ⟨b, pred, succ, l, hcut⟩ := hblocks
    rw [hcut, List.tail_cons] at hat hroom
    rw [hcut, List.pairwise_cons] at hord
    simp only [bind, hlinear, Option.bind_some, hcut]
    rcases findGap_finds (w := w) size (succ :: l) pred hord.2
      (fun c hc => hbelow c (by rw [hcut]; simp [List.mem_cons.mp hc])) with
      ⟨s, hf, hats⟩ | ⟨-, hnone⟩
    · obtain ⟨hlow, hhigh⟩ := hroom s hats
      obtain ⟨inner, hmap, hready⟩ := h.map hlimit hs hlow hhigh h.cursor
      rw [hf]
      simp only [Option.bind_some, hmap]
      exact ⟨s, _, rfl, hready⟩
    · exact absurd hat (hnone t)

/-- No pass finds room: with three blocks or more the answer is that there is none, with fewer
the slower pass panics. -/
theorem Ready.allocate_none (h : Ready virtStart vaLimit a) (hs : 0 < size) (hsize : size < 2 ^ w)
    (hroom : ¬(CursorRoom a size ∨ MiddleRoom a size ∨ LastRoom a size)) :
    a.allocate size = if 3 ≤ a.inner.blocks.length then some (none, a) else none := by
  rw [FlatAllocatorBool.allocate]
  rcases h.linearStart hlimit hs hsize with ⟨s, -, -, -, hsome⟩ | ⟨hlinear, -, -⟩
  · exact absurd hsome hroom
  · have hord := h.arranged.ordered
    have hbelow := h.below hlimit
    simp only [bind, hlinear, Option.bind_some]
    cases hcut : a.inner.blocks with
    | nil => rfl
    | cons b l =>
      cases l with
      | nil => rfl
      | cons pred l =>
        cases l with
        | nil => rfl
        | cons succ l =>
          rw [hcut, List.pairwise_cons] at hord
          dsimp only
          rw [if_pos (by simp)]
          rcases findGap_finds (w := w) size (succ :: l) pred hord.2
            (fun c hc => hbelow c (by rw [hcut]; simp [List.mem_cons.mp hc])) with
            ⟨s, -, hat⟩ | ⟨hf, -⟩
          · refine absurd (.inr (.inl ⟨s, ?_⟩)) hroom
            rw [hcut]
            exact hat
          · rw [hf]

end Ready

theorem served_ready (hlimit : vaLimit < 2 ^ w) (h : Served w virtStart vaLimit a) :
    Ready virtStart vaLimit a := by
  induction h with
  | new =>
    refine ⟨⟨List.pairwise_singleton _ _, ⟨_, [], rfl, rfl, by simp⟩, rfl, .singleton _⟩,
      ⟨rfl, rfl, rfl⟩, Nat.le_refl _⟩
  | @allocate a a' size r _ hs hsize hrun ih =>
    by_cases hroom : CursorRoom a size ∨ MiddleRoom a size ∨ LastRoom a size
    · obtain ⟨s, a'', hsome, hready⟩ := ih.allocate_some hlimit hs hsize hroom
      rw [hrun] at hsome
      cases hsome
      exact hready
    · rw [ih.allocate_none hlimit hs hsize hroom] at hrun
      split at hrun
      · cases hrun
        exact ih
      · exact nomatch hrun
  | allocateFixed _ hs hlow hhigh hrun ih =>
    obtain ⟨inner, hmap, hready⟩ := ih.map hlimit hs hlow hhigh ih.cursor
    simp only [FlatAllocatorBool.allocateFixed, bind, hmap, Option.bind_some] at hrun
    cases hrun
    exact hready
  | free _ hs hlow hhigh hrun ih =>
    obtain ⟨inner, hunmap, heq⟩ := Option.bind_eq_some_iff.mp hrun
    cases heq
    exact ih.unmap hlimit hs hlow hhigh hunmap

/-! ### Free gaps -/

/-- A range within the bounds without a mapped address. -/
def FreeGap (a : FlatAllocatorBool w) (size s : ℕ) : Prop :=
  a.virtStart ≤ s ∧ s + size ≤ a.vaLimit ∧
    ∀ x, s ≤ x → x < s + size → mappedAt a.inner.blocks x = false

theorem later_mappedAt {D : List Block} {p : Block} {x : ℕ} (hord : (A ++ p :: D).Pairwise Later)
    (hp : p.virt ≤ x) (hD : ∀ b ∈ D, x < b.virt) : mappedAt (A ++ p :: D) x = p.mapped := by
  have hA : ∀ b ∈ A, b.virt ≤ x := by
    intro b hb
    exact ((List.pairwise_append.mp hord).2.2 b hb p (by simp)).le.trans hp
  rw [mappedAt]
  generalize false = v
  induction A generalizing v with
  | nil =>
    rw [List.nil_append, eval, if_pos hp]
    exact eval_below hD
  | cons b A ih =>
    rw [List.cons_append, eval, if_pos (hA b (by simp))]
    exact ih (List.pairwise_cons.mp hord).2 (fun c hc => hA c (by simp [hc])) b.mapped

/-- Room in the first block or in the last one is a free gap. -/
theorem Ready.edge_gap (h : Ready virtStart vaLimit a) (hlen : 3 ≤ a.inner.blocks.length)
    (hroom : ¬EdgesFull a size) : ∃ s, FreeGap a size s := by
  obtain ⟨hl, hv⟩ := h.limits.2
  obtain ⟨b, l, hcut, hb, hrest⟩ := h.arranged.within
  have hord := h.arranged.ordered
  have hends := h.arranged.ends
  match l, hcut, hrest with
  | [], hcut, _ => rw [hcut] at hlen; simp at hlen
  | [c], hcut, _ => rw [hcut] at hlen; simp at hlen
  | c :: d :: l, hcut, hrest =>
    by_cases hfirst : b.mapped = true ∨ c.virt < virtStart + size
    · -- the last block has room
      obtain ⟨e, he, hfit⟩ : ∃ e ∈ (d :: l).getLast?, e.virt + size ≤ vaLimit := by
        by_contra hno
        refine hroom ⟨b, c, d, l, hcut, by rwa [hv], ?_⟩
        intro e he
        by_contra hle
        rw [hl] at hle
        exact hno ⟨e, he, Nat.not_lt.mp hle⟩
      obtain ⟨Y, hY⟩ := List.getLast?_eq_some_iff.mp he
      have hblocks : a.inner.blocks = b :: c :: Y ++ [e] := by rw [hcut, hY]; rfl
      rw [hblocks] at hord hends
      have hmem : e ∈ c :: d :: l := by rw [hY]; simp
      refine ⟨e.virt, by rw [hv]; exact (hrest e hmem).1, by rwa [hl], ?_⟩
      intro x hx _
      rw [hblocks, later_mappedAt hord hx (by simp)]
      rwa [lastMapped, last_snoc] at hends
    · rw [not_or, Bool.not_eq_true, Nat.not_lt] at hfirst
      have hc := hrest c (by simp)
      refine ⟨virtStart, by rw [hv], by rw [hl]; omega, ?_⟩
      intro x hx hlt
      rw [hcut] at hord ⊢
      have hlater := (List.pairwise_cons.mp (List.pairwise_cons.mp hord).2).1
      rw [← List.nil_append (b :: _)]
      rw [later_mappedAt (A := []) hord (by omega), hfirst.1]
      intro e he
      rcases List.mem_cons.mp he with rfl | he
      · omega
      · have := (hlater e he).le
        omega

/-- Without room in any block there is no free gap. -/
theorem Ready.no_gap (h : Ready virtStart vaLimit a) (hs : 0 < size) (hmiddle : ¬MiddleRoom a size)
    (hedges : EdgesFull a size) (s : ℕ) : ¬FreeGap a size s := by
  rintro ⟨hlow, hhigh, hfree⟩
  have hord := h.arranged.ordered
  have halt := h.arranged.alternates
  obtain ⟨b, X, D, hcut, -, hX, hD⟩ := h.arranged.cut (show 0 < s + 1 by omega)
  obtain ⟨A, p, hA⟩ : ∃ A p, b :: X = A ++ [p] := by
    rcases List.eq_nil_or_concat (b :: X) with h | ⟨A, p, h⟩
    · exact absurd h (by simp)
    · exact ⟨A, p, by rw [h, List.concat_eq_append]⟩
  have hblocks : a.inner.blocks = A ++ p :: D := by rw [hcut, hA]; simp
  have hp : p.virt ≤ s := Nat.lt_succ_iff.mp (hX p (by rw [hA]; simp))
  rw [hblocks] at hord halt
  have hunmapped : p.mapped = false := by
    rw [← later_mappedAt hord hp fun c hc => hD c hc, ← hblocks]
    exact hfree s (Nat.le_refl s) (by omega)
  obtain ⟨b', c', d', l', hcut', hfirst, hlast⟩ := hedges
  cases D with
  | nil =>
    have hend : (d' :: l').getLast? = some p := by
      have heq := congrArg List.getLast? (hcut'.symm.trans hblocks)
      rw [List.getLast?_concat, List.getLast?_cons_cons, List.getLast?_cons_cons] at heq
      exact heq
    have := hlast p hend
    omega
  | cons c D =>
    have hcs := hD c (by simp)
    by_cases hlt : c.virt < s + size
    · -- two unmapped blocks would follow each other
      have hnext : c.mapped = false := by
        have heq : A ++ p :: c :: D = A ++ [p] ++ c :: D := by simp
        rw [heq] at hord
        rw [← later_mappedAt hord (Nat.le_refl c.virt), ← heq, ← hblocks]
        · exact hfree c.virt (by omega) hlt
        · intro d hd
          have := (List.pairwise_cons.mp (List.pairwise_append.mp hord).2.1).1 d hd
          exact this.resolve_right fun hzero => by omega
      have hpc := (List.isChain_append_cons_cons.mp halt).2.1
      rw [hunmapped, hnext] at hpc
      exact absurd hpc (by simp)
    · cases A with
      | nil =>
        rw [hblocks, List.nil_append] at hcut'
        cases hcut'
        rcases hfirst with hmapped | hfull
        · rw [hunmapped] at hmapped
          exact absurd hmapped (by simp)
        · omega
      | cons x A =>
        refine hmiddle ⟨p.virt, A, p, c, D, ?_, hunmapped, by omega, rfl⟩
        rw [hblocks]
        rfl

/-- The call returns, and answers that there is no room only when there is no free gap. -/
def Exhaustive (a : FlatAllocatorBool w) (size : ℕ) : Prop :=
  ∃ r a', a.allocate size = some (r, a') ∧ (r = none → ∀ s, ¬FreeGap a size s)

/-- An allocator over `[0x1000, 0x3000]`. -/
def smallAllocator (blocks : List Block) (cursor : ℕ) : FlatAllocatorBool 32 :=
  ⟨⟨blocks, 0x3000⟩, 0x1000, cursor, 0x3000⟩

end Ruzu.AddressSpace
