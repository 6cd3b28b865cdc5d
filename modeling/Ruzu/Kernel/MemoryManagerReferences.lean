import Ruzu.Kernel.MemoryManagerHeaps

/-!
# Reference counts over ranges of pages

One manager's counts are a function on its pages. `open_first`, `open` and
`close` move every count of a range by a partial function that is undefined
where an assertion fails; `close` also frees the pages that reach 0, one batch
of neighbours at a time.
-/

set_option autoImplicit false

namespace Ruzu.MemoryManager
open Ruzu.MemoryBlock (pageSize)
open Ruzu.PageHeap Finset KMemoryManager

namespace Impl

variable {m : Impl} {a e : ℕ} {F : Finset ℕ}

/-- One reference less, as `close` takes it. -/
def lastReference (count : ℕ) : Option ℕ := if count = 0 then none else some (count - 1)

theorem firstReference_some {k k' : ℕ} : firstReference k = some k' ↔ k = 0 ∧ k' = 1 := by
  rw [firstReference, addReference]
  by_cases hk : k+1 < 2^16
  · rw [if_pos hk]
    by_cases h0 : k = 0
    · subst h0
      simp [eq_comm]
    · simp [h0]
  · rw [if_neg hk]
    simp
    omega

theorem nextReference_some {k k' : ℕ} :
    nextReference k = some k' ↔ 0 < k ∧ k+1 < 2^16 ∧ k' = k+1 := by
  rw [nextReference, addReference]
  by_cases hk : k+1 < 2^16
  · rw [if_pos hk]
    by_cases h0 : 0 < k
    · simp only [bind, Option.bind_some]
      rw [if_pos (by omega), Option.some.injEq]
      omega
    · simp [h0]
  · rw [if_neg hk]
    simp
    omega

theorem lastReference_some {k k' : ℕ} : lastReference k = some k' ↔ k = k'+1 := by
  rw [lastReference]
  split
  · simp
    omega
  · rw [Option.some.injEq]
    omega

theorem getElem?_set_count {counts : List ℕ} {index k x : ℕ} (h : counts[index]? = some k)
    (j : ℕ) : (counts.set index x)[j]? = if j = index then some x else counts[j]? := by
  have hlt : index < counts.length := (List.getElem?_eq_some_iff.mp h).1
  rw [List.getElem?_set]
  by_cases hj : index = j
  · rw [if_pos hj, if_pos hj.symm, if_pos hlt]
  · rw [if_neg hj, if_neg (Ne.symm hj)]

/-- Each of the `n` counts from `index` on can be moved. -/
def Movable (move : ℕ → Option ℕ) (counts : List ℕ) (index n : ℕ) : Prop :=
  ∀ j, index ≤ j → j < index+n → ∃ k k', counts[j]? = some k ∧ move k = some k'

/-- The counts after a move of the `n` counts from `index` on. -/
def MovedTo (move : ℕ → Option ℕ) (counts : List ℕ) (index n : ℕ) (counts' : List ℕ) : Prop :=
  counts'.length = counts.length ∧ ∀ j, counts'[j]? =
    if index ≤ j ∧ j < index+n then counts[j]?.bind move else counts[j]?

variable {move : ℕ → Option ℕ} {counts counts' : List ℕ} {index n k k' : ℕ}

theorem movable_zero : Movable move counts index 0 := by
  intro j h₁ h₂
  omega

theorem movedTo_zero : MovedTo move counts index 0 counts := by
  refine ⟨rfl, ?_⟩
  intro j
  rw [if_neg (by omega)]

/-- The first count moved, and the rest after it. -/
theorem Movable.cons (hk : counts[index]? = some k) (hmove : move k = some k')
    (h : Movable move (counts.set index k') (index+1) n) : Movable move counts index (n+1) := by
  intro j h₁ h₂
  by_cases hj : j = index
  · subst hj
    exact ⟨k, k', hk, hmove⟩
  · obtain ⟨x, x', hx, hx'⟩ := h j (by omega) (by omega)
    rw [getElem?_set_count hk, if_neg hj] at hx
    exact ⟨x, x', hx, hx'⟩

theorem Movable.tail (hk : counts[index]? = some k) (h : Movable move counts index (n+1)) :
    Movable move (counts.set index k') (index+1) n := by
  intro j h₁ h₂
  rw [getElem?_set_count hk, if_neg (by omega)]
  exact h j (by omega) (by omega)

theorem MovedTo.cons (hk : counts[index]? = some k) (hmove : move k = some k')
    (h : MovedTo move (counts.set index k') (index+1) n counts') :
    MovedTo move counts index (n+1) counts' := by
  obtain ⟨hlen, hget⟩ := h
  rw [List.length_set] at hlen
  refine ⟨hlen, ?_⟩
  intro j
  rw [hget, getElem?_set_count hk]
  by_cases hj : j = index
  · subst hj
    rw [if_neg (by omega), if_pos rfl, if_pos (by omega), hk, Option.bind_some, hmove]
  · rw [if_neg hj]
    by_cases hin : index+1 ≤ j ∧ j < index+1+n
    · rw [if_pos hin, if_pos (by omega)]
    · rw [if_neg hin, if_neg (by omega)]

theorem raiseCounts_movable (n : ℕ) : ∀ (index : ℕ) (counts : List ℕ),
    raiseCounts move n index counts = some counts' → Movable move counts index n := by
  induction n with
  | zero =>
    intro index counts _
    exact movable_zero
  | succ n ih =>
    intro index counts h
    simp only [raiseCounts, bind, Option.bind_eq_some_iff] at h
    obtain ⟨k, hk, k', hmove, h⟩ := h
    exact (ih _ _ h).cons hk hmove

theorem raiseCounts_moved (n : ℕ) : ∀ (index : ℕ) (counts : List ℕ),
    Movable move counts index n →
    ∃ counts', raiseCounts move n index counts = some counts' ∧
      MovedTo move counts index n counts' := by
  induction n with
  | zero =>
    intro index counts _
    exact ⟨counts, rfl, movedTo_zero⟩
  | succ n ih =>
    intro index counts h
    obtain ⟨k, k', hk, hmove⟩ := h index (by omega) (by omega)
    obtain ⟨counts', hraise, hmoved⟩ := ih (index+1) (counts.set index k') (h.tail hk)
    refine ⟨counts', ?_, hmoved.cons hk hmove⟩
    simp only [raiseCounts, bind, hk, Option.bind_some, hmove]
    exact hraise

theorem flush_counts {m m' : Impl} {fs fc : ℕ} (h : m.flush fs fc = some m') :
    m'.pageReferenceCounts = m.pageReferenceCounts := by
  rw [flush] at h
  split at h
  · rw [Impl.free] at h
    obtain ⟨k, _, h⟩ := Option.bind_eq_some_iff.mp h
    cases h
    rfl
  · cases h
    rfl

theorem closeLoop_movable (n : ℕ) : ∀ (index fs fc : ℕ) (m m' : Impl),
    closeLoop n index fs fc m = some m' →
    Movable lastReference m.pageReferenceCounts index n := by
  induction n with
  | zero =>
    intro index fs fc m m' _
    exact movable_zero
  | succ n ih =>
    intro index fs fc m m' h
    simp only [closeLoop, bind, Option.bind_eq_some_iff] at h
    obtain ⟨k, hk, h⟩ := h
    by_cases h0 : k = 0
    · rw [if_pos h0] at h
      exact absurd h (by simp)
    · rw [if_neg h0] at h
      have hmove : lastReference k = some (k - 1) := if_neg h0
      split at h
      · split at h
        · exact (ih _ _ _ _ _ h).cons hk hmove
        · exact (ih _ _ _ _ _ h).cons hk hmove
      · obtain ⟨m₁, hflush, h⟩ := Option.bind_eq_some_iff.mp h
        have hcounts := flush_counts hflush
        have hrest := ih _ _ _ _ _ h
        rw [hcounts] at hrest
        exact hrest.cons hk hmove

theorem flush_free {fs fc : ℕ} (hf : Free m.heap a e F) (hin : Ico (a+fs) (a+fs+fc) ⊆ Ico a e)
    (hd : Disjoint F (Ico (a+fs) (a+fs+fc))) :
    ∃ k, m.flush fs fc = some { m with heap := k } ∧
      Free k a e (F ∪ Ico (a+fs) (a+fs+fc)) := by
  obtain ⟨k, hk, hf'⟩ := free_free hf (a+fs) fc hin hd
  by_cases hfc : 0 < fc
  · refine ⟨k, ?_, hf'⟩
    rw [flush, if_pos hfc, Impl.free, hf.address, ← Nat.add_mul, hk]
    rfl
  · have hempty : Ico (a+fs) (a+fs+fc) = ∅ := Ico_eq_empty (by omega)
    refine ⟨m.heap, ?_, ?_⟩
    · rw [flush, if_neg hfc]
    · rwa [hempty, union_empty]

/-- The pages `close` frees: the pending batch, and those of the range that lose their last
reference. -/
def Released (a : ℕ) (counts : List ℕ) (fs fc index n p : ℕ) : Prop :=
  (a+fs ≤ p ∧ p < a+fs+fc) ∨
    ∃ j, index ≤ j ∧ j < index+n ∧ p = a+j ∧ counts[j]? = some 1

theorem released_zero {fs fc p : ℕ} :
    Released a counts fs fc index 0 p ↔ a+fs ≤ p ∧ p < a+fs+fc := by
  rw [Released, or_iff_left]
  rintro ⟨j, h₁, h₂, _⟩
  omega

theorem released_skip {fs fc p : ℕ} (hk : counts[index]? = some (k+1)) (h0 : k ≠ 0) :
    Released a counts fs fc index (n+1) p ↔
      (a+fs ≤ p ∧ p < a+fs+fc) ∨ Released a (counts.set index k) index 0 (index+1) n p := by
  apply or_congr_right
  constructor
  · rintro ⟨j, h₁, h₂, hp, hj⟩
    have hne : j ≠ index := by
      rintro rfl
      rw [hk] at hj
      simp at hj
      omega
    refine .inr ⟨j, by omega, by omega, hp, ?_⟩
    rwa [getElem?_set_count hk, if_neg hne]
  · rintro (⟨_, _⟩ | ⟨j, h₁, h₂, hp, hj⟩)
    · omega
    · rw [getElem?_set_count hk, if_neg (by omega)] at hj
      exact ⟨j, by omega, by omega, hp, hj⟩

theorem released_take {fs fc fs' fc' p : ℕ} (hk : counts[index]? = some 1)
    (hbatch : a+fs' ≤ p ∧ p < a+fs'+fc' ↔ (a+fs ≤ p ∧ p < a+fs+fc) ∨ p = a+index) :
    Released a counts fs fc index (n+1) p ↔
      Released a (counts.set index 0) fs' fc' (index+1) n p := by
  rw [Released, Released, hbatch, or_assoc]
  apply or_congr_right
  constructor
  · rintro ⟨j, h₁, h₂, hp, hj⟩
    by_cases hji : j = index
    · left
      rw [hp, hji]
    · refine .inr ⟨j, by omega, by omega, hp, ?_⟩
      rwa [getElem?_set_count hk, if_neg hji]
  · rintro (hp | ⟨j, h₁, h₂, hp, hj⟩)
    · exact ⟨index, le_rfl, by omega, hp, hk⟩
    · rw [getElem?_set_count hk, if_neg (by omega)] at hj
      exact ⟨j, by omega, by omega, hp, hj⟩

/-- `close` on the counts from `index` on, with a batch of pages still to be freed. -/
theorem closeLoop_free (n : ℕ) : ∀ (index fs fc : ℕ) (m : Impl) (F : Finset ℕ),
    Free m.heap a e F → (0 < fc → fs+fc = index) → a+index+n ≤ e →
    Movable lastReference m.pageReferenceCounts index n →
    (∀ p, Released a m.pageReferenceCounts fs fc index n p → p ∉ F) →
    ∃ k counts F', closeLoop n index fs fc m =
        some { m with heap := k, pageReferenceCounts := counts } ∧
      MovedTo lastReference m.pageReferenceCounts index n counts ∧ Free k a e F' ∧
      ∀ p, p ∈ F' ↔ p ∈ F ∨ Released a m.pageReferenceCounts fs fc index n p := by
  induction n with
  | zero =>
    intro index fs fc m F hf hbatch hend _ hfree
    have hin : Ico (a+fs) (a+fs+fc) ⊆ Ico a e := by
      intro p hp
      rw [mem_Ico] at hp ⊢
      have := hbatch (by omega)
      omega
    have hd : Disjoint F (Ico (a+fs) (a+fs+fc)) := by
      rw [disjoint_right]
      intro p hp
      rw [mem_Ico] at hp
      exact hfree p (released_zero.2 hp)
    obtain ⟨k, hk, hf'⟩ := flush_free hf hin hd
    refine ⟨k, _, _, hk, movedTo_zero, hf', ?_⟩
    intro p
    rw [mem_union, mem_Ico, released_zero]
  | succ n ih =>
    intro index fs fc m F hf hbatch hend hmov hfree
    obtain ⟨x, k, hx, hmove⟩ := hmov index (by omega) (by omega)
    rw [lastReference_some] at hmove
    subst hmove
    have htail : Movable lastReference (m.pageReferenceCounts.set index k) (index+1) n := hmov.tail hx
    have hmove : lastReference (k+1) = some k := lastReference_some.2 rfl
    simp only [closeLoop, bind, hx, Option.bind_some]
    rw [if_neg (by omega), Nat.add_sub_cancel]
    by_cases h0 : k = 0
    · -- the page joins the batch, or starts one
      subst h0
      rw [if_pos rfl]
      obtain ⟨fs', fc', hstep, hbatch', hgrow⟩ : ∃ fs' fc',
          (∀ m, (if 0 < fc then closeLoop n (index+1) fs (fc+1) m
            else closeLoop n (index+1) index 1 m) = closeLoop n (index+1) fs' fc' m) ∧
          fs'+fc' = index+1 ∧
          ∀ p, a+fs' ≤ p ∧ p < a+fs'+fc' ↔ (a+fs ≤ p ∧ p < a+fs+fc) ∨ p = a+index := by
        by_cases hfc : 0 < fc
        · have := hbatch hfc
          refine ⟨fs, fc+1, fun m => if_pos hfc, by omega, ?_⟩
          intro p
          omega
        · refine ⟨index, 1, fun m => if_neg hfc, rfl, ?_⟩
          intro p
          omega
      rw [hstep]
      obtain ⟨h, counts, F', hclose, hmoved, hf', hF'⟩ := ih (index+1) fs' fc'
        { m with pageReferenceCounts := m.pageReferenceCounts.set index 0 } F hf (fun _ => hbatch')
        (by omega) htail (by
          intro p hp
          exact hfree p ((released_take hx (hgrow p)).mpr hp))
      refine ⟨h, counts, F', hclose, hmoved.cons hx hmove, hf', ?_⟩
      intro p
      rw [hF', released_take hx (hgrow p)]
    · rw [if_neg h0]
      have hin : Ico (a+fs) (a+fs+fc) ⊆ Ico a e := by
        intro p hp
        rw [mem_Ico] at hp ⊢
        have := hbatch (by omega)
        omega
      have hd : Disjoint F (Ico (a+fs) (a+fs+fc)) := by
        rw [disjoint_right]
        intro p hp
        rw [mem_Ico] at hp
        exact hfree p ((released_skip hx h0).mpr (.inl hp))
      obtain ⟨h, hh, hfh⟩ := flush_free
        (m := { m with pageReferenceCounts := m.pageReferenceCounts.set index k }) hf hin hd
      rw [hh, Option.bind_some]
      obtain ⟨h', counts, F', hclose, hmoved, hf', hF'⟩ := ih (index+1) fs 0
        { m with pageReferenceCounts := m.pageReferenceCounts.set index k, heap := h } _ hfh
        (by omega) (by omega) htail (by
          intro p hp
          rcases hp with hp | ⟨j, h₁, h₂, hp, hj⟩
          · omega
          · have hrel : Released a m.pageReferenceCounts fs fc index (n+1) p := by
              rw [released_skip hx h0]
              exact .inr (.inr ⟨j, h₁, h₂, hp, hj⟩)
            rw [mem_union, not_or, mem_Ico]
            refine ⟨hfree p hrel, ?_⟩
            rintro ⟨_, h₄⟩
            have := hbatch (by omega)
            omega)
      refine ⟨h', counts, F', hclose, hmoved.cons hx hmove, hf', ?_⟩
      intro p
      rw [hF', released_skip hx h0, mem_union, mem_Ico, or_assoc]
      apply or_congr_right
      apply or_congr_right
      rw [Released, Released]
      apply or_congr_left
      omega

end Impl
end Ruzu.MemoryManager
