import Mathlib
import Ruzu.Kernel.MemoryBlockTiling

/-!
# The merging pass

A boundary is mergeable when the blocks on its two sides can be merged.
Splitting and editing inside a window create mergeable boundaries only in
that window; joining removes its own boundary and creates none. The pass
therefore leaves no mergeable boundary when it is run over the window.
-/

set_option autoImplicit false

namespace Ruzu.MemoryBlockCoalesce
open MemoryBlock MemoryBlockManager MemoryBlockTiling Tiling
open KMemoryBlockManager
open KMemoryBlockDisableMergeAttribute (allLeft allRight)

/-- The blocks meeting at address `x` can be merged. -/
def MergeableAt : List Entry → ℕ → Prop
  | e::f::rest, x => (f.1 = x ∧ e.2.canMergeWith f.2 = true) ∨ MergeableAt (f::rest) x
  | _, _ => False

@[simp] theorem mergeableAt_pair {e f : Entry} {rest : List Entry} {x : ℕ} :
    MergeableAt (e::f::rest) x ↔
      (f.1 = x ∧ e.2.canMergeWith f.2 = true) ∨ MergeableAt (f::rest) x := Iff.rfl

@[simp] theorem not_mergeableAt_nil (x : ℕ) : ¬ MergeableAt [] x := id

@[simp] theorem not_mergeableAt_one (e : Entry) (x : ℕ) : ¬ MergeableAt [e] x := id

def NoMerge (l : List Entry) : Prop := ∀ x, ¬ MergeableAt l x

def MergeWithin (lo hi : ℕ) (l : List Entry) : Prop := ∀ x, MergeableAt l x → lo ≤ x ∧ x ≤ hi

theorem mergeable_middle (pre post : List Entry) (e : Entry) (x : ℕ) :
    MergeableAt (pre ++ e :: post) x ↔ MergeableAt (pre ++ [e]) x ∨ MergeableAt (e :: post) x := by
  induction pre with
  | nil => simp
  | cons f pre ih =>
    cases pre with
    | nil => simp
    | cons g pre =>
      simp only [List.cons_append, mergeableAt_pair] at ih ⊢
      rw [ih, or_assoc]

theorem mergeable_last {pre : List Entry} {e : Entry} {x : ℕ} (h : MergeableAt (pre ++ [e]) x) :
    x = e.1 ∨ MergeableAt pre x := by
  induction pre with
  | nil => simp at h
  | cons f pre ih =>
    cases pre with
    | nil =>
      simp only [List.nil_append, List.cons_append, mergeableAt_pair, not_mergeableAt_one,
        or_false] at h
      exact Or.inl h.1.symm
    | cons g pre =>
      simp only [List.cons_append, mergeableAt_pair] at h ih ⊢
      rcases h with h | h
      · exact Or.inr (Or.inl h)
      · exact (ih h).imp_right Or.inr

theorem mergeable_front {pre post : List Entry} {x : ℕ} (h : MergeableAt pre x) :
    MergeableAt (pre ++ post) x := by
  induction pre with
  | nil => simp at h
  | cons f pre ih =>
    cases pre with
    | nil => simp at h
    | cons g pre =>
      simp only [List.cons_append, mergeableAt_pair] at h ih ⊢
      exact h.imp_right ih

theorem mergeable_first {post : List Entry} {e : Entry} {x : ℕ} (h : MergeableAt (e :: post) x) :
    (∃ f ∈ post.head?, x = f.1) ∨ MergeableAt post x := by
  cases post with
  | nil => simp at h
  | cons f post =>
    rcases h with ⟨rfl, -⟩ | h
    · exact Or.inl ⟨f, rfl, rfl⟩
    · exact Or.inr h

theorem mergeable_cons {post : List Entry} {e : Entry} {x : ℕ} (h : MergeableAt post x) :
    MergeableAt (e :: post) x := by
  cases post with
  | nil => simp at h
  | cons f post => exact Or.inr h

/-- A mergeable boundary is the key of an entry other than the first. -/
theorem mergeable_key {l : List Entry} {x : ℕ} (h : MergeableAt l x) :
    ∃ e ∈ l.tail, e.1 = x := by
  induction l with
  | nil => simp at h
  | cons e l ih =>
    cases l with
    | nil => simp at h
    | cons f l =>
      rcases h with ⟨rfl, -⟩ | h
      · exact ⟨f, by simp, rfl⟩
      · obtain ⟨g, hg, hx⟩ := ih h
        exact ⟨g, List.mem_of_mem_tail hg, hx⟩

/-- Two blocks look the same from their left-hand neighbour. -/
def LeftAlike (b c : KMemoryBlock) : Prop :=
  b.pageProperties = c.pageProperties ∧
    b.mDisableMergeAttribute &&& allLeft = c.mDisableMergeAttribute &&& allLeft

/-- Two blocks look the same from their right-hand neighbour. -/
def RightAlike (b c : KMemoryBlock) : Prop :=
  b.pageProperties = c.pageProperties ∧
    b.mDisableMergeAttribute &&& allRight = c.mDisableMergeAttribute &&& allRight

theorem can_merge_left {b c : KMemoryBlock} (h : LeftAlike b c) (q : KMemoryBlock) :
    q.canMergeWith b = q.canMergeWith c := by
  have hs : q.hasSameProperties b = q.hasSameProperties c := by
    rw [Bool.eq_iff_iff, KMemoryBlock.has_same_properties_iff,
      KMemoryBlock.has_same_properties_iff, h.1]
  rw [KMemoryBlock.canMergeWith, KMemoryBlock.canMergeWith, hs, h.2]

theorem can_merge_right {b c : KMemoryBlock} (h : RightAlike b c) (q : KMemoryBlock) :
    b.canMergeWith q = c.canMergeWith q := by
  have hs : b.hasSameProperties q = c.hasSameProperties q := by
    rw [Bool.eq_iff_iff, KMemoryBlock.has_same_properties_iff,
      KMemoryBlock.has_same_properties_iff, h.1]
  rw [KMemoryBlock.canMergeWith, KMemoryBlock.canMergeWith, hs, h.2]

theorem mergeable_left_alike {pre : List Entry} {k x : ℕ} {b c : KMemoryBlock}
    (h : LeftAlike b c) : MergeableAt (pre ++ [(k,b)]) x ↔ MergeableAt (pre ++ [(k,c)]) x := by
  induction pre with
  | nil => simp
  | cons e pre ih =>
    cases pre with
    | nil => simp [can_merge_left h]
    | cons f pre =>
      simp only [List.cons_append, mergeableAt_pair] at ih ⊢
      rw [ih]

theorem mergeable_right_alike (k k' : ℕ) {post : List Entry} {x : ℕ} {b c : KMemoryBlock}
    (h : RightAlike b c) : MergeableAt ((k,b) :: post) x ↔ MergeableAt ((k',c) :: post) x := by
  cases post with
  | nil => simp
  | cons f post => simp [can_merge_right h]

theorem split_left_alike (b : KMemoryBlock) (a : ℕ) : LeftAlike (b.split a).1 b :=
  ⟨rfl, by simp [KMemoryBlock.split, BitVec.and_assoc]⟩

theorem split_right_alike (b : KMemoryBlock) (a : ℕ) : RightAlike (b.split a).2 b :=
  ⟨rfl, by simp [KMemoryBlock.split, BitVec.and_assoc]⟩

theorem add_left_alike {c n : KMemoryBlock} (h : c.canMergeWith n = true) :
    LeftAlike (c.add n) c := by
  simp only [KMemoryBlock.canMergeWith, Bool.and_eq_true, beq_iff_eq] at h
  refine ⟨rfl, ?_⟩
  rw [KMemoryBlock.add, BitVec.and_comm, BitVec.and_or_distrib_left, BitVec.and_comm,
    BitVec.and_comm allLeft, h.2, KMemoryBlockDisableMergeAttribute.none]
  exact BitVec.or_zero

theorem add_right_alike {c n : KMemoryBlock} (h : c.canMergeWith n = true) :
    RightAlike (c.add n) n := by
  simp only [KMemoryBlock.canMergeWith, Bool.and_eq_true, beq_iff_eq] at h
  refine ⟨(KMemoryBlock.has_same_properties_iff c n).mp h.1.1, ?_⟩
  rw [KMemoryBlock.add, BitVec.and_comm, BitVec.and_or_distrib_left, BitVec.and_comm,
    BitVec.and_comm allRight, h.1.2, KMemoryBlockDisableMergeAttribute.none]
  exact BitVec.zero_or

/-- The edits an operation makes before the merging pass, confined to a
window; `R` relates a block to what it is rewritten to. -/
inductive EditStep (R : KMemoryBlock → KMemoryBlock → Prop) (lo hi : ℕ) :
    List Entry → List Entry → Prop
  | divide (pre post : List Entry) (k a : ℕ) (b : KMemoryBlock) (hlo : lo ≤ a) (hhi : a ≤ hi) :
      EditStep R lo hi (pre ++ (k,b) :: post)
        (pre ++ (k,(b.split a).1) :: (a,(b.split a).2) :: post)
  | rewrite (pre post : List Entry) (k : ℕ) (b b' : KMemoryBlock) (hR : R b b') (hlo : lo ≤ k)
      (hk : k ≤ hi) (hpost : ∀ e ∈ post.head?, lo ≤ e.1 ∧ e.1 ≤ hi) :
      EditStep R lo hi (pre ++ (k,b) :: post) (pre ++ (k,b') :: post)

abbrev Edits (R : KMemoryBlock → KMemoryBlock → Prop) (lo hi : ℕ) :
    List Entry → List Entry → Prop := Relation.ReflTransGen (EditStep R lo hi)

theorem edit_mergeable {R : KMemoryBlock → KMemoryBlock → Prop} {lo hi x : ℕ}
    {l l' : List Entry} (h : EditStep R lo hi l l')
    (hx : MergeableAt l' x) : MergeableAt l x ∨ (lo ≤ x ∧ x ≤ hi) := by
  cases h with
  | divide pre post k a b hlo hhi =>
    rw [mergeable_middle] at hx
    rcases hx with hx | ⟨hxa, -⟩ | hx
    · rw [mergeable_left_alike (split_left_alike b a)] at hx
      exact Or.inl ((mergeable_middle pre post (k,b) x).mpr (Or.inl hx))
    · have hax : a = x := hxa
      exact Or.inr ⟨by omega, by omega⟩
    · rw [mergeable_right_alike a k (split_right_alike b a)] at hx
      exact Or.inl ((mergeable_middle pre post (k,b) x).mpr (Or.inr hx))
  | rewrite pre post k b b' _ hlo hk hpost =>
    rw [mergeable_middle] at hx
    rcases hx with hx | hx
    · rcases mergeable_last hx with hxk | hx
      · have hxk' : x = k := hxk
        exact Or.inr ⟨by omega, by omega⟩
      · exact Or.inl (mergeable_front hx)
    · rcases mergeable_first hx with ⟨f, hf, rfl⟩ | hx
      · exact Or.inr (hpost f hf)
      · exact Or.inl ((mergeable_middle pre post (k,b) x).mpr (Or.inr (mergeable_cons hx)))

theorem edits_merge_within {R : KMemoryBlock → KMemoryBlock → Prop} {lo hi : ℕ}
    {l l' : List Entry} (h : Edits R lo hi l l')
    (hl : NoMerge l) : MergeWithin lo hi l' := by
  induction h with
  | refl => exact fun x hx => absurd hx (hl x)
  | tail _ hstep ih =>
    intro x hx
    rcases edit_mergeable hstep hx with hx | hx
    · exact ih x hx
    · exact hx

/-- One merge of the pass. -/
inductive JoinStep : List Entry → List Entry → Prop
  | join (pre post : List Entry) (k a : ℕ) (c n : KMemoryBlock) (h : c.canMergeWith n = true) :
      JoinStep (pre ++ (k,c) :: (a,n) :: post) (pre ++ (k,c.add n) :: post)

abbrev Joins : List Entry → List Entry → Prop := Relation.ReflTransGen JoinStep

theorem join_mergeable {pre post : List Entry} {k a x : ℕ} {c n : KMemoryBlock}
    (h : c.canMergeWith n = true) (hx : MergeableAt (pre ++ (k,c.add n) :: post) x) :
    MergeableAt (pre ++ (k,c) :: (a,n) :: post) x := by
  rw [mergeable_middle] at hx ⊢
  refine hx.imp (fun hx => ?_) (fun hx => Or.inr ?_)
  · rwa [mergeable_left_alike (add_left_alike h)] at hx
  · rwa [mergeable_right_alike k a (add_right_alike h)] at hx

section Pass

variable {m : KMemoryBlockManager} {k a : ℕ} {c n : KMemoryBlock}
  {pre post : List Entry}

theorem coalesce_step_join (hcut : m.memoryBlockTree.entries = pre ++ (k,c) :: (a,n) :: post)
    (hm : c.canMergeWith n = true) :
    ∃ m', coalesceStep m k a n = (m',k) ∧ m'.mStartAddress = m.mStartAddress ∧
      m'.mEndAddress = m.mEndAddress ∧
      m'.memoryBlockTree.entries = pre ++ (k,c.add n) :: post := by
  have hget := BTreeMap.get_cut hcut
  have hrem : (m.memoryBlockTree.remove a).entries = pre ++ (k,c) :: post := by
    have hcut' : m.memoryBlockTree.entries = (pre ++ [(k,c)]) ++ (a,n) :: post := by simp [hcut]
    simpa using BTreeMap.remove_cut hcut'
  refine ⟨⟨(m.memoryBlockTree.remove a).modify k (fun cur => cur.add n), m.mStartAddress,
    m.mEndAddress⟩, by simp [coalesceStep, hget, hm], rfl, rfl, ?_⟩
  exact BTreeMap.modify_cut (fun cur => cur.add n) hrem

theorem coalesce_step_pass (hcut : m.memoryBlockTree.entries = pre ++ (k,c) :: (a,n) :: post)
    (hm : c.canMergeWith n = false) : coalesceStep m k a n = (m,a) := by
  simp [coalesceStep, BTreeMap.get_cut hcut, hm]

theorem mergeable_past (h : Tiled m) (hcut : m.memoryBlockTree.entries = pre ++ (k,c) :: post)
    {x : ℕ} (hx : MergeableAt m.memoryBlockTree.entries x) (hk : k < x) :
    c.getEndAddress ≤ x := by
  obtain ⟨e, he, rfl⟩ := mergeable_key hx
  have hmem : e ∈ m.memoryBlockTree.entries := List.mem_of_mem_tail he
  rw [hcut, List.mem_append, List.mem_cons] at hmem
  rcases hmem with hmem | rfl | hmem
  · have := BTreeMap.cut_below hcut e hmem
    omega
  · omega
  · exact later_entries h hcut e hmem

/-- The pass from a given block on: pages are kept, and if every boundary up
to that block is settled and every open one lies in the window, none is left. -/
theorem coalesce_loop_spec (updateEnd fuel : ℕ) (h : Tiled m)
    (hcut : m.memoryBlockTree.entries = pre ++ (k,c) :: post) (hf : post.length < fuel) :
    ∃ m', coalesceLoop updateEnd fuel m k = some m' ∧ SamePages m m' ∧
      Joins m.memoryBlockTree.entries m'.memoryBlockTree.entries ∧
      ((∀ x ≤ k, ¬ MergeableAt m.memoryBlockTree.entries x) →
        (∀ x, MergeableAt m.memoryBlockTree.entries x → x ≤ updateEnd) →
        NoMerge m'.memoryBlockTree.entries) := by
  induction fuel generalizing m k c pre post with
  | zero => omega
  | succ fuel ih =>
    rw [coalesceLoop, BTreeMap.succ_cut hcut]
    cases post with
    | nil =>
      refine ⟨m, rfl, same_pages_refl h, Relation.ReflTransGen.refl, fun hdone _ x hx => ?_⟩
      by_cases hxk : x ≤ k
      · exact hdone x hxk hx
      · have hend := mergeable_past h hcut hx (by omega)
        obtain ⟨e, he, rfl⟩ := mergeable_key hx
        have hmem : e ∈ m.memoryBlockTree.entries := List.mem_of_mem_tail he
        rw [hcut, List.mem_append, List.mem_singleton] at hmem
        rcases hmem with hmem | rfl
        · have := BTreeMap.cut_below hcut e hmem
          omega
        · omega
    | cons f post =>
      obtain ⟨a, n⟩ := f
      simp only [List.head?_cons]
      simp only [List.length_cons] at hf
      by_cases hm : c.canMergeWith n = true
      · -- the boundary `a` disappears and no other one opens
        obtain ⟨m₁, hstep, hs, he, hcut₁⟩ := coalesce_step_join hcut hm
        have hsame := join_same h hcut hm hs he hcut₁
        have hjoin : JoinStep m.memoryBlockTree.entries m₁.memoryBlockTree.entries := by
          rw [hcut, hcut₁]
          exact JoinStep.join pre post k a c n hm
        have hback : ∀ x, MergeableAt m₁.memoryBlockTree.entries x →
            MergeableAt m.memoryBlockTree.entries x := by
          intro x hx
          rw [hcut₁] at hx
          rw [hcut]
          exact join_mergeable hm hx
        simp only [hstep, BTreeMap.get_cut hcut₁]
        by_cases hend : updateEnd < (c.add n).getEndAddress
        · rw [if_pos hend]
          refine ⟨m₁, rfl, hsame, Relation.ReflTransGen.single hjoin, fun hdone hwin x hx => ?_⟩
          by_cases hxk : x ≤ k
          · exact hdone x hxk (hback x hx)
          · have h1 := mergeable_past hsame.tiled hcut₁ hx (by omega)
            have h2 := hwin x (hback x hx)
            omega
        · rw [if_neg hend]
          obtain ⟨m', hl, hsame', hjoins, hno⟩ := ih hsame.tiled hcut₁ (by omega)
          refine ⟨m', hl, same_pages_trans hsame hsame', Relation.ReflTransGen.head hjoin hjoins,
            fun hdone hwin => hno (fun x hxk hx => hdone x hxk (hback x hx))
              fun x hx => hwin x (hback x hx)⟩
      · -- the boundary `a` is settled and the pass moves past it
        have hm' : c.canMergeWith n = false := by simpa using hm
        have hcut₁ : m.memoryBlockTree.entries = (pre ++ [(k,c)]) ++ (a,n) :: post := by
          simp [hcut]
        have hk : k < a := BTreeMap.cut_above hcut (a,n) (by simp)
        have hadj : c.getEndAddress = a := by
          have ht := h.tiles
          rw [hcut] at ht
          obtain ⟨-, -, ha, -⟩ := tiles_cut ht
          exact ha.symm
        have hdone' : (∀ x ≤ k, ¬ MergeableAt m.memoryBlockTree.entries x) →
            ∀ x ≤ a, ¬ MergeableAt m.memoryBlockTree.entries x := by
          intro hdone x hxa hx
          by_cases hxk : x ≤ k
          · exact hdone x hxk hx
          · have hge := mergeable_past h hcut hx (by omega)
            have hxa' : x = a := by omega
            subst hxa'
            rw [hcut, mergeable_middle] at hx
            rcases hx with hx | ⟨-, hx⟩ | hx
            · have hsub : MergeableAt m.memoryBlockTree.entries x := by
                rw [hcut₁]
                exact mergeable_front hx
              rcases mergeable_last hx with hxk' | hx
              · have : x = k := hxk'
                omega
              · obtain ⟨e, he, hex⟩ := mergeable_key hx
                have := BTreeMap.cut_below hcut e (List.mem_of_mem_tail he)
                omega
            · exact hm hx
            · obtain ⟨e, he, hex⟩ := mergeable_key hx
              have := BTreeMap.cut_above hcut₁ e he
              omega
        simp only [coalesce_step_pass hcut hm', BTreeMap.get_cut hcut₁]
        by_cases hend : updateEnd < n.getEndAddress
        · rw [if_pos hend]
          refine ⟨m, rfl, same_pages_refl h, Relation.ReflTransGen.refl, fun hdone hwin x hx => ?_⟩
          by_cases hxa : x ≤ a
          · exact hdone' hdone x hxa hx
          · have h1 := mergeable_past h hcut₁ hx (by omega)
            have h2 := hwin x hx
            omega
        · rw [if_neg hend]
          obtain ⟨m', hl, hsame', hjoins, hno⟩ := ih h hcut₁ (by omega)
          exact ⟨m', hl, hsame', hjoins, fun hdone hwin => hno (hdone' hdone) hwin⟩

theorem coalesce_start_spec {address : ℕ} (h : Tiled m) (hlo : m.mStartAddress ≤ address)
    (hhi : address < m.mEndAddress) :
    ∃ c, (m.coalesceStart address,c) ∈ m.memoryBlockTree.entries ∧
      (m.coalesceStart address < address ∨ m.coalesceStart address = m.mStartAddress) := by
  obtain ⟨k, b, pre, post, hcut, hk, hlt⟩ := locate h hlo hhi
  have hb : (k,b) ∈ m.memoryBlockTree.entries := by simp [hcut]
  have hfind : (m.memoryBlockTree.entries.filter (fun e => e.1 ≤ address)).reverse.find?
      (fun e => covers e.2 address) = some (k,b) := by
    have hpost : post.filter (fun e => e.1 ≤ address) = [] := by
      rw [List.filter_eq_nil_iff]
      intro e he
      have := later_entries h hcut e he
      simp only [decide_eq_true_eq]
      omega
    have hcov : covers b address := (entry_covers h hb).mpr ⟨hk, hlt⟩
    simp [hcut, List.filter_append, hpost, hk, hcov]
  rw [coalesceStart, hfind]
  simp only [Option.map_some, Option.getD_some]
  by_cases ha : address = m.mStartAddress
  · have hk' : k = m.mStartAddress := by
      have := entry_bounds h hb
      omega
    rw [if_neg (by simpa using ha)]
    exact ⟨b, hb, Or.inr hk'⟩
  · rw [if_pos ha, BTreeMap.pred_cut hcut]
    cases hl : pre.getLast? with
    | none =>
      have hpre : pre = [] := List.getLast?_eq_none_iff.mp hl
      have ht := h.tiles
      rw [hcut, hpre] at ht
      exact ⟨b, hb, Or.inr ht.1⟩
    | some e =>
      have he : e ∈ pre := List.mem_of_getLast? hl
      have hek := BTreeMap.cut_below hcut e he
      exact ⟨e.2, by simp [hcut, he], Or.inl (by simpa using by omega)⟩

theorem coalesce_spec (address numPages : ℕ) (h : Tiled m) (hlo : m.mStartAddress ≤ address)
    (hhi : address < m.mEndAddress) :
    ∃ m', m.coalesceForUpdate address numPages = some m' ∧ SamePages m m' ∧
      Joins m.memoryBlockTree.entries m'.memoryBlockTree.entries ∧
      (MergeWithin address (address + numPages * pageSize) m.memoryBlockTree.entries →
        NoMerge m'.memoryBlockTree.entries) := by
  obtain ⟨c, hc, hstart⟩ := coalesce_start_spec h hlo hhi
  obtain ⟨pre, post, hcut⟩ := List.append_of_mem hc
  have hne : m.memoryBlockTree.isEmpty = false := by simp [BTreeMap.isEmpty, hcut]
  have hlen : post.length < m.memoryBlockTree.len + 1 := by
    simp only [BTreeMap.len, hcut, List.length_append, List.length_cons]
    omega
  obtain ⟨m', hl, hsame, hjoins, hno⟩ :=
    coalesce_loop_spec (address + numPages * pageSize) _ h hcut hlen
  refine ⟨m', by simpa [coalesceForUpdate, hne] using hl, hsame, hjoins, fun hwin => ?_⟩
  refine hno (fun x hx hmx => ?_) fun x hx => (hwin x hx).2
  rcases hstart with hlt | heq
  · have := (hwin x hmx).1
    omega
  · -- the first entry is not a boundary between two blocks
    obtain ⟨e, he, hex⟩ := mergeable_key hmx
    have hs := m.memoryBlockTree.sorted
    have ht := h.tiles
    cases hl : m.memoryBlockTree.entries with
    | nil => simp [hl] at he
    | cons f l =>
      rw [hl] at he hs ht
      have hf := (List.pairwise_cons.mp hs).1 e he
      have hfs : f.1 = m.mStartAddress := ht.1
      omega

end Pass

end Ruzu.MemoryBlockCoalesce
