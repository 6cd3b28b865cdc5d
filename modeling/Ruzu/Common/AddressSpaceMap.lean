import Mathlib
import Ruzu.Common.AddressSpace
import Ruzu.Lib.Piecewise

/-!
# Mapping and unmapping a range

A block list is cut into the blocks before the range, those that start in it
and those behind it. Each edit replaces the middle part by at most one block
and makes the rest start where the range ends, so the mapping changes on the
range alone.
-/

set_option autoImplicit false

namespace Ruzu.AddressSpace
open Ruzu.Piecewise

/-- The flag of the last block. -/
def lastMapped (l : List Block) : Bool := last Block.mapped false l

/-- What a block list says of the address `x`. -/
def mappedAt (l : List Block) (x : ℕ) : Bool := eval Block.virt Block.mapped false l x

/-- The list starts with an unmapped block at 0, is sorted and ends unmapped. -/
structure WellFormed (l : List Block) : Prop where
  sorted : Sorted Block.virt l
  starts : ∃ l', l = ⟨0, false⟩ :: l'
  ends : lastMapped l = false

variable {A B C D l : List Block} {a b u : Block} {virt virtEnd : ℕ} {f : Bool}

theorem partitionPoint_cut (hA : ∀ b ∈ A, b.virt < virtEnd) (hD : ∀ b ∈ D, virtEnd ≤ b.virt) :
    partitionPoint (A ++ D) virtEnd = A.length := by
  rw [partitionPoint, takeWhile_below hA hD]

theorem getElem?_length (A D : List Block) (b : Block) : (A ++ b :: D)[A.length]? = some b := by
  simp

theorem set_length (A D : List Block) (b b' : Block) :
    (A ++ b :: D).set A.length b' = A ++ b' :: D := by
  simp

theorem insertIdx_length (A D : List Block) (b : Block) :
    (A ++ D).insertIdx A.length b = A ++ b :: D := by
  induction A with
  | nil => rfl
  | cons a A ih =>
    rw [List.cons_append, List.length_cons, List.insertIdx_succ_cons, ih]
    rfl

theorem insertIdx_behind (A D : List Block) (a b : Block) :
    (A ++ a :: D).insertIdx (A.length+1) b = A ++ a :: b :: D := by
  have h := insertIdx_length (A ++ [a]) D b
  rw [List.length_append] at h
  simpa using h

theorem drain_length (A B D : List Block) : drain (A ++ B ++ D) A.length (A.length+B.length) =
    A ++ D := by
  rw [drain, List.append_assoc, List.take_left, ← List.append_assoc, ← List.length_append,
    List.drop_left]

/-- The walk back over the blocks of the range. -/
theorem walkBack_cut (hA : ∀ b ∈ A, b.virt < virt) (D : List Block) :
    ∀ B : List Block, (∀ b ∈ B, virt ≤ b.virt) →
      walkBack (A ++ B ++ D) virt (A.length+B.length) = some A.length := by
  intro B
  induction B using List.reverseRecOn generalizing D with
  | nil =>
    intro _
    rw [List.append_nil, List.length_nil, Nat.add_zero]
    rcases List.eq_nil_or_concat A with rfl | ⟨A', a, rfl⟩
    · rfl
    · have ha := hA a (by simp)
      rw [List.concat_eq_append, List.append_assoc, List.length_append]
      change walkBack (A' ++ a :: D) virt (A'.length+1) = _
      simp only [walkBack, bind, getElem?_length, Option.bind_some]
      rw [if_neg (by omega)]
      simp
  | append_singleton B b ih =>
    intro hB
    have hb := hB b (by simp)
    have hrest := ih (b::D) fun c hc => hB c (by simp [hc])
    rw [List.length_append]
    change walkBack (A ++ (B ++ [b]) ++ D) virt (A.length+B.length+1) = _
    have heq : A ++ (B ++ [b]) ++ D = A ++ B ++ b :: D := by simp
    rw [heq]
    simp only [walkBack, bind]
    rw [← List.length_append, getElem?_length, Option.bind_some, if_pos hb, List.length_append]
    exact hrest

/-- `finish_map` over blocks that reach the end of the range. -/
theorem finishMap_cut (hA : ∀ b ∈ A, b.virt < virt) (hB : ∀ b ∈ B, virt ≤ b.virt ∧ b.virt < virtEnd) :
    finishMap (A ++ B ++ ⟨virtEnd, f⟩ :: D) virt virtEnd (A.length+B.length) =
      some (A ++ ⟨virt, true⟩ :: ⟨virtEnd, f⟩ :: D) := by
  have hwalk := walkBack_cut hA (⟨virtEnd, f⟩ :: D) B fun b hb => (hB b hb).1
  simp only [finishMap, bind, hwalk, Option.bind_some]
  cases B with
  | nil =>
    rw [List.append_nil, getElem?_length, Option.bind_some, if_neg (lt_irrefl _), if_pos rfl,
      insertIdx_length]
  | cons b B =>
    have hb := (hB b (by simp)).2
    rw [List.append_assoc, List.cons_append, getElem?_length, Option.bind_some,
      if_neg (by omega), if_neg (by omega)]
    have hdrain : (if A.length+1 < A.length+(b::B).length then
        drain (A ++ b :: (B ++ ⟨virtEnd, f⟩ :: D)) (A.length+1) (A.length+(b::B).length)
        else A ++ b :: (B ++ ⟨virtEnd, f⟩ :: D)) = A ++ b :: ⟨virtEnd, f⟩ :: D := by
      have hcut := drain_length (A ++ [b]) B (⟨virtEnd, f⟩ :: D)
      have heq : A ++ [b] ++ B ++ ⟨virtEnd, f⟩ :: D = A ++ b :: (B ++ ⟨virtEnd, f⟩ :: D) := by
        simp
      rw [heq, List.length_append] at hcut
      split
      · rw [show A.length+(b::B).length = A.length+[b].length+B.length by simp; omega]
        change drain _ (A.length+[b].length) _ = _
        rw [hcut]
        simp
      · have hnil : B = [] := by
          cases B with
          | nil => rfl
          | cons c B => simp at *
        rw [hnil]
        rfl
    rw [hdrain, set_length]

/-- The blocks behind a range, starting where it ends. -/
def resume (virtEnd : ℕ) (tail : Bool) : List Block → List Block
  | [] => [⟨virtEnd, tail⟩]
  | c::C => if c.virt = virtEnd then c::C else ⟨virtEnd, tail⟩ :: c :: C

theorem resume_starts (virtEnd : ℕ) (tail : Bool) (C : List Block) :
    ∃ f D, resume virtEnd tail C = ⟨virtEnd, f⟩ :: D := by
  cases C with
  | nil => exact ⟨_, _, rfl⟩
  | cons c C =>
    rw [resume]
    split
    · rename_i hc
      subst hc
      exact ⟨_, _, rfl⟩
    · exact ⟨_, _, rfl⟩

/-- What `map_locked` does behind the last block `a` that starts below the end of the range. -/
theorem mapBlocks_pred (hA : ∀ b ∈ A, b.virt < virtEnd) (ha : a.virt < virtEnd)
    (hC : ∀ b ∈ C, virtEnd ≤ b.virt) (hends : C = [] → a.mapped = false) :
    mapBlocks (A ++ a :: C) virt virtEnd =
      if 0 < A.length ∧ virt ≤ a.virt ∧ ∀ c ∈ C.head?, c.virt ≠ virtEnd then
        finishMap (A ++ resume virtEnd a.mapped C) virt virtEnd A.length
      else if ∀ c ∈ C.head?, c.virt ≠ virtEnd then
        some (A ++ a :: ⟨virt, true⟩ :: resume virtEnd a.mapped C)
      else finishMap (A ++ a :: C) virt virtEnd (A.length+1) := by
  have hcut : A ++ a :: C = A ++ [a] ++ C := by simp
  have hpoint : partitionPoint (A ++ a :: C) virtEnd = A.length+1 := by
    rw [hcut, partitionPoint_cut _ hC, List.length_append]
    · rfl
    · intro b hb
      rcases List.mem_append.mp hb with hb | hb
      · exact hA b hb
      · rw [List.mem_singleton] at hb
        rwa [hb]
  rw [mapBlocks]
  dsimp only
  rw [hpoint, if_neg (by omega), Nat.add_sub_cancel, getElem?_length]
  simp only [bind, Option.bind_some]
  cases C with
  | nil =>
    have hnone : (A ++ [a])[A.length+1]? = none := by simp
    rw [hnone]
    simp only [List.head?_nil, Option.mem_def, reduceCtorEq, false_implies, implies_true, and_true,
      if_true, resume]
    split
    · rw [set_length]
    · rw [hends rfl, List.append_assoc, List.length_append]
      exact congrArg some (insertIdx_behind A [⟨virtEnd, false⟩] a ⟨virt, true⟩)
  | cons c C =>
    have hsucc : (A ++ a :: c :: C)[A.length+1]? = some c := by simp
    rw [hsucc]
    simp only [List.head?_cons, Option.mem_def, Option.some.injEq, forall_eq']
    by_cases hc : c.virt = virtEnd
    · rw [if_neg (not_not.mpr hc), if_neg (by tauto), if_neg (not_not.mpr hc)]
    · rw [if_pos hc, if_pos hc, resume, if_neg hc]
      by_cases hp : 0 < A.length ∧ virt ≤ a.virt
      · rw [if_pos hp, if_pos ⟨hp.1, hp.2, hc⟩, set_length]
      · rw [if_neg hp, if_neg (by tauto)]
        rw [insertIdx_behind, insertIdx_behind]

theorem resume_of_meet {tail : Bool} (h : ¬∀ c ∈ C.head?, c.virt ≠ virtEnd) :
    resume virtEnd tail C = C := by
  cases C with
  | nil => exact absurd (by simp) h
  | cons c C =>
    rw [resume, if_pos]
    simpa using h

/-- `map_locked` on a list cut at both ends of the range. -/
theorem mapBlocks_cut (hne : A ≠ []) (hA : ∀ b ∈ A, b.virt < virt)
    (hB : ∀ b ∈ B, virt ≤ b.virt ∧ b.virt < virtEnd) (hC : ∀ b ∈ C, virtEnd ≤ b.virt)
    (hlt : virt < virtEnd) (hends : lastMapped (A ++ B ++ C) = false) :
    mapBlocks (A ++ B ++ C) virt virtEnd =
      some (A ++ ⟨virt, true⟩ :: resume virtEnd (lastMapped (A ++ B)) C) := by
  have hbelow : ∀ b ∈ A, b.virt < virtEnd := fun b hb => (hA b hb).trans hlt
  have hnil : C = [] → lastMapped (A ++ B) = false := by
    rintro rfl
    rwa [List.append_nil] at hends
  rcases List.eq_nil_or_concat B with rfl | ⟨B, p, rfl⟩
  · -- no block starts in the range
    obtain ⟨A, a, rfl⟩ : ∃ A' a, A = A' ++ [a] := by
      rcases List.eq_nil_or_concat A with h | ⟨A', a, h⟩
      · exact absurd h hne
      · exact ⟨A', a, by rw [h, List.concat_eq_append]⟩
    have ha := hA a (by simp)
    rw [List.append_nil, lastMapped, last_snoc] at hnil ⊢
    rw [List.append_assoc, List.singleton_append,
      mapBlocks_pred (fun b hb => hbelow b (by simp [hb])) (hbelow a (by simp)) hC hnil,
      if_neg (by omega)]
    by_cases hmeet : ∀ c ∈ C.head?, c.virt ≠ virtEnd
    · rw [if_pos hmeet, List.append_assoc]
      rfl
    · rw [if_neg hmeet, resume_of_meet hmeet]
      obtain ⟨f, D, hD⟩ := resume_starts virtEnd a.mapped C
      rw [resume_of_meet hmeet] at hD
      have hfinish := finishMap_cut (B := []) (D := D) (f := f) hA hB
      rw [List.append_nil, List.append_assoc, List.length_append, ← hD] at hfinish
      exact hfinish
  · rw [List.concat_eq_append] at hB hnil ⊢
    have hp := hB p (by simp)
    have hlast : lastMapped (A ++ (B ++ [p])) = p.mapped := by
      rw [← List.append_assoc, lastMapped, last_snoc]
    rw [hlast] at hnil ⊢
    have heq : A ++ (B ++ [p]) ++ C = A ++ B ++ p :: C := by simp
    have hAB : ∀ b ∈ A ++ B, b.virt < virtEnd := by
      intro b hb
      rcases List.mem_append.mp hb with hb | hb
      · exact hbelow b hb
      · exact (hB b (by simp [hb])).2
    have hpos : 0 < (A ++ B).length := by
      have := List.length_pos_iff.mpr hne
      rw [List.length_append]
      omega
    obtain ⟨f, D, hD⟩ := resume_starts virtEnd p.mapped C
    rw [heq, mapBlocks_pred hAB hp.2 hC hnil]
    by_cases hmeet : ∀ c ∈ C.head?, c.virt ≠ virtEnd
    · rw [if_pos ⟨hpos, hp.1, hmeet⟩, hD, List.length_append]
      exact finishMap_cut hA fun b hb => hB b (by simp [hb])
    · rw [if_neg (by tauto), if_neg hmeet, ← heq, List.length_append]
      rw [resume_of_meet hmeet] at hD ⊢
      have hfinish := finishMap_cut (B := B ++ [p]) (D := D) (f := f) hA hB
      rw [← hD, List.length_append] at hfinish
      exact hfinish

/-- The block at the start of an unmapped range, unless the block before it is unmapped too. -/
def gap (virt : ℕ) (a : Block) : List Block := if a.mapped then [⟨virt, false⟩] else []

/-- The walk back from behind `a` stops at or behind it: everything up to `a` starts before the
range, or `a` is the first block and starts with it. -/
def Front (virt : ℕ) (A : List Block) (a : Block) : Prop :=
  (∀ b ∈ A ++ [a], b.virt < virt) ∨ (A = [] ∧ a.virt = virt)

theorem walkBack_front (h : Front virt A a) (hB : ∀ b ∈ B, virt ≤ b.virt) (D : List Block) :
    ∃ idx, walkBack (A ++ a :: (B ++ D)) virt (A.length+1+B.length) = some idx ∧
      idx - 1 = A.length := by
  rcases h with h | ⟨rfl, ha⟩
  · have hwalk := walkBack_cut h D B hB
    have heq : A ++ [a] ++ B ++ D = A ++ a :: (B ++ D) := by simp
    rw [heq, List.length_append, List.length_singleton] at hwalk
    exact ⟨_, hwalk, Nat.add_sub_cancel _ _⟩
  · have hnone : ∀ b ∈ ([] : List Block), b.virt < virt := by simp
    have hwalk := walkBack_cut hnone D (a::B) (by
      intro b hb
      rcases List.mem_cons.mp hb with rfl | hb
      · exact ha.ge
      · exact hB b hb)
    refine ⟨0, ?_, rfl⟩
    rw [List.length_nil, Nat.zero_add, Nat.add_comm 1]
    rw [List.length_nil, Nat.zero_add, List.length_cons] at hwalk
    exact hwalk

/-- `erase_blocks_with_end_unmapped` with the blocks `B` between `a` and the end `u`. -/
theorem erase_cut (hfront : Front virt A a) (hB : ∀ b ∈ B, virt ≤ b.virt)
    (hu : u.mapped = false) :
    eraseBlocksWithEndUnmapped (A ++ a :: (B ++ u :: D)) virt (A.length+1+B.length) =
      some (A ++ a :: (gap virt a ++ D)) := by
  obtain ⟨idx, hwalk, hidx⟩ := walkBack_front hfront hB (u::D)
  have heq : A ++ [a] ++ B ++ u :: D = A ++ a :: (B ++ u :: D) := by simp
  have hend := getElem?_length (A ++ [a] ++ B) D u
  rw [heq, List.length_append] at hend
  simp only [List.length_append, List.length_singleton] at hend
  simp only [eraseBlocksWithEndUnmapped, bind, hwalk, Option.bind_some, hidx,
    getElem?_length, hend]
  have hlen : (A ++ a :: (B ++ u :: D)).length = A.length+1+B.length+1+D.length := by
    simp
    omega
  cases hm : a.mapped with
  | false =>
    have hdrain := drain_length (A ++ [a]) (B ++ [u]) D
    have heq' : A ++ [a] ++ (B ++ [u]) ++ D = A ++ a :: (B ++ u :: D) := by simp
    rw [heq'] at hdrain
    simp only [List.length_append, List.length_singleton, ← Nat.add_assoc] at hdrain
    simp only [Bool.not_false, if_true, gap, hm]
    rw [if_pos (by omega), show min (A.length+1+B.length+1) (A ++ a :: (B ++ u :: D)).length =
      A.length+1+B.length+1 by omega, hdrain]
    simp
  | true =>
    have hdrain := drain_length (A ++ [a]) B (⟨virt, u.mapped⟩ :: D)
    have hset := set_length (A ++ [a] ++ B) D u ⟨virt, u.mapped⟩
    rw [heq] at hset
    simp only [List.length_append, List.length_singleton] at hdrain hset
    simp only [Bool.not_true, Bool.false_eq_true, if_false, gap, hm, if_true, List.length_set]
    rw [hset]
    have hmin : min (A.length+1+B.length) (A ++ a :: (B ++ u :: D)).length =
        A.length+1+B.length := by omega
    rw [hmin]
    split
    · rw [hdrain, hu]
      simp
    · have hnil : B = [] := List.length_eq_zero_iff.mp (by omega)
      rw [hnil, hu]
      simp

/-- `finish_unmap` over blocks that reach the end of the range. -/
theorem finishUnmap_cut (hfront : Front virt A a)
    (hB : ∀ b ∈ B, virt ≤ b.virt ∧ b.virt < virtEnd) :
    finishUnmap (A ++ a :: (B ++ ⟨virtEnd, f⟩ :: D)) virt virtEnd (A.length+1+B.length) =
      some (A ++ a :: (gap virt a ++ ⟨virtEnd, f⟩ :: D)) := by
  obtain ⟨idx, hwalk, hidx⟩ := walkBack_front hfront (fun b hb => (hB b hb).1)
    (⟨virtEnd, f⟩ :: D)
  have heq : A ++ [a] ++ B ++ ⟨virtEnd, f⟩ :: D = A ++ a :: (B ++ ⟨virtEnd, f⟩ :: D) := by simp
  simp only [finishUnmap, bind, hwalk, Option.bind_some, hidx, getElem?_length]
  have hlen : (A ++ a :: (B ++ ⟨virtEnd, f⟩ :: D)).length = A.length+1+B.length+1+D.length := by
    simp
    omega
  have hmin : min (A.length+1+B.length) (A ++ a :: (B ++ ⟨virtEnd, f⟩ :: D)).length =
      A.length+1+B.length := by omega
  rw [hmin]
  cases B with
  | nil =>
    have hsucc : (A ++ a :: ([] ++ ⟨virtEnd, f⟩ :: D))[A.length+1]? = some ⟨virtEnd, f⟩ := by simp
    rw [hsucc]
    dsimp only
    rw [if_neg (lt_irrefl _), if_pos rfl, List.nil_append, gap]
    cases a.mapped with
    | false => rfl
    | true => exact congrArg some (insertIdx_behind A _ a _)
  | cons b B =>
    have hb := (hB b (by simp)).2
    have hsucc : (A ++ a :: (b :: B ++ ⟨virtEnd, f⟩ :: D))[A.length+1]? = some b := by simp
    rw [hsucc]
    dsimp only
    rw [if_neg (by omega), if_neg (by omega)]
    cases hm : a.mapped with
    | false =>
      have hdrain := drain_length (A ++ [a]) (b::B) (⟨virtEnd, f⟩ :: D)
      rw [heq] at hdrain
      simp only [List.length_append, List.length_singleton] at hdrain
      simp only [Bool.not_false, if_true, gap, hm, List.length_cons] at hdrain ⊢
      rw [if_pos (by omega), hdrain]
      simp
    | true =>
      have heq' : A ++ [a] ++ [b] ++ B ++ ⟨virtEnd, f⟩ :: D =
          A ++ a :: (b :: B ++ ⟨virtEnd, f⟩ :: D) := by simp
      have hdrain := drain_length (A ++ [a] ++ [b]) B (⟨virtEnd, f⟩ :: D)
      rw [heq'] at hdrain
      simp only [List.length_append, List.length_singleton] at hdrain
      have hset := set_length (A ++ [a]) (⟨virtEnd, f⟩ :: D) b ⟨virt, false⟩
      rw [List.length_append, List.length_singleton] at hset
      simp only [Bool.not_true, Bool.false_eq_true, if_false, gap, hm, if_true, List.length_cons]
      have hrest : (if A.length+1+1 < A.length+1+(B.length+1) then
          drain (A ++ a :: (b :: B ++ ⟨virtEnd, f⟩ :: D)) (A.length+1+1)
            (A.length+1+(B.length+1)) else A ++ a :: (b :: B ++ ⟨virtEnd, f⟩ :: D)) =
          A ++ [a] ++ b :: ⟨virtEnd, f⟩ :: D := by
        split
        · rw [show A.length+1+(B.length+1) = A.length+1+1+B.length by omega, hdrain]
          simp
        · have hnil : B = [] := List.length_eq_zero_iff.mp (by omega)
          rw [hnil]
          simp
      rw [hrest, hset]
      simp

/-- The blocks `C'` say behind the range, after the flag `v`, what `C` says after the flag `t`. -/
structure Continues (virtEnd : ℕ) (v t : Bool) (C C' : List Block) : Prop where
  behind : ∀ b ∈ C', virtEnd ≤ b.virt
  keys : ∀ b ∈ C', b.virt = virtEnd ∨ b ∈ C
  sorted : Sorted Block.virt C'
  eval : ∀ x, virtEnd ≤ x →
    eval Block.virt Block.mapped v C' x = eval Block.virt Block.mapped t C x
  last : last Block.mapped v C' = last Block.mapped t C

theorem continues_refl {t : Bool} (hs : Sorted Block.virt C) (hC : ∀ b ∈ C, virtEnd ≤ b.virt) :
    Continues virtEnd t t C C :=
  ⟨hC, fun _ hb => .inr hb, hs, fun _ _ => rfl, rfl⟩

theorem continues_tail {v t : Bool} {c : Block} (hs : Sorted Block.virt (c::C))
    (hC : ∀ b ∈ c::C, virtEnd ≤ b.virt) (hc : c.virt = virtEnd) (hv : c.mapped = v) :
    Continues virtEnd v t (c::C) C := by
  rw [Sorted, List.pairwise_cons] at hs
  refine ⟨fun b hb => hC b (by simp [hb]), fun b hb => .inr (by simp [hb]), hs.2, ?_, ?_⟩
  · intro x hx
    rw [Piecewise.eval, if_pos (by omega), hv]
  · rw [Piecewise.last, hv]

theorem continues_resume {v t : Bool} (hs : Sorted Block.virt C)
    (hC : ∀ b ∈ C, virtEnd ≤ b.virt) : Continues virtEnd v t C (resume virtEnd t C) := by
  cases C with
  | nil =>
    refine ⟨by simp [resume], by simp [resume], List.pairwise_singleton _ _, ?_, rfl⟩
    intro x hx
    exact if_pos hx
  | cons c C =>
    rw [resume]
    split
    · rename_i hc
      refine ⟨hC, fun b hb => .inr hb, hs, ?_, rfl⟩
      intro x hx
      rw [Piecewise.eval, Piecewise.eval, if_pos (by omega), if_pos (by omega)]
    · rename_i hc
      have hlt : ∀ b ∈ c::C, virtEnd < b.virt := by
        have hfirst : virtEnd < c.virt := by
          have := hC c (by simp)
          omega
        intro b hb
        rcases List.mem_cons.mp hb with rfl | hb
        · exact hfirst
        · exact hfirst.trans ((List.pairwise_cons.mp hs).1 b hb)
      refine ⟨?_, ?_, List.pairwise_cons.mpr ⟨hlt, hs⟩, ?_, rfl⟩
      · intro b hb
        rcases List.mem_cons.mp hb with rfl | hb
        · exact le_rfl
        · exact hC b hb
      · intro b hb
        rcases List.mem_cons.mp hb with rfl | hb
        · exact .inl rfl
        · exact .inr hb
      · intro x hx
        rw [Piecewise.eval, if_pos hx]

/-- The blocks that stand for the range after an unmap. -/
def Gap (virt : ℕ) (A M : List Block) : Prop :=
  (M = [] ∧ lastMapped A = false) ∨ M = [⟨virt, false⟩]

theorem gap_spec (A : List Block) (a : Block) : Gap virt (A ++ [a]) (gap virt a) := by
  rw [gap, Gap, lastMapped, last_snoc]
  cases a.mapped with
  | false => exact .inl ⟨rfl, rfl⟩
  | true => exact .inr rfl

/-- No two blocks next to each other are unmapped. -/
def Alternates (l : List Block) : Prop := l.IsChain fun b c => b.mapped = true ∨ c.mapped = true

/-- The blocks behind an unmapped one: the first is mapped. -/
def FollowsGap (l : List Block) : Prop := Alternates l ∧ ∀ c ∈ l.head?, c.mapped = true

theorem alternates_append {l l' : List Block} (h : Alternates (l ++ l')) : Alternates l' :=
  List.IsChain.right_of_append h

/-- Behind an unmapped block of an alternating list. -/
theorem followsGap_of_append {l l' : List Block} (h : Alternates (l ++ l'))
    (hl : l ≠ [] ∧ lastMapped l = false) : FollowsGap l' := by
  refine ⟨alternates_append h, ?_⟩
  obtain ⟨l, b, rfl⟩ : ∃ l₀ b, l = l₀ ++ [b] := by
    rcases List.eq_nil_or_concat l with h | ⟨l₀, b, h⟩
    · exact absurd h hl.1
    · exact ⟨l₀, b, by rw [h, List.concat_eq_append]⟩
  have hb := hl.2
  rw [lastMapped, last_snoc] at hb
  intro c hc
  have hbc := (List.isChain_append.mp h).2.2 b (by simp) c hc
  rw [hb] at hbc
  exact hbc.resolve_left (by simp)

/-- What `unmap_locked` does on a list cut at both ends of the range, behind the block `a`: it
clears the range, or it finds it clear and changes nothing, or it panics on a range that is the
start of the first block's. -/
theorem unmapBlocks_front (hfront : Front virt A a)
    (hB : ∀ b ∈ B, virt ≤ b.virt ∧ b.virt < virtEnd) (hC : ∀ b ∈ C, virtEnd ≤ b.virt)
    (ha : ∀ b ∈ A ++ [a], b.virt < virtEnd) (hsC : Sorted Block.virt C)
    (hends : lastMapped (A ++ a :: (B ++ C)) = false) :
    (unmapBlocks (A ++ a :: (B ++ C)) virt virtEnd = some (A ++ a :: (B ++ C)) ∧
      ∃ X p, A ++ a :: B = X ++ [p] ∧ p.mapped = false ∧ p.virt ≤ virt) ∨
    (∃ C', unmapBlocks (A ++ a :: (B ++ C)) virt virtEnd = some (A ++ a :: (gap virt a ++ C')) ∧
      Continues virtEnd false (lastMapped (A ++ a :: B)) C C' ∧
      (Alternates (A ++ a :: (B ++ C)) → FollowsGap C')) ∨
    (A = [] ∧ B = [] ∧ a.virt = virt ∧ unmapBlocks (A ++ a :: (B ++ C)) virt virtEnd = none) := by
  -- the last block `p` that starts below the end, behind the blocks `X`
  obtain ⟨X, p, hX⟩ : ∃ X p, A ++ a :: B = X ++ [p] := by
    rcases List.eq_nil_or_concat (A ++ a :: B) with h | ⟨X, p, h⟩
    · simp at h
    · exact ⟨X, p, by rw [h, List.concat_eq_append]⟩
  have hXlen : X.length = A.length+B.length := by
    have := congrArg List.length hX
    simp only [List.length_append, List.length_cons, List.length_nil] at this
    omega
  have hlist : A ++ a :: (B ++ C) = A ++ a :: B ++ C := by simp
  have hXp : ∀ b ∈ X ++ [p], b.virt < virtEnd := by
    intro b hb
    rw [← hX, show A ++ a :: B = A ++ [a] ++ B by simp] at hb
    rcases List.mem_append.mp hb with hb | hb
    · exact ha b hb
    · exact (hB b hb).2
  have hlast : lastMapped (A ++ a :: B) = p.mapped := by rw [hX, lastMapped, last_snoc]
  have hpoint := partitionPoint_cut hXp hC
  have hpred := getElem?_length X C p
  have hcut : X ++ p :: C = A ++ a :: (B ++ C) := by
    rw [hlist, hX]
    simp
  have hcut' : X ++ [p] ++ C = A ++ a :: (B ++ C) := by rw [hlist, hX]
  rw [hcut', List.length_append, List.length_singleton] at hpoint
  rw [hcut] at hpred
  rw [hlast, unmapBlocks]
  dsimp only
  rw [hpoint, if_neg (by omega), Nat.add_sub_cancel]
  simp only [bind, hpred, Option.bind_some]
  cases hp : p.mapped with
  | false =>
    simp only [Bool.not_false, if_true]
    have hfollows : Alternates (A ++ a :: (B ++ C)) → FollowsGap C := by
      intro halt
      rw [hlist] at halt
      exact followsGap_of_append halt ⟨by simp, by rw [hlast, hp]⟩
    by_cases hvirt : virt < p.virt
    · rw [if_pos hvirt]
      right
      left
      rcases List.eq_nil_or_concat B with rfl | ⟨B, q, rfl⟩
      · obtain ⟨rfl, hpa⟩ := List.append_inj' hX rfl
        cases hpa
        rcases hfront with hfront | ⟨-, ha⟩
        · have := hfront a (by simp)
          omega
        · omega
      · rw [List.concat_eq_append] at hX hB ⊢
        rw [← List.cons_append, ← List.append_assoc] at hX
        obtain ⟨_, hpq⟩ := List.append_inj' hX rfl
        cases hpq
        have herase := erase_cut (B := B) (D := C) hfront (fun b hb => (hB b (by simp [hb])).1) hp
        refine ⟨C, ?_, continues_refl hsC hC, ?_⟩
        · have heq : A ++ a :: (B ++ [p] ++ C) = A ++ a :: (B ++ p :: C) := by simp
          have hlen : X.length = A.length+1+B.length := by
            rw [hXlen, List.concat_eq_append, List.length_append, List.length_singleton]
            omega
          rw [hlen, heq, herase]
        · rw [List.concat_eq_append] at hfollows
          exact hfollows
    · rw [if_neg hvirt]
      exact .inl ⟨rfl, X, p, hX, hp, Nat.not_lt.mp hvirt⟩
  | true =>
    simp only [Bool.not_true, Bool.false_eq_true, if_false]
    right
    cases C with
    | nil =>
      rw [hlist, List.append_nil, hlast, hp] at hends
      exact absurd hends (by simp)
    | cons c C =>
      have hsucc : (A ++ a :: (B ++ c :: C))[X.length+1]? = some c := by
        have := getElem?_length (X ++ [p]) C c
        rwa [hcut', List.length_append, List.length_singleton] at this
      have hXB : X.length+1 = A.length+1+B.length := by omega
      rw [hsucc]
      dsimp only
      by_cases hc : c.virt = virtEnd ∧ (!c.mapped) = true
      · rw [if_pos hc]
        have hcm : c.mapped = false := by simpa using hc.2
        left
        refine ⟨C, ?_, continues_tail hsC hC hc.1 hcm, ?_⟩
        · rw [hXB, erase_cut hfront (fun b hb => (hB b hb).1) hcm]
        · intro halt
          rw [show A ++ a :: (B ++ c :: C) = A ++ a :: B ++ [c] ++ C by simp] at halt
          exact followsGap_of_append halt ⟨by simp, by rw [lastMapped, last_snoc, hcm]⟩
      · rw [if_neg hc]
        by_cases hend : c.virt = virtEnd
        · rw [if_neg (not_not.mpr hend)]
          have hcm : c.mapped = true := by
            cases hm : c.mapped with
            | true => rfl
            | false => exact absurd ⟨hend, by rw [hm]; rfl⟩ hc
          have hfinish := finishUnmap_cut (f := c.mapped) (D := C) hfront hB
          have hceq : (⟨virtEnd, c.mapped⟩ : Block) = c := by rw [← hend]
          rw [hceq] at hfinish
          left
          refine ⟨c::C, ?_, ?_, ?_⟩
          · rw [hXB, hfinish]
          · have hres := continues_resume (v := false) (t := true) hsC hC
            rwa [resume, if_pos hend] at hres
          · intro halt
            rw [hlist] at halt
            refine ⟨alternates_append halt, ?_⟩
            intro d hd
            cases hd
            exact hcm
        · rw [if_pos hend]
          have hcontinues := continues_resume (v := false) (t := true) hsC hC
          rw [resume, if_neg hend] at hcontinues
          have hfollows : Alternates (A ++ a :: (B ++ c :: C)) →
              FollowsGap (⟨virtEnd, true⟩ :: c :: C) := by
            intro halt
            rw [hlist] at halt
            refine ⟨List.isChain_cons_cons.mpr ⟨.inl rfl, alternates_append halt⟩, ?_⟩
            intro d hd
            cases hd
            rfl
          rcases List.eq_nil_or_concat B with rfl | ⟨B, q, rfl⟩
          · obtain ⟨rfl, hpa⟩ := List.append_inj' hX rfl
            cases hpa
            by_cases hle : virt ≤ a.virt
            · -- the first block, moved to the end of the range, is not found again
              right
              rcases hfront with hfront | ⟨rfl, ha'⟩
              · have := hfront a (by simp)
                omega
              · rw [if_pos hle]
                refine ⟨rfl, rfl, ha', ?_⟩
                have hlt : virtEnd < c.virt := by
                  have := hC c (by simp)
                  omega
                simp only [List.nil_append, List.length_nil, List.set_cons_zero, finishUnmap, bind,
                  walkBack, Option.bind_some, Nat.zero_sub, List.getElem?_cons_zero,
                  List.getElem?_cons_succ]
                rw [if_pos hlt]
            · rw [if_neg hle]
              left
              refine ⟨_, ?_, hcontinues, hfollows⟩
              rw [gap, hp, if_pos rfl]
              simp only [List.nil_append, insertIdx_behind]
              rfl
          · left
            refine ⟨_, ?_, hcontinues, hfollows⟩
            rw [List.concat_eq_append] at hX hB ⊢
            rw [← List.cons_append, ← List.append_assoc] at hX
            obtain ⟨hXA, hpq⟩ := List.append_inj' hX rfl
            cases hpq
            have hq := hB p (by simp)
            have hset := set_length X (c::C) p ⟨virtEnd, true⟩
            have heq : A ++ a :: (B ++ [p] ++ c :: C) = X ++ p :: c :: C := by
              rw [← hXA]
              simp
            have hfinish := finishUnmap_cut (f := true) (D := c::C) hfront
              (B := B) fun b hb => hB b (by simp [hb])
            have heq' : A ++ a :: B ++ ⟨virtEnd, true⟩ :: c :: C =
                A ++ a :: (B ++ ⟨virtEnd, true⟩ :: c :: C) := by simp
            have hlen : (A ++ a :: B).length = A.length+1+B.length := by
              rw [List.length_append, List.length_cons]
              omega
            rw [if_pos hq.1, heq, hset, ← hXA, heq', hlen, hfinish]

/-- `unmap_locked` on a list cut at both ends of the range. -/
theorem unmapBlocks_cut (hne : A ≠ []) (hA : ∀ b ∈ A, b.virt < virt)
    (hB : ∀ b ∈ B, virt ≤ b.virt ∧ b.virt < virtEnd) (hC : ∀ b ∈ C, virtEnd ≤ b.virt)
    (hlt : virt < virtEnd) (hsB : Sorted Block.virt B) (hsC : Sorted Block.virt C)
    (hends : lastMapped (A ++ B ++ C) = false) :
    ∃ M C', unmapBlocks (A ++ B ++ C) virt virtEnd = some (A ++ M ++ C') ∧ Gap virt A M ∧
      Continues virtEnd false (lastMapped (A ++ B)) C C' := by
  obtain ⟨A, a, rfl⟩ : ∃ A' a, A = A' ++ [a] := by
    rcases List.eq_nil_or_concat A with h | ⟨A', a, h⟩
    · exact absurd h hne
    · exact ⟨A', a, by rw [h, List.concat_eq_append]⟩
  have ha := hA a (by simp)
  have hlist : A ++ [a] ++ B ++ C = A ++ a :: (B ++ C) := by simp
  have hlist' : A ++ [a] ++ B = A ++ a :: B := by simp
  rw [hlist] at hends ⊢
  rw [hlist']
  rcases unmapBlocks_front (.inl hA) hB hC (fun b hb => (hA b hb).trans hlt) hsC hends with
    ⟨hrun, X, p, hX, hp, hle⟩ | ⟨C', hrun, hcontinues, -⟩ | ⟨-, -, hv, -⟩
  · have hlast : lastMapped (A ++ a :: B) = false := by rw [hX, lastMapped, last_snoc, hp]
    refine ⟨B, C, by rw [hrun, hlist], ?_, by rw [hlast]; exact continues_refl hsC hC⟩
    rcases List.eq_nil_or_concat B with rfl | ⟨B, q, rfl⟩
    · left
      exact ⟨rfl, hlast⟩
    · -- the range starts with its only block
      right
      rw [List.concat_eq_append] at hX hB hsB ⊢
      rw [← List.cons_append, ← List.append_assoc] at hX
      obtain ⟨_, hpq⟩ := List.append_inj' hX rfl
      cases hpq
      have hq := hB p (by simp)
      have hnil : B = [] := by
        cases B with
        | nil => rfl
        | cons b B =>
          have hb := hB b (by simp)
          have hlt := (sorted_append.mp hsB).2.2 b (by simp) p (by simp)
          omega
      have heq : p = ⟨virt, false⟩ := by
        have hv : p.virt = virt := by omega
        rw [← hv, ← hp]
      rw [hnil, heq]
      rfl
  · exact ⟨gap virt a, C', by rw [hrun]; simp, gap_spec A a, hcontinues⟩
  · omega

/-- A list that keeps the blocks before the range, has at most one at its start and continues as
before behind it. -/
theorem edit_denotes {M C' : List Block} {v : Bool} (hsorted : Sorted Block.virt (A ++ B ++ C))
    (hA : ∀ b ∈ A, b.virt < virt) (hB : ∀ b ∈ B, virt ≤ b.virt ∧ b.virt < virtEnd)
    (hC : ∀ b ∈ C, virtEnd ≤ b.virt) (hlt : virt < virtEnd)
    (hM : (M = [] ∧ lastMapped A = v) ∨ M = [⟨virt, v⟩])
    (hC' : Continues virtEnd v (lastMapped (A ++ B)) C C') :
    Sorted Block.virt (A ++ M ++ C') ∧ lastMapped (A ++ M ++ C') = lastMapped (A ++ B ++ C) ∧
      ∀ x, mappedAt (A ++ M ++ C') x =
        if virt ≤ x ∧ x < virtEnd then v else mappedAt (A ++ B ++ C) x := by
  have hMv : ∀ b ∈ M, b.virt = virt := by
    rcases hM with ⟨rfl, _⟩ | rfl
    · simp
    · simp
  have hlast : lastMapped (A ++ M) = v := by
    rcases hM with ⟨rfl, hv⟩ | rfl
    · rwa [List.append_nil]
    · rw [lastMapped, last_snoc]
  have hAB : ∀ b ∈ A ++ B, b.virt < virtEnd := by
    intro b hb
    rcases List.mem_append.mp hb with hb | hb
    · exact (hA b hb).trans hlt
    · exact (hB b hb).2
  have hAM : ∀ b ∈ A ++ M, b.virt < virtEnd := by
    intro b hb
    rcases List.mem_append.mp hb with hb | hb
    · exact (hA b hb).trans hlt
    · rw [hMv b hb]
      exact hlt
  have hsA := (sorted_append.mp (sorted_append.mp hsorted).1).1
  refine ⟨?_, ?_, ?_⟩
  · rw [sorted_append, sorted_append]
    refine ⟨⟨hsA, ?_, ?_⟩, hC'.sorted, fun b hb c hc => (hAM b hb).trans_le (hC'.behind c hc)⟩
    · rcases hM with ⟨rfl, _⟩ | rfl
      · exact List.Pairwise.nil
      · exact List.pairwise_singleton _ _
    · intro b hb c hc
      rw [hMv c hc]
      exact hA b hb
  · have h₁ := hC'.last
    rw [← hlast] at h₁
    rw [lastMapped, last_append]
    change last _ (lastMapped (A ++ M)) C' = _
    rw [h₁, lastMapped, lastMapped, ← last_append]
  · intro x
    rw [mappedAt, mappedAt,
      eval_append (fun a ha b hb => (hAM a ha).trans_le (hC'.behind b hb)),
      eval_append (fun a ha b hb => (hAB a ha).trans_le (hC b hb))]
    by_cases hx : virtEnd ≤ x
    · rw [if_neg (by omega), eval_above fun b hb => ((hAM b hb).trans_le hx).le,
        eval_above fun b hb => ((hAB b hb).trans_le hx).le]
      change eval _ _ (lastMapped (A ++ M)) C' x = _
      rw [hlast]
      exact hC'.eval x hx
    · rw [eval_below (l := C') fun b hb => (not_le.mp hx).trans_le (hC'.behind b hb),
        eval_below (l := C) fun b hb => (not_le.mp hx).trans_le (hC b hb)]
      by_cases hv : virt ≤ x
      · rw [if_pos ⟨hv, not_le.mp hx⟩, eval_above]
        · exact hlast
        · intro b hb
          rcases List.mem_append.mp hb with hb | hb
          · exact ((hA b hb).trans_le hv).le
          · rw [hMv b hb]
            exact hv
      · have hbelow := not_le.mp hv
        rw [if_neg (by omega),
          eval_append (fun a ha b hb => (hA a ha).trans_le (hMv b hb).ge),
          eval_append (fun a ha b hb => (hA a ha).trans_le (hB b hb).1),
          eval_below (l := M) fun b hb => hbelow.trans_eq (hMv b hb).symm,
          eval_below (l := B) fun b hb => hbelow.trans_le (hB b hb).1]

variable {w : ℕ} {m : FlatAddressSpaceMapBool w} {size : ℕ}

/-- The block at 0 stays in front of every range. -/
theorem wellFormed_edit {M C' : List Block} (h : WellFormed (A ++ B ++ C)) (hv : 0 < virt)
    (hB : ∀ b ∈ B, virt ≤ b.virt) (hC : ∀ b ∈ C, virt ≤ b.virt)
    (hs : Sorted Block.virt (A ++ M ++ C')) (hends : lastMapped (A ++ M ++ C') = false) :
    WellFormed (A ++ M ++ C') ∧ A ≠ [] := by
  obtain ⟨l', hl'⟩ := h.starts
  have hne : A ≠ [] := by
    rintro rfl
    have hmem : (⟨0, false⟩ : Block) ∈ [] ++ B ++ C := by
      rw [hl']
      exact List.mem_cons_self
    rcases List.mem_append.mp hmem with hb | hb
    · have := hB _ hb
      dsimp only at this
      omega
    · have := hC _ hb
      dsimp only at this
      omega
  refine ⟨⟨hs, ?_, hends⟩, hne⟩
  cases A with
  | nil => exact absurd rfl hne
  | cons a A =>
    rw [List.append_assoc, List.cons_append, List.cons_eq_cons] at hl'
    exact ⟨A ++ (M ++ C'), by rw [← hl'.1]; simp⟩

/-- A list cut at both ends of a range. -/
theorem WellFormed.cut (h : WellFormed l) (hlt : virt < virtEnd) (hv : 0 < virt) :
    ∃ A B C, l = A ++ B ++ C ∧ A ≠ [] ∧ (∀ b ∈ A, b.virt < virt) ∧
      (∀ b ∈ B, virt ≤ b.virt ∧ b.virt < virtEnd) ∧ ∀ b ∈ C, virtEnd ≤ b.virt := by
  obtain ⟨X, C, rfl, hX, hC⟩ := h.sorted.cut virtEnd
  have hsX := (sorted_append.mp h.sorted).1
  obtain ⟨A, B, rfl, hA, hB⟩ := hsX.cut virt
  refine ⟨A, B, C, rfl, ?_, hA, fun b hb => ⟨hB b hb, hX b (by simp [hb])⟩, hC⟩
  exact (wellFormed_edit h hv hB (fun b hb => hlt.le.trans (hC b hb)) h.sorted h.ends).2

/-- Where the blocks of an edited list start. -/
def Starts (virt virtEnd : ℕ) (l l' : List Block) : Prop :=
  ∀ b ∈ l', b.virt = virt ∨ b.virt = virtEnd ∨ ∃ c ∈ l, c.virt = b.virt

theorem edit_starts {M C' : List Block} {v t : Bool} (hM : ∀ b ∈ M, b.virt = virt)
    (hC' : Continues virtEnd v t C C') :
    Starts virt virtEnd (A ++ B ++ C) (A ++ M ++ C') := by
  intro b hb
  rcases List.mem_append.mp hb with hb | hb
  · rcases List.mem_append.mp hb with hb | hb
    · exact .inr (.inr ⟨b, by simp [hb], rfl⟩)
    · exact .inl (hM b hb)
  · rcases hC'.keys b hb with hb | hb
    · exact .inr (.inl hb)
    · exact .inr (.inr ⟨b, by simp [hb], rfl⟩)

theorem Gap.starts {M : List Block} (h : Gap virt A M) : ∀ b ∈ M, b.virt = virt := by
  rcases h with ⟨rfl, _⟩ | rfl
  · simp
  · simp

/-- `map_locked` sets the range, and `unmap_locked` clears it, and nothing else. -/
theorem edit_locked (h : WellFormed m.blocks) (hv : 0 < virt) (hs : 0 < size)
    (hlimit : virt+size ≤ m.vaLimit) (hwrap : virt+size < 2^w) :
    (∃ m', m.mapLocked virt size = some m' ∧ m'.vaLimit = m.vaLimit ∧ WellFormed m'.blocks ∧
      Starts virt (virt+size) m.blocks m'.blocks ∧ ∀ x, mappedAt m'.blocks x =
        if virt ≤ x ∧ x < virt+size then true else mappedAt m.blocks x) ∧
    ∃ m', m.unmapLocked virt size = some m' ∧ m'.vaLimit = m.vaLimit ∧ WellFormed m'.blocks ∧
      Starts virt (virt+size) m.blocks m'.blocks ∧ ∀ x, mappedAt m'.blocks x =
        if virt ≤ x ∧ x < virt+size then false else mappedAt m.blocks x := by
  have hlt : virt < virt+size := by omega
  have hend : wrappingAdd w virt size = virt+size := Nat.mod_eq_of_lt hwrap
  obtain ⟨A, B, C, hcut, hne, hA, hB, hC⟩ := h.cut hlt hv
  have hends := h.ends
  have hsorted := h.sorted
  rw [hcut] at hends hsorted h
  obtain ⟨hsAB, hsC, _⟩ := sorted_append.mp hsorted
  have hsB := (sorted_append.mp hsAB).2.1
  constructor
  · have hcontinues := continues_resume (v := true) (t := lastMapped (A ++ B)) hsC hC
    obtain ⟨hs', hl', hx⟩ := edit_denotes hsorted hA hB hC hlt (M := [⟨virt, true⟩]) (.inr rfl)
      hcontinues
    rw [hends] at hl'
    have hmap := mapBlocks_cut hne hA hB hC hlt hends
    rw [FlatAddressSpaceMapBool.mapLocked, hend, if_neg (by omega), hcut, hmap]
    have hstarts : Starts virt (virt+size) (A ++ B ++ C) (A ++ [⟨virt, true⟩] ++ _) :=
      edit_starts (fun b hb => by rw [List.mem_singleton.mp hb]) hcontinues
    refine ⟨_, rfl, rfl, ?_, ?_, ?_⟩
    · have hwf := (wellFormed_edit h hv (fun b hb => (hB b hb).1)
        (fun b hb => hlt.le.trans (hC b hb)) hs' hl').1
      rw [List.append_assoc] at hwf
      exact hwf
    · intro b hb
      exact hstarts b (by simpa using hb)
    · intro x
      have hx := hx x
      rw [List.append_assoc] at hx
      exact hx
  · obtain ⟨M, C', hunmap, hM, hcontinues⟩ := unmapBlocks_cut hne hA hB hC hlt hsB hsC hends
    obtain ⟨hs', hl', hx⟩ := edit_denotes hsorted hA hB hC hlt hM hcontinues
    rw [hends] at hl'
    rw [FlatAddressSpaceMapBool.unmapLocked, hend, if_neg (by omega), hcut, hunmap]
    exact ⟨_, rfl, rfl, (wellFormed_edit h hv (fun b hb => (hB b hb).1)
      (fun b hb => hlt.le.trans (hC b hb)) hs' hl').1, edit_starts hM.starts hcontinues, hx⟩

theorem new_wellFormed : WellFormed [⟨0, false⟩] :=
  ⟨List.pairwise_singleton _ _, ⟨[], rfl⟩, rfl⟩

/-- The maps reached by mapping and unmapping ranges inside the limit, not at 0. -/
inductive Reachable (w vaLimit : ℕ) : FlatAddressSpaceMapBool w → Prop
  | new : Reachable w vaLimit (.new w vaLimit)
  | map {m m' : FlatAddressSpaceMapBool w} {virt size : ℕ} : Reachable w vaLimit m → 0 < virt →
      0 < size → virt+size ≤ m.vaLimit → virt+size < 2^w → m.mapLocked virt size = some m' →
      Reachable w vaLimit m'
  | unmap {m m' : FlatAddressSpaceMapBool w} {virt size : ℕ} : Reachable w vaLimit m → 0 < virt →
      0 < size → virt+size ≤ m.vaLimit → virt+size < 2^w → m.unmapLocked virt size = some m' →
      Reachable w vaLimit m'

theorem reachable_wellFormed {vaLimit : ℕ} (h : Reachable w vaLimit m) :
    WellFormed m.blocks ∧ m.vaLimit = vaLimit := by
  induction h with
  | new => exact ⟨new_wellFormed, rfl⟩
  | map _ hv hs hlimit hwrap hmap ih =>
    obtain ⟨m', hmap', hl, hwf, _⟩ := (edit_locked ih.1 hv hs hlimit hwrap).1
    rw [hmap] at hmap'
    cases hmap'
    exact ⟨hwf, hl.trans ih.2⟩
  | unmap _ hv hs hlimit hwrap hunmap ih =>
    obtain ⟨m', hunmap', hl, hwf, _⟩ := (edit_locked ih.1 hv hs hlimit hwrap).2
    rw [hunmap] at hunmap'
    cases hunmap'
    exact ⟨hwf, hl.trans ih.2⟩

/-- In every reachable map the blocks are well formed, and a further map or unmap returns and
changes the mapping on its range alone. -/
theorem reachable_edit {vaLimit : ℕ} (h : Reachable w vaLimit m) :
    WellFormed m.blocks ∧ ∀ virt size, 0 < virt → 0 < size → virt+size ≤ vaLimit →
      virt+size < 2^w →
      (∃ m', m.mapLocked virt size = some m' ∧ WellFormed m'.blocks ∧
        ∀ x, mappedAt m'.blocks x =
          if virt ≤ x ∧ x < virt+size then true else mappedAt m.blocks x) ∧
      ∃ m', m.unmapLocked virt size = some m' ∧ WellFormed m'.blocks ∧
        ∀ x, mappedAt m'.blocks x =
          if virt ≤ x ∧ x < virt+size then false else mappedAt m.blocks x := by
  obtain ⟨hwf, hl⟩ := reachable_wellFormed h
  refine ⟨hwf, ?_⟩
  intro virt size hv hs hlimit hwrap
  rw [← hl] at hlimit
  obtain ⟨⟨m₁, h₁, _, hw₁, _, hx₁⟩, m₂, h₂, _, hw₂, _, hx₂⟩ := edit_locked hwf hv hs hlimit hwrap
  exact ⟨⟨m₁, h₁, hw₁, hx₁⟩, m₂, h₂, hw₂, hx₂⟩

/-- A hole in the middle of a mapped range. -/
theorem reachable_edit_hole : ∃ m m' : FlatAddressSpaceMapBool 32, Reachable 32 0x100000 m ∧
    m.unmapLocked 0x2000 0x1000 = some m' ∧ mappedAt m'.blocks 0x1fff = true ∧
    mappedAt m'.blocks 0x2000 = false ∧ mappedAt m'.blocks 0x3000 = true := by
  have hmap : (FlatAddressSpaceMapBool.new 32 0x100000).mapLocked 0x1000 0x3000 =
      some ⟨[⟨0, false⟩, ⟨0x1000, true⟩, ⟨0x4000, false⟩], 0x100000⟩ := by decide
  have hreach := Reachable.map .new (by decide) (by decide) (by decide) (by decide) hmap
  obtain ⟨_, hedit⟩ := reachable_edit hreach
  obtain ⟨_, m', hm', _, hx⟩ := hedit 0x2000 0x1000 (by decide) (by decide) (by decide)
    (by decide)
  refine ⟨_, m', hreach, hm', ?_, ?_, ?_⟩
  · rw [hx]
    decide
  · rw [hx]
    decide
  · rw [hx]
    decide

end Ruzu.AddressSpace
