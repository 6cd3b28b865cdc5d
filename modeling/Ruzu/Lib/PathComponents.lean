import Mathlib

/-!
# Components of a path

A path is split at a separator. Empty components and the one that names the
current directory stand for nothing, and the one that names the parent cancels
the name before it.
-/

set_option autoImplicit false

namespace Ruzu.PathComponents

variable {α : Type} [DecidableEq α] (sep dot : α)

/-- A component that stands for an entry of a directory. -/
def IsName (c : List α) : Prop := c ≠ [] ∧ c ≠ [dot] ∧ c ≠ [dot, dot]

instance (c : List α) : Decidable (IsName dot c) := inferInstanceAs (Decidable (_ ∧ _ ∧ _))

/-- A separator in front of each component. -/
def join (cs : List (List α)) : List α := cs.flatMap (sep :: ·)

/-- The names left after each parent has cancelled the name before it, if there is one. -/
def resolve (names : List (List α)) : List (List α) → Option (List (List α))
  | [] => some names
  | c :: cs =>
    if c = [] ∨ c = [dot] then resolve names cs
    else if c = [dot, dot] then if names = [] then none else resolve names.dropLast cs
    else resolve (names ++ [c]) cs

/-- Some first components have more parents than names. -/
def Climbs (cs : List (List α)) : Prop :=
  ∃ k, (cs.take k).countP (fun c => IsName dot c) < (cs.take k).count [dot, dot]

variable {sep dot} {c v t : List α} {names cs : List (List α)}

/-! ### Resolving -/

theorem resolve_skip (h : c = [] ∨ c = [dot]) :
    resolve dot names (c :: cs) = resolve dot names cs := if_pos h

theorem resolve_parent :
    resolve dot names ([dot, dot] :: cs) =
      if names = [] then none else resolve dot names.dropLast cs := by
  rw [resolve, if_neg (by simp), if_pos rfl]

theorem resolve_name (h : IsName dot c) :
    resolve dot names (c :: cs) = resolve dot (names ++ [c]) cs := by
  rw [resolve, if_neg (not_or.mpr ⟨h.1, h.2.1⟩), if_neg h.2.2]

/-- What a component can be. -/
theorem component_cases (dot : α) (c : List α) :
    (c = [] ∨ c = [dot]) ∨ c = [dot, dot] ∨ IsName dot c := by
  by_cases h₁ : c = [] ∨ c = [dot]
  · exact .inl h₁
  · by_cases h₂ : c = [dot, dot]
    · exact .inr (.inl h₂)
    · exact .inr (.inr ⟨fun h => h₁ (.inl h), fun h => h₁ (.inr h), h₂⟩)

theorem resolve_congr {cs' : List (List α)}
    (h : ∀ names, resolve dot names cs = resolve dot names cs') :
    resolve dot names (c :: cs) = resolve dot names (c :: cs') := by
  rw [resolve, resolve]
  simp only [h]

/-- Component after component. -/
theorem resolve_cons :
    resolve dot names (c :: cs) = (resolve dot names [c]).bind fun names => resolve dot names cs := by
  rcases component_cases dot c with hskip | rfl | hname
  · rw [resolve_skip hskip, resolve_skip hskip]
    rfl
  · rw [resolve_parent, resolve_parent]
    split <;> rfl
  · rw [resolve_name hname, resolve_name hname]
    rfl

theorem resolve_names (h : ∀ c ∈ cs, IsName dot c) :
    resolve dot names cs = some (names ++ cs) := by
  induction cs generalizing names with
  | nil => rw [resolve, List.append_nil]
  | cons c cs ih =>
    rw [resolve_name (h c List.mem_cons_self), ih fun d hd => h d (List.mem_cons_of_mem c hd),
      List.append_assoc]
    rfl

/-- Only names are left, all of them components. -/
theorem mem_resolve {out : List (List α)} (h : resolve dot names cs = some out) :
    ∀ c ∈ out, c ∈ names ∨ (c ∈ cs ∧ IsName dot c) := by
  induction cs generalizing names with
  | nil =>
    obtain rfl := Option.some.inj h
    exact fun c hc => .inl hc
  | cons d cs ih =>
    intro c hc
    have hcons : c ∈ cs ∧ IsName dot c → c ∈ d :: cs ∧ IsName dot c :=
      fun hmem => ⟨List.mem_cons_of_mem d hmem.1, hmem.2⟩
    rcases component_cases dot d with hskip | rfl | hname
    · rw [resolve_skip hskip] at h
      exact (ih h c hc).imp_right hcons
    · rw [resolve_parent] at h
      split at h
      case isTrue => cases h
      case isFalse => exact (ih h c hc).imp (fun hold => (List.dropLast_sublist names).subset hold) hcons
    · rw [resolve_name hname] at h
      rcases ih h c hc with hold | hnew
      · rcases List.mem_append.mp hold with hold | hlast
        · exact .inl hold
        · obtain rfl := List.mem_singleton.mp hlast
          exact .inr ⟨List.mem_cons_self, hname⟩
      · exact .inr (hcons hnew)

theorem resolve_eq_none : resolve dot names cs = none ↔ ∃ k,
    names.length + (cs.take k).countP (fun c => IsName dot c) < (cs.take k).count [dot, dot] := by
  induction cs generalizing names with
  | nil =>
    rw [resolve]
    constructor
    · nofun
    · rintro ⟨k, hk⟩
      rw [List.take_nil] at hk
      exact absurd hk (Nat.not_lt_zero _)
  | cons c cs ih =>
    -- the first component counts towards every nonempty front part
    have hsplit : (∃ k, names.length + ((c :: cs).take k).countP (fun c => IsName dot c) <
        ((c :: cs).take k).count [dot, dot]) ↔
        ∃ k, names.length + (c :: cs.take k).countP (fun c => IsName dot c) <
          (c :: cs.take k).count [dot, dot] := by
      constructor
      · rintro ⟨k, hk⟩
        cases k with
        | zero => exact absurd hk (Nat.not_lt_zero _)
        | succ k => exact ⟨k, hk⟩
      · rintro ⟨k, hk⟩
        exact ⟨k + 1, hk⟩
    rw [hsplit]
    rcases component_cases dot c with hskip | rfl | hname
    · have hnot : ¬ IsName dot c := fun h => hskip.elim h.1 h.2.1
      have hne : ¬ c = [dot, dot] := by
        rcases hskip with rfl | rfl <;> simp
      rw [resolve_skip hskip, ih]
      simp only [List.countP_cons, List.count_cons, hnot, hne, decide_false, beq_iff_eq, if_false,
        Bool.false_eq_true, Nat.add_zero]
    · have hnot : ¬ IsName dot [dot, dot] := fun h => h.2.2 rfl
      rw [resolve_parent]
      simp only [List.countP_cons, List.count_cons, hnot, decide_false, beq_self_eq_true, if_true,
        if_false, Bool.false_eq_true, Nat.add_zero]
      split
      case isTrue hnil =>
        subst hnil
        exact iff_of_true rfl ⟨0, by simp⟩
      case isFalse hne =>
        rw [ih, List.length_dropLast]
        have hpos := List.length_pos_iff.mpr hne
        refine exists_congr fun k => ?_
        omega
    · have hne : ¬ c = [dot, dot] := hname.2.2
      rw [resolve_name hname, ih, List.length_append, List.length_singleton]
      simp only [List.countP_cons, List.count_cons, hname, hne, decide_true, beq_iff_eq, if_true,
        if_false, Nat.add_zero]
      refine exists_congr fun k => ?_
      omega

theorem resolve_eq_none_iff : resolve dot [] cs = none ↔ Climbs dot cs := by
  rw [resolve_eq_none, Climbs]
  simp only [List.length_nil, Nat.zero_add]

/-! ### Splitting and joining -/

/-- The first component. -/
theorem splitOn_first (hc : sep ∉ c) : (c ++ sep :: t).splitOn sep = c :: t.splitOn sep := by
  rw [List.splitOn_append_cons_self, List.splitOn_eq_singleton hc]
  rfl

theorem splitOn_sep : (sep :: t).splitOn sep = [] :: t.splitOn sep := by
  rw [← List.nil_append (sep :: t), splitOn_first List.not_mem_nil]

/-- A path is a first component and, behind it, nothing or a path with a separator in front. -/
theorem resolve_first (hc : sep ∉ c) (hv : v = [] ∨ ∃ t, v = sep :: t) :
    resolve dot names ((c ++ v).splitOn sep) = resolve dot names (c :: v.splitOn sep) := by
  rcases hv with rfl | ⟨t, rfl⟩
  · rw [List.append_nil, List.splitOn_eq_singleton hc, List.splitOn_nil]
    exact resolve_congr fun _ => (resolve_skip (.inl rfl)).symm
  · rw [splitOn_first hc, splitOn_sep]
    exact resolve_congr fun _ => (resolve_skip (.inl rfl)).symm

omit [DecidableEq α] in
theorem join_append (cs cs' : List (List α)) : join sep (cs ++ cs') = join sep cs ++ join sep cs' :=
  List.flatMap_append

omit [DecidableEq α] in
theorem join_concat (cs : List (List α)) (c : List α) :
    join sep (cs ++ [c]) = join sep cs ++ sep :: c := by
  rw [join_append]
  simp [join]

theorem splitOn_join (h : ∀ d ∈ c :: cs, sep ∉ d) : (c ++ join sep cs).splitOn sep = c :: cs := by
  induction cs generalizing c with
  | nil =>
    rw [join, List.flatMap_nil, List.append_nil,
      List.splitOn_eq_singleton (h c List.mem_cons_self)]
  | cons d cs ih =>
    rw [show join sep (d :: cs) = sep :: (d ++ join sep cs) from rfl,
      splitOn_first (h c List.mem_cons_self), ih fun e he => h e (List.mem_cons_of_mem c he)]

/-- Every list has a first component. -/
theorem exists_first (sep : α) (t : List α) :
    ∃ c v, t = c ++ v ∧ sep ∉ c ∧ (v = [] ∨ ∃ t', v = sep :: t') := by
  induction t with
  | nil => exact ⟨[], [], rfl, List.not_mem_nil, .inl rfl⟩
  | cons a t ih =>
    by_cases ha : a = sep
    · exact ⟨[], a :: t, rfl, List.not_mem_nil, .inr ⟨t, by rw [ha]⟩⟩
    · obtain ⟨c, v, rfl, hc, hv⟩ := ih
      refine ⟨a :: c, v, rfl, fun hmem => ?_, hv⟩
      rcases List.mem_cons.mp hmem with heq | hmem
      · exact ha heq.symm
      · exact hc hmem

theorem not_mem_splitOn (t : List α) : ∀ c ∈ t.splitOn sep, sep ∉ c := by
  induction hn : t.length using Nat.strongRecOn generalizing t with
  | ind n ih =>
    obtain ⟨c, v, rfl, hc, rfl | ⟨t', rfl⟩⟩ := exists_first sep t
    · rw [List.append_nil, List.splitOn_eq_singleton hc]
      intro d hd
      rwa [List.mem_singleton.mp hd]
    · rw [splitOn_first hc]
      intro d hd
      rcases List.mem_cons.mp hd with rfl | hd
      · exact hc
      · exact ih t'.length (by rw [← hn]; simp; omega) t' rfl d hd

theorem join_splitOn (t : List α) : join sep (t.splitOn sep) = sep :: t := by
  induction hn : t.length using Nat.strongRecOn generalizing t with
  | ind n ih =>
    obtain ⟨c, v, rfl, hc, rfl | ⟨t', rfl⟩⟩ := exists_first sep t
    · rw [List.append_nil, List.splitOn_eq_singleton hc]
      simp [join]
    · rw [splitOn_first hc, show join sep (c :: t'.splitOn sep) =
        sep :: c ++ join sep (t'.splitOn sep) from rfl,
        ih t'.length (by rw [← hn]; simp; omega) t' rfl]
      rfl

end Ruzu.PathComponents
