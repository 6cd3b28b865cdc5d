import Mathlib

/-!
# Walks along links

A walk that follows every link from a place, with no memory of where it has
been, ends just when no place that it comes to lies on a cycle.
-/

set_option autoImplicit false

namespace Ruzu.Walk
open Relation

variable {α : Type*} {ok : α → Prop} {link : α → α → Prop} {a b : α}

/-- The walk comes to an end everywhere, and every place that it comes to is in order. -/
inductive Ends (ok : α → Prop) (link : α → α → Prop) : α → Prop
  | intro (a : α) : ok a → (∀ b, link a b → Ends ok link b) → Ends ok link a

theorem Ends.in_order (h : Ends ok link a) : ok a := by
  cases h with
  | intro _ hok _ => exact hok

theorem Ends.next (h : Ends ok link a) (hb : link a b) : Ends ok link b := by
  cases h with
  | intro _ _ hlinks => exact hlinks b hb

theorem Ends.reaches (h : Ends ok link a) (hb : ReflTransGen link a b) : Ends ok link b := by
  induction hb with
  | refl => exact h
  | tail _ hlink ih => exact ih.next hlink

theorem Ends.no_cycle (h : Ends ok link a) : ¬TransGen link a a := by
  induction h with
  | intro a _ _ ih =>
    intro hcycle
    obtain ⟨b, hb, hback⟩ := TransGen.head'_iff.mp hcycle
    exact ih b hb (TransGen.tail' hback hb)

theorem ends_of_no_cycle (hfin : {a | ∃ b, link a b}.Finite)
    (h : ∀ b, ReflTransGen link a b → ok b ∧ ¬TransGen link b b) : Ends ok link a := by
  -- the places that the walk goes on from are finitely many, and ordered by how it comes to them
  let Place := {b : α // (∃ c, link b c) ∧ ReflTransGen link a b}
  let before : Place → Place → Prop := fun x y => TransGen link y.1 x.1
  have hplaces : Finite Place :=
    Set.Finite.subset hfin fun _ hb => And.left hb
  have htrans : IsTrans Place before := ⟨fun _ _ _ hxy hyz => hyz.trans hxy⟩
  have hirrefl : Std.Irrefl before := ⟨fun x => (h x.1 x.2.2).2⟩
  have hwf : WellFounded before := Finite.wellFounded_of_trans_of_irrefl before
  have hends : ∀ x : Place, Ends ok link x.1 := fun x => by
    induction x using hwf.induction with
    | h x ih =>
      refine .intro x.1 (h x.1 x.2.2).1 fun b hb => ?_
      have hreach := x.2.2.tail hb
      by_cases hnext : ∃ c, link b c
      · exact ih ⟨b, hnext, hreach⟩ (.single hb)
      · exact .intro b (h b hreach).1 fun c hc => absurd ⟨c, hc⟩ hnext
  by_cases hnext : ∃ c, link a c
  · exact hends ⟨a, hnext, .refl⟩
  · exact .intro a (h a .refl).1 fun c hc => absurd ⟨c, hc⟩ hnext

theorem ends_iff (hfin : {a | ∃ b, link a b}.Finite) :
    Ends ok link a ↔ ∀ b, ReflTransGen link a b → ok b ∧ ¬TransGen link b b :=
  ⟨fun h _ hb => ⟨(h.reaches hb).in_order, (h.reaches hb).no_cycle⟩, ends_of_no_cycle hfin⟩

/-! ### Walks with fuel -/

/-- `walk n` gets along with fuel `n`: it looks at a place and spends one on each link. -/
structure Fuelled (good : ℕ → α → Prop) (link : α → α → Prop) (walk : ℕ → α → Prop) : Prop where
  zero : ∀ a, walk 0 a → good 0 a ∧ ∀ b, ¬link a b
  succ : ∀ n a, walk (n + 1) a ↔ good n a ∧ ∀ b, link a b → walk n b
  good_succ : ∀ n a, good n a → good (n + 1) a
  branching : ∀ a, {b | link a b}.Finite

variable {good walk : ℕ → α → Prop} {m n : ℕ}

theorem Fuelled.walk_succ (h : Fuelled good link walk) (ha : walk n a) : walk (n + 1) a := by
  induction n generalizing a with
  | zero => exact (h.succ 0 a).mpr ⟨(h.zero a ha).1, fun b hb => absurd hb ((h.zero a ha).2 b)⟩
  | succ n ih =>
    obtain ⟨hgood, hlinks⟩ := (h.succ n a).mp ha
    exact (h.succ (n + 1) a).mpr ⟨h.good_succ n a hgood, fun b hb => ih (hlinks b hb)⟩

theorem Fuelled.walk_le (h : Fuelled good link walk) (hmn : m ≤ n) (ha : walk m a) : walk n a := by
  induction n, hmn using Nat.le_induction with
  | base => exact ha
  | succ n _ ih => exact h.walk_succ ih

theorem Fuelled.good_le (h : Fuelled good link walk) (hmn : m ≤ n) (ha : good m a) : good n a := by
  induction n, hmn using Nat.le_induction with
  | base => exact ha
  | succ n _ ih => exact h.good_succ n a ih

/-- Some fuel is enough just when the walk comes to an end. -/
theorem Fuelled.exists_iff (h : Fuelled good link walk) :
    (∃ n, walk n a) ↔ Ends (fun a => ∃ n, good n a) link a := by
  constructor
  · rintro ⟨n, ha⟩
    induction n generalizing a with
    | zero =>
      obtain ⟨hgood, hnone⟩ := h.zero a ha
      exact .intro a ⟨0, hgood⟩ fun b hb => absurd hb (hnone b)
    | succ n ih =>
      obtain ⟨hgood, hlinks⟩ := (h.succ n a).mp ha
      exact .intro a ⟨n, hgood⟩ fun b hb => ih (hlinks b hb)
  · intro hends
    induction hends with
    | intro a hgood _ ih =>
      obtain ⟨k, hk⟩ := hgood
      choose! fuel hfuel using ih
      obtain ⟨m, hm⟩ := ((h.branching a).image fuel).bddAbove
      refine ⟨max k m + 1, (h.succ _ a).mpr ⟨h.good_le (Nat.le_max_left k m) hk, fun b hb => ?_⟩⟩
      have hle : fuel b ≤ m := hm (Set.mem_image_of_mem fuel hb)
      exact h.walk_le (hle.trans (Nat.le_max_right k m)) (hfuel b hb)

end Ruzu.Walk
