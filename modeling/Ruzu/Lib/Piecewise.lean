import Mathlib

/-!
# Piecewise constant functions

A list of breakpoints in increasing order of their keys stands for the function
that has, at `x`, the value of the last breakpoint not above `x`.
-/

set_option autoImplicit false

namespace Ruzu.Piecewise

variable {β κ ν : Type} [LinearOrder κ] (key : β → κ) (val : β → ν)

def Sorted (l : List β) : Prop := l.Pairwise fun a b => key a < key b

/-- The value at `x`, with `d` below every breakpoint. -/
def eval : ν → List β → κ → ν
  | d, [], _ => d
  | d, b::l, x => if key b ≤ x then eval (val b) l x else d

/-- The value above every breakpoint. -/
def last : ν → List β → ν
  | d, [] => d
  | _, b::l => last (val b) l

variable {key val} {d : ν} {l l' : List β} {x : κ}

theorem last_append (d : ν) (l l' : List β) :
    last val d (l ++ l') = last val (last val d l) l' := by
  induction l generalizing d with
  | nil => rfl
  | cons b l ih => exact ih (val b)

theorem last_snoc (d : ν) (l : List β) (b : β) : last val d (l ++ [b]) = val b := by
  rw [last_append]
  rfl

theorem eval_below (h : ∀ b ∈ l, x < key b) : eval key val d l x = d := by
  cases l with
  | nil => rfl
  | cons b l => exact if_neg (not_le.mpr (h b (by simp)))

theorem eval_above (h : ∀ b ∈ l, key b ≤ x) : eval key val d l x = last val d l := by
  induction l generalizing d with
  | nil => rfl
  | cons b l ih =>
    rw [eval, if_pos (h b (by simp))]
    exact ih fun c hc => h c (by simp [hc])

theorem sorted_append :
    Sorted key (l ++ l') ↔ Sorted key l ∧ Sorted key l' ∧ ∀ a ∈ l, ∀ b ∈ l', key a < key b :=
  List.pairwise_append

theorem eval_append (h : ∀ a ∈ l, ∀ b ∈ l', key a < key b) (d : ν) (x : κ) :
    eval key val d (l ++ l') x = eval key val (eval key val d l x) l' x := by
  induction l generalizing d with
  | nil => rfl
  | cons a l ih =>
    rw [List.cons_append, eval, eval]
    by_cases hx : key a ≤ x
    · rw [if_pos hx, if_pos hx]
      exact ih (fun c hc => h c (by simp [hc])) _
    · rw [if_neg hx, if_neg hx]
      rw [eval_below]
      intro b hb
      exact (not_le.mp hx).trans (h a (by simp) b hb)

/-- A sorted list is cut where its keys reach `k`. -/
theorem Sorted.cut (h : Sorted key l) (k : κ) :
    ∃ A D, l = A ++ D ∧ (∀ a ∈ A, key a < k) ∧ ∀ b ∈ D, k ≤ key b := by
  induction l with
  | nil => exact ⟨[], [], rfl, by simp, by simp⟩
  | cons b l ih =>
    rw [Sorted, List.pairwise_cons] at h
    by_cases hb : key b < k
    · obtain ⟨A, D, rfl, hA, hD⟩ := ih h.2
      refine ⟨b::A, D, rfl, ?_, hD⟩
      intro a ha
      rcases List.mem_cons.mp ha with rfl | ha
      · exact hb
      · exact hA a ha
    · refine ⟨[], b::l, rfl, by simp, ?_⟩
      intro a ha
      rcases List.mem_cons.mp ha with rfl | ha
      · exact not_lt.mp hb
      · exact (not_lt.mp hb).trans (h.1 a ha).le

/-- The number of breakpoints below a key. -/
theorem takeWhile_below {k : κ} (hl : ∀ a ∈ l, key a < k) (hl' : ∀ b ∈ l', k ≤ key b) :
    ((l ++ l').takeWhile fun b => key b < k) = l := by
  rw [List.takeWhile_append_of_pos (by simpa using hl)]
  cases l' with
  | nil => simp
  | cons b l' =>
    have := hl' b (by simp)
    rw [List.takeWhile_cons_of_neg (by simpa using this), List.append_nil]

end Ruzu.Piecewise
