import Mathlib

/-!
# Runs of a partial step function

A step takes an action, may be refused and reports an event. A run carries the
events reported so far, oldest first; all its actions satisfy a condition on
the state they are taken in. An invariant may speak of the events as well as
of the state.
-/

set_option autoImplicit false

namespace Ruzu.Transition

variable {σ α ε : Type*} (step : σ → α → Option (σ × ε)) (ok : σ → α → Prop)

inductive Run (s₀ : σ) : List ε → σ → Prop
  | start : Run s₀ [] s₀
  | step {es : List ε} {s s' : σ} {a : α} {e : ε} (run : Run s₀ es s) (allowed : ok s a)
      (taken : step s a = some (s', e)) : Run s₀ (es ++ [e]) s'

/-- The actions of a list one after another, each of them allowed. -/
def exec [∀ s a, Decidable (ok s a)] (s : σ) : List α → Option (List ε × σ)
  | [] => some ([], s)
  | a::as =>
    if ok s a then
      (step s a).bind fun r => (exec r.1 as).map fun q => (r.2 :: q.1, q.2)
    else none

variable {step ok}

theorem Run.invariant {s₀ : σ} (P : List ε → σ → Prop) (first : P [] s₀)
    (next : ∀ es s a s' e, P es s → ok s a → step s a = some (s', e) → P (es ++ [e]) s')
    {es : List ε} {s : σ} (run : Run step ok s₀ es s) : P es s := by
  induction run with
  | start => exact first
  | step _ allowed taken ih => exact next _ _ _ _ _ ih allowed taken

theorem Run.mono {ok' : σ → α → Prop} (weaker : ∀ s a, ok s a → ok' s a) {s₀ s : σ}
    {es : List ε} (run : Run step ok s₀ es s) : Run step ok' s₀ es s := by
  induction run with
  | start => exact .start
  | step _ allowed taken ih => exact .step ih (weaker _ _ allowed) taken

theorem Run.cons {s₀ s₁ s : σ} {a : α} {e : ε} {es : List ε} (allowed : ok s₀ a)
    (taken : step s₀ a = some (s₁, e)) (run : Run step ok s₁ es s) :
    Run step ok s₀ (e :: es) s := by
  induction run with
  | start => exact Run.step .start allowed taken
  | step _ allowed' taken' ih => exact ih.step allowed' taken'

theorem exec_run [∀ s a, Decidable (ok s a)] {s₀ s : σ} {as : List α} {es : List ε}
    (h : exec step ok s₀ as = some (es, s)) : Run step ok s₀ es s := by
  induction as generalizing s₀ es with
  | nil =>
    obtain ⟨rfl, rfl⟩ := Prod.mk.inj (Option.some.inj h)
    exact .start
  | cons a as ih =>
    rw [exec] at h
    split at h
    case isTrue allowed =>
      obtain ⟨⟨s₁, e⟩, taken, h⟩ := Option.bind_eq_some_iff.mp h
      obtain ⟨⟨es', s'⟩, rest, h⟩ := Option.map_eq_some_iff.mp h
      obtain ⟨rfl, rfl⟩ := Prod.mk.inj h
      exact Run.cons allowed taken (ih rest)
    case isFalse => cases h

theorem exec_events [∀ s a, Decidable (ok s a)] {s₀ : σ} (as : List α) {es : List ε}
    (h : (exec step ok s₀ as).map Prod.fst = some es) : ∃ s, Run step ok s₀ es s := by
  obtain ⟨⟨es', s⟩, hexec, rfl⟩ := Option.map_eq_some_iff.mp h
  exact ⟨s, exec_run hexec⟩

end Ruzu.Transition
