import Ruzu.Ir.A32FlagsEdits

/-!
# Pending reads

A pending read may yet be answered by a value. What the walk has made of the
code must then behave in both forms: with the read in place, and with the flag
as a constant in its place.
-/

set_option autoImplicit false

namespace Ruzu.Ir.A32

/-- The code with the read at `r` answered by a value. -/
def answer (r : Option ℕ) (v : Value) (P : List Code) : List Code :=
  match r with
  | none => P
  | some r => P.set r (.identity, [v])

theorem drop_answer {P Q : List Code} {k : ℕ} {c : Code} {r : Option ℕ}
    (hr : ∀ x, r = some x → k < x) (hQ : Q.drop k = c :: P.drop (k+1)) (v : Value) :
    (answer r v Q).drop k = c :: (answer r v P).drop (k+1) := by
  cases r with
  | none => exact hQ
  | some x =>
    have hk := hr x rfl
    rw [answer, answer, List.drop_set, List.drop_set, if_neg (by omega), if_neg (by omega), hQ,
      show x-k = (x-(k+1))+1 by omega, List.set_cons_succ]

theorem drop_answer_self {Q rest : List Code} {k : ℕ} {c : Code} (hQ : Q.drop k = c :: rest)
    (v : Value) : (answer (some k) v Q).drop k = (.identity, [v]) :: rest := by
  rw [answer, List.drop_set, if_neg (by omega), hQ, Nat.sub_self, List.set_cons_zero]

theorem answer_comm {r r' : Option ℕ} (h : ∀ x, r = some x → r' ≠ some x) (v v' : Value)
    (P : List Code) : answer r v (answer r' v' P) = answer r' v' (answer r v P) := by
  cases r with
  | none => rfl
  | some x =>
    cases r' with
    | none => rfl
    | some x' =>
      have hne : x ≠ x' := fun hx => h x rfl (by rw [hx])
      exact List.set_comm _ _ hne.symm

theorem forall₂_set {α β : Type*} {R : α → β → Prop} {l : List α} {l' : List β}
    (h : List.Forall₂ R l l') {a : α} {b : β} (hab : R a b) (k : ℕ) :
    List.Forall₂ R (l.set k a) (l'.set k b) := by
  induction h generalizing k with
  | nil => exact .nil
  | cons hhead htail ih =>
    cases k with
    | zero => exact .cons hab htail
    | succ k => exact .cons hhead (ih k)

section Names

variable {S : Type*} {m : Machine S} {env : List Outcome}

/-- The value stands for `x` from these results on. -/
def Names (env : List Outcome) (v : Value) (x : Val) : Prop :=
  (∀ r, v = .inst r → r < env.length) ∧ (evalArg env v).value = x

theorem Names.snoc {v : Value} {x : Val} (h : Names env v x) (o : Outcome) :
    Names (env ++ [o]) v x := by
  refine ⟨fun r hr => ?_, ?_⟩
  · have := h.1 r hr
    rw [List.length_append]
    omega
  · rw [evalArg_append h.1]
    exact h.2

theorem names_last (env : List Outcome) (o : Outcome) : Names (env ++ [o]) (.inst env.length) o.value := by
  refine ⟨fun r hr => ?_, ?_⟩
  · cases hr
    simp
  · simp [evalArg, List.getD_eq_getElem?_getD]

/-- Codes that do the same behind the results. -/
def Alike (m : Machine S) (env : List Outcome) (c d : Code) : Prop :=
  Ssa.SameFrom env (step m c) (step m d)

theorem alike_answer (hm : Sensible m) {v v' : Value} {x : Val} (hv : Names env v x)
    (hv' : Names env v' x) : Alike m env (.identity, [v]) (.identity, [v']) := by
  intro vs s
  have hstep : ∀ w : Value, Names env w x →
      step m (.identity, [w]) (env++vs) s = (.plain x, s) := by
    intro w hw
    have hops : operands (env++vs) (.identity, [w]) = [evalArg env w] := by
      rw [← evalArg_append hw.1 vs]
      rfl
    rw [step, hops, hm.identity, hw.2]
  rw [hstep v hv, hstep v' hv']

theorem forall₂_answer {R : Code → Code → Prop} {P Q : List Code} (h : List.Forall₂ R P Q)
    {v v' : Value} (r : Option ℕ) (hv : r.isSome → R (.identity, [v]) (.identity, [v'])) :
    List.Forall₂ R (answer r v P) (answer r v' Q) := by
  cases r with
  | none => exact h
  | some r => exact forall₂_set h (hv rfl) r

theorem run_alike {P Q : List Code} (h : List.Forall₂ (Alike m env) P Q) (s : S) :
    Ssa.run (P.map (step m)) (env, s) = Ssa.run (Q.map (step m)) (env, s) := by
  refine Ssa.run_same ?_ s
  rw [List.forall₂_map_left_iff, List.forall₂_map_right_iff]
  exact h

theorem run_shifted {k : ℕ} {w : Outcome} {P Q : List Code}
    (h : List.Forall₂ (fun c d => Ssa.Shifts k w (step m c) (step m d)) P Q)
    (hk : k ≤ env.length) (s : S) :
    Ssa.run (Q.map (step m)) (Ssa.wedge k w env, s) =
      (Ssa.wedge k w (Ssa.run (P.map (step m)) (env, s)).1,
        (Ssa.run (P.map (step m)) (env, s)).2) := by
  refine Ssa.run_shift ?_ env s hk
  rw [List.forall₂_map_left_iff, List.forall₂_map_right_iff]
  exact h

/-- An answer that refers to the inserted result. -/
theorem shifts_answer (hm : Sensible m) {k : ℕ} {v : Value} {w : Outcome}
    (hv : ∀ env, (evalArg env v).value = w.value) :
    Ssa.Shifts k w (step m (.identity, [v])) (step m (.identity, [.inst k])) := by
  intro env s hk
  have hops : operands (Ssa.wedge k w env) (.identity, [.inst k]) = [w] :=
    congrArg (fun o => [o]) (Ssa.wedge_self hk w _)
  have hops' : operands env (.identity, [v]) = [evalArg env v] := rfl
  rw [step, step, hops, hops', hm.identity, hm.identity, hv]

end Names
end Ruzu.Ir.A32
