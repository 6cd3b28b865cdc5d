import Ruzu.Ir.A32FlagsPass

/-!
# Instructions in states that differ in dead flags

A set forgets the flags that it overwrites, a removed set leaves them
different, and every other instruction that the pass lets through keeps two
states alike.
-/

set_option autoImplicit false

namespace Ruzu.Ir.A32

variable {E : Type*}

/-- The states agree outside the flags of `D`. -/
def Agree (D : Flag → Bool) (s t : Guest E) : Prop :=
  s.rest = t.rest ∧ ∀ l, D l = false → s.cells l = t.cells l

def allFlags : List Flag := [.n, .z, .c, .v, .q, .ge]

theorem mem_allFlags (l : Flag) : l ∈ allFlags := by
  cases l <;> decide

theorem agree_iff_apart {D : Flag → Bool} {s t : Guest E} :
    Agree D s t ↔ Views.Apart (allFlags.filter D) s t := by
  have hmem : ∀ l, l ∉ allFlags.filter D ↔ D l = false := fun l => by
    simp [mem_allFlags]
  exact and_congr_right fun _ => forall_congr' fun l => by rw [hmem]

namespace Agree

variable {D D' : Flag → Bool} {s t : Guest E}

theorem refl (D : Flag → Bool) (s : Guest E) : Agree D s s := ⟨rfl, fun _ _ => rfl⟩

theorem mono (h : Agree D s t) (hD : ∀ l, D l = true → D' l = true) : Agree D' s t := by
  refine ⟨h.1, fun l hl => h.2 l ?_⟩
  cases hDl : D l with
  | false => rfl
  | true =>
    rw [hD l hDl] at hl
    cases hl

theorem eq (h : Agree D s t) (hD : ∀ l, D l = false) : s = t := by
  obtain ⟨cells, rest⟩ := s
  obtain ⟨hrest, hcells⟩ := h
  simp only at hrest
  subst hrest
  congr
  exact funext fun l => hcells l (hD l)

variable {op op' : Opcode} {x x' y y' : Val}

/-- A set that is kept, or narrowed to the flags that still matter. -/
theorem overwrite (h : Agree D s t)
    (hD : ∀ l, D' l = false → (l ∈ overwrites op ∨ l ∈ overwrites op' → l ∈ overwrites op ∧
      l ∈ overwrites op' ∧ stored op x y l = stored op' x' y' l) ∧
      (l ∉ overwrites op → D l = false)) :
    Agree D' (A32.overwrite op x y s) (A32.overwrite op' x' y' t) := by
  refine ⟨h.1, fun l hl => ?_⟩
  obtain ⟨hboth, hkept⟩ := hD l hl
  simp only [A32.overwrite]
  by_cases hop : l ∈ overwrites op
  · obtain ⟨-, hop', heq⟩ := hboth (Or.inl hop)
    rw [if_pos hop, if_pos hop', heq]
  · have hop' : l ∉ overwrites op' := fun hop' => hop (hboth (Or.inr hop')).1
    rw [if_neg hop, if_neg hop']
    exact h.2 l (hkept hop)

/-- A set that is removed. -/
theorem drop (h : Agree D s t) (hop : ∀ l ∈ overwrites op, D' l = true)
    (hD : ∀ l, D l = true → D' l = true) : Agree D' (A32.overwrite op x y s) t := by
  obtain ⟨hrest, hcells⟩ := h.mono hD
  refine ⟨hrest, fun l hl => ?_⟩
  simp only [A32.overwrite]
  rw [if_neg fun hmem => by rw [hop l hmem] at hl; cases hl]
  exact hcells l hl

end Agree

variable {other : Machine (Guest E)} {c : Code}

theorem step_overwrite (h : overwrites c.1 ≠ []) (env : List Outcome) (s : Guest E) :
    step (flagExec other) c env s =
      (.plain .void, overwrite c.1 ((operands env c).getD 0 (.plain .void)).value
        ((operands env c).getD 1 (.plain .void)).value s) := by
  obtain ⟨op, args⟩ := c
  cases op <;> first
    | exact absurd rfl h
    | rfl

theorem overwrites_args (h : overwrites c.1 ≠ []) : 0 < c.1.numArgs := by
  obtain ⟨op, args⟩ := c
  cases op <;> first
    | exact absurd rfl h
    | exact Nat.zero_lt_succ _

theorem step_other (h : followed c.1 = false) (env : List Outcome) (s : Guest E) :
    step (flagExec other) c env s = other c.1 (operands env c) s := by
  obtain ⟨op, args⟩ := c
  cases op <;> first
    | rfl
    | cases h

/-- The opcodes that the pass passes over. -/
def inert (op : Opcode) : Bool := op = .void || op = .identity || op = .getCFlagFromNZCV

theorem step_inert (h : inert c.1 = true) (env : List Outcome) (s t : Guest E) :
    (step (flagExec other) c env s).1 = (step (flagExec other) c env t).1 ∧
      (step (flagExec other) c env s).2 = s := by
  obtain ⟨op, args⟩ := c
  cases op <;> first
    | exact ⟨rfl, rfl⟩
    | cases h

section Respects

variable (hr : flagViews.Respects other)
include hr

theorem sensible_flagExec : Sensible (flagExec other) where
  void _ _ := rfl
  identity _ _ := rfl
  typed op args s hid := by
    by_cases hf : followed op = true
    · cases op <;> first
        | exact absurd rfl hid
        | exact Or.inr (Or.inr rfl)
        | cases hf
    · have hstep : flagExec other op args s = other op args s := by
        cases op <;> first
          | exact absurd rfl hf
          | rfl
      rw [hstep]
      exact hr.typed op args s

/-- An instruction that the pass lets through and that touches no flag. -/
theorem blind_of_unflagged (hf : followed c.1 = false)
    (hno : (c.1.readsCpsr || c.1.writesCpsr) = false) (D : Flag → Bool) :
    Ssa.Blind (Agree D) (step (flagExec other) c) := by
  intro env s t h
  rw [step_other hf, step_other hf]
  obtain ⟨hval, hrel⟩ := hr.apart hf (fun _ _ => hno) (operands env c) (agree_iff_apart.1 h)
  exact ⟨hval, agree_iff_apart.2 hrel⟩

theorem step_cells_unflagged (hf : followed c.1 = false)
    (hno : (c.1.readsCpsr || c.1.writesCpsr) = false) (env : List Outcome) (s : Guest E)
    (l : Flag) : (step (flagExec other) c env s).2.cells l = s.cells l := by
  rw [step_other hf]
  exact hr.cells hf hno _ s

end Respects

theorem blind_inert (h : inert c.1 = true) (D : Flag → Bool) :
    Ssa.Blind (Agree D) (step (flagExec other) c) := by
  intro env s t hst
  rw [(step_inert h env s t).2, (step_inert h env t s).2]
  exact ⟨(step_inert h env s t).1, hst⟩

theorem orQ_cells (v : Bool) (s : Guest E) {l : Flag} (hl : l ≠ .q) :
    (orQ v s).cells l = s.cells l := by
  cases l <;> first
    | rfl
    | exact absurd rfl hl

theorem step_orQ (h : c.1 = .a32OrQFlag) (env : List Outcome) (s : Guest E) :
    step (flagExec other) c env s =
      (.plain .void, orQ (truth ((operands env c).getD 0 (.plain .void)).value) s) := by
  obtain ⟨op, args⟩ := c
  simp only at h
  subst h
  rfl

theorem blind_orQ (h : c.1 = .a32OrQFlag) (D : Flag → Bool) :
    Ssa.Blind (Agree D) (step (flagExec other) c) := by
  intro env s t hst
  rw [step_orQ h, step_orQ h]
  refine ⟨rfl, hst.1, fun l hl => ?_⟩
  by_cases hq : l = .q
  · subst hq
    exact congrArg (fun q : Bool => or q _) (hst.2 .q hl)
  · rw [orQ_cells _ _ hq, orQ_cells _ _ hq]
    exact hst.2 l hl

theorem step_orQ_cells (h : c.1 = .a32OrQFlag) (env : List Outcome) (s : Guest E) {l : Flag}
    (hl : l ≠ .q) : (step (flagExec other) c env s).2.cells l = s.cells l := by
  rw [step_orQ h]
  exact orQ_cells _ _ hl

theorem step_overwrite_cells (h : overwrites c.1 ≠ []) (env : List Outcome) (s : Guest E)
    {l : Flag} (hl : l ∉ overwrites c.1) :
    (step (flagExec other) c env s).2.cells l = s.cells l := by
  rw [step_overwrite h]
  simp only [overwrite, if_neg hl]

theorem step_getCFlag (h : c.1 = .a32GetCFlag) (env : List Outcome) (s : Guest E) :
    step (flagExec other) c env s = (.plain (.u1 (s.cells .c)), s) := by
  obtain ⟨op, args⟩ := c
  simp only at h
  subst h
  rfl

theorem step_getGEFlags (h : c.1 = .a32GetGEFlags) (env : List Outcome) (s : Guest E) :
    step (flagExec other) c env s = (.plain (.u32 (s.cells .ge)), s) := by
  obtain ⟨op, args⟩ := c
  simp only at h
  subst h
  rfl

theorem step_flag_identity (v : Value) (env : List Outcome) (s : Guest E) :
    step (flagExec other) (.identity, [v]) env s = (.plain (evalArg env v).value, s) := rfl

end Ruzu.Ir.A32
