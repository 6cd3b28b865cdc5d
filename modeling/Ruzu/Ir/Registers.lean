import Ruzu.Ir.Run

/-!
# Guest registers behind views

A get or a set names a view of the guest registers: some registers, and how
their contents make one value. The views of a guest are a parameter. Every
other opcode may touch the registers that it is flagged for.
-/

set_option autoImplicit false

namespace Ruzu.Ir

/-- Registers `L` with contents `C`, seen through views `W`. -/
structure Views (L : Type) (C : L → Type) (W : Type) where
  /-- The get and set opcodes. -/
  accesses : Opcode → Bool
  /-- Whether it is a set, and the view, from the opcode and its first operand. -/
  view : Opcode → Value → Option (Bool × W)
  covers : W → List L
  /-- Whether an elimination follows the view. -/
  tracked : W → Bool
  ty : W → Ty
  /-- What a get returns. -/
  readAs : W → ((l : L) → C l) → Val
  /-- What a set stores. -/
  written : W → Val → (l : L) → C l
  /-- The position of the stored value. -/
  valueArg : W → ℕ
  /-- Whether an opcode outside the get and set opcodes touches the register. -/
  flagged : Opcode → L → Bool

/-- The guest registers and the rest of the guest state. -/
structure State {L : Type} (C : L → Type) (E : Type*) where
  cells : (l : L) → C l
  rest : E

def nameOf (o : Outcome) : Value :=
  match o.value with
  | .name v => v
  | _ => .void

variable {L : Type} [DecidableEq L] {C : L → Type} {W : Type} {E : Type*}

def State.set (s : State C E) (l : L) (c : C l) : State C E :=
  { s with cells := Function.update s.cells l c }

namespace Views

variable (V : Views L C W)

/-- The access that an instruction makes. -/
def access (c : Code) : Option (Bool × W) := V.view c.1 (c.2.getD 0 .void)

/-- An access names its view by an immediate. -/
def Named (c : Code) : Prop := V.accesses c.1 = true → (V.access c).isSome = true

instance (c : Code) : Decidable (V.Named c) := inferInstanceAs (Decidable (_ → _))

def touches (c : Code) (l : L) : Bool :=
  match V.access c with
  | some (_, w) => l ∈ V.covers w
  | none => V.flagged c.1 l

/-- The operand that a set stores. -/
def operandOf (c : Code) (w : W) : Value := c.2.getD (V.valueArg w) .void

def store (w : W) (v : Val) (s : State C E) : State C E :=
  { s with cells := fun l => if l ∈ V.covers w then V.written w v l else s.cells l }

/-- The get and set opcodes over the meaning `other` of the remaining ones. -/
def exec (other : Machine (State C E)) : Machine (State C E) := fun op args s =>
  if op = .void then (.plain .void, s)
  else if op = .identity then (.plain (args.getD 0 (.plain .void)).value, s)
  else match V.view op (nameOf (args.getD 0 (.plain .void))) with
    | none => other op args s
    | some (true, w) => (.plain .void, V.store w (args.getD (V.valueArg w) (.plain .void)).value s)
    | some (false, w) => (.plain (V.readAs w s.cells), s)

/-- The views are those of the opcodes. -/
structure Lawful : Prop where
  named : ∀ op v a, V.view op v = some a → V.accesses op = true ∧
    (∀ env, V.view op (nameOf (evalArg env v)) = some a) ∧
    (op.numArgs = 0 → V.view op .void = some a)
  opcode : ∀ op v isSet w, V.view op v = some (isSet, w) →
    op.returnType = (if isSet then .void else V.ty w) ∧
      (isSet = true → V.valueArg w < op.numArgs ∧ op.argTypes.getD (V.valueArg w) .void = V.ty w)
  ordinary : V.accesses .void = false ∧ V.accesses .identity = false ∧
    (∀ l, V.flagged .void l = false) ∧ ∀ l, V.flagged .identity l = false
  proper : ∀ w, V.covers w ≠ [] ∧ V.ty w ≠ .anyTy ∧ V.ty w ≠ .table
  reads : ∀ w c d, (∀ l ∈ V.covers w, c l = d l) → V.readAs w c = V.readAs w d
  readTy : ∀ op v w c, V.view op v = some (false, w) → (V.readAs w c).ty = V.ty w

/-- An opcode outside the get and set opcodes neither reads nor writes a
register that it is not flagged for, and returns a value of its type. -/
structure Respects (other : Machine (State C E)) : Prop where
  ignores : ∀ op l, V.accesses op = false → V.flagged op l = false →
    ∀ args (s : State C E) (c : C l),
      other op args (s.set l c) = ((other op args s).1, (other op args s).2.set l c)
  typed : ∀ op args s, (other op args s).1.value.HasTy op.returnType

/-! ### One instruction -/

section Step

variable {V} {other : Machine (State C E)} (hV : V.Lawful) {c : Code} {w : W}

omit [DecidableEq L] in
theorem named_none (hn : V.Named c) (h : V.access c = none) : V.accesses c.1 = false := by
  cases hop : V.accesses c.1 with
  | false => rfl
  | true =>
    have := hn hop
    rw [h] at this
    cases this

include hV

omit [DecidableEq L] in
theorem access_ne {isSet : Bool} (h : V.access c = some (isSet, w)) :
    c.1 ≠ .void ∧ c.1 ≠ .identity := by
  have hacc := (hV.named _ _ _ h).1
  refine ⟨fun hvoid => ?_, fun hid => ?_⟩
  · rw [hvoid, hV.ordinary.1] at hacc
    cases hacc
  · rw [hid, hV.ordinary.2.1] at hacc
    cases hacc

omit [DecidableEq L] in
/-- The names that the outcomes of the arguments stand for. -/
theorem view_operands {a : Bool × W} (h : V.access c = some a) (env : List Outcome) :
    V.view c.1 (nameOf ((operands env c).getD 0 (.plain .void))) = some a := by
  obtain ⟨-, himm, hnone⟩ := hV.named _ _ _ h
  by_cases hnum : c.1.numArgs = 0
  · have hops : operands env c = [] := by simp [operands, hnum]
    rw [hops]
    exact hnone hnum
  · rw [operands_getD env (Nat.pos_of_ne_zero hnum)]
    exact himm env

theorem step_set (h : V.access c = some (true, w)) (env : List Outcome) (s : State C E) :
    step (V.exec other) c env s =
      (.plain .void, V.store w (evalArg env (V.operandOf c w)).value s) := by
  obtain ⟨hvoid, hid⟩ := access_ne hV h
  rw [operandOf, ← operands_getD env ((hV.opcode _ _ _ _ h).2 rfl).1]
  simp only [step, exec, if_neg hvoid, if_neg hid, view_operands hV h]

theorem step_get (h : V.access c = some (false, w)) (env : List Outcome) (s : State C E) :
    step (V.exec other) c env s = (.plain (V.readAs w s.cells), s) := by
  obtain ⟨hvoid, hid⟩ := access_ne hV h
  simp only [step, exec, if_neg hvoid, if_neg hid, view_operands hV h]

omit hV in
theorem step_identity (v : Value) (env : List Outcome) (s : State C E) :
    step (V.exec other) (.identity, [v]) env s = (.plain (evalArg env v).value, s) := rfl

omit hV in
theorem step_void (env : List Outcome) (s : State C E) :
    step (V.exec other) (.void, []) env s = (.plain .void, s) := rfl

omit [DecidableEq L] in
theorem view_none {op : Opcode} (h : V.accesses op = false) (v : Value) : V.view op v = none := by
  cases hview : V.view op v with
  | none => rfl
  | some a =>
    have := (hV.named _ _ _ hview).1
    rw [h] at this
    cases this

theorem sensible_exec (hr : V.Respects other) : Sensible (V.exec other) where
  void _ _ := rfl
  identity _ _ := rfl
  typed op args s hid := by
    unfold exec
    split
    · rename_i hvoid
      rw [hvoid]
      exact Or.inr (Or.inr rfl)
    · split
      · exact hr.typed op args s
      · rename_i w hview
        rw [(hV.opcode _ _ _ _ hview).1]
        exact Or.inr (Or.inr rfl)
      · rename_i w hview
        rw [(hV.opcode _ _ _ _ hview).1]
        exact Or.inr (Or.inr (hV.readTy _ _ _ _ hview))

end Step

/-! ### States that differ in some registers -/

/-- The states agree outside the registers of `A`. -/
def Apart (A : List L) (s t : State C E) : Prop :=
  s.rest = t.rest ∧ ∀ l, l ∉ A → s.cells l = t.cells l

omit [DecidableEq L] in
theorem Apart.eq {s t : State C E} (h : Apart [] s t) : s = t := by
  obtain ⟨cells, rest⟩ := s
  obtain ⟨hrest, hcells⟩ := h
  simp only at hrest
  subst hrest
  congr
  exact funext fun l => hcells l (by simp)

theorem set_self (s : State C E) (l : L) : s.set l (s.cells l) = s := by
  simp [State.set]

section Untouched

variable {V} {other : Machine (State C E)} (hr : V.Respects other) {op : Opcode}
include hr

theorem Respects.apart (hop : V.accesses op = false) {A : List L}
    (hA : ∀ l ∈ A, V.flagged op l = false) (args : List Outcome) {s t : State C E}
    (h : Apart A s t) : (other op args s).1 = (other op args t).1 ∧
      Apart A (other op args s).2 (other op args t).2 := by
  induction A generalizing s with
  | nil =>
    rw [h.eq]
    exact ⟨rfl, rfl, fun _ _ => rfl⟩
  | cons a A ih =>
    have hnext : Apart A (s.set a (t.cells a)) t := by
      refine ⟨h.1, fun l hl => ?_⟩
      by_cases hla : l = a
      · subst hla
        simp [State.set]
      · simp only [State.set, Function.update_of_ne hla]
        exact h.2 l (by simp [hla, hl])
    obtain ⟨hval, hrest, hcells⟩ := ih (fun l hl => hA l (by simp [hl])) hnext
    rw [hr.ignores op a hop (hA a (by simp))] at hval hrest hcells
    refine ⟨hval, hrest, fun l hl => ?_⟩
    rw [List.mem_cons, not_or] at hl
    rw [← hcells l hl.2]
    simp [State.set, hl.1]

theorem Respects.cells (hop : V.accesses op = false) {l : L} (hl : V.flagged op l = false)
    (args : List Outcome) (s : State C E) : (other op args s).2.cells l = s.cells l := by
  have h := congrArg Prod.snd (hr.ignores op l hop hl args s (s.cells l))
  rw [set_self] at h
  simp only at h
  rw [h]
  simp [State.set]

variable (hV : V.Lawful) {c : Code}
include hV

/-- An instruction that does not touch some registers neither sees nor changes
them. -/
theorem blind_of_untouched (hn : V.Named c) {A : List L} (hA : ∀ l ∈ A, V.touches c l = false) :
    Ssa.Blind (Apart A) (step (V.exec other) c) := by
  intro env s t h
  cases hacc : V.access c with
  | some a =>
    obtain ⟨isSet, w⟩ := a
    have hw : ∀ l ∈ A, l ∉ V.covers w := by
      intro l hl
      have := hA l hl
      simp only [touches, hacc, decide_eq_false_iff_not] at this
      exact this
    cases isSet with
    | true =>
      rw [step_set hV hacc, step_set hV hacc]
      refine ⟨rfl, h.1, fun l hl => ?_⟩
      simp only [store]
      rw [h.2 l hl]
    | false =>
      rw [step_get hV hacc, step_get hV hacc]
      have hread : V.readAs w s.cells = V.readAs w t.cells :=
        hV.reads w _ _ fun l hl => h.2 l fun hlA => hw l hlA hl
      exact ⟨by rw [hread], h⟩
  | none =>
    have hop := named_none hn hacc
    have hflag : ∀ l ∈ A, V.flagged c.1 l = false := by
      intro l hl
      have := hA l hl
      rw [touches, hacc] at this
      exact this
    simp only [step, exec]
    split
    · exact ⟨rfl, h⟩
    · split
      · exact ⟨rfl, h⟩
      · rw [view_none hV hop]
        exact hr.apart hop hflag _ h

theorem step_cells_untouched (hn : V.Named c) {l : L} (hl : V.touches c l = false)
    (env : List Outcome) (s : State C E) : (step (V.exec other) c env s).2.cells l = s.cells l := by
  cases hacc : V.access c with
  | some a =>
    obtain ⟨isSet, w⟩ := a
    have hw : l ∉ V.covers w := by
      simpa only [touches, hacc, decide_eq_false_iff_not] using hl
    cases isSet with
    | true =>
      rw [step_set hV hacc]
      simp only [store, if_neg hw]
    | false => rw [step_get hV hacc]
  | none =>
    have hop := named_none hn hacc
    rw [touches, hacc] at hl
    simp only [step, exec]
    split
    · rfl
    · split
      · rfl
      · rw [view_none hV hop]
        exact hr.cells hop hl _ _

omit hr in
/-- A set forgets what its registers held. -/
theorem settles_of_set {A : List L} {w : W} (h : V.access c = some (true, w))
    (hA : ∀ l ∈ A, l ∈ V.covers w) : Ssa.Settles (Apart A) (step (V.exec other) c) := by
  intro env s t hst
  rw [step_set hV h, step_set hV h]
  have hcells : (V.store w (evalArg env (V.operandOf c w)).value s).cells =
      (V.store w (evalArg env (V.operandOf c w)).value t).cells := by
    funext l
    simp only [store]
    split
    · rfl
    · rename_i hl
      exact hst.2 l fun hlA => hl (hA l hlA)
  simp only [store] at hcells ⊢
  rw [hcells, hst.1]

end Untouched

end Views
end Ruzu.Ir
