import Mathlib

/-!
# Straight-line programs in single assignment form

A step sees the results of all earlier steps and a state, and adds its own
result. Three rewrites keep what a program computes: exchanging steps that
agree on the results so far, changing the state in a way that later steps
neither notice nor keep, and inserting a result while the later steps look
behind it.
-/

set_option autoImplicit false

namespace Ruzu.Ssa

variable {V S : Type*}

abbrev Step (V S : Type*) := List V → S → V × S

def next (σ : List V × S) (f : Step V S) : List V × S := (σ.1 ++ [(f σ.1 σ.2).1], (f σ.1 σ.2).2)

def run (p : List (Step V S)) (σ : List V × S) : List V × S := p.foldl next σ

@[simp] theorem run_nil (σ : List V × S) : run [] σ = σ := rfl

@[simp] theorem run_cons (f : Step V S) (p : List (Step V S)) (σ : List V × S) :
    run (f::p) σ = run p (next σ f) := rfl

theorem run_append (p q : List (Step V S)) (σ : List V × S) : run (p++q) σ = run q (run p σ) := by
  rw [run, List.foldl_append]
  rfl

theorem run_length (p : List (Step V S)) (σ : List V × S) :
    (run p σ).1.length = σ.1.length+p.length := by
  induction p generalizing σ with
  | nil => rfl
  | cons f p ih =>
    rw [run_cons, ih]
    simp [next]
    omega

/-- Results stay where they are. -/
theorem run_prefix (p : List (Step V S)) (σ : List V × S) : σ.1 <+: (run p σ).1 := by
  induction p generalizing σ with
  | nil => exact List.prefix_rfl
  | cons f p ih => exact (List.prefix_append _ _).trans (ih (next σ f))

theorem run_getD (p : List (Step V S)) (σ : List V × S) {k : ℕ} (hk : k < σ.1.length) (v : V) :
    (run p σ).1.getD k v = σ.1.getD k v := by
  obtain ⟨vs, hvs⟩ := run_prefix p σ
  rw [← hvs, List.getD_append _ _ _ _ hk]

/-- The steps do the same on everything that extends the results. -/
def SameFrom (env : List V) (f g : Step V S) : Prop := ∀ vs s, f (env++vs) s = g (env++vs) s

theorem SameFrom.snoc {env : List V} {f g : Step V S} (h : SameFrom env f g) (v : V) :
    SameFrom (env++[v]) f g := by
  intro vs s
  rw [List.append_assoc]
  exact h _ s

theorem run_same {p q : List (Step V S)} {env : List V} (h : List.Forall₂ (SameFrom env) p q)
    (s : S) : run p (env, s) = run q (env, s) := by
  induction p generalizing q env s with
  | nil =>
    cases h
    rfl
  | cons f p ih =>
    cases h with
    | @cons _ g _ q hfg hpq =>
      have hfirst := hfg [] s
      rw [List.append_nil] at hfirst
      rw [run_cons, run_cons, next, next, hfirst]
      exact ih (hpq.imp (fun _ _ h => h.snoc _)) _

/-! ### States that differ where no step looks -/

section Related

variable {R : S → S → Prop}

/-- The step gives the same result and keeps the states related. -/
def Blind (R : S → S → Prop) (f : Step V S) : Prop :=
  ∀ env s t, R s t → (f env s).1 = (f env t).1 ∧ R (f env s).2 (f env t).2

/-- The step makes related states equal. -/
def Settles (R : S → S → Prop) (f : Step V S) : Prop := ∀ env s t, R s t → f env s = f env t

end Related

/-! ### Prefixes of a program -/

def upTo (p : List (Step V S)) (k : ℕ) (σ : List V × S) : List V × S := run (p.take k) σ

section UpTo

variable {p q : List (Step V S)} {σ : List V × S} {k j i : ℕ} {f : Step V S}

theorem upTo_succ (h : p[k]? = some f) : upTo p (k+1) σ = next (upTo p k σ) f := by
  rw [upTo, List.take_add_one, h, run_append]
  rfl

theorem upTo_all (p : List (Step V S)) (σ : List V × S) : upTo p p.length σ = run p σ := by
  rw [upTo, List.take_length]

theorem upTo_length (hk : k ≤ p.length) : (upTo p k σ).1.length = σ.1.length+k := by
  rw [upTo, run_length, List.length_take_of_le hk]

theorem upTo_getD (hji : j ≤ i) (hk : k < (upTo p j σ).1.length) (v : V) :
    (upTo p i σ).1.getD k v = (upTo p j σ).1.getD k v := by
  have hsplit : p.take i = p.take j ++ (p.take i).drop j := by
    conv_lhs => rw [← List.take_append_drop j (p.take i), List.take_take, Nat.min_eq_left hji]
  rw [upTo, hsplit, run_append]
  exact run_getD _ _ hk v

/-- Two programs that run into related states and go on with the same blind
steps stay related. -/
theorem upTo_related {R : S → S → Prop} (hji : j ≤ i)
    (hstart : (upTo p j σ).1 = (upTo q j σ).1 ∧ R (upTo p j σ).2 (upTo q j σ).2)
    (hsteps : ∀ k, j ≤ k → k < i → ∃ f, p[k]? = some f ∧ q[k]? = some f ∧ Blind R f) :
    (upTo p i σ).1 = (upTo q i σ).1 ∧ R (upTo p i σ).2 (upTo q i σ).2 := by
  induction i, hji using Nat.le_induction with
  | base => exact hstart
  | succ i hji ih =>
    obtain ⟨hval, hrel⟩ := ih fun k hjk hki => hsteps k hjk (by omega)
    obtain ⟨f, hp, hq, hf⟩ := hsteps i hji (by omega)
    obtain ⟨hout, hrel'⟩ := hf (upTo q i σ).1 _ _ hrel
    rw [upTo_succ hp, upTo_succ hq, next, next, hval]
    simp only
    exact ⟨by rw [hout], hrel'⟩

theorem upTo_settled {R : S → S → Prop} (hp : p[i]? = some f) (hq : q[i]? = some f)
    (hf : Settles R f)
    (h : (upTo p i σ).1 = (upTo q i σ).1 ∧ R (upTo p i σ).2 (upTo q i σ).2) :
    upTo p (i+1) σ = upTo q (i+1) σ := by
  rw [upTo_succ hp, upTo_succ hq, next, next, h.1, hf _ _ _ h.2]

end UpTo

/-! ### Inserting a result -/

/-- `w` put in front of the results from `p` on. -/
def wedge (p : ℕ) (w : V) (env : List V) : List V := env.take p ++ w :: env.drop p

@[simp] theorem wedge_length (p : ℕ) (w : V) (env : List V) :
    (wedge p w env).length = env.length+1 := by
  simp [wedge]
  omega

theorem wedge_append {p : ℕ} {env : List V} (hp : p ≤ env.length) (w : V) (vs : List V) :
    wedge p w (env++vs) = wedge p w env ++ vs := by
  simp [wedge, List.take_append_of_le_length hp, List.drop_append_of_le_length hp]

/-- Where a reference points once a result has been put in at `p`. -/
def shift (p k : ℕ) : ℕ := if p ≤ k then k+1 else k

theorem wedge_getD {p : ℕ} {env : List V} (hp : p ≤ env.length) (w : V) (k : ℕ) (v : V) :
    (wedge p w env).getD (shift p k) v = env.getD k v := by
  have htake : (env.take p).length = p := by simp [hp]
  unfold wedge shift
  split
  · rename_i hk
    rw [List.getD_append_right _ _ _ _ (by omega), htake, Nat.sub_add_comm hk, List.getD_cons_succ]
    simp [List.getD_eq_getElem?_getD, List.getElem?_drop, hk]
  · rename_i hk
    rw [List.getD_append _ _ _ _ (by omega)]
    simp [List.getD_eq_getElem?_getD, show k < p by omega]

theorem wedge_self {p : ℕ} {env : List V} (hp : p ≤ env.length) (w v : V) :
    (wedge p w env).getD p v = w := by
  have htake : (env.take p).length = p := by simp [hp]
  rw [wedge, List.getD_append_right _ _ _ _ (by omega), htake, Nat.sub_self, List.getD_cons_zero]

/-- `g` does behind the inserted result what `f` does without it. -/
def Shifts (p : ℕ) (w : V) (f g : Step V S) : Prop :=
  ∀ (env : List V) (s : S), p ≤ env.length → g (wedge p w env) s = f env s

theorem run_shift {p : ℕ} {w : V} {q q' : List (Step V S)}
    (hq : List.Forall₂ (Shifts p w) q q') :
    ∀ (env : List V) (s : S), p ≤ env.length →
      run q' (wedge p w env, s) = (wedge p w (run q (env, s)).1, (run q (env, s)).2) := by
  induction hq with
  | nil => exact fun _ _ _ => rfl
  | @cons f g q q' hfg _ ih =>
    intro env s hp
    rw [run_cons, run_cons, next, next]
    simp only [hfg env s hp]
    rw [← ih _ _ (by simp; omega), wedge_append hp]

end Ruzu.Ssa
