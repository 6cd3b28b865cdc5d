import Mathlib
import Ruzu.Ir.Registers

/-!
# Elimination of gets and sets

A walk over the code that remembers for each register the access it was last
seen through. A get of a view whose registers are all known through it becomes
an identity of the value recorded there; a set whose registers a later set
covers is removed. `P` is the code walked so far and `Q` what has become of it.
-/

set_option autoImplicit false

namespace Ruzu.Ir.Views

variable {L : Type} [DecidableEq L] {C : L → Type} {W : Type} {E : Type*}

structure Entry (W : Type) where
  value : Value
  view : W
  lastSet : Option ℕ

abbrev Tracking (L W : Type) := L → Option (Entry W)

def assign (A : List L) (e : Entry W) (info : Tracking L W) : Tracking L W :=
  fun l => if l ∈ A then some e else info l

variable (V : Views L C W) (record : W → ℕ → Value → Value)

/-- What the walk records for the set at `j`. -/
def recorded (P : List Code) (j : ℕ) (w : W) : Value :=
  record w j (V.operandOf (P.getD j (.void, [])) w)

/-- What the set at `j` is given to store. -/
def stored (m : Machine (State C E)) (P : List Code) (j : ℕ) (w : W) (s : State C E) : Val :=
  (evalArg (runCode m (P.take j) s).1 (V.operandOf (P.getD j (.void, [])) w)).value

/-- Every register of the view is known through it. -/
def Known (info : Tracking L W) (w : W) : Prop :=
  ∀ l ∈ V.covers w, ∃ e, info l = some e ∧ e.view = w

/-- The code without a set that a set of the view `w` makes dead. -/
inductive Dropped (info : Tracking L W) (w : W) (Q : List Code) : List Code → Prop
  | none : Dropped info w Q Q
  | dead (e : Entry W) (j : ℕ) : e.lastSet = some j →
      (∀ l ∈ V.covers e.view, l ∈ V.covers w ∧ info l = some e) →
      Dropped info w Q (Q.set j (.void, []))

/-- One step of the walk, at the instruction `c` behind `P`. -/
inductive Move (P Q : List Code) (info : Tracking L W) (c : Code) :
    List Code → Tracking L W → Prop
  | pass : V.access c = none →
      Move P Q info c (Q ++ [c]) fun l => if V.flagged c.1 l then none else info l
  | skip (isSet : Bool) (w : W) : V.access c = some (isSet, w) → V.tracked w = false →
      (∀ l ∈ V.covers w, info l = none) → Move P Q info c (Q ++ [c]) info
  | forward (w : W) (l : L) (e : Entry W) : V.access c = some (false, w) → V.tracked w = true →
      V.Known info w → l ∈ V.covers w → info l = some e → Move P Q info c (Q ++ [(.identity, [e.value])]) info
  | newGet (w : W) : V.access c = some (false, w) → ¬ V.Known info w →
      Move P Q info c (Q ++ [c]) (assign (V.covers w) ⟨.inst P.length, w, none⟩ info)
  | newSet (w : W) (Q' : List Code) : V.access c = some (true, w) → V.Dropped info w Q Q' →
      Move P Q info c (Q' ++ [c])
        (assign (V.covers w) ⟨record w P.length (V.operandOf c w), w, some P.length⟩ info)

/-! ### Sets that a later get still sees -/

/-- The set at `j` is the last access of its register, up to gets of the same
view. -/
structure Live (P : List Code) (j : ℕ) (w : W) (l : L) : Prop where
  source : ∃ c, P[j]? = some c ∧ V.access c = some (true, w) ∧ l ∈ V.covers w
  views : ∀ k c, j < k → P[k]? = some c → V.touches c l = false ∨ V.access c = some (false, w)

/-- The set at `j` is live in every register of its view. -/
def LiveAll (P : List Code) (j : ℕ) (w : W) : Prop := ∀ l ∈ V.covers w, V.Live P j w l

/-- The get at `i` reads what the set at `j` stored, through the same view. -/
def Forwards (P : List Code) (j i : ℕ) (w : W) : Prop :=
  V.tracked w = true ∧ V.LiveAll (P.take i) j w ∧ ∃ c, P[i]? = some c ∧ V.access c = some (false, w)

theorem snoc_getElem? {α : Type*} {P : List α} {c d : α} {k : ℕ} :
    (P ++ [c])[k]? = some d ↔ P[k]? = some d ∨ k = P.length ∧ d = c := by
  rcases Nat.lt_trichotomy k P.length with hk | rfl | hk
  · rw [List.getElem?_append_left hk]
    have : k ≠ P.length := by omega
    simp [this]
  · simp [eq_comm]
  · have hnone : (P ++ [c])[k]? = none := List.getElem?_eq_none (by simp; omega)
    have hnone' : P[k]? = none := List.getElem?_eq_none (by omega)
    have : k ≠ P.length := by omega
    simp [hnone, hnone', this]

variable {V} {P Q : List Code} {c : Code} {j i : ℕ} {w : W} {l : L} {info : Tracking L W}

theorem touches_access {isSet : Bool} (h : V.access c = some (isSet, w)) :
    V.touches c l = decide (l ∈ V.covers w) := by
  simp only [touches, h]

theorem touches_none (h : V.access c = none) : V.touches c l = V.flagged c.1 l := by
  simp only [touches, h]

theorem Live.earlier (h : V.Live P j w l) : j < P.length := by
  obtain ⟨c, hc, -⟩ := h.source
  exact (List.getElem?_eq_some_iff.mp hc).1

theorem Live.snoc (h : V.Live P j w l)
    (hc : V.touches c l = false ∨ V.access c = some (false, w)) : V.Live (P ++ [c]) j w l := by
  obtain ⟨d, hd, hset⟩ := h.source
  refine ⟨⟨d, snoc_getElem?.mpr (Or.inl hd), hset⟩, fun k d hk hd => ?_⟩
  rcases snoc_getElem?.mp hd with hold | ⟨-, rfl⟩
  · exact h.views k d hk hold
  · exact hc

/-- A live set is either the instruction just passed or was live before it. -/
theorem Live.last (h : V.Live (P ++ [c]) j w l) :
    (j = P.length ∧ V.access c = some (true, w) ∧ l ∈ V.covers w) ∨
    V.Live P j w l ∧ (V.touches c l = false ∨ V.access c = some (false, w)) := by
  obtain ⟨d, hd, hset⟩ := h.source
  rcases snoc_getElem?.mp hd with hold | ⟨rfl, rfl⟩
  · refine Or.inr ⟨⟨⟨d, hold, hset⟩, fun k e hk he => ?_⟩, ?_⟩
    · exact h.views k e hk (snoc_getElem?.mpr (Or.inl he))
    · exact h.views P.length c (List.getElem?_eq_some_iff.mp hold).1
        (snoc_getElem?.mpr (Or.inr ⟨rfl, rfl⟩))
  · exact Or.inl ⟨rfl, hset⟩

/-! ### The code along the walk -/

/-- What the elimination may do to an instruction. -/
def Edited (V : Views L C W) (c c' : Code) : Prop :=
  c' = c ∨ (∃ w v, V.access c = some (false, w) ∧ c' = (.identity, [v])) ∨
    ∃ w, V.access c = some (true, w) ∧ c' = (.void, [])

/-- The entry comes from a live set that is still in the code, and no
instruction behind it touches the register any more. -/
structure FromSet (V : Views L C W) (record : W → ℕ → Value → Value) (P Q : List Code)
    (e : Entry W) (j : ℕ) (l : L) : Prop where
  live : V.Live P j e.view l
  kept : Q[j]? = P[j]?
  value : e.value = V.recorded record P j e.view
  quiet : ∀ k c, j < k → Q[k]? = some c → V.Named c ∧ V.touches c l = false

structure Traced (V : Views L C W) (record : W → ℕ → Value → Value) (P Q : List Code)
    (info : Tracking L W) : Prop where
  edited : List.Forall₂ V.Edited P Q
  fromGet : ∀ l e, info l = some e → e.lastSet = none → ∃ r < P.length, e.value = .inst r
  fromSet : ∀ l e j, info l = some e → e.lastSet = some j → V.FromSet record P Q e j l
  whole : ∀ l l' e e', info l = some e → info l' = some e' → e.view = e'.view → e = e'
  covered : ∀ l e, info l = some e → l ∈ V.covers e.view
  known : ∀ j w, V.tracked w = true → V.LiveAll P j w →
    ∀ l ∈ V.covers w, info l = some ⟨V.recorded record P j w, w, some j⟩
  replaced : ∀ j i w, V.Forwards P j i w → Q[i]? = some (.identity, [V.recorded record P j w])

variable {record : W → ℕ → Value → Value}

omit [DecidableEq L] in
theorem recorded_snoc (hj : j < P.length) :
    V.recorded record (P ++ [c]) j w = V.recorded record P j w := by
  rw [recorded, recorded, List.getD_append _ _ _ _ hj]

omit [DecidableEq L] in
theorem recorded_last :
    V.recorded record (P ++ [c]) P.length w = record w P.length (V.operandOf c w) := by
  rw [recorded, List.getD_append_right _ _ _ _ (Nat.le_refl _), Nat.sub_self, List.getD_cons_zero]

section FromSet

variable {e : Entry W} {c' : Code}

/-- An instruction that leaves the register alone does not disturb the entry. -/
theorem FromSet.snoc (hf : V.FromSet record P Q e j l) (hlen : P.length = Q.length)
    (hview : V.touches c l = false ∨ V.access c = some (false, e.view)) (hn : V.Named c')
    (hquiet : V.touches c' l = false) : V.FromSet record (P ++ [c]) (Q ++ [c']) e j l := by
  have hj := hf.live.earlier
  refine ⟨hf.live.snoc hview, ?_, ?_, fun k d hk hd => ?_⟩
  · rw [List.getElem?_append_left hj, List.getElem?_append_left (by omega), hf.kept]
  · rw [hf.value, recorded_snoc hj]
  · rcases snoc_getElem?.mp hd with hold | ⟨-, rfl⟩
    · exact hf.quiet k d hk hold
    · exact ⟨hn, hquiet⟩

/-- Rewriting another instruction does not disturb it either. -/
theorem FromSet.drop (hf : V.FromSet record P Q e j l) (hi : i ≠ j) (hn : V.Named c')
    (hquiet : V.touches c' l = false) : V.FromSet record P (Q.set i c') e j l := by
  refine ⟨hf.live, by rw [List.getElem?_set_ne hi, hf.kept], hf.value, fun k d hk hd => ?_⟩
  by_cases hik : i = k
  · subst hik
    obtain ⟨hlt, hset⟩ := List.getElem?_eq_some_iff.mp hd
    rw [List.getElem_set_self] at hset
    exact hset ▸ ⟨hn, hquiet⟩
  · rw [List.getElem?_set_ne hik] at hd
    exact hf.quiet k d hk hd

end FromSet

section Ordinary

variable (hV : V.Lawful)
include hV

omit [DecidableEq L] in
theorem named_void : V.Named ((.void, []) : Code) := by
  intro h
  rw [hV.ordinary.1] at h
  cases h

omit [DecidableEq L] in
theorem named_identity (v : Value) : V.Named ((.identity, [v]) : Code) := by
  intro h
  rw [hV.ordinary.2.1] at h
  cases h

theorem touches_void (l : L) : V.touches ((.void, []) : Code) l = false := by
  have h : V.access ((.void, []) : Code) = none := view_none hV hV.ordinary.1 _
  rw [touches_none h]
  exact hV.ordinary.2.2.1 l

theorem touches_identity (v : Value) (l : L) : V.touches ((.identity, [v]) : Code) l = false := by
  have h : V.access ((.identity, [v]) : Code) = none := view_none hV hV.ordinary.2.1 _
  rw [touches_none h]
  exact hV.ordinary.2.2.2 l

end Ordinary

omit [DecidableEq L] in
theorem edited_set (h : List.Forall₂ V.Edited P Q) {d : Code} (hc : P[j]? = some c)
    (hd : V.Edited c d) : List.Forall₂ V.Edited P (Q.set j d) := by
  induction h generalizing j with
  | nil => cases hc
  | cons hhead htail ih =>
    cases j with
    | zero =>
      cases hc
      exact .cons hd htail
    | succ j => exact .cons hhead (ih hc)

omit [DecidableEq L] in
theorem edited_snoc (h : List.Forall₂ V.Edited P Q) {d : Code} (hd : V.Edited c d) :
    List.Forall₂ V.Edited (P ++ [c]) (Q ++ [d]) :=
  List.rel_append h (.cons hd .nil)

/-- A get behind the code reads what a set in it stored. -/
theorem Forwards.last (h : V.Forwards (P ++ [c]) j i w) :
    V.Forwards P j i w ∨
      i = P.length ∧ V.tracked w = true ∧ V.LiveAll P j w ∧ V.access c = some (false, w) := by
  obtain ⟨htracked, hlive, d, hd, hget⟩ := h
  rcases snoc_getElem?.mp hd with hold | ⟨rfl, rfl⟩
  · have hi := (List.getElem?_eq_some_iff.mp hold).1
    rw [List.take_append_of_le_length (by omega)] at hlive
    exact Or.inl ⟨htracked, hlive, d, hold, hget⟩
  · rw [List.take_append_of_le_length (Nat.le_refl _), List.take_length] at hlive
    exact Or.inr ⟨rfl, htracked, hlive, hget⟩

theorem LiveAll.earlier (hV : V.Lawful) (h : V.LiveAll P j w) : j < P.length := by
  obtain ⟨l, hl⟩ := List.exists_mem_of_ne_nil _ (hV.proper w).1
  exact (h l hl).earlier

theorem traced_nil : Traced V record [] [] fun _ => none where
  edited := .nil
  fromGet _ _ h := by cases h
  fromSet _ _ _ h := by cases h
  whole _ _ _ _ h := by cases h
  covered _ _ h := by cases h
  known j w _ hlive l hl := absurd (hlive l hl).earlier (Nat.not_lt_zero j)
  replaced j i w h := by
    obtain ⟨-, -, c, hc, -⟩ := h
    cases hc

namespace Traced

variable (h : Traced V record P Q info)
include h

theorem length : P.length = Q.length := h.edited.length_eq

theorem replaced_snoc (hV : V.Lawful) (hf : V.Forwards P j i w) (d : Code) :
    (Q ++ [d])[i]? = some (.identity, [V.recorded record (P ++ [c]) j w]) := by
  have hj : j < P.length := by
    have := hf.2.1.earlier hV
    rw [List.length_take] at this
    omega
  rw [recorded_snoc hj]
  exact snoc_getElem?.mpr (Or.inl (h.replaced j i w hf))

/-- A new entry of a whole view keeps the entries of a view the same. -/
theorem assign_whole (e₀ : Entry W) (l l' : L) (e e' : Entry W)
    (he : assign (V.covers e₀.view) e₀ info l = some e)
    (he' : assign (V.covers e₀.view) e₀ info l' = some e') (hee : e.view = e'.view) : e = e' := by
  have hview : ∀ l e, l ∉ V.covers e₀.view → info l = some e → e.view ≠ e₀.view := by
    intro l e hl he heq
    exact hl (heq ▸ h.covered l e he)
  simp only [assign] at he he'
  split at he <;> split at he'
  · cases he
    cases he'
    rfl
  · rename_i hl'
    cases he
    exact absurd hee.symm (hview l' e' hl' he')
  · rename_i hl _
    cases he'
    exact absurd hee (hview l e hl he)
  · exact h.whole l l' e e' he he' hee

theorem assign_covered (e₀ : Entry W) (l : L) (e : Entry W)
    (he : assign (V.covers e₀.view) e₀ info l = some e) : l ∈ V.covers e.view := by
  simp only [assign] at he
  split at he
  · rename_i hl
    cases he
    exact hl
  · exact h.covered l e he

variable (hV : V.Lawful)
include hV

/-- An instruction outside the get and set opcodes. -/
theorem pass (hn : V.Named c) (hacc : V.access c = none) :
    Traced V record (P ++ [c]) (Q ++ [c]) fun l => if V.flagged c.1 l then none else info l := by
  have hkeep : ∀ l e, (if V.flagged c.1 l then none else info l) = some e →
      info l = some e ∧ V.touches c l = false := by
    intro l e he
    split at he
    · cases he
    · rename_i hf
      exact ⟨he, by rw [touches_none hacc]; simpa using hf⟩
  refine ⟨edited_snoc h.edited (Or.inl rfl), fun l e he hget => ?_, fun l e j he hset => ?_,
    fun l l' e e' he he' => h.whole l l' e e' (hkeep l e he).1 (hkeep l' e' he').1,
    fun l e he => h.covered l e (hkeep l e he).1, fun j w ht hlive l hl => ?_, fun j i w hf => ?_⟩
  · obtain ⟨r, hr, hval⟩ := h.fromGet l e (hkeep l e he).1 hget
    exact ⟨r, by rw [List.length_append]; omega, hval⟩
  · obtain ⟨hold, hquiet⟩ := hkeep l e he
    exact (h.fromSet l e j hold hset).snoc h.length (Or.inl hquiet) hn hquiet
  · have hback : ∀ l ∈ V.covers w, V.Live P j w l ∧ V.touches c l = false := by
      intro l hl
      rcases (hlive l hl).last with ⟨-, hset, -⟩ | ⟨hold, hquiet | hget⟩
      · rw [hacc] at hset
        cases hset
      · exact ⟨hold, hquiet⟩
      · rw [hacc] at hget
        cases hget
    obtain ⟨hold, hquiet⟩ := hback l hl
    rw [touches_none hacc] at hquiet
    rw [if_neg (by simp [hquiet]), recorded_snoc hold.earlier]
    exact h.known j w ht (fun l hl => (hback l hl).1) l hl
  · rcases hf.last with hold | ⟨-, -, -, hget⟩
    · exact h.replaced_snoc hV hold c
    · rw [hacc] at hget
      cases hget

/-- The entry of a known view is the same in all its registers. -/
theorem known_entry (hk : V.Known info w) :
    ∃ e, e.view = w ∧ ∀ l ∈ V.covers w, info l = some e := by
  obtain ⟨l, hl⟩ := List.exists_mem_of_ne_nil _ (hV.proper w).1
  obtain ⟨e, he, hview⟩ := hk l hl
  refine ⟨e, hview, fun l' hl' => ?_⟩
  obtain ⟨e', he', hview'⟩ := hk l' hl'
  rw [h.whole l l' e e' he he' (hview.trans hview'.symm)]
  exact he'

omit hV in
/-- A live set is still what its registers are known through. -/
theorem known_of_live (ht : V.tracked w = true) (hlive : V.LiveAll P j w) : V.Known info w :=
  fun l hl => ⟨_, h.known j w ht hlive l hl, rfl⟩

/-- A get of a known view. -/
theorem forward {e : Entry W} (hacc : V.access c = some (false, w)) (hk : V.Known info w)
    (hl : l ∈ V.covers w) (he : info l = some e) :
    Traced V record (P ++ [c]) (Q ++ [(.identity, [e.value])]) info := by
  have hback : ∀ j w', V.LiveAll (P ++ [c]) j w' → V.LiveAll P j w' := by
    intro j w' hlive l hl
    rcases (hlive l hl).last with ⟨-, hset, -⟩ | ⟨hold, -⟩
    · rw [hacc] at hset
      cases hset
    · exact hold
  refine ⟨edited_snoc h.edited (Or.inr (Or.inl ⟨w, _, hacc, rfl⟩)), fun l e he hget => ?_,
    fun l' e' j he' hset => ?_, h.whole, h.covered, fun j w' ht hlive l' hl' => ?_,
    fun j i w' hf => ?_⟩
  · obtain ⟨r, hr, hval⟩ := h.fromGet l e he hget
    exact ⟨r, by rw [List.length_append]; omega, hval⟩
  · refine (h.fromSet l' e' j he' hset).snoc h.length ?_ (named_identity hV _)
      (touches_identity hV _ l')
    by_cases hll : l' ∈ V.covers w
    · obtain ⟨e'', he'', hview⟩ := hk l' hll
      rw [he'] at he''
      cases he''
      rw [hview]
      exact Or.inr hacc
    · refine Or.inl ?_
      rw [touches_access hacc, decide_eq_false hll]
  · have hold := hback j w' hlive
    rw [recorded_snoc (hold l' hl').earlier]
    exact h.known j w' ht hold l' hl'
  · rcases hf.last with hold | ⟨rfl, ht, hlive, hget⟩
    · exact h.replaced_snoc hV hold _
    · rw [hacc] at hget
      cases hget
      rw [h.known j w ht hlive l hl] at he
      cases he
      rw [recorded_snoc (hlive l hl).earlier]
      exact snoc_getElem?.mpr (Or.inr ⟨h.length, rfl⟩)

/-- A get of a view that is not known. -/
theorem newGet (hn : V.Named c) (hacc : V.access c = some (false, w)) (hk : ¬ V.Known info w) :
    Traced V record (P ++ [c]) (Q ++ [c])
      (assign (V.covers w) ⟨.inst P.length, w, none⟩ info) := by
  refine ⟨edited_snoc h.edited (Or.inl rfl), fun l e he hget => ?_, fun l e j he hset => ?_,
    h.assign_whole ⟨_, w, _⟩, h.assign_covered ⟨_, w, _⟩, fun j w' ht hlive l hl => ?_,
    fun j i w' hf => ?_⟩
  · simp only [assign] at he
    split at he
    · cases he
      exact ⟨P.length, by simp, rfl⟩
    · obtain ⟨r, hr, hval⟩ := h.fromGet l e he hget
      exact ⟨r, by rw [List.length_append]; omega, hval⟩
  · simp only [assign] at he
    split at he
    · cases he
      cases hset
    · rename_i hl
      have hquiet : V.touches c l = false := by rw [touches_access hacc, decide_eq_false hl]
      exact (h.fromSet l e j he hset).snoc h.length (Or.inl hquiet) hn hquiet
  · have hold : V.LiveAll P j w' := by
      intro l hl
      rcases (hlive l hl).last with ⟨-, hset, -⟩ | ⟨hold, -⟩
      · rw [hacc] at hset
        cases hset
      · exact hold
    have hl' : l ∉ V.covers w := by
      intro hlw
      rcases (hlive l hl).last with ⟨-, hset, -⟩ | ⟨-, hquiet | hget⟩
      · rw [hacc] at hset
        cases hset
      · rw [touches_access hacc, decide_eq_true hlw] at hquiet
        cases hquiet
      · rw [hacc] at hget
        cases hget
        exact hk (h.known_of_live ht hold)
    rw [assign, if_neg hl', recorded_snoc (hold l hl).earlier]
    exact h.known j w' ht hold l hl
  · rcases hf.last with hold | ⟨rfl, ht, hlive, hget⟩
    · exact h.replaced_snoc hV hold _
    · rw [hacc] at hget
      cases hget
      exact absurd (h.known_of_live ht hlive) hk

/-- An access of a view that the elimination does not follow. -/
theorem skip {isSet : Bool} (hn : V.Named c) (hacc : V.access c = some (isSet, w))
    (ht : V.tracked w = false) (hnone : ∀ l ∈ V.covers w, info l = none) :
    Traced V record (P ++ [c]) (Q ++ [c]) info := by
  have hquiet : ∀ l e, info l = some e → V.touches c l = false := by
    intro l e he
    rw [touches_access hacc, decide_eq_false]
    intro hl
    rw [hnone l hl] at he
    cases he
  refine ⟨edited_snoc h.edited (Or.inl rfl), fun l e he hget => ?_, fun l e j he hset => ?_,
    h.whole, h.covered, fun j w' ht' hlive l hl => ?_, fun j i w' hf => ?_⟩
  · obtain ⟨r, hr, hval⟩ := h.fromGet l e he hget
    exact ⟨r, by rw [List.length_append]; omega, hval⟩
  · exact (h.fromSet l e j he hset).snoc h.length (Or.inl (hquiet l e he)) hn (hquiet l e he)
  · have hold : V.LiveAll P j w' := by
      intro l hl
      rcases (hlive l hl).last with ⟨-, hset, -⟩ | ⟨hold, -⟩
      · rw [hacc] at hset
        cases hset
        rw [ht] at ht'
        cases ht'
      · exact hold
    rw [recorded_snoc (hold l hl).earlier]
    exact h.known j w' ht' hold l hl
  · rcases hf.last with hold | ⟨-, ht', -, hget⟩
    · exact h.replaced_snoc hV hold c
    · rw [hacc] at hget
      cases hget
      rw [ht] at ht'
      cases ht'

/-- Removing a dead set leaves the rest as it was. -/
theorem dropped {Q' : List Code} (hd : V.Dropped info w Q Q') :
    List.Forall₂ V.Edited P Q' ∧
    (∀ l e j, l ∉ V.covers w → info l = some e → e.lastSet = some j →
      V.FromSet record P Q' e j l) ∧
    ∀ j i w', V.Forwards P j i w' →
      Q'[i]? = some (.identity, [V.recorded record P j w']) := by
  cases hd with
  | none => exact ⟨h.edited, fun l e j _ he hset => h.fromSet l e j he hset, h.replaced⟩
  | dead e k hek hdead =>
    obtain ⟨l₀, hl₀⟩ := List.exists_mem_of_ne_nil _ (hV.proper e.view).1
    obtain ⟨d, hd, hdset, -⟩ := (h.fromSet l₀ e k (hdead l₀ hl₀).2 hek).live.source
    refine ⟨edited_set h.edited hd (Or.inr (Or.inr ⟨_, hdset, rfl⟩)), fun l e' j hl he hset => ?_,
      fun j i w' hf => ?_⟩
    · have hf := h.fromSet l e' j he hset
      refine hf.drop ?_ (named_void hV) (touches_void hV l)
      -- the set behind another entry is another set
      rintro rfl
      obtain ⟨d', hd', hdset', -⟩ := hf.live.source
      rw [hd] at hd'
      cases hd'
      rw [hdset] at hdset'
      have hview : e'.view = e.view := (Prod.mk.inj (Option.some.inj hdset')).2.symm
      have hee := h.whole l l₀ e' e he (hdead l₀ hl₀).2 hview
      exact hl (hdead l (hee ▸ h.covered l e' he)).1
    · have ⟨_, _, d', hd', hget⟩ := hf
      rw [List.getElem?_set_ne]
      · exact h.replaced j i w' hf
      · rintro rfl
        rw [hd] at hd'
        cases hd'
        rw [hdset] at hget
        cases hget

/-- A set, with the set that it makes dead removed. -/
theorem newSet {Q' : List Code} (hn : V.Named c) (hacc : V.access c = some (true, w))
    (hd : V.Dropped info w Q Q') :
    Traced V record (P ++ [c]) (Q' ++ [c])
      (assign (V.covers w) ⟨record w P.length (V.operandOf c w), w, some P.length⟩ info) := by
  obtain ⟨hedited, hfromSet, hreplaced⟩ := h.dropped hV hd
  have hlen : P.length = Q'.length := hedited.length_eq
  refine ⟨edited_snoc hedited (Or.inl rfl), fun l e he hget => ?_, fun l e j he hset => ?_,
    h.assign_whole ⟨_, w, _⟩, h.assign_covered ⟨_, w, _⟩, fun j w' ht hlive l hl => ?_,
    fun j i w' hf => ?_⟩
  · simp only [assign] at he
    split at he
    · cases he
      cases hget
    · obtain ⟨r, hr, hval⟩ := h.fromGet l e he hget
      exact ⟨r, by rw [List.length_append]; omega, hval⟩
  · simp only [assign] at he
    split at he
    · rename_i hl
      cases he
      cases hset
      have hself : (P ++ [c])[P.length]? = some c := snoc_getElem?.mpr (Or.inr ⟨rfl, rfl⟩)
      have hlast : (Q' ++ [c])[P.length]? = some c := snoc_getElem?.mpr (Or.inr ⟨hlen, rfl⟩)
      refine ⟨⟨⟨c, hself, hacc, hl⟩, fun k d hk hdk => ?_⟩, hlast.trans hself.symm,
        recorded_last.symm, fun k d hk hdk => ?_⟩
      · have := (List.getElem?_eq_some_iff.mp hdk).1
        rw [List.length_append, List.length_singleton] at this
        omega
      · have := (List.getElem?_eq_some_iff.mp hdk).1
        rw [List.length_append, List.length_singleton] at this
        omega
    · rename_i hl
      have hquiet : V.touches c l = false := by rw [touches_access hacc, decide_eq_false hl]
      exact (hfromSet l e j hl he hset).snoc hlen (Or.inl hquiet) hn hquiet
  · by_cases hj : j = P.length
    · subst hj
      rcases (hlive l hl).last with ⟨-, hset, -⟩ | ⟨hold, -⟩
      · rw [hacc] at hset
        cases hset
        rw [assign, if_pos hl, recorded_last]
      · exact absurd hold.earlier (Nat.lt_irrefl _)
    · have hback : ∀ l ∈ V.covers w', V.Live P j w' l ∧ l ∉ V.covers w := by
        intro l hl
        rcases (hlive l hl).last with ⟨heq, -⟩ | ⟨hold, hquiet | hget⟩
        · exact absurd heq hj
        · rw [touches_access hacc, decide_eq_false_iff_not] at hquiet
          exact ⟨hold, hquiet⟩
        · rw [hacc] at hget
          cases hget
      rw [assign, if_neg (hback l hl).2, recorded_snoc (hback l hl).1.earlier]
      exact h.known j w' ht (fun l hl => (hback l hl).1) l hl
  · rcases hf.last with hold | ⟨-, -, -, hget⟩
    · have hj : j < P.length := by
        have := hold.2.1.earlier hV
        rw [List.length_take] at this
        omega
      rw [recorded_snoc hj]
      exact snoc_getElem?.mpr (Or.inl (hreplaced j i w' hold))
    · rw [hacc] at hget
      cases hget

/-- What a step of the walk keeps. -/
theorem move {R : List Code} {info' : Tracking L W} (hn : V.Named c)
    (hm : V.Move record P Q info c R info') : Traced V record (P ++ [c]) R info' := by
  cases hm with
  | pass hacc => exact h.pass hV hn hacc
  | skip isSet w hacc ht hnone => exact h.skip hV hn hacc ht hnone
  | forward w l e hacc ht hk hl he => exact h.forward hV hacc hk hl he
  | newGet w hacc hk => exact h.newGet hV hn hacc hk
  | newSet w Q' hacc hd => exact h.newSet hV hn hacc hd

end Traced

end Ruzu.Ir.Views
