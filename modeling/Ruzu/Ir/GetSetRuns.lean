import Mathlib
import Ruzu.Ir.GetSet

/-!
# Runs of the eliminated code

`Held` is about one run of the original code: an entry that comes from a get
is what its registers hold. With it every step of the walk keeps the run,
provided that the value recorded for a forwarded set is what a get of its view
would return.
-/

set_option autoImplicit false

namespace Ruzu.Ir.Views

variable {L : Type} [DecidableEq L] {C : L → Type} {W : Type} {E : Type*}
variable {V : Views L C W} {record : W → ℕ → Value → Value} {other : Machine (State C E)}
variable {P Q R : List Code} {c : Code} {j i : ℕ} {w : W} {l : L} {info info' : Tracking L W}
variable {s : State C E}

/-- The value recorded for the set at `j` is what a get would return. -/
def Exact (V : Views L C W) (record : W → ℕ → Value → Value) (m : Machine (State C E))
    (P : List Code) (j : ℕ) (w : W) (s : State C E) : Prop :=
  (evalArg (runCode m P s).1 (V.recorded record P j w)).value =
    V.readAs w (V.written w (V.stored m P j w s))

/-- An entry that comes from a get is what another get would return. -/
def Held (V : Views L C W) (m : Machine (State C E)) (P : List Code) (info : Tracking L W)
    (s : State C E) : Prop :=
  ∀ e, e.lastSet = none → (∀ l ∈ V.covers e.view, info l = some e) →
    (evalArg (runCode m P s).1 e.value).value = V.readAs e.view (runCode m P s).2.cells

omit [DecidableEq L] in
theorem stored_snoc {m : Machine (State C E)} (hj : j < P.length) :
    V.stored m (P ++ [c]) j w s = V.stored m P j w s := by
  rw [stored, stored, List.take_append_of_le_length (Nat.le_of_lt hj), List.getD_append _ _ _ _ hj]

omit [DecidableEq L] in
theorem stored_last {m : Machine (State C E)} :
    V.stored m (P ++ [c]) P.length w s =
      (evalArg (runCode m P s).1 (V.operandOf c w)).value := by
  rw [stored, List.take_append_of_le_length (Nat.le_refl _), List.take_length,
    List.getD_append_right _ _ _ _ (Nat.le_refl _), Nat.sub_self, List.getD_cons_zero]

section Run

variable (hV : V.Lawful) (hr : V.Respects other)
include hV hr

/-- What a set stores has the type of its view, and comes from earlier. -/
theorem stored_ty (hty : Typed [] P) (hc : P[j]? = some c) (hacc : V.access c = some (true, w)) :
    (V.stored (V.exec other) P j w s).ty = V.ty w ∧ ∀ r, V.operandOf c w = .inst r → r < j := by
  obtain ⟨hnum, htype⟩ := (hV.opcode _ _ _ _ hacc).2 rfl
  have hget : P.getD j (.void, []) = c := by
    rw [List.getD_eq_getElem?_getD, hc, Option.getD_some]
  rw [stored, hget, ← reached_eq_take]
  exact operand_ty (sensible_exec hV hr) hty hc hnum htype (hV.proper w).2.1 (hV.proper w).2.2 s

/-- While a set is live its registers hold what was stored. -/
theorem live_cells (hn : ∀ c ∈ P, V.Named c) (h : V.Live P j w l) :
    (runCode (V.exec other) P s).2.cells l =
      V.written w (V.stored (V.exec other) P j w s) l := by
  induction P using List.reverseRecOn with
  | nil => exact absurd h.earlier (Nat.not_lt_zero j)
  | append_singleton P c ih =>
    rw [runCode_snoc, Ssa.next]
    rcases h.last with ⟨rfl, hset, hl⟩ | ⟨hold, hview⟩
    · rw [step_set hV hset, stored_last]
      simp only [store, if_pos hl]
    · rw [stored_snoc hold.earlier, ← ih (fun d hd => hn d (by simp [hd])) hold]
      rcases hview with hquiet | hget
      · exact step_cells_untouched hr hV (hn c (by simp)) hquiet _ _
      · rw [step_get hV hget]

/-- Removing a set that the next set of its registers makes dead. -/
theorem run_dead {e : Entry W} (hf : ∀ l ∈ V.covers e.view, V.FromSet record P Q e j l)
    (hcov : ∀ l ∈ V.covers e.view, l ∈ V.covers w) (hlen : P.length = Q.length)
    (hacc : V.access c = some (true, w)) :
    runCode (V.exec other) (Q.set j (.void, []) ++ [c]) s =
      runCode (V.exec other) (Q ++ [c]) s := by
  obtain ⟨l₀, hl₀⟩ := List.exists_mem_of_ne_nil _ (hV.proper e.view).1
  have hj : j < Q.length := hlen ▸ (hf l₀ hl₀).live.earlier
  obtain ⟨d, hd, hset, -⟩ := (hf l₀ hl₀).live.source
  rw [← (hf l₀ hl₀).kept] at hd
  have hset_snoc : Q.set j (.void, []) ++ [c] = (Q ++ [c]).set j (.void, []) := by
    rw [List.set_append_left _ _ hj]
  have hold : (Q ++ [c])[j]? = some d := by rw [List.getElem?_append_left hj, hd]
  have hvoid : ((Q ++ [c]).set j (.void, []))[j]? = some (.void, []) :=
    List.getElem?_set_self (by rw [List.length_append]; omega)
  have hlast : (Q ++ [c])[Q.length]? = some c := snoc_getElem?.mpr (Or.inr ⟨rfl, rfl⟩)
  rw [hset_snoc, ← reached_all, ← reached_all, List.length_set, List.length_append,
    List.length_singleton]
  refine Ssa.upTo_settled (R := Apart (V.covers e.view)) (f := step (V.exec other) c)
    (steps_getElem? ?_) (steps_getElem? hlast) (settles_of_set hV hacc hcov)
    (Ssa.upTo_related hj ?_ fun k hjk hk => ?_)
  · rw [List.getElem?_set_ne (by omega), hlast]
  · rw [← reached, ← reached, reached_succ hvoid, reached_succ hold, Ssa.next, Ssa.next,
      reached_set_of_le (Nat.le_refl _), step_void, step_set hV hset]
    refine ⟨rfl, rfl, fun l hl => ?_⟩
    simp only [store, if_neg hl]
  · obtain ⟨d', hd'⟩ : ∃ d', Q[k]? = some d' := ⟨_, List.getElem?_eq_getElem hk⟩
    have hsnoc : (Q ++ [c])[k]? = some d' := by rw [List.getElem?_append_left hk, hd']
    refine ⟨step (V.exec other) d', steps_getElem? ?_, steps_getElem? hsnoc,
      blind_of_untouched hr hV ((hf l₀ hl₀).quiet k d' hjk hd').1
        fun l hl => ((hf l hl).quiet k d' hjk hd').2⟩
    rw [List.getElem?_set_ne (by omega), hsnoc]

theorem held_move (h : V.Traced record P Q info) (hheld : V.Held (V.exec other) P info s)
    (hn : V.Named c) (hm : V.Move record P Q info c R info') :
    V.Held (V.exec other) (P ++ [c]) info' s := by
  -- an entry stays true where the instruction leaves its registers alone
  have hkeep : ∀ e, e.lastSet = none → (∀ l ∈ V.covers e.view, info l = some e) →
      (∀ l ∈ V.covers e.view, (runCode (V.exec other) (P ++ [c]) s).2.cells l =
        (runCode (V.exec other) P s).2.cells l) →
      (evalArg (runCode (V.exec other) (P ++ [c]) s).1 e.value).value =
        V.readAs e.view (runCode (V.exec other) (P ++ [c]) s).2.cells := by
    intro e hget hall hcells
    obtain ⟨l, hl⟩ := List.exists_mem_of_ne_nil _ (hV.proper e.view).1
    obtain ⟨r, hlt, hval⟩ := h.fromGet l e (hall l hl) hget
    rw [hV.reads _ _ _ hcells, evalArg_snoc, hheld e hget hall]
    intro r' hr'
    rw [hval] at hr'
    cases hr'
    exact hlt
  cases hm with
  | pass hacc =>
    intro e hget hall
    have hold : ∀ l ∈ V.covers e.view, info l = some e ∧ V.touches c l = false := by
      intro l hl
      have he := hall l hl
      simp only at he
      split at he
      · cases he
      · rename_i hf
        exact ⟨he, by rw [touches_none hacc]; simpa using hf⟩
    refine hkeep e hget (fun l hl => (hold l hl).1) fun l hl => ?_
    rw [runCode_snoc]
    exact step_cells_untouched hr hV hn (hold l hl).2 _ _
  | skip isSet w hacc ht hnone =>
    intro e hget hall
    refine hkeep e hget hall fun l hl => ?_
    rw [runCode_snoc]
    refine step_cells_untouched hr hV hn ?_ _ _
    rw [touches_access hacc, decide_eq_false]
    intro hlw
    have he := hall l hl
    rw [hnone l hlw] at he
    cases he
  | forward w l e hacc ht hk hl he =>
    intro e' hget hall
    refine hkeep e' hget hall fun l' _ => ?_
    rw [runCode_snoc, Ssa.next, step_get hV hacc]
  | newGet w hacc hk =>
    have hstate : (runCode (V.exec other) (P ++ [c]) s).2 = (runCode (V.exec other) P s).2 := by
      rw [runCode_snoc, Ssa.next, step_get hV hacc]
    intro e hget hall
    by_cases hnew : e = ⟨.inst P.length, w, none⟩
    · subst hnew
      rw [hstate, runCode_snoc, Ssa.next, step_get hV hacc]
      simp [evalArg, List.getD_eq_getElem?_getD, runCode_length]
    · refine hkeep e hget (fun l hl => ?_) fun l _ => by rw [hstate]
      have he := hall l hl
      simp only [assign] at he
      split at he
      · exact absurd (Option.some.inj he).symm hnew
      · exact he
  | newSet w Q' hacc hd =>
    intro e hget hall
    have hold : ∀ l ∈ V.covers e.view, info l = some e ∧ l ∉ V.covers w := by
      intro l hl
      have he := hall l hl
      simp only [assign] at he
      split at he
      · cases he
        cases hget
      · rename_i hlw
        exact ⟨he, hlw⟩
    refine hkeep e hget (fun l hl => (hold l hl).1) fun l hl => ?_
    rw [runCode_snoc, Ssa.next, step_set hV hacc]
    simp only [store, if_neg (hold l hl).2]

/-- A known entry stands for what the get would return. -/
theorem known_value (h : V.Traced record P Q info) (hheld : V.Held (V.exec other) P info s)
    (hn : ∀ c ∈ P, V.Named c) {e : Entry W} (hall : ∀ l ∈ V.covers e.view, info l = some e)
    (hexact : ∀ j, V.LiveAll P j e.view → V.Exact record (V.exec other) P j e.view s) :
    (evalArg (runCode (V.exec other) P s).1 e.value).value =
      V.readAs e.view (runCode (V.exec other) P s).2.cells := by
  cases hlast : e.lastSet with
  | none => exact hheld e hlast hall
  | some j =>
    have hfrom : ∀ l ∈ V.covers e.view, V.FromSet record P Q e j l :=
      fun l hl => h.fromSet l e j (hall l hl) hlast
    obtain ⟨l₀, hl₀⟩ := List.exists_mem_of_ne_nil _ (hV.proper e.view).1
    have hcells := hV.reads e.view _ _ fun l hl =>
      live_cells (s := s) hV hr hn (hfrom l hl).live
    rw [hcells, (hfrom l₀ hl₀).value]
    exact hexact j fun l hl => (hfrom l hl).live

theorem same_move (h : V.Traced record P Q info) (hheld : V.Held (V.exec other) P info s)
    (hn : ∀ c ∈ P, V.Named c) (hm : V.Move record P Q info c R info')
    (hsame : runCode (V.exec other) Q s = runCode (V.exec other) P s)
    (hexact : ∀ j w, V.access c = some (false, w) → V.tracked w = true → V.LiveAll P j w →
      V.Exact record (V.exec other) P j w s) :
    runCode (V.exec other) R s = runCode (V.exec other) (P ++ [c]) s := by
  have hnext : runCode (V.exec other) (Q ++ [c]) s = runCode (V.exec other) (P ++ [c]) s := by
    rw [runCode_snoc, runCode_snoc, hsame]
  cases hm with
  | pass hacc => exact hnext
  | skip isSet w hacc ht hnone => exact hnext
  | forward w l e hacc ht hk hl he =>
    obtain ⟨e', rfl, hall⟩ := h.known_entry hV hk
    rw [hall l hl] at he
    cases he
    rw [runCode_snoc, runCode_snoc, hsame, Ssa.next, Ssa.next, step_identity, step_get hV hacc,
      known_value hV hr h hheld hn hall fun j => hexact j _ hacc ht]
  | newGet w hacc hk => exact hnext
  | newSet w Q' hacc hd =>
    cases hd with
    | none => exact hnext
    | dead e j hek hdead =>
      rw [← hnext]
      exact run_dead hV hr (fun l hl => h.fromSet l e j (hdead l hl).2 hek)
        (fun l hl => (hdead l hl).1) h.length hacc

/-- What the walk keeps along the way, from every state. -/
structure Kept (V : Views L C W) (record : W → ℕ → Value → Value) (other : Machine (State C E))
    (P Q : List Code) (info : Tracking L W) : Prop where
  named : ∀ c ∈ P, V.Named c
  traced : V.Traced record P Q info
  held : ∀ s, V.Held (V.exec other) P info s
  same : ∀ s, (∀ j i w, V.Forwards P j i w → V.Exact record (V.exec other) (P.take i) j w s) →
    runCode (V.exec other) Q s = runCode (V.exec other) P s

omit hr in
theorem kept_nil : V.Kept record other [] [] fun _ => none where
  named := by simp
  traced := traced_nil
  held s e _ hall := by
    obtain ⟨l, hl⟩ := List.exists_mem_of_ne_nil _ (hV.proper e.view).1
    cases hall l hl
  same _ _ := rfl

theorem Kept.move (h : V.Kept record other P Q info) (hn : V.Named c)
    (hm : V.Move record P Q info c R info') : V.Kept record other (P ++ [c]) R info' where
  named d hd := by
    rcases List.mem_append.mp hd with hold | hlast
    · exact h.named d hold
    · rw [List.mem_singleton.mp hlast]
      exact hn
  traced := h.traced.move hV hn hm
  held s := held_move hV hr h.traced (h.held s) hn hm
  same s hexact := by
    refine same_move hV hr h.traced (h.held s) h.named hm (h.same s fun j i w hf => ?_)
      fun j w hget ht hlive => ?_
    · obtain ⟨ht, hlive, d, hd, hget⟩ := hf
      have hi := (List.getElem?_eq_some_iff.mp hd).1
      have htake : (P ++ [c]).take i = P.take i := List.take_append_of_le_length (by omega)
      rw [← htake] at hlive ⊢
      exact hexact j i w ⟨ht, hlive, d, snoc_getElem?.mpr (Or.inl hd), hget⟩
    · have htake : (P ++ [c]).take P.length = P := by simp
      have := hexact j P.length w
      rw [htake] at this
      refine this ⟨ht, by rwa [htake], c, snoc_getElem?.mpr (Or.inr ⟨rfl, rfl⟩), hget⟩

/-- Where the two codes run alike, a forwarded set is exact. -/
theorem exact_of_same (h : V.Traced record P Q info) (hn : ∀ c ∈ P, V.Named c)
    (hsame : runCode (V.exec other) Q s = runCode (V.exec other) P s) (hf : V.Forwards P j i w)
    (hrefs : ∀ r, V.recorded record P j w = .inst r → r < i) :
    V.Exact record (V.exec other) (P.take i) j w s := by
  have hreplaced := h.replaced j i w hf
  obtain ⟨-, hlive, c, hc, hget⟩ := hf
  have hi := (List.getElem?_eq_some_iff.mp hc).1
  have hj := hlive.earlier hV
  rw [List.length_take, Nat.min_eq_left (Nat.le_of_lt hi)] at hj
  have hrec : V.recorded record (P.take i) j w = V.recorded record P j w := by
    simp [recorded, List.getD_eq_getElem?_getD, hj]
  have hnew := runCode_getD (m := V.exec other) hreplaced s (.plain .void)
  have hold := runCode_getD (m := V.exec other) hc s (.plain .void)
  rw [hsame, hold, step_identity, step_get hV hget, reached_eq_take, reached_eq_take,
    ← evalArg_take (by rw [← h.length]; omega) hrefs, hsame,
    evalArg_take (by omega) hrefs] at hnew
  have hcells := hV.reads w _ _ fun l hl => live_cells (s := s) hV hr
    (fun d hd => hn d (List.mem_of_mem_take hd)) (hlive l hl)
  rw [hcells] at hnew
  rw [Exact, hrec]
  exact (congrArg Outcome.value hnew).symm

end Run

end Ruzu.Ir.Views
