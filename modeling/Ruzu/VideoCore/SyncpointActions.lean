import Mathlib
import Ruzu.VideoCore.SyncpointManager

/-!
# Actions of syncpoints

Every step is entered into the ledger of each counter: what is registered with a handle is
pending, has run or has been taken back. An action runs up to a value the counter has taken.
-/

set_option autoImplicit false

namespace Ruzu.SyncpointManager

variable {α : Type}

namespace Event

variable (p : Point)

def insertedAt : Event α → List (ActionEntry α)
  | .inserted q x => if q = p then [x] else []
  | _ => []

def firedAt : Event α → List (ActionEntry α)
  | .fired q entries _ => if q = p then entries else []
  | _ => []

def droppedAt : Event α → List (ActionEntry α)
  | .dropped q x => if q = p then [x] else []
  | _ => []

end Event

/-- What one step adds to the ledger of a counter. -/
def Balanced (p : Point) (st st' : ActionStorage α) (ev : Event α) : Prop :=
  (st.entries ++ ev.insertedAt p).Perm (st'.entries ++ (ev.firedAt p ++ ev.droppedAt p)) ∧
    List.range st'.nextId = List.range st.nextId ++ (ev.insertedAt p).map ActionEntry.id

variable {s s' : State α} {ev : Event α} {p : Point} {t : ℕ}

theorem balanced_same {st : ActionStorage α} (hi : ev.insertedAt p = []) (hf : ev.firedAt p = [])
    (hd : ev.droppedAt p = []) : Balanced p st st ev := by
  rw [Balanced, hi, hf, hd]
  simp

theorem balanced_insert (st : ActionStorage α) (e : BitVec 32) (a : α) :
    Balanced p st (st.insert e a) (.inserted p (st.entry e a)) := by
  have hnone : Event.firedAt p (.inserted p (st.entry e a)) = [] := rfl
  have hnone' : Event.droppedAt p (.inserted p (st.entry e a)) = [] := rfl
  have hone : Event.insertedAt p (.inserted p (st.entry e a)) = [st.entry e a] := if_pos rfl
  rw [Balanced, hnone, hnone', hone, List.append_nil, List.append_nil]
  exact ⟨(List.perm_append_singleton _ _).trans (ActionStorage.insert_perm e a).symm,
    List.range_succ⟩

theorem balanced_fire (st : ActionStorage α) (v : BitVec 32) :
    Balanced p st (st.fireUpTo v) (.fired p (st.due v) v) := by
  have hnone : Event.insertedAt p (.fired p (st.due v) v) = [] := rfl
  have hnone' : Event.droppedAt p (.fired p (st.due v) v) = [] := rfl
  have hall : Event.firedAt p (.fired p (st.due v) v) = st.due v := if_pos rfl
  rw [Balanced, hnone, hnone', hall, List.append_nil, List.append_nil]
  refine ⟨?_, (List.append_nil _).symm⟩
  refine List.Perm.trans (.of_eq ?_) List.perm_append_comm
  exact (List.takeWhile_append_dropWhile).symm

theorem perm_eraseP {β : Type} {q : β → Bool} {l : List β} {x : β} (h : l.find? q = some x) :
    l.Perm (x :: l.eraseP q) := by
  induction l with
  | nil => cases h
  | cons a l ih =>
    rw [List.find?_cons] at h
    rw [List.eraseP_cons]
    cases hq : q a with
    | true =>
      rw [hq] at h
      cases h
      exact .refl _
    | false =>
      rw [hq] at h
      exact ((ih h).cons a).trans (.swap ..)

theorem balanced_remove (st : ActionStorage α) (handle : ℕ) :
    Balanced p st (st.remove handle) ((st.find handle).elim .other (.dropped p)) := by
  cases hx : st.find handle with
  | none =>
    have hsame : st.remove handle = st := by
      rw [ActionStorage.find, List.find?_eq_none] at hx
      rw [ActionStorage.remove, List.eraseP_of_forall_not hx]
    rw [hsame]
    exact balanced_same rfl rfl rfl
  | some x =>
    have hone : Event.droppedAt p (.dropped p x) = [x] := if_pos rfl
    rw [Option.elim_some, Balanced, hone]
    refine ⟨?_, (List.append_nil _).symm⟩
    refine (List.Perm.of_eq (List.append_nil _)).trans ((perm_eraseP hx).trans ?_)
    exact (List.perm_append_singleton x _).symm

theorem balanced_store {s₁ : State α} {st : ActionStorage α} {q : Point}
    (hsame : s₁.storage = (s.store q st).storage) (h : Balanced q (s.storage q) st ev)
    (hothers : ∀ p, p ≠ q → ev.insertedAt p = [] ∧ ev.firedAt p = [] ∧ ev.droppedAt p = [])
    (p : Point) : Balanced p (s.storage p) (s₁.storage p) ev := by
  rw [hsame, State.store_storage]
  by_cases hp : p = q
  · rw [if_pos hp, hp]
    exact h
  · rw [if_neg hp]
    obtain ⟨hi, hf, hd⟩ := hothers p hp
    exact balanced_same hi hf hd

theorem next_balanced (hn : s.next t = some (s', ev)) (p : Point) :
    Balanced p (s.storage p) (s'.storage p) ev := by
  rw [State.next] at hn
  cases ht : s.pc t with
  | idle | asleep q e => rw [ht] at hn; cases hn
  | firing q v =>
    rw [ht] at hn
    obtain ⟨-, hn⟩ := Option.ite_none_right_eq_some.1 hn
    cases hn
    exact balanced_store rfl (balanced_fire _ v)
      (fun r hr => ⟨rfl, if_neg (Ne.symm hr), rfl⟩) p
  | inserting q e a =>
    rw [ht] at hn
    cases hn
    exact balanced_store rfl (balanced_insert _ e a)
      (fun r hr => ⟨if_neg (Ne.symm hr), rfl, rfl⟩) p
  | deregistering q handle =>
    rw [ht] at hn
    obtain ⟨-, hn⟩ := Option.ite_none_right_eq_some.1 hn
    cases hn
    refine balanced_store rfl (balanced_remove _ handle) (fun r hr => ?_) p
    cases (s.storage q).find handle with
    | none => exact ⟨rfl, rfl, rfl⟩
    | some x => exact ⟨rfl, rfl, if_neg (Ne.symm hr)⟩
  | registering q e a | waiting q e =>
    rw [ht] at hn
    obtain ⟨-, hn⟩ := Option.ite_none_right_eq_some.1 hn
    cases hn
    exact balanced_same rfl rfl rfl
  | loading q e a | testing q e =>
    rw [ht] at hn
    dsimp only at hn
    split at hn <;> cases hn <;> exact balanced_same rfl rfl rfl
  | toSleep q e =>
    rw [ht] at hn
    cases hn
    exact balanced_same rfl rfl rfl

theorem step_balanced {a : Action α} (hs : step s a = some (s', ev)) (p : Point) :
    Balanced p (s.storage p) (s'.storage p) ev := by
  cases a with
  | run t => exact next_balanced hs p
  | increment t q | deregister t q handle =>
    obtain ⟨-, hs⟩ := Option.ite_none_right_eq_some.1 hs
    cases hs
    exact balanced_same rfl rfl rfl
  | register t q e a | wait t q e =>
    obtain ⟨-, hs⟩ := Option.ite_none_right_eq_some.1 hs
    split at hs <;> cases hs <;> exact balanced_same rfl rfl rfl
  | wakeSpuriously t =>
    rw [step] at hs
    split at hs <;> cases hs
    exact balanced_same rfl rfl rfl

/-- The actions that got a handle: registered, run, taken back. -/
def registered (p : Point) (es : List (Event α)) : List (ActionEntry α) := es.flatMap (·.insertedAt p)

def run (p : Point) (es : List (Event α)) : List (ActionEntry α) := es.flatMap (·.firedAt p)

def takenBack (p : Point) (es : List (Event α)) : List (ActionEntry α) := es.flatMap (·.droppedAt p)

def Ledger (es : List (Event α)) (s : State α) : Prop :=
  ∀ p, (registered p es).Perm ((s.storage p).entries ++ (run p es ++ takenBack p es)) ∧
    (registered p es).map ActionEntry.id = List.range (s.storage p).nextId

theorem Ledger.step {es : List (Event α)} (h : Ledger es s) {a : Action α}
    (hs : step s a = some (s', ev)) : Ledger (es ++ [ev]) s' := by
  intro p
  obtain ⟨hperm, hids⟩ := h p
  obtain ⟨hmove, hrange⟩ := step_balanced hs p
  simp only [registered, run, takenBack, List.flatMap_append, List.flatMap_singleton] at hperm hids ⊢
  refine ⟨?_, by rw [List.map_append, hids, hrange]⟩
  simp only [← Multiset.coe_eq_coe, ← Multiset.coe_add] at hperm hmove ⊢
  rw [hperm, add_right_comm, hmove]
  abel

/-- Actions run in ascending order, up to a value that the counter has taken. -/
structure Told (es : List (Event α)) (s : State α) : Prop where
  firing : ∀ t p v, s.pc t = .firing p v → .incremented p v ∈ es
  fired : ∀ p xs v, .fired p xs v ∈ es → .incremented p v ∈ es ∧
    (∀ x ∈ xs, x.expectedValue ≤ v) ∧ xs.Pairwise fun x y => x.expectedValue ≤ y.expectedValue
  ran : ∀ p e a v, .ran p e a v ∈ es → e ≤ v

theorem goto_firing {q : Pc α} (hq : ∀ p v, q ≠ .firing p v) {u : ℕ} {v : BitVec 32}
    (h : (s.goto t q).pc u = .firing p v) : s.pc u = .firing p v := by
  change Function.update s.pc t q u = _ at h
  rw [Function.update_apply] at h
  split at h
  · exact absurd h (hq p v)
  · exact h

theorem Told.quiet {es : List (Event α)} (h : Told es s)
    (hfiring : ∀ u p v, s'.pc u = .firing p v → s.pc u = .firing p v)
    (hfired : ∀ p xs v, ev = .fired p xs v → (∃ t, s.pc t = .firing p v) ∧
      (∀ x ∈ xs, x.expectedValue ≤ v) ∧ xs.Pairwise fun x y => x.expectedValue ≤ y.expectedValue)
    (hran : ∀ p e a v, ev = .ran p e a v → e ≤ v) : Told (es ++ [ev]) s' where
  firing u p v hu := List.mem_append_left _ (h.firing u p v (hfiring u p v hu))
  fired p xs v hmem := by
    rcases List.mem_append.1 hmem with hmem | hmem
    · obtain ⟨hinc, hrest⟩ := h.fired p xs v hmem
      exact ⟨List.mem_append_left _ hinc, hrest⟩
    · obtain ⟨⟨t, ht⟩, hrest⟩ := hfired p xs v (List.mem_singleton.1 hmem).symm
      exact ⟨List.mem_append_left _ (h.firing t p v ht), hrest⟩
  ran p e a v hmem := by
    rcases List.mem_append.1 hmem with hmem | hmem
    · exact h.ran p e a v hmem
    · exact hran p e a v (List.mem_singleton.1 hmem).symm

theorem due_le (st : ActionStorage α) {v : BitVec 32} {x : ActionEntry α} (hx : x ∈ st.due v) :
    x.expectedValue ≤ v := by
  simpa using List.mem_takeWhile_imp hx

theorem Told.next {es : List (Event α)} (h : Told es s) (hi : Inv s)
    (hn : s.next t = some (s', ev)) : Told (es ++ [ev]) s' := by
  rw [State.next] at hn
  cases ht : s.pc t with
  | idle | asleep q e => rw [ht] at hn; cases hn
  | firing q v =>
    rw [ht] at hn
    obtain ⟨-, hn⟩ := Option.ite_none_right_eq_some.1 hn
    cases hn
    refine h.quiet (fun u p w hu => goto_firing (fun _ _ hq => by cases hq) (notified_firing.1 hu))
      (fun p xs w heq => ?_) fun p e a w heq => by cases heq
    cases heq
    exact ⟨⟨t, ht⟩, fun x hx => due_le _ hx, (hi.ascending q).sublist (List.takeWhile_sublist _)⟩
  | loading q e a =>
    rw [ht] at hn
    dsimp only at hn
    split at hn
    · rename_i hle
      cases hn
      refine h.quiet (fun u p w hu => goto_firing (fun _ _ hq => by cases hq) hu)
        (fun p xs w heq => by cases heq) fun p f b w heq => ?_
      cases heq
      exact hle
    · cases hn
      exact h.quiet (fun u p w hu => goto_firing (fun _ _ hq => by cases hq) hu)
        (fun p xs w heq => by cases heq) fun p f b w heq => by cases heq
  | deregistering q handle =>
    rw [ht] at hn
    obtain ⟨-, hn⟩ := Option.ite_none_right_eq_some.1 hn
    cases hn
    refine h.quiet (fun u p w hu => goto_firing (fun _ _ hq => by cases hq) hu)
      (fun p xs w heq => ?_) fun p e a w heq => ?_
    · cases hx : (s.storage q).find handle <;> rw [hx] at heq <;> cases heq
    · cases hx : (s.storage q).find handle <;> rw [hx] at heq <;> cases heq
  | registering q e a | waiting q e =>
    rw [ht] at hn
    obtain ⟨-, hn⟩ := Option.ite_none_right_eq_some.1 hn
    cases hn
    exact h.quiet (fun u p w hu => goto_firing (fun _ _ hq => by cases hq) hu)
      (fun p xs w heq => by cases heq) fun p f b w heq => by cases heq
  | testing q e =>
    rw [ht] at hn
    dsimp only at hn
    split at hn <;> cases hn <;>
      exact h.quiet (fun u p w hu => goto_firing (fun _ _ hq => by cases hq) hu)
        (fun p xs w heq => by cases heq) fun p f b w heq => by cases heq
  | inserting q e a | toSleep q e =>
    rw [ht] at hn
    cases hn
    exact h.quiet (fun u p w hu => goto_firing (fun _ _ hq => by cases hq) hu)
      (fun p xs w heq => by cases heq) fun p f b w heq => by cases heq

theorem Told.step {es : List (Event α)} (h : Told es s) (hi : Inv s) {a : Action α}
    (hs : step s a = some (s', ev)) : Told (es ++ [ev]) s' := by
  cases a with
  | run t => exact h.next hi hs
  | increment t q =>
    obtain ⟨-, hs⟩ := Option.ite_none_right_eq_some.1 hs
    cases hs
    have hsame : Told (es ++ [.incremented q (s.value q + 1)]) s := h.quiet (fun _ _ _ hu => hu)
      (fun p xs w heq => by cases heq) fun p f b w heq => by cases heq
    refine { hsame with firing := ?_ }
    intro u p v hu
    change Function.update s.pc t _ u = _ at hu
    rw [Function.update_apply] at hu
    split at hu
    · cases hu
      exact List.mem_append_right _ (List.mem_singleton_self _)
    · exact List.mem_append_left _ (h.firing u p v hu)
  | register t q e a =>
    obtain ⟨-, hs⟩ := Option.ite_none_right_eq_some.1 hs
    split at hs
    · rename_i hle
      cases hs
      refine h.quiet (fun _ _ _ hu => hu) (fun p xs w heq => by cases heq) fun p f b w heq => ?_
      cases heq
      exact hle
    · cases hs
      exact h.quiet (fun u p w hu => goto_firing (fun _ _ hq => by cases hq) hu)
        (fun p xs w heq => by cases heq) fun p f b w heq => by cases heq
  | deregister t q handle =>
    obtain ⟨-, hs⟩ := Option.ite_none_right_eq_some.1 hs
    cases hs
    exact h.quiet (fun u p w hu => goto_firing (fun _ _ hq => by cases hq) hu)
      (fun p xs w heq => by cases heq) fun p f b w heq => by cases heq
  | wait t q e =>
    obtain ⟨-, hs⟩ := Option.ite_none_right_eq_some.1 hs
    split at hs
    · cases hs
      exact h.quiet (fun _ _ _ hu => hu) (fun p xs w heq => by cases heq)
        fun p f b w heq => by cases heq
    · cases hs
      exact h.quiet (fun u p w hu => goto_firing (fun _ _ hq => by cases hq) hu)
        (fun p xs w heq => by cases heq) fun p f b w heq => by cases heq
  | wakeSpuriously t =>
    rw [SyncpointManager.step] at hs
    split at hs <;> cases hs
    exact h.quiet (fun u p w hu => goto_firing (fun _ _ hq => by cases hq) hu)
      (fun p xs w heq => by cases heq) fun p f b w heq => by cases heq

/-- An action that got a handle is pending, has run once or has been taken back, and the handles
of a counter are all different. Actions run in ascending order and never before the counter has
taken a value that is large enough. -/
theorem registered_actions_run_once {es : List (Event α)} (h : Run es s) :
    (∀ p, (registered p es).Perm ((s.storage p).entries ++ (run p es ++ takenBack p es)) ∧
      (registered p es).map ActionEntry.id = List.range (s.storage p).nextId) ∧
    (∀ p xs v, .fired p xs v ∈ es → .incremented p v ∈ es ∧ (∀ x ∈ xs, x.expectedValue ≤ v) ∧
      xs.Pairwise fun x y => x.expectedValue ≤ y.expectedValue) ∧
    ∀ p e a v, .ran p e a v ∈ es → e ≤ v := by
  obtain ⟨-, hledger, htold⟩ := h.invariant (fun es s => Inv s ∧ Ledger es s ∧ Told es s)
    ⟨inv_new, fun p => ⟨.nil, rfl⟩, fun t p v ht => (by cases ht),
      fun p xs v hmem => absurd hmem List.not_mem_nil, fun p e a v hmem => absurd hmem List.not_mem_nil⟩
    fun es s a s' ev hp _ hs => ⟨hp.1.step hs, hp.2.1.step hs, hp.2.2.step hp.1 hs⟩
  exact ⟨hledger, htold.fired, htold.ran⟩

theorem registered_actions_run_once_register :
    (∀ p, (registered p (after waitAndRegister).1).Perm
        (((after waitAndRegister).2.storage p).entries ++
          (run p (after waitAndRegister).1 ++ takenBack p (after waitAndRegister).1)) ∧
      (registered p (after waitAndRegister).1).map ActionEntry.id =
        List.range ((after waitAndRegister).2.storage p).nextId) ∧
    (∀ p xs v, .fired p xs v ∈ (after waitAndRegister).1 →
      .incremented p v ∈ (after waitAndRegister).1 ∧ (∀ x ∈ xs, x.expectedValue ≤ v) ∧
        xs.Pairwise fun x y => x.expectedValue ≤ y.expectedValue) ∧
    ∀ p e a v, .ran p e a v ∈ (after waitAndRegister).1 → e ≤ v :=
  registered_actions_run_once (run_after (by decide))

end Ruzu.SyncpointManager
