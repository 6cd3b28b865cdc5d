import Mathlib
import Ruzu.Lib.Transition

/-!
# Syncpoints

`SyncpointManager`, one atomic step at a time. The counters are atomic and are read and
incremented without the guard; the guard protects the lists of registered actions, and
waiting threads sleep on it. A thread is where it stands in the code, with its locals.
-/

set_option autoImplicit false

namespace Ruzu.SyncpointManager

def numMaxSyncpoints : ℕ := 192

inductive Side where
  | guest | host
  deriving DecidableEq

/-- A counter: the side and the syncpoint id. -/
abbrev Point := Side × ℕ

variable {α : Type}

structure ActionEntry (α : Type) where
  id : ℕ
  expectedValue : BitVec 32
  action : α
  deriving DecidableEq

structure ActionStorage (α : Type) where
  entries : List (ActionEntry α)
  nextId : ℕ

namespace ActionStorage

def new : ActionStorage α := ⟨[], 0⟩

/-- The entry that `insert` makes; its id is the handle. -/
def entry (s : ActionStorage α) (expectedValue : BitVec 32) (action : α) : ActionEntry α :=
  ⟨s.nextId, expectedValue, action⟩

/-- In front of the first entry that expects as much. -/
def insert (s : ActionStorage α) (expectedValue : BitVec 32) (action : α) : ActionStorage α where
  entries := s.entries.takeWhile (fun e => e.expectedValue < expectedValue) ++
    s.entry expectedValue action :: s.entries.dropWhile (fun e => e.expectedValue < expectedValue)
  nextId := s.nextId + 1

def find (s : ActionStorage α) (handle : ℕ) : Option (ActionEntry α) :=
  s.entries.find? fun e => e.id = handle

def remove (s : ActionStorage α) (handle : ℕ) : ActionStorage α :=
  { s with entries := s.entries.eraseP fun e => e.id = handle }

/-- The entries whose actions `fire_up_to` runs, in order. -/
def due (s : ActionStorage α) (newValue : BitVec 32) : List (ActionEntry α) :=
  s.entries.takeWhile fun e => e.expectedValue ≤ newValue

def fireUpTo (s : ActionStorage α) (newValue : BitVec 32) : ActionStorage α :=
  { s with entries := s.entries.dropWhile fun e => e.expectedValue ≤ newValue }

end ActionStorage

/-- Where a thread stands: in `increment`, `register_action`, `deregister_*_action`, `wait`. -/
inductive Pc (α : Type) where
  | idle
  | firing (p : Point) (newValue : BitVec 32)
  | registering (p : Point) (expectedValue : BitVec 32) (action : α)
  | loading (p : Point) (expectedValue : BitVec 32) (action : α)
  | inserting (p : Point) (expectedValue : BitVec 32) (action : α)
  | deregistering (p : Point) (handle : ℕ)
  | waiting (p : Point) (expectedValue : BitVec 32)
  | testing (p : Point) (expectedValue : BitVec 32)
  | toSleep (p : Point) (expectedValue : BitVec 32)
  | asleep (p : Point) (expectedValue : BitVec 32)
  deriving DecidableEq

namespace Pc

def isIdle : Pc α → Bool
  | .idle => true
  | _ => false

/-- The thread has the guard. -/
def inside : Pc α → Bool
  | .loading _ _ _ | .inserting _ _ _ | .testing _ _ | .toSleep _ _ => true
  | _ => false

/-- The thread has found the counter below what it expects, and acts on it. -/
def expects : Pc α → Option (Point × BitVec 32)
  | .inserting p e _ | .toSleep p e | .asleep p e => some (p, e)
  | _ => none

/-- `notify_all` of one side: a thread takes the guard and tests again. -/
def notified (side : Side) : Pc α → Pc α
  | .asleep p e => if p.1 = side then .waiting p e else .asleep p e
  | pc => pc

end Pc

structure State (α : Type) where
  value : Point → BitVec 32
  storage : Point → ActionStorage α
  guard : Option ℕ
  pc : ℕ → Pc α

def State.new : State α := ⟨fun _ => 0, fun _ => .new, none, fun _ => .idle⟩

/-- What a step does that others see. -/
inductive Event (α : Type) where
  | other
  | incremented (p : Point) (newValue : BitVec 32)
  /-- The counter had reached the value, so the action runs at once. -/
  | ran (p : Point) (expectedValue : BitVec 32) (action : α) (value : BitVec 32)
  | inserted (p : Point) (entry : ActionEntry α)
  | dropped (p : Point) (entry : ActionEntry α)
  | fired (p : Point) (entries : List (ActionEntry α)) (newValue : BitVec 32)
  deriving DecidableEq

namespace State

variable (s : State α)

def goto (t : ℕ) (pc : Pc α) : State α := { s with pc := Function.update s.pc t pc }

def store (p : Point) (storage : ActionStorage α) : State α :=
  { s with storage := Function.update s.storage p storage }

def lock (t : ℕ) : State α := { s with guard := some t }

def unlock : State α := { s with guard := none }

def notifyAll (side : Side) : State α := { s with pc := fun t => (s.pc t).notified side }

/-- The next step of a thread that is neither idle nor asleep. -/
def next (t : ℕ) : Option (State α × Event α) :=
  match s.pc t with
  | .idle | .asleep _ _ => none
  | .firing p v =>
    if s.guard = none then
      some (((s.goto t .idle).store p ((s.storage p).fireUpTo v)).notifyAll p.1,
        .fired p ((s.storage p).due v) v)
    else none
  | .registering p e a =>
    if s.guard = none then some ((s.goto t (.loading p e a)).lock t, .other) else none
  | .loading p e a =>
    if e ≤ s.value p then some ((s.goto t .idle).unlock, .ran p e a (s.value p))
    else some (s.goto t (.inserting p e a), .other)
  | .inserting p e a =>
    some (((s.goto t .idle).store p ((s.storage p).insert e a)).unlock,
      .inserted p ((s.storage p).entry e a))
  | .deregistering p handle =>
    if s.guard = none then
      some ((s.goto t .idle).store p ((s.storage p).remove handle),
        ((s.storage p).find handle).elim .other (.dropped p))
    else none
  | .waiting p e => if s.guard = none then some ((s.goto t (.testing p e)).lock t, .other) else none
  | .testing p e =>
    if s.value p < e then some (s.goto t (.toSleep p e), .other)
    else some ((s.goto t .idle).unlock, .other)
  | .toSleep p e => some ((s.goto t (.asleep p e)).unlock, .other)

end State

inductive Action (α : Type) where
  | increment (t : ℕ) (p : Point)
  | register (t : ℕ) (p : Point) (expectedValue : BitVec 32) (action : α)
  | deregister (t : ℕ) (p : Point) (handle : ℕ)
  | wait (t : ℕ) (p : Point) (expectedValue : BitVec 32)
  | run (t : ℕ)
  | wakeSpuriously (t : ℕ)

/-- An idle thread may make a call. `fetch_add` and the first load of a counter come before
the guard. An id out of range panics. -/
def step (s : State α) : Action α → Option (State α × Event α)
  | .increment t p =>
    if (s.pc t).isIdle = true ∧ p.2 < numMaxSyncpoints then
      some ({ s.goto t (.firing p (s.value p + 1)) with
        value := Function.update s.value p (s.value p + 1) }, .incremented p (s.value p + 1))
    else none
  | .register t p e a =>
    if (s.pc t).isIdle = true ∧ p.2 < numMaxSyncpoints then
      if e ≤ s.value p then some (s, .ran p e a (s.value p))
      else some (s.goto t (.registering p e a), .other)
    else none
  | .deregister t p handle =>
    if (s.pc t).isIdle = true ∧ p.2 < numMaxSyncpoints then
      some (s.goto t (.deregistering p handle), .other)
    else none
  | .wait t p e =>
    if (s.pc t).isIdle = true ∧ p.2 < numMaxSyncpoints then
      if e ≤ s.value p then some (s, .other) else some (s.goto t (.waiting p e), .other)
    else none
  | .run t => s.next t
  | .wakeSpuriously t =>
    match s.pc t with
    | .asleep p e => some (s.goto t (.waiting p e), .other)
    | _ => none

/-- Any number of threads, in any order of their steps. -/
abbrev Run : List (Event α) → State α → Prop := Transition.Run step (fun _ _ => True) State.new

/-- The events and the state after the actions of a list. -/
def after (as : List (Action α)) : List (Event α) × State α :=
  (Transition.exec step (fun _ _ => True) State.new as).getD ([], State.new)

theorem run_after {as : List (Action α)}
    (h : (Transition.exec step (fun _ _ => True) State.new as).isSome = true) :
    Run (after as).1 (after as).2 := by
  obtain ⟨⟨es, s⟩, hexec⟩ := Option.isSome_iff_exists.1 h
  rw [after, hexec]
  exact Transition.exec_run hexec

/-- An action waits for 2 and a thread for 1, when another thread increments the counter. -/
def waitAndRegister : List (Action ℕ) :=
  [.register 0 (.host, 3) 2 7, .run 0, .run 0, .run 0, .wait 1 (.host, 3) 1, .run 1, .run 1, .run 1,
    .increment 2 (.host, 3), .run 2, .run 1, .run 1]

/-! ### The list of one counter -/

namespace ActionStorage

variable {s : ActionStorage α}

def Ascending (s : ActionStorage α) : Prop :=
  s.entries.Pairwise fun e f => e.expectedValue ≤ f.expectedValue

/-- Behind the dropped ones none would be dropped. -/
theorem dropWhile_above {β : Type} {keep : β → Bool} {r : β → β → Prop}
    (hdown : ∀ x y, r x y → keep y = true → keep x = true) {l : List β} (h : l.Pairwise r) {x : β}
    (hx : x ∈ l.dropWhile keep) : keep x = false := by
  induction l with
  | nil => cases hx
  | cons a l ih =>
    rw [List.pairwise_cons] at h
    rw [List.dropWhile_cons] at hx
    split at hx
    · exact ih h.2 hx
    · rename_i ha
      rcases List.mem_cons.1 hx with rfl | hmem
      · simpa using ha
      · by_contra hkeep
        exact ha (hdown a x (h.1 x hmem) (by simpa using hkeep))

theorem insert_perm (e : BitVec 32) (a : α) :
    (s.insert e a).entries.Perm (s.entry e a :: s.entries) := by
  rw [insert]
  refine List.perm_middle.trans ?_
  rw [List.takeWhile_append_dropWhile]

theorem insert_ascending (h : s.Ascending) (e : BitVec 32) (a : α) : (s.insert e a).Ascending := by
  have hsplit := h
  rw [Ascending, ← List.takeWhile_append_dropWhile (p := fun x => x.expectedValue < e)
    (l := s.entries), List.pairwise_append] at hsplit
  obtain ⟨hfront, hback, hacross⟩ := hsplit
  have hsmall (x : ActionEntry α)
      (hx : x ∈ s.entries.takeWhile fun x => x.expectedValue < e) : x.expectedValue ≤ e := by
    have := List.mem_takeWhile_imp hx
    simp only [decide_eq_true_eq] at this
    exact BitVec.le_of_lt this
  have hlarge (x : ActionEntry α)
      (hx : x ∈ s.entries.dropWhile fun x => x.expectedValue < e) : e ≤ x.expectedValue := by
    have hnot := dropWhile_above (fun x y hxy hy => by
      rw [decide_eq_true_eq] at hy ⊢
      exact Nat.lt_of_le_of_lt hxy hy) h hx
    simpa using hnot
  rw [Ascending, insert, List.pairwise_append, List.pairwise_cons]
  refine ⟨hfront, ⟨hlarge, hback⟩, fun x hx y hy => ?_⟩
  rcases List.mem_cons.1 hy with rfl | hy
  · exact hsmall x hx
  · exact hacross x hx y hy

theorem remove_ascending (h : s.Ascending) (handle : ℕ) : (s.remove handle).Ascending :=
  h.sublist List.eraseP_sublist

theorem fireUpTo_ascending (h : s.Ascending) (v : BitVec 32) : (s.fireUpTo v).Ascending :=
  h.sublist (List.dropWhile_sublist _)

/-- What is left expects more. -/
theorem fireUpTo_lt (h : s.Ascending) {v : BitVec 32} {x : ActionEntry α}
    (hx : x ∈ (s.fireUpTo v).entries) : v < x.expectedValue := by
  have hnot := dropWhile_above (fun x y hxy hy => by
    rw [decide_eq_true_eq] at hy ⊢
    exact BitVec.le_trans hxy hy) h hx
  simpa using hnot

end ActionStorage

/-! ### No wake-up is lost -/

section Wakes

/-- The counter is below the value, or the thread that has taken it there has yet to notify. -/
def State.Pending (s : State α) (p : Point) (e : BitVec 32) : Prop :=
  s.value p < e ∨ ∃ t, s.pc t = .firing p e

structure Inv (s : State α) : Prop where
  guard : ∀ t, (s.pc t).inside = true ↔ s.guard = some t
  ascending : ∀ p, (s.storage p).Ascending
  stored : ∀ p, ∀ x ∈ (s.storage p).entries, s.Pending p x.expectedValue
  expects : ∀ t p e, (s.pc t).expects = some (p, e) → s.Pending p e

theorem inv_new : Inv (State.new : State α) where
  guard t := ⟨fun h => (by cases h), fun h => (by cases h)⟩
  ascending p := .nil
  stored p x hx := absurd hx List.not_mem_nil
  expects t p e h := by cases h

variable {s : State α} {t : ℕ}

/-- A thread that is not about to notify moves on. -/
theorem Inv.goto (h : Inv s) {q : Pc α} {g : Option ℕ} (hinside : q.inside = true ↔ g = some t)
    (hothers : ∀ u, u ≠ t → (g = some u ↔ s.guard = some u))
    (hexpects : ∀ p e, q.expects = some (p, e) → s.Pending p e)
    (hfiring : ∀ p v, s.pc t ≠ .firing p v) : Inv { s.goto t q with guard := g } := by
  have hpc (u : ℕ) : ({ s.goto t q with guard := g } : State α).pc u = if u = t then q else s.pc u :=
    Function.update_apply ..
  have hpending {p : Point} {e : BitVec 32} (hp : s.Pending p e) :
      State.Pending { s.goto t q with guard := g } p e := by
    refine hp.imp_right fun ⟨u, hu⟩ => ⟨u, ?_⟩
    rw [hpc, if_neg fun hut : u = t => hfiring p e (hut ▸ hu), hu]
  constructor
  · intro u
    rw [hpc]
    by_cases hu : u = t
    · rw [if_pos hu, hu]
      exact hinside
    · rw [if_neg hu, h.guard u]
      exact (hothers u hu).symm
  · exact h.ascending
  · exact fun p x hx => hpending (h.stored p x hx)
  · intro u p e he
    rw [hpc] at he
    by_cases hu : u = t
    · exact hpending (hexpects p e (by rwa [if_pos hu] at he))
    · exact hpending (h.expects u p e (by rwa [if_neg hu] at he))

theorem Inv.move (h : Inv s) {q : Pc α} (hinside : q.inside = (s.pc t).inside)
    (hexpects : ∀ p e, q.expects = some (p, e) → s.Pending p e)
    (hfiring : ∀ p v, s.pc t ≠ .firing p v) : Inv (s.goto t q) :=
  h.goto (hinside ▸ h.guard t) (fun _ _ => Iff.rfl) hexpects hfiring

theorem Inv.lock (h : Inv s) {q : Pc α} (hfree : s.guard = none) (hinside : q.inside = true)
    (hexpects : q.expects = none) (hfiring : ∀ p v, s.pc t ≠ .firing p v) :
    Inv ((s.goto t q).lock t) :=
  h.goto (iff_of_true hinside rfl)
    (fun u hu => iff_of_false (fun heq => hu (Option.some.inj heq).symm) (by simp [hfree]))
    (fun p e he => by rw [hexpects] at he; cases he) hfiring

theorem Inv.unlock (h : Inv s) {q : Pc α} (hin : (s.pc t).inside = true) (hinside : q.inside = false)
    (hexpects : ∀ p e, q.expects = some (p, e) → s.Pending p e) : Inv ((s.goto t q).unlock) := by
  have hguard := (h.guard t).1 hin
  refine h.goto (iff_of_false (by simp [hinside]) (by simp)) (fun u hu => ?_) hexpects fun p v hp => ?_
  · rw [hguard]
    exact iff_of_false (by simp) fun heq => hu (Option.some.inj heq).symm
  · rw [hp] at hin
    cases hin

theorem State.store_storage (s : State α) (p q : Point) (st : ActionStorage α) :
    (s.store p st).storage q = if q = p then st else s.storage q := Function.update_apply ..

theorem Inv.store (h : Inv s) {p : Point} {st : ActionStorage α} (hst : st.Ascending)
    (hpending : ∀ x ∈ st.entries, s.Pending p x.expectedValue) : Inv (s.store p st) where
  guard := h.guard
  ascending q := by
    rw [State.store_storage]
    split
    · exact hst
    · exact h.ascending q
  stored q x hx := by
    rw [State.store_storage] at hx
    split at hx
    · rename_i hq
      exact hq ▸ hpending x hx
    · exact h.stored q x hx
  expects := h.expects

theorem notified_inside (side : Side) (pc : Pc α) : (pc.notified side).inside = pc.inside := by
  cases pc with
  | asleep p e =>
    rw [Pc.notified]
    split <;> rfl
  | _ => rfl

theorem notified_firing {side : Side} {pc : Pc α} {p : Point} {v : BitVec 32} :
    pc.notified side = .firing p v ↔ pc = .firing p v := by
  cases pc with
  | asleep q e =>
    rw [Pc.notified]
    split <;> simp
  | _ => rfl

/-- Outside the guard, only the sleepers of the other side still expect something. -/
theorem notified_expects {side : Side} {pc : Pc α} (hout : pc.inside = false) {p : Point}
    {e : BitVec 32} (h : (pc.notified side).expects = some (p, e)) :
    pc.expects = some (p, e) ∧ p.1 ≠ side := by
  cases pc with
  | asleep q f =>
    rw [Pc.notified] at h
    split at h
    · cases h
    · rename_i hside
      cases h
      exact ⟨rfl, hside⟩
  | inserting | toSleep => cases hout
  | _ => cases h

/-- Everything up to the new value runs and everyone on its side is woken. -/
theorem Inv.fire (h : Inv s) {p : Point} {v : BitVec 32} (ht : s.pc t = .firing p v)
    (hfree : s.guard = none) :
    Inv (((s.goto t .idle).store p ((s.storage p).fireUpTo v)).notifyAll p.1) := by
  have hpc (u : ℕ) : (((s.goto t .idle).store p ((s.storage p).fireUpTo v)).notifyAll p.1).pc u =
      (if u = t then .idle else s.pc u).notified p.1 := by
    rw [← Function.update_apply s.pc t .idle u]
    rfl
  have hout (u : ℕ) : (s.pc u).inside = false := by
    rw [← Bool.not_eq_true, h.guard u, hfree]
    exact Option.some_ne_none u |>.symm
  have hpending {q : Point} {e : BitVec 32} (hq : s.Pending q e) (hne : q = p → e ≠ v) :
      (((s.goto t .idle).store p ((s.storage p).fireUpTo v)).notifyAll p.1).Pending q e := by
    refine hq.imp_right fun ⟨u, hu⟩ => ⟨u, ?_⟩
    have hut : u ≠ t := fun hut => by
      rw [hut, ht] at hu
      cases hu
      exact hne rfl rfl
    rw [hpc, if_neg hut]
    exact notified_firing.2 hu
  constructor
  · intro u
    rw [hpc, notified_inside]
    by_cases hu : u = t
    · rw [if_pos hu]
      refine iff_of_false (fun hin => by cases hin) fun hg => ?_
      rw [show (((s.goto t .idle).store p ((s.storage p).fireUpTo v)).notifyAll p.1).guard =
        s.guard from rfl, hfree] at hg
      cases hg
    · rw [if_neg hu]
      exact h.guard u
  · intro q
    change (((s.goto t .idle).store p _).storage q).Ascending
    rw [State.store_storage]
    split
    · exact ActionStorage.fireUpTo_ascending (h.ascending p) v
    · exact h.ascending q
  · intro q x hx
    change x ∈ (((s.goto t .idle).store p _).storage q).entries at hx
    rw [State.store_storage] at hx
    by_cases hq : q = p
    · subst hq
      rw [if_pos rfl] at hx
      have hlt := ActionStorage.fireUpTo_lt (h.ascending q) hx
      exact hpending (h.stored q x ((List.dropWhile_sublist _).subset hx)) fun _ heq => by
        rw [heq] at hlt
        exact BitVec.lt_irrefl _ hlt
    · rw [if_neg hq] at hx
      exact hpending (h.stored q x hx) fun heq => absurd heq hq
  · intro u q e he
    rw [hpc] at he
    by_cases hu : u = t
    · rw [if_pos hu] at he
      cases he
    · rw [if_neg hu] at he
      obtain ⟨he, hside⟩ := notified_expects (hout u) he
      exact hpending (h.expects u q e he) fun heq => absurd (congrArg Prod.fst heq) hside

/-- Whoever expects the new value or more is still served. -/
theorem Inv.increment (h : Inv s) (ht : (s.pc t).isIdle = true) (p : Point) :
    Inv { s.goto t (.firing p (s.value p + 1)) with
      value := Function.update s.value p (s.value p + 1) } := by
  have hpc (u : ℕ) : ({ s.goto t (.firing p (s.value p + 1)) with
      value := Function.update s.value p (s.value p + 1) } : State α).pc u =
      if u = t then .firing p (s.value p + 1) else s.pc u := Function.update_apply ..
  have hpending {q : Point} {e : BitVec 32} (hq : s.Pending q e) :
      State.Pending { s.goto t (.firing p (s.value p + 1)) with
        value := Function.update s.value p (s.value p + 1) } q e := by
    rcases hq with hlt | ⟨u, hu⟩
    · by_cases hqp : q = p
      · subst hqp
        by_cases heq : e = s.value q + 1
        · refine .inr ⟨t, ?_⟩
          rw [hpc, if_pos rfl, heq]
        · refine .inl ?_
          change Function.update s.value q (s.value q + 1) q < e
          rw [Function.update_self]
          generalize s.value q = v at hlt heq ⊢
          bv_omega
      · refine .inl ?_
        change Function.update s.value p (s.value p + 1) q < e
        rwa [Function.update_of_ne hqp]
    · refine .inr ⟨u, ?_⟩
      have hut : u ≠ t := fun hut => by
        rw [← hut, hu] at ht
        cases ht
      rw [hpc, if_neg hut, hu]
  constructor
  · intro u
    rw [hpc]
    by_cases hu : u = t
    · rw [if_pos hu, hu]
      refine iff_of_false (fun hin => by cases hin) fun hg => ?_
      have hin := (h.guard t).2 hg
      cases hp : s.pc t <;> rw [hp] at ht hin <;> first | cases ht; done | cases hin
    · rw [if_neg hu]
      exact h.guard u
  · exact h.ascending
  · exact fun q x hx => hpending (h.stored q x hx)
  · intro u q e he
    rw [hpc] at he
    by_cases hu : u = t
    · rw [if_pos hu] at he
      cases he
    · rw [if_neg hu] at he
      exact hpending (h.expects u q e he)

theorem Inv.next (h : Inv s) {s' : State α} {ev : Event α} (hn : s.next t = some (s', ev)) :
    Inv s' := by
  rw [State.next] at hn
  cases ht : s.pc t with
  | idle | asleep p e => rw [ht] at hn; cases hn
  | firing p v =>
    rw [ht] at hn
    obtain ⟨hfree, hn⟩ := Option.ite_none_right_eq_some.1 hn
    cases hn
    exact h.fire ht hfree
  | registering p e a =>
    rw [ht] at hn
    obtain ⟨hfree, hn⟩ := Option.ite_none_right_eq_some.1 hn
    cases hn
    exact h.lock hfree rfl rfl (by simp [ht])
  | loading p e a =>
    rw [ht] at hn
    dsimp only at hn
    split at hn
    · cases hn
      exact h.unlock (by rw [ht]; rfl) rfl fun q f hf => by cases hf
    · rename_i hlt
      cases hn
      refine h.move (by rw [ht]; rfl) (fun q f hf => ?_) (by simp [ht])
      cases hf
      exact .inl (BitVec.not_le.1 hlt)
  | inserting p e a =>
    rw [ht] at hn
    cases hn
    have hpending := h.expects t p e (by rw [ht]; rfl)
    have hidle := h.unlock (q := .idle) (by rw [ht]; rfl) rfl fun q f hf => by cases hf
    refine hidle.store (ActionStorage.insert_ascending (h.ascending p) e a) fun x hx => ?_
    have hmove {f : BitVec 32} (hf : s.Pending p f) : ((s.goto t .idle).unlock).Pending p f := by
      refine hf.imp_right fun ⟨u, hu⟩ => ⟨u, ?_⟩
      have hut : u ≠ t := fun hut => by
        rw [hut, ht] at hu
        cases hu
      exact (Function.update_of_ne hut ..).trans hu
    rcases List.mem_cons.1 ((ActionStorage.insert_perm e a).mem_iff.1 hx) with rfl | hx
    · exact hmove hpending
    · exact hmove (h.stored p x hx)
  | deregistering p handle =>
    rw [ht] at hn
    obtain ⟨hfree, hn⟩ := Option.ite_none_right_eq_some.1 hn
    cases hn
    have hidle := h.move (q := .idle) (t := t) (by rw [ht]; rfl) (fun q f hf => by cases hf) (by simp [ht])
    exact hidle.store (ActionStorage.remove_ascending (h.ascending p) handle) fun x hx =>
      hidle.stored p x (List.eraseP_sublist.subset hx)
  | waiting p e =>
    rw [ht] at hn
    obtain ⟨hfree, hn⟩ := Option.ite_none_right_eq_some.1 hn
    cases hn
    exact h.lock hfree rfl rfl (by simp [ht])
  | testing p e =>
    rw [ht] at hn
    dsimp only at hn
    split at hn
    · rename_i hlt
      cases hn
      refine h.move (by rw [ht]; rfl) (fun q f hf => ?_) (by simp [ht])
      cases hf
      exact .inl hlt
    · cases hn
      exact h.unlock (by rw [ht]; rfl) rfl fun q f hf => by cases hf
  | toSleep p e =>
    rw [ht] at hn
    cases hn
    refine h.unlock (by rw [ht]; rfl) rfl fun q f hf => ?_
    cases hf
    exact h.expects t p e (by rw [ht]; rfl)

theorem idle_of_isIdle {pc : Pc α} (h : pc.isIdle = true) : pc = .idle := by
  cases pc <;> first | rfl | cases h

theorem Inv.step (h : Inv s) {a : Action α} {s' : State α} {ev : Event α}
    (hs : step s a = some (s', ev)) : Inv s' := by
  cases a with
  | increment t p =>
    obtain ⟨⟨ht, -⟩, hs⟩ := Option.ite_none_right_eq_some.1 hs
    cases hs
    exact h.increment ht p
  | register t p e a =>
    obtain ⟨⟨ht, -⟩, hs⟩ := Option.ite_none_right_eq_some.1 hs
    have hidle := idle_of_isIdle ht
    split at hs
    · cases hs
      exact h
    · cases hs
      exact h.move (by rw [hidle]; rfl) (fun q f hf => by cases hf) (by simp [hidle])
  | deregister t p handle =>
    obtain ⟨⟨ht, -⟩, hs⟩ := Option.ite_none_right_eq_some.1 hs
    have hidle := idle_of_isIdle ht
    cases hs
    exact h.move (by rw [hidle]; rfl) (fun q f hf => by cases hf) (by simp [hidle])
  | wait t p e =>
    obtain ⟨⟨ht, -⟩, hs⟩ := Option.ite_none_right_eq_some.1 hs
    have hidle := idle_of_isIdle ht
    split at hs
    · cases hs
      exact h
    · cases hs
      exact h.move (by rw [hidle]; rfl) (fun q f hf => by cases hf) (by simp [hidle])
  | run t => exact h.next hs
  | wakeSpuriously t =>
    rw [SyncpointManager.step] at hs
    split at hs
    · rename_i p e ht
      cases hs
      exact h.move (by rw [ht]; rfl) (fun q f hf => by cases hf) (by simp [ht])
    · cases hs

theorem inv_run {es : List (Event α)} (h : Run es s) : Inv s :=
  h.invariant (fun _ s => Inv s) inv_new fun _ _ _ _ _ hi _ hs => hi.step hs

/-- While no thread is about to notify a counter, all that is registered or asleep on it expects
more than its value. When no thread can go on, every thread is idle or asleep like that. -/
theorem reached_is_served {es : List (Event α)} (h : Run es s) :
    (∀ p, (∀ t v, s.pc t ≠ .firing p v) →
      (∀ x ∈ (s.storage p).entries, s.value p < x.expectedValue) ∧
        ∀ t e, s.pc t = .asleep p e → s.value p < e) ∧
    ((∀ t, s.next t = none) →
      ∀ t, s.pc t = .idle ∨ ∃ p e, s.pc t = .asleep p e ∧ s.value p < e) := by
  have hi := inv_run h
  have hquiet (p : Point) (hp : ∀ t v, s.pc t ≠ .firing p v) {e : BitVec 32} (he : s.Pending p e) :
      s.value p < e := he.resolve_right fun ⟨t, ht⟩ => hp t e ht
  refine ⟨fun p hp => ⟨fun x hx => hquiet p hp (hi.stored p x hx), fun t e ht =>
    hquiet p hp (hi.expects t p e (by rw [ht]; rfl))⟩, fun hstuck => ?_⟩
  have hout (t : ℕ) : (s.pc t).inside = false := by
    have ht := hstuck t
    rw [State.next] at ht
    cases hp : s.pc t <;> rw [hp] at ht <;> try rfl
    all_goals
      dsimp only at ht
      try split at ht
    all_goals cases ht
  have hfree : s.guard = none := by
    cases hg : s.guard with
    | none => rfl
    | some t =>
      have hin := (hi.guard t).2 hg
      rw [hout] at hin
      cases hin
  have hrest (t : ℕ) : s.pc t = .idle ∨ ∃ p e, s.pc t = .asleep p e := by
    have ht := hstuck t
    have hin := hout t
    rw [State.next] at ht
    cases hp : s.pc t <;> simp [hp, hfree, Pc.inside] at ht hin ⊢
  intro t
  refine (hrest t).imp_right fun ⟨p, e, ht⟩ => ⟨p, e, ht, ?_⟩
  refine hquiet p (fun u v hu => ?_) (hi.expects t p e (by rw [ht]; rfl))
  rcases hrest u with hp | ⟨q, f, hp⟩ <;> rw [hp] at hu <;> cases hu

theorem reached_is_served_register :
    (∀ p, (∀ t v, (after waitAndRegister).2.pc t ≠ .firing p v) →
      (∀ x ∈ ((after waitAndRegister).2.storage p).entries,
        (after waitAndRegister).2.value p < x.expectedValue) ∧
        ∀ t e, (after waitAndRegister).2.pc t = .asleep p e → (after waitAndRegister).2.value p < e) ∧
    ((∀ t, (after waitAndRegister).2.next t = none) →
      ∀ t, (after waitAndRegister).2.pc t = .idle ∨
        ∃ p e, (after waitAndRegister).2.pc t = .asleep p e ∧ (after waitAndRegister).2.value p < e) :=
  reached_is_served (run_after (by decide))

end Wakes

end Ruzu.SyncpointManager
