import Mathlib
import Ruzu.Lib.Transition

/-!
# Locks on ranges of addresses

`RangeMutex`, one atomic step at a time. A thread is where it stands in the code. The list
of held ranges is only touched under the inner mutex; `unlock` notifies after it has given
that mutex back. Sizes and addresses wrap around as `u64` does.
-/

set_option autoImplicit false

namespace Ruzu.RangeMutex

structure RangeEntry where
  address : BitVec 64
  size : BitVec 64
  deriving DecidableEq

namespace RangeEntry

def last (e : RangeEntry) : BitVec 64 := e.address + e.size - 1

def intersects (e other : RangeEntry) : Bool := e.address ≤ other.last && other.address ≤ e.last

/-- Not empty, and does not wrap around. -/
def InSpace (e : RangeEntry) : Prop := 0 < e.size ∧ e.address.toNat + e.size.toNat ≤ 2^64

instance (e : RangeEntry) : Decidable e.InSpace := inferInstanceAs (Decidable (_ ∧ _))

def Covers (e : RangeEntry) (x : ℕ) : Prop :=
  e.address.toNat ≤ x ∧ x < e.address.toNat + e.size.toNat

def Apart (e f : RangeEntry) : Prop := ∀ x, ¬(e.Covers x ∧ f.Covers x)

variable {e f : RangeEntry}

theorem last_toNat (h : e.InSpace) : e.last.toNat = e.address.toNat + e.size.toNat - 1 := by
  obtain ⟨hpos, hfit⟩ := h
  have hsize : 0 < e.size.toNat := hpos
  have haddr := e.address.isLt
  rw [last]
  bv_omega

/-- The test finds a common address. -/
theorem intersects_iff (he : e.InSpace) (hf : f.InSpace) : e.intersects f = true ↔ ¬e.Apart f := by
  have hpose : 0 < e.size.toNat := he.1
  have hposf : 0 < f.size.toNat := hf.1
  rw [intersects, Bool.and_eq_true, decide_eq_true_eq, decide_eq_true_eq, BitVec.le_def,
    BitVec.le_def, last_toNat he, last_toNat hf, Apart, not_forall]
  simp only [not_not, Covers]
  constructor
  · intro h
    refine ⟨max e.address.toNat f.address.toNat, ?_⟩
    omega
  · rintro ⟨x, hx⟩
    omega

theorem Apart.symm (h : e.Apart f) : f.Apart e := fun x hx => h x hx.symm

instance : Std.Symm Apart := ⟨fun _ _ h => h.symm⟩

theorem not_apart_self (h : e.InSpace) : ¬e.Apart e := fun ha =>
  ha e.address.toNat ⟨⟨le_rfl, Nat.lt_add_of_pos_right h.1⟩, le_rfl, Nat.lt_add_of_pos_right h.1⟩

end RangeEntry

def hasIntersection (list : List RangeEntry) (e : RangeEntry) : Bool := list.any e.intersects

/-- `Vec::swap_remove`: the last element takes the place. -/
def swapRemove {α : Type} (list : List α) (pos : ℕ) : List α :=
  match list.getLast? with
  | some a => (list.set pos a).dropLast
  | none => []

theorem perm_swapRemove {α : Type} {list : List α} {pos : ℕ} {a : α} (h : list[pos]? = some a) :
    list.Perm (a :: swapRemove list pos) := by
  induction list using List.reverseRecOn with
  | nil => cases h
  | append_singleton l b _ =>
    have hlast : (l ++ [b]).getLast? = some b := by simp
    rw [swapRemove, hlast]
    dsimp only
    rcases Nat.lt_or_ge pos l.length with hlt | hge
    · rw [List.getElem?_append_left hlt, List.getElem?_eq_getElem hlt] at h
      obtain rfl := Option.some.inj h
      rw [List.set_append_left _ _ hlt, List.dropLast_concat]
      have hset := List.set_perm_cons_eraseIdx hlt b
      have hget := List.getElem_cons_eraseIdx_perm hlt
      calc (l ++ [b]).Perm (b :: l) := List.perm_append_singleton b l
        _ |>.Perm (b :: l[pos] :: l.eraseIdx pos) := (hget.symm).cons b
        _ |>.Perm (l[pos] :: b :: l.eraseIdx pos) := .swap ..
        _ |>.Perm (l[pos] :: l.set pos b) := (hset.symm).cons _
    · have hpos := (List.getElem?_eq_some_iff.mp h).1
      rw [List.length_append, List.length_singleton] at hpos
      obtain rfl : pos = l.length := by omega
      rw [List.getElem?_append_right le_rfl, Nat.sub_self] at h
      obtain rfl := Option.some.inj h
      rw [List.set_append_right _ _ le_rfl, Nat.sub_self, List.set_cons_zero, List.dropLast_concat]
      exact List.perm_append_singleton b l

/-- What `unlock` leaves of the list. -/
def removed (list : List RangeEntry) (e : RangeEntry) : List RangeEntry :=
  match list.findIdx? (· = e) with
  | some pos => swapRemove list pos
  | none => list

theorem perm_removed {list : List RangeEntry} {e : RangeEntry} (h : e ∈ list) :
    list.Perm (e :: removed list e) := by
  cases hpos : list.findIdx? (· = e) with
  | none =>
    rw [List.findIdx?_eq_none_iff] at hpos
    exact absurd (hpos e h) (by simp)
  | some pos =>
    rw [removed, hpos]
    obtain ⟨hlt, heq, -⟩ := List.findIdx?_eq_some_iff_getElem.mp hpos
    refine perm_swapRemove ?_
    rw [List.getElem?_eq_getElem hlt, of_decide_eq_true heq]

/-! ### Steps -/

/-- Where a thread stands: in `lock`, with a guard, in `unlock`. -/
inductive Pc where
  | idle
  | lockInner (e : RangeEntry)
  | check (e : RangeEntry)
  | toSleep (e : RangeEntry)
  | asleep (e : RangeEntry)
  | push (e : RangeEntry)
  | holding (e : RangeEntry)
  | lockToRemove (e : RangeEntry)
  | remove (e : RangeEntry)
  | notify
  deriving DecidableEq

namespace Pc

/-- The thread has the inner mutex. -/
def inside : Pc → Bool
  | .check _ | .toSleep _ | .push _ | .remove _ => true
  | _ => false

/-- The range that the thread has in the list. A guard of size 0 has none. -/
def owned : Pc → Option RangeEntry
  | .holding e => if 0 < e.size then some e else none
  | .lockToRemove e | .remove e => some e
  | _ => none

/-- The range that the thread is about to lock. -/
def wanted : Pc → Option RangeEntry
  | .lockInner e | .check e | .toSleep e | .asleep e | .push e => some e
  | _ => none

/-- A notified thread takes the inner mutex and checks again. -/
def woken : Pc → Pc
  | .asleep e => .lockInner e
  | pc => pc

end Pc

structure State where
  inner : Option ℕ
  list : List RangeEntry
  pc : ℕ → Pc

def State.new : State := ⟨none, [], fun _ => .idle⟩

namespace State

variable (s : State)

def goto (t : ℕ) (pc : Pc) : State := { s with pc := Function.update s.pc t pc }

/-- The next step of a thread that is not idle, asleep or holding its range. -/
def next (t : ℕ) : Option State :=
  match s.pc t with
  | .idle | .asleep _ | .holding _ => none
  | .lockInner e => if s.inner = none then some { s.goto t (.check e) with inner := some t } else none
  | .check e => some (s.goto t (if hasIntersection s.list e then .toSleep e else .push e))
  | .toSleep e => some { s.goto t (.asleep e) with inner := none }
  | .push e => some { s.goto t (.holding e) with inner := none, list := s.list ++ [e] }
  | .lockToRemove e =>
    if s.inner = none then some { s.goto t (.remove e) with inner := some t } else none
  | .remove e => some { s.goto t .notify with inner := none, list := removed s.list e }
  | .notify => some { s with pc := fun u => if u = t then .idle else (s.pc u).woken }

end State

/-- `ScopedRangeLock::new`, its drop, the thread's next step, and a wake-up without a reason. -/
inductive Action where
  | new (t : ℕ) (e : RangeEntry)
  | drop (t : ℕ)
  | run (t : ℕ)
  | wakeSpuriously (t : ℕ)

def step (s : State) : Action → Option State
  | .new t e =>
    if s.pc t = .idle then some (s.goto t (if 0 < e.size then .lockInner e else .holding e)) else none
  | .drop t =>
    match s.pc t with
    | .holding e => some (s.goto t (if 0 < e.size then .lockToRemove e else .idle))
    | _ => none
  | .run t => s.next t
  | .wakeSpuriously t =>
    match s.pc t with
    | .asleep e => some (s.goto t (.lockInner e))
    | _ => none

/-- Ranges do not wrap around. -/
def Allowed : Action → Prop
  | .new _ e => 0 < e.size → e.InSpace
  | _ => True

instance : DecidablePred Allowed
  | .new _ e => inferInstanceAs (Decidable (0 < e.size → e.InSpace))
  | .drop _ | .run _ | .wakeSpuriously _ => inferInstanceAs (Decidable True)

def stepEvent (s : State) (a : Action) : Option (State × Unit) := (step s a).map fun s' => (s', ())

/-- Any number of threads, in any order of their steps. -/
abbrev Run : List Unit → State → Prop :=
  Transition.Run stepEvent (fun _ a => Allowed a) State.new

/-- The state after the actions of a list. -/
def after (as : List Action) : State :=
  ((Transition.exec stepEvent (fun _ a => Allowed a) State.new as).getD ([], State.new)).2

theorem run_after {as : List Action}
    (h : (Transition.exec stepEvent (fun _ a => Allowed a) State.new as).isSome = true) :
    ∃ es, Run es (after as) := by
  obtain ⟨⟨es, s⟩, hexec⟩ := Option.isSome_iff_exists.1 h
  refine ⟨es, ?_⟩
  rw [after, hexec]
  exact Transition.exec_run hexec

/-! ### What every step keeps -/

structure Inv (s : State) : Prop where
  inner : ∀ t, (s.pc t).inside = true ↔ s.inner = some t
  apart : s.list.Pairwise RangeEntry.Apart
  inSpace : ∀ e ∈ s.list, e.InSpace
  owned : ∀ t e, (s.pc t).owned = some e → e ∈ s.list
  owner : ∀ e ∈ s.list, ∃ t, (s.pc t).owned = some e
  single : ∀ t u e, (s.pc t).owned = some e → (s.pc u).owned = some e → t = u
  wanted : ∀ t e, (s.pc t).wanted = some e → e.InSpace
  free : ∀ t e, s.pc t = .push e → hasIntersection s.list e = false
  busy : ∀ t e, s.pc t = .toSleep e → hasIntersection s.list e = true
  /-- Whoever sleeps for nothing will be notified. -/
  wakes : ∀ t e, s.pc t = .asleep e → hasIntersection s.list e = true ∨ ∃ u, s.pc u = .notify

theorem inv_new : Inv State.new where
  inner t := ⟨fun h => (by cases h), fun h => (by cases h)⟩
  apart := .nil
  inSpace e he := absurd he List.not_mem_nil
  owned t e h := by cases h
  owner e he := absurd he List.not_mem_nil
  single t u e h := by cases h
  wanted t e h := by cases h
  free t e h := by cases h
  busy t e h := by cases h
  wakes t e h := by cases h

theorem hasIntersection_iff {list : List RangeEntry} {e : RangeEntry} :
    hasIntersection list e = true ↔ ∃ f ∈ list, e.intersects f = true := by
  rw [hasIntersection, List.any_eq_true]

variable {s : State} {t : ℕ}

/-- Only one thread has the inner mutex. -/
theorem Inv.alone (h : Inv s) {u : ℕ} (ht : (s.pc t).inside = true) (hu : (s.pc u).inside = true) :
    t = u := by
  have heq := ((h.inner t).1 ht).symm.trans ((h.inner u).1 hu)
  exact Option.some.inj heq

/-- A thread moves on, and the list stays. -/
theorem Inv.goto (h : Inv s) {q : Pc} {inner : Option ℕ} (hinside : q.inside = true ↔ inner = some t)
    (hothers : ∀ u, u ≠ t → (inner = some u ↔ s.inner = some u)) (howned : q.owned = (s.pc t).owned)
    (hwanted : ∀ e, q.wanted = some e → e.InSpace)
    (hfree : ∀ e, q = .push e → hasIntersection s.list e = false)
    (hbusy : ∀ e, q = .toSleep e ∨ q = .asleep e → hasIntersection s.list e = true)
    (hnotify : s.pc t ≠ .notify) : Inv { s.goto t q with inner := inner } := by
  have hpc (u : ℕ) : ({ s.goto t q with inner := inner } : State).pc u = if u = t then q else s.pc u :=
    Function.update_apply ..
  have hsame (u : ℕ) : (if u = t then q else s.pc u).owned = (s.pc u).owned := by
    split
    · rename_i hu
      rw [hu, howned]
    · rfl
  constructor
  · intro u
    rw [hpc]
    by_cases hu : u = t
    · rw [if_pos hu, hu]
      exact hinside
    · rw [if_neg hu, h.inner u]
      exact (hothers u hu).symm
  · exact h.apart
  · exact h.inSpace
  · intro u e he
    rw [hpc, hsame] at he
    exact h.owned u e he
  · intro e he
    obtain ⟨u, hu⟩ := h.owner e he
    exact ⟨u, by rw [hpc, hsame, hu]⟩
  · intro u v e hu hv
    rw [hpc, hsame] at hu hv
    exact h.single u v e hu hv
  · intro u e he
    rw [hpc] at he
    by_cases hu : u = t
    · exact hwanted e (by rwa [if_pos hu] at he)
    · exact h.wanted u e (by rwa [if_neg hu] at he)
  · intro u e he
    rw [hpc] at he
    by_cases hu : u = t
    · exact hfree e (by rwa [if_pos hu] at he)
    · exact h.free u e (by rwa [if_neg hu] at he)
  · intro u e he
    rw [hpc] at he
    by_cases hu : u = t
    · exact hbusy e (.inl (by rwa [if_pos hu] at he))
    · exact h.busy u e (by rwa [if_neg hu] at he)
  · intro u e he
    rw [hpc] at he
    by_cases hu : u = t
    · exact .inl (hbusy e (.inr (by rwa [if_pos hu] at he)))
    · rcases h.wakes u e (by rwa [if_neg hu] at he) with hbusy' | ⟨v, hv⟩
      · exact .inl hbusy'
      · refine .inr ⟨v, ?_⟩
        rw [hpc, if_neg fun hvt : v = t => hnotify (hvt ▸ hv), hv]

/-- A thread that does not touch the inner mutex moves on. -/
theorem Inv.move (h : Inv s) {q : Pc} (hinside : q.inside = (s.pc t).inside)
    (howned : q.owned = (s.pc t).owned) (hwanted : ∀ e, q.wanted = some e → e.InSpace)
    (hfree : ∀ e, q = .push e → hasIntersection s.list e = false)
    (hbusy : ∀ e, q = .toSleep e ∨ q = .asleep e → hasIntersection s.list e = true)
    (hnotify : s.pc t ≠ .notify) : Inv (s.goto t q) :=
  h.goto (hinside ▸ h.inner t) (fun _ _ => Iff.rfl) howned hwanted hfree hbusy hnotify

theorem Inv.push (h : Inv s) {e : RangeEntry} (ht : s.pc t = .push e) :
    Inv { s.goto t (.holding e) with inner := none, list := s.list ++ [e] } := by
  have hpc (u : ℕ) : ({ s.goto t (.holding e) with inner := none, list := s.list ++ [e] } : State).pc u =
      if u = t then .holding e else s.pc u := Function.update_apply ..
  have hinside : (s.pc t).inside = true := by
    rw [ht]
    rfl
  have he : e.InSpace := h.wanted t e (by rw [ht]; rfl)
  have hsize := he.1
  have hfree (f : RangeEntry) (hf : f ∈ s.list) : e.Apart f := by
    by_contra hnot
    have hbusy := hasIntersection_iff.2 ⟨f, hf, (RangeEntry.intersects_iff he (h.inSpace f hf)).2 hnot⟩
    rw [h.free t e ht] at hbusy
    cases hbusy
  have howned : (Pc.holding e).owned = some e := if_pos hsize
  have hnew (u : ℕ) (hu : u ≠ t) : (s.pc u).owned ≠ some e := fun ho =>
    RangeEntry.not_apart_self he (hfree e (h.owned u e ho))
  constructor
  · intro u
    rw [hpc]
    by_cases hu : u = t
    · rw [if_pos hu]
      exact ⟨fun hin => (by cases hin), fun hin => (by cases hin)⟩
    · rw [if_neg hu]
      exact ⟨fun hin => absurd (h.alone hin hinside) hu, fun hin => by cases hin⟩
  · refine List.pairwise_append.2 ⟨h.apart, List.pairwise_singleton _ _, fun f hf g hg => ?_⟩
    rw [List.mem_singleton.1 hg]
    exact (hfree f hf).symm
  · intro f hf
    rcases List.mem_append.1 hf with hf | hf
    · exact h.inSpace f hf
    · rwa [List.mem_singleton.1 hf]
  · intro u f hf
    rw [hpc] at hf
    by_cases hu : u = t
    · rw [if_pos hu, howned] at hf
      exact List.mem_append_right _ (by rw [Option.some.inj hf]; exact List.mem_singleton_self f)
    · rw [if_neg hu] at hf
      exact List.mem_append_left _ (h.owned u f hf)
  · intro f hf
    rcases List.mem_append.1 hf with hf | hf
    · obtain ⟨u, hu⟩ := h.owner f hf
      refine ⟨u, ?_⟩
      have hut : u ≠ t := fun hut => by
        rw [hut, ht] at hu
        cases hu
      rw [hpc, if_neg hut, hu]
    · refine ⟨t, ?_⟩
      rw [hpc, if_pos rfl, howned, List.mem_singleton.1 hf]
  · intro u v f hu hv
    rw [hpc] at hu hv
    by_cases hut : u = t <;> by_cases hvt : v = t
    · rw [hut, hvt]
    · rw [if_pos hut, howned] at hu
      rw [if_neg hvt, ← hu] at hv
      exact absurd hv (hnew v hvt)
    · rw [if_pos hvt, howned] at hv
      rw [if_neg hut, ← hv] at hu
      exact absurd hu (hnew u hut)
    · rw [if_neg hut] at hu
      rw [if_neg hvt] at hv
      exact h.single u v f hu hv
  · intro u f hf
    rw [hpc] at hf
    by_cases hu : u = t
    · rw [if_pos hu] at hf
      cases hf
    · exact h.wanted u f (by rwa [if_neg hu] at hf)
  · intro u f hf
    rw [hpc] at hf
    by_cases hu : u = t
    · rw [if_pos hu] at hf
      cases hf
    · rw [if_neg hu] at hf
      exact absurd (h.alone (by rw [hf]; rfl) hinside) hu
  · intro u f hf
    rw [hpc] at hf
    by_cases hu : u = t
    · rw [if_pos hu] at hf
      cases hf
    · rw [if_neg hu] at hf
      exact absurd (h.alone (by rw [hf]; rfl) hinside) hu
  · intro u f hf
    rw [hpc] at hf
    by_cases hu : u = t
    · rw [if_pos hu] at hf
      cases hf
    · rw [if_neg hu] at hf
      rcases h.wakes u f hf with hbusy | ⟨v, hv⟩
      · obtain ⟨g, hg, hfg⟩ := hasIntersection_iff.1 hbusy
        exact .inl (hasIntersection_iff.2 ⟨g, List.mem_append_left _ hg, hfg⟩)
      · refine .inr ⟨v, ?_⟩
        rw [hpc, if_neg, hv]
        rintro rfl
        rw [hv] at ht
        cases ht

theorem Inv.remove (h : Inv s) {e : RangeEntry} (ht : s.pc t = .remove e) :
    Inv { s.goto t .notify with inner := none, list := removed s.list e } := by
  have hpc (u : ℕ) : ({ s.goto t .notify with inner := none, list := removed s.list e } : State).pc u =
      if u = t then .notify else s.pc u := Function.update_apply ..
  have hinside : (s.pc t).inside = true := by
    rw [ht]
    rfl
  have howned : (s.pc t).owned = some e := by
    rw [ht]
    rfl
  have hmem := h.owned t e howned
  have hperm := perm_removed hmem
  have hpair := (hperm.pairwise_iff fun ha => RangeEntry.Apart.symm ha).1 h.apart
  obtain ⟨hhead, htail⟩ := List.pairwise_cons.1 hpair
  have hgone : e ∉ removed s.list e := fun hin =>
    RangeEntry.not_apart_self (h.inSpace e hmem) (hhead e hin)
  have hback (f : RangeEntry) (hf : f ∈ removed s.list e) : f ∈ s.list :=
    hperm.mem_iff.2 (List.mem_cons_of_mem e hf)
  constructor
  · intro u
    rw [hpc]
    by_cases hu : u = t
    · rw [if_pos hu]
      exact ⟨fun hin => (by cases hin), fun hin => (by cases hin)⟩
    · rw [if_neg hu]
      exact ⟨fun hin => absurd (h.alone hin hinside) hu, fun hin => by cases hin⟩
  · exact htail
  · exact fun f hf => h.inSpace f (hback f hf)
  · intro u f hf
    rw [hpc] at hf
    by_cases hu : u = t
    · rw [if_pos hu] at hf
      cases hf
    · rw [if_neg hu] at hf
      rcases List.mem_cons.1 (hperm.mem_iff.1 (h.owned u f hf)) with rfl | hin
      · exact absurd (h.single u t f hf howned) hu
      · exact hin
  · intro f hf
    obtain ⟨u, hu⟩ := h.owner f (hback f hf)
    refine ⟨u, ?_⟩
    have hut : u ≠ t := fun hut => by
      rw [hut, howned] at hu
      exact hgone (Option.some.inj hu ▸ hf)
    rw [hpc, if_neg hut, hu]
  · intro u v f hu hv
    rw [hpc] at hu hv
    by_cases hut : u = t
    · rw [if_pos hut] at hu
      cases hu
    by_cases hvt : v = t
    · rw [if_pos hvt] at hv
      cases hv
    rw [if_neg hut] at hu
    rw [if_neg hvt] at hv
    exact h.single u v f hu hv
  · intro u f hf
    rw [hpc] at hf
    by_cases hu : u = t
    · rw [if_pos hu] at hf
      cases hf
    · exact h.wanted u f (by rwa [if_neg hu] at hf)
  · intro u f hf
    rw [hpc] at hf
    by_cases hu : u = t
    · rw [if_pos hu] at hf
      cases hf
    · rw [if_neg hu] at hf
      exact absurd (h.alone (by rw [hf]; rfl) hinside) hu
  · intro u f hf
    rw [hpc] at hf
    by_cases hu : u = t
    · rw [if_pos hu] at hf
      cases hf
    · rw [if_neg hu] at hf
      exact absurd (h.alone (by rw [hf]; rfl) hinside) hu
  · intro u f _
    refine .inr ⟨t, ?_⟩
    rw [hpc, if_pos rfl]

theorem woken_inside (pc : Pc) : pc.woken.inside = pc.inside := by cases pc <;> rfl

theorem woken_owned (pc : Pc) : pc.woken.owned = pc.owned := by cases pc <;> rfl

theorem woken_wanted (pc : Pc) : pc.woken.wanted = pc.wanted := by cases pc <;> rfl

theorem Inv.notify (h : Inv s) (ht : s.pc t = .notify) :
    Inv { s with pc := fun u => if u = t then .idle else (s.pc u).woken } := by
  have hkept {β : Type} (f : Pc → β) (hwoken : ∀ pc, f pc.woken = f pc) (hidle : f .idle = f .notify)
      (u : ℕ) : f (if u = t then .idle else (s.pc u).woken) = f (s.pc u) := by
    split
    · rename_i hu
      rw [hu, ht, hidle]
    · exact hwoken _
  have hinside := hkept Pc.inside woken_inside rfl
  have howned := hkept Pc.owned woken_owned rfl
  have hwanted := hkept Pc.wanted woken_wanted rfl
  have hback {u : ℕ} {pc : Pc} (hp : (if u = t then .idle else (s.pc u).woken) = pc)
      (hidle : pc ≠ .idle) : (s.pc u).woken = pc := by
    split at hp
    · exact absurd hp.symm hidle
    · exact hp
  constructor
  · exact fun u => (hinside u).symm ▸ h.inner u
  · exact h.apart
  · exact h.inSpace
  · exact fun u e he => h.owned u e ((howned u).symm.trans he)
  · intro e he
    obtain ⟨u, hu⟩ := h.owner e he
    exact ⟨u, (howned u).trans hu⟩
  · exact fun u v e hu hv => h.single u v e ((howned u).symm.trans hu) ((howned v).symm.trans hv)
  · exact fun u e he => h.wanted u e ((hwanted u).symm.trans he)
  · intro u e he
    have hp := hback he (by simp)
    cases hu : s.pc u <;> rw [hu] at hp <;> cases hp
    exact h.free u e hu
  · intro u e he
    have hp := hback he (by simp)
    cases hu : s.pc u <;> rw [hu] at hp <;> cases hp
    exact h.busy u e hu
  · intro u e he
    have hp := hback he (by simp)
    cases hu : s.pc u <;> rw [hu] at hp <;> cases hp

/-- The thread takes the inner mutex. -/
theorem Inv.lock (h : Inv s) {q : Pc} (hnone : s.inner = none) (hinside : q.inside = true)
    (howned : q.owned = (s.pc t).owned) (hwanted : q.wanted = (s.pc t).wanted)
    (hq : ∀ e, q ≠ .push e ∧ q ≠ .toSleep e ∧ q ≠ .asleep e) (hnotify : s.pc t ≠ .notify) :
    Inv { s.goto t q with inner := some t } :=
  h.goto (iff_of_true hinside rfl)
    (fun u hu => iff_of_false (fun heq => hu (Option.some.inj heq).symm) (by simp [hnone])) howned
    (fun e he => h.wanted t e (hwanted ▸ he)) (fun e he => absurd he (hq e).1)
    (fun e he => he.elim (fun hs => absurd hs (hq e).2.1) fun hs => absurd hs (hq e).2.2) hnotify

theorem Inv.next (h : Inv s) {s' : State} (hn : s.next t = some s') : Inv s' := by
  rw [State.next] at hn
  cases ht : s.pc t with
  | idle | asleep e | holding e => rw [ht] at hn; cases hn
  | lockInner e =>
    rw [ht] at hn
    obtain ⟨hnone, hn⟩ := Option.ite_none_right_eq_some.1 hn
    obtain rfl := Option.some.inj hn
    exact h.lock hnone rfl (by rw [ht]; rfl) (by rw [ht]; rfl) (fun e => by simp) (by simp [ht])
  | check e =>
    rw [ht] at hn
    obtain rfl := Option.some.inj hn
    have he : e.InSpace := h.wanted t e (by rw [ht]; rfl)
    cases hbusy : hasIntersection s.list e with
    | true =>
      rw [if_pos rfl]
      refine h.move (by rw [ht]; rfl) (by rw [ht]; rfl) (fun f hf => ?_) (fun f hf => by cases hf)
        (fun f hf => ?_) (by simp [ht])
      · rwa [← Option.some.inj hf]
      · rcases hf with hf | hf <;> cases hf
        exact hbusy
    | false =>
      rw [if_neg Bool.false_ne_true]
      refine h.move (by rw [ht]; rfl) (by rw [ht]; rfl) (fun f hf => ?_) (fun f hf => ?_)
        (fun f hf => by rcases hf with hf | hf <;> cases hf) (by simp [ht])
      · rwa [← Option.some.inj hf]
      · cases hf
        exact hbusy
  | toSleep e =>
    rw [ht] at hn
    obtain rfl := Option.some.inj hn
    have hinner := (h.inner t).1 (by rw [ht]; rfl)
    refine h.goto (iff_of_false (fun hin => by cases hin) (by simp)) (fun u hu => ?_)
      (by rw [ht]; rfl) (fun f hf => h.wanted t f (by rwa [ht])) (fun f hf => by cases hf)
      (fun f hf => ?_) (by simp [ht])
    · rw [hinner]
      exact iff_of_false (fun hin => by cases hin) fun heq => hu (Option.some.inj heq).symm
    · rcases hf with hf | hf <;> cases hf
      exact h.busy t e ht
  | push e =>
    rw [ht] at hn
    obtain rfl := Option.some.inj hn
    exact h.push ht
  | lockToRemove e =>
    rw [ht] at hn
    obtain ⟨hnone, hn⟩ := Option.ite_none_right_eq_some.1 hn
    obtain rfl := Option.some.inj hn
    exact h.lock hnone rfl (by rw [ht]; rfl) (by rw [ht]; rfl) (fun e => by simp) (by simp [ht])
  | remove e =>
    rw [ht] at hn
    obtain rfl := Option.some.inj hn
    exact h.remove ht
  | notify =>
    rw [ht] at hn
    obtain rfl := Option.some.inj hn
    exact h.notify ht

theorem Inv.step (h : Inv s) {a : Action} (ha : Allowed a) {s' : State}
    (hs : step s a = some s') : Inv s' := by
  cases a with
  | new t e =>
    obtain ⟨ht, hs⟩ := Option.ite_none_right_eq_some.1 hs
    obtain rfl := Option.some.inj hs
    by_cases hsize : 0 < e.size
    · rw [if_pos hsize]
      refine h.move (by rw [ht]; rfl) (by rw [ht]; rfl) (fun f hf => ?_) (fun f hf => by cases hf)
        (fun f hf => by rcases hf with hf | hf <;> cases hf) (by simp [ht])
      rw [← Option.some.inj hf]
      exact ha hsize
    · rw [if_neg hsize]
      exact h.move (by rw [ht]; rfl) (by rw [ht]; exact if_neg hsize) (fun f hf => by cases hf)
        (fun f hf => by cases hf) (fun f hf => by rcases hf with hf | hf <;> cases hf) (by simp [ht])
  | drop t =>
    rw [RangeMutex.step] at hs
    split at hs
    · rename_i e ht
      obtain rfl := Option.some.inj hs
      by_cases hsize : 0 < e.size
      · rw [if_pos hsize]
        exact h.move (by rw [ht]; rfl) (by rw [ht]; exact (if_pos hsize).symm) (fun f hf => by cases hf)
          (fun f hf => by cases hf) (fun f hf => by rcases hf with hf | hf <;> cases hf) (by simp [ht])
      · rw [if_neg hsize]
        exact h.move (by rw [ht]; rfl) (by rw [ht]; exact (if_neg hsize).symm) (fun f hf => by cases hf)
          (fun f hf => by cases hf) (fun f hf => by rcases hf with hf | hf <;> cases hf) (by simp [ht])
    · cases hs
  | run t => exact h.next hs
  | wakeSpuriously t =>
    rw [RangeMutex.step] at hs
    split at hs
    · rename_i e ht
      obtain rfl := Option.some.inj hs
      exact h.move (by rw [ht]; rfl) (by rw [ht]; rfl) (fun f hf => h.wanted t f (by rwa [ht]))
        (fun f hf => by cases hf) (fun f hf => by rcases hf with hf | hf <;> cases hf) (by simp [ht])
    · cases hs

theorem inv_run {es : List Unit} (h : Run es s) : Inv s := by
  refine h.invariant (fun _ s => Inv s) inv_new fun _ s a s' _ hi ha hs => ?_
  obtain ⟨s'', hs, heq⟩ := Option.map_eq_some_iff.1 hs
  exact (Prod.mk.inj heq).1 ▸ hi.step ha hs

/-! ### Exclusion and progress -/

theorem next_none (hinner : s.inner = none) (h : s.next t = none) :
    s.pc t = .idle ∨ (∃ e, s.pc t = .asleep e) ∨ ∃ e, s.pc t = .holding e := by
  rw [State.next] at h
  cases hp : s.pc t <;> simp [hp, hinner] at h ⊢

/-- The list holds exactly the ranges of the threads that have locked one and not yet left,
and no two of them have an address in common. -/
theorem held_ranges_apart {es : List Unit} (h : Run es s) :
    (∀ e, e ∈ s.list ↔ ∃ t, (s.pc t).owned = some e) ∧ s.list.Pairwise RangeEntry.Apart ∧
      ∀ t u e f, s.pc t = .holding e → s.pc u = .holding f → t ≠ u → e.Apart f := by
  have hi := inv_run h
  refine ⟨fun e => ⟨hi.owner e, fun ⟨t, ht⟩ => hi.owned t e ht⟩, hi.apart, fun t u e f ht hu hne => ?_⟩
  intro x hx
  have hsize {g : RangeEntry} (hg : g.Covers x) : 0 < g.size := by
    obtain ⟨hlow, hhigh⟩ := hg
    have hpos : 0 < g.size.toNat := by omega
    exact hpos
  have he : (s.pc t).owned = some e := by
    rw [ht]
    exact if_pos (hsize hx.1)
  have hf : (s.pc u).owned = some f := by
    rw [hu]
    exact if_pos (hsize hx.2)
  have hne' : e ≠ f := fun heq => hne (hi.single t u e he (heq ▸ hf))
  exact hi.apart.forall (hi.owned t e he) (hi.owned u f hf) hne' x hx

/-- Two threads lock neighbouring ranges, one of them up to the top of the address space. -/
def neighbours : List Action :=
  [.new 0 ⟨0, 16⟩, .new 1 ⟨16, -16⟩, .run 0, .run 0, .run 0, .run 1, .run 1, .run 1]

theorem held_ranges_apart_neighbours : ∃ es, Run es (after neighbours) ∧
    (∀ e, e ∈ (after neighbours).list ↔ ∃ t, ((after neighbours).pc t).owned = some e) ∧
      (after neighbours).list.Pairwise RangeEntry.Apart ∧
      ∀ t u e f, (after neighbours).pc t = .holding e → (after neighbours).pc u = .holding f →
        t ≠ u → e.Apart f := by
  obtain ⟨es, h⟩ := run_after (show (Transition.exec stepEvent (fun _ a => Allowed a) State.new
    neighbours).isSome = true by decide)
  exact ⟨es, h, held_ranges_apart h⟩

/-- When no thread can go on, whoever waits for a range waits for a guard that has an address
of it: no notification is lost. -/
theorem waiting_has_reason {es : List Unit} (h : Run es s) (hstuck : ∀ t, s.next t = none) {t : ℕ}
    {e : RangeEntry} (ht : (s.pc t).wanted = some e) :
    ∃ u f, s.pc u = .holding f ∧ ∃ x, e.Covers x ∧ f.Covers x := by
  have hi := inv_run h
  have hoff (u : ℕ) : (s.pc u).inside = false := by
    have hu := hstuck u
    rw [State.next] at hu
    cases hp : s.pc u <;> rw [hp] at hu <;> first | rfl | cases hu
  have hnone : s.inner = none := by
    cases hinner : s.inner with
    | none => rfl
    | some u =>
      have hin := (hi.inner u).2 hinner
      rw [hoff] at hin
      cases hin
  have hasleep : s.pc t = .asleep e := by
    rcases next_none hnone (hstuck t) with hp | ⟨f, hp⟩ | ⟨f, hp⟩ <;> rw [hp] at ht <;> cases ht
    exact hp
  rcases hi.wakes t e hasleep with hbusy | ⟨u, hu⟩
  · obtain ⟨f, hf, hint⟩ := hasIntersection_iff.1 hbusy
    obtain ⟨u, hu⟩ := hi.owner f hf
    have hcommon := (RangeEntry.intersects_iff (hi.wanted t e ht) (hi.inSpace f hf)).1 hint
    rw [RangeEntry.Apart, not_forall] at hcommon
    obtain ⟨x, hx⟩ := hcommon
    refine ⟨u, f, ?_, x, not_not.1 hx⟩
    rcases next_none hnone (hstuck u) with hp | ⟨g, hp⟩ | ⟨g, hp⟩ <;> rw [hp] at hu
    · cases hu
    · cases hu
    · obtain ⟨-, heq⟩ := Option.ite_none_right_eq_some.1 hu
      rw [hp, Option.some.inj heq]
  · have hs := hstuck u
    rw [State.next, hu] at hs
    cases hs

/-- A thread waits for a range that another one holds. -/
def overlapping : List Action :=
  [.new 0 ⟨0, 16⟩, .new 1 ⟨8, 16⟩, .run 0, .run 0, .run 0, .run 1, .run 1, .run 1]

theorem waiting_has_reason_overlapping :
    ∃ u f, (after overlapping).pc u = .holding f ∧
      ∃ x, (RangeEntry.mk 8 16).Covers x ∧ f.Covers x := by
  obtain ⟨es, h⟩ := run_after (show (Transition.exec stepEvent (fun _ a => Allowed a) State.new
    overlapping).isSome = true by decide)
  refine waiting_has_reason h (fun t => ?_) (t := 1) rfl
  rcases t with _ | _ | t <;> rfl

end Ruzu.RangeMutex
