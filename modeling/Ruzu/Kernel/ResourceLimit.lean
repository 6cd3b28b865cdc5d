import Mathlib

/-!
# Resource limits

`k_resource_limit.rs`. What runs under the lock is one section: a limit that
is set, a release, and of a reservation each turn of its loop between two
waits. Sections of any number of callers follow each other in any order. The
system remembers the reservations with what has been given back of them.
-/

set_option autoImplicit false

namespace Ruzu.ResourceLimit

inductive LimitableResource
  | physicalMemoryMax | threadCountMax | eventCountMax | transferMemoryCountMax | sessionCountMax
  deriving DecidableEq

structure KResourceLimit where
  limitValues : LimitableResource → ℤ
  currentValues : LimitableResource → ℤ
  currentHints : LimitableResource → ℤ
  peakValues : LimitableResource → ℤ
  waiterCount : ℤ

def InI64 (x : ℤ) : Prop := -2 ^ 63 ≤ x ∧ x < 2 ^ 63

instance (x : ℤ) : Decidable (InI64 x) := inferInstanceAs (Decidable (_ ∧ _))

/-- A sum or difference of `i64`; there is none when it overflows. -/
def checked (x : ℤ) : Option ℤ := if InI64 x then some x else none

def wrappingAdd (a b : ℤ) : ℤ := Int.bmod (a + b) (2 ^ 64)

namespace KResourceLimit

def new : KResourceLimit := ⟨fun _ => 0, fun _ => 0, fun _ => 0, fun _ => 0, 0⟩

def setLimitValue (r : KResourceLimit) (which : LimitableResource) (value : ℤ) :
    Bool × KResourceLimit :=
  let current := r.currentValues which
  if current > value then (false, r)
  else (true, { r with
    limitValues := Function.update r.limitValues which value
    peakValues := Function.update r.peakValues which current })

/-- How a section of a reservation ends: with a result or in a wait. -/
inductive Outcome
  | returned (success : Bool)
  | waits
  deriving DecidableEq

/-- One turn of the loop of `reserve_with_timeout`, up to the wait; `timely` tells that the time
is not up. -/
def reserveTurn (r : KResourceLimit) (which : LimitableResource) (value : ℤ) (timely : Bool) :
    Option (Outcome × KResourceLimit) :=
  let current := r.currentValues which
  let hint := r.currentHints which
  let limit := r.limitValues which
  if ¬ (current ≤ limit ∧ hint ≤ current) then none
  else if wrappingAdd current value ≤ current then some (.returned false, r)
  else do
    let newCurrent ← checked (current + value)
    let newHint ← checked (hint + value)
    if newCurrent ≤ limit then
      some (.returned true, { r with
        currentValues := Function.update r.currentValues which newCurrent
        currentHints := Function.update r.currentHints which newHint
        peakValues := Function.update r.peakValues which (max (r.peakValues which) newCurrent) })
    else if newHint ≤ limit ∧ timely then
      some (.waits, { r with waiterCount := r.waiterCount + 1 })
    else some (.returned false, r)

/-- From the call to the first wait or the return. -/
def reserveEnter (r : KResourceLimit) (which : LimitableResource) (value : ℤ) (timely : Bool) :
    Option (Outcome × KResourceLimit) :=
  if ¬ (0 ≤ value ∧ r.currentHints which ≤ r.currentValues which) then none
  else if r.currentHints which ≥ r.limitValues which then some (.returned false, r)
  else r.reserveTurn which value timely

/-- From the end of a wait to the next wait or the return. -/
def reserveResume (r : KResourceLimit) (which : LimitableResource) (value : ℤ) (timely : Bool) :
    Option (Outcome × KResourceLimit) :=
  { r with waiterCount := r.waiterCount - 1 }.reserveTurn which value timely

/-- The values afterwards and whether the waiters are woken. -/
def releaseWithHint (r : KResourceLimit) (which : LimitableResource) (value hint : ℤ) :
    Option (Bool × KResourceLimit) :=
  let current := r.currentValues which
  let currentHint := r.currentHints which
  if ¬ (0 ≤ value ∧ 0 ≤ hint ∧ current ≤ r.limitValues which ∧ currentHint ≤ current ∧
    value ≤ current ∧ hint ≤ currentHint) then none
  else do
    let newCurrent ← checked (current - value)
    let newHint ← checked (currentHint - hint)
    some (r.waiterCount ≠ 0, { r with
      currentValues := Function.update r.currentValues which newCurrent
      currentHints := Function.update r.currentHints which newHint })

/-- The values of all resources; the waiter count is not one of them. -/
def SameValues (r r' : KResourceLimit) : Prop :=
  r'.limitValues = r.limitValues ∧ r'.currentValues = r.currentValues ∧
    r'.currentHints = r.currentHints ∧ r'.peakValues = r.peakValues

end KResourceLimit

/-! ### The system -/

/-- A successful reservation, with the values and hints released of it so far. -/
structure Reservation where
  which : LimitableResource
  value : ℤ
  released : ℤ
  hinted : ℤ

structure System where
  resources : KResourceLimit
  /-- The reservers between two sections. -/
  waiting : List (LimitableResource × ℤ)
  held : List Reservation
  /-- The current values since the limit was last set. -/
  seen : LimitableResource → List ℤ

inductive Event
  | setLimit (which : LimitableResource) (value : ℤ)
  | reserve (which : LimitableResource) (value : ℤ) (timely : Bool)
  | resume (i : ℕ) (timely : Bool)
  | release (i : ℕ) (value hint : ℤ)

inductive Reply
  | set (ok : Bool)
  | reserved (outcome : KResourceLimit.Outcome)
  | released (broadcast : Bool)
  deriving DecidableEq

namespace System

def new : System := ⟨.new, [], [], fun _ => [0]⟩

/-- Note the current value of a resource. -/
def note (s : System) (which : LimitableResource) : System :=
  let seen := s.resources.currentValues which :: s.seen which
  { s with seen := Function.update s.seen which seen }

/-- What the end of a section of a reservation means for the system. -/
def settle (s : System) (which : LimitableResource) (value : ℤ) :
    KResourceLimit.Outcome → System
  | .returned true =>
    let s : System := { s with held := s.held ++ [⟨which, value, 0, 0⟩] }
    s.note which
  | .returned false => s
  | .waits => { s with waiting := s.waiting ++ [(which, value)] }

/-- A section of one of the callers; `none` is a fault. -/
def step (s : System) : Event → Option (Reply × System)
  | .setLimit which value =>
    let (ok, r) := s.resources.setLimitValue which value
    let seen := if ok then Function.update s.seen which [r.currentValues which] else s.seen
    some (.set ok, { s with resources := r, seen := seen })
  | .reserve which value timely => do
    let (outcome, r) ← s.resources.reserveEnter which value timely
    let s : System := { s with resources := r }
    some (.reserved outcome, s.settle which value outcome)
  | .resume i timely => do
    let (which, value) ← s.waiting[i]?
    let (outcome, r) ← s.resources.reserveResume which value timely
    let s : System := { s with resources := r, waiting := s.waiting.eraseIdx i }
    some (.reserved outcome, s.settle which value outcome)
  | .release i value hint => do
    let q ← s.held[i]?
    let (broadcast, r) ← s.resources.releaseWithHint q.which value hint
    let given : Reservation :=
      { q with released := q.released + value, hinted := q.hinted + hint }
    let s : System := { s with resources := r, held := s.held.set i given }
    some (.released broadcast, s.note q.which)

/-- What the callers keep to: requests are 64-bit values, and what is released of a reservation
stays within it, the hints never behind the values. -/
def Allowed (s : System) : Event → Prop
  | .setLimit _ value => InI64 value
  | .reserve _ value _ => 0 ≤ value ∧ value < 2 ^ 63
  | .resume i _ => i < s.waiting.length
  | .release i value hint => ∃ q, s.held[i]? = some q ∧ 0 ≤ value ∧ 0 ≤ hint ∧
      q.released + value ≤ q.hinted + hint ∧ q.hinted + hint ≤ q.value

/-- The states of all runs of allowed sections, in any order. -/
inductive Reachable : System → Prop
  | new : Reachable new
  | step {s s' : System} {e : Event} {r : Reply} : Reachable s → s.Allowed e →
      s.step e = some (r, s') → Reachable s'

/-- A sum over the reservations of one resource. -/
def total (held : List Reservation) (f : Reservation → ℤ) (which : LimitableResource) : ℤ :=
  (held.map fun q => if q.which = which then f q else 0).sum

structure Sound (s : System) : Prop where
  hint_nonneg : ∀ which, 0 ≤ s.resources.currentHints which
  hint_le : ∀ which, s.resources.currentHints which ≤ s.resources.currentValues which
  le_limit : ∀ which, s.resources.currentValues which ≤ s.resources.limitValues which
  limit_lt : ∀ which, s.resources.limitValues which < 2 ^ 63
  values : ∀ which, s.resources.currentValues which =
    total s.held (fun q => q.value) which - total s.held (fun q => q.released) which
  hints : ∀ which, s.resources.currentHints which =
    total s.held (fun q => q.value) which - total s.held (fun q => q.hinted) which
  parts : ∀ q ∈ s.held, 0 ≤ q.released ∧ q.released ≤ q.hinted ∧ q.hinted ≤ q.value
  requests : ∀ p ∈ s.waiting, 0 ≤ p.2 ∧ p.2 < 2 ^ 63
  waiters : s.resources.waiterCount = s.waiting.length
  seen_current : ∀ which, s.resources.currentValues which ∈ s.seen which
  peak_seen : ∀ which, s.resources.peakValues which ∈ s.seen which
  peak_le : ∀ which, ∀ v ∈ s.seen which, v ≤ s.resources.peakValues which

theorem settle_values (s : System) (which : LimitableResource) (value : ℤ)
    (outcome : KResourceLimit.Outcome) :
    (s.settle which value outcome).resources = s.resources := by
  cases outcome with
  | returned success => cases success <;> rfl
  | waits => rfl

/-! ### Sums over the reservations -/

section Total

variable {held : List Reservation} {f g : Reservation → ℤ} {which : LimitableResource}

theorem total_append (q : Reservation) :
    total (held ++ [q]) f which = total held f which + if q.which = which then f q else 0 := by
  rw [total, List.map_append, List.sum_append, List.map_singleton, List.sum_singleton, total]

theorem total_set {i : ℕ} {q q' : Reservation} (hi : held[i]? = some q)
    (hwhich : q'.which = q.which) :
    total (held.set i q') f which =
      total held f which + if q.which = which then f q' - f q else 0 := by
  obtain ⟨hlt, rfl⟩ := List.getElem?_eq_some_iff.mp hi
  rw [total, List.map_set, List.sum_set', dif_pos (by rwa [List.length_map]), List.getElem_map,
    total, hwhich]
  split <;> omega

theorem total_sub (held : List Reservation) (f g : Reservation → ℤ) (which : LimitableResource) :
    total held f which - total held g which = total held (fun q => f q - g q) which := by
  induction held with
  | nil => rfl
  | cons q held ih =>
    simp only [total, List.map_cons, List.sum_cons] at ih ⊢
    rw [← ih]
    split <;> omega

/-- One reservation's share is at most the sum when no share is negative. -/
theorem le_total {i : ℕ} {q : Reservation} (hf : ∀ q ∈ held, 0 ≤ f q) (hi : held[i]? = some q) :
    f q ≤ total held f q.which := by
  have hmem := List.mem_of_getElem? hi
  have hterm : (if q.which = q.which then f q else 0) ≤ total held f q.which := by
    refine List.single_le_sum (fun x hx => ?_) _ (List.mem_map_of_mem hmem)
    obtain ⟨p, hp, rfl⟩ := List.mem_map.mp hx
    split
    · exact hf p hp
    · exact le_rfl
  rwa [if_pos rfl] at hterm

end Total

end System

/-! ### Sections -/

namespace KResourceLimit

variable {r : KResourceLimit} {which : LimitableResource} {value : ℤ}

def granted (r : KResourceLimit) (which : LimitableResource) (value : ℤ) : KResourceLimit :=
  let newCurrent := r.currentValues which + value
  { r with
    currentValues := Function.update r.currentValues which newCurrent
    currentHints := Function.update r.currentHints which (r.currentHints which + value)
    peakValues := Function.update r.peakValues which (max (r.peakValues which) newCurrent) }

/-- The wrapped sum is not above the current value exactly for an empty request and for one that
overflows. -/
theorem wrappingAdd_le_iff {current : ℤ} (hcurrent : 0 ≤ current) (hlt : current < 2 ^ 63)
    (hvalue : 0 ≤ value) (hv : value < 2 ^ 63) :
    wrappingAdd current value ≤ current ↔ value = 0 ∨ 2 ^ 63 ≤ current + value := by
  rw [wrappingAdd]
  rcases lt_or_ge (current + value) (2 ^ 63) with hfit | hover
  · rw [Int.bmod_eq_of_le (by omega) (by omega)]
    omega
  · have hwrap : Int.bmod (current + value) (2 ^ 64) = current + value - 2 ^ 64 := by
      rw [← Int.sub_bmod_right, Int.bmod_eq_of_le (by omega) (by omega)]
      rfl
    rw [hwrap]
    omega

/-- What a turn of the loop can do. -/
theorem reserveTurn_cases (timely : Bool) (hhint : 0 ≤ r.currentHints which)
    (hle : r.currentHints which ≤ r.currentValues which)
    (hlimit : r.currentValues which ≤ r.limitValues which) (hlt : r.limitValues which < 2 ^ 63)
    (hvalue : 0 ≤ value) (hv : value < 2 ^ 63) :
    r.reserveTurn which value timely = some (.returned false, r) ∨
    r.reserveTurn which value timely =
      some (.waits, { r with waiterCount := r.waiterCount + 1 }) ∨
    (r.currentValues which + value ≤ r.limitValues which ∧
      r.reserveTurn which value timely = some (.returned true, r.granted which value)) := by
  rw [reserveTurn, if_neg (not_not_intro ⟨hlimit, hle⟩)]
  by_cases hwrap : wrappingAdd (r.currentValues which) value ≤ r.currentValues which
  · exact .inl (if_pos hwrap)
  · have hfit := mt (wrappingAdd_le_iff (by omega) (by omega) hvalue hv).mpr hwrap
    rw [not_or, not_le] at hfit
    have hnew : checked (r.currentValues which + value) = some (r.currentValues which + value) :=
      if_pos ⟨by omega, hfit.2⟩
    have hnewHint : checked (r.currentHints which + value) = some (r.currentHints which + value) :=
      if_pos ⟨by omega, by omega⟩
    rw [if_neg hwrap, hnew, hnewHint]
    simp only [Option.bind_eq_bind, Option.bind_some]
    by_cases hroom : r.currentValues which + value ≤ r.limitValues which
    · rw [if_pos hroom]
      exact .inr (.inr ⟨hroom, rfl⟩)
    · rw [if_neg hroom]
      split
      · exact .inr (.inl rfl)
      · exact .inl rfl

end KResourceLimit

namespace System

theorem sound_new : Sound new where
  hint_nonneg _ := le_rfl
  hint_le _ := le_rfl
  le_limit _ := le_rfl
  limit_lt _ := show (0 : ℤ) < 2 ^ 63 by decide
  values _ := rfl
  hints _ := rfl
  parts q hq := absurd hq List.not_mem_nil
  requests p hp := absurd hp List.not_mem_nil
  waiters := rfl
  seen_current _ := List.mem_singleton_self 0
  peak_seen _ := List.mem_singleton_self 0
  peak_le _ v hv := by
    rw [List.mem_singleton.mp hv]
    exact le_rfl

section Steps

variable {s : System} {which : LimitableResource} {value : ℤ}

theorem Sound.current_nonneg (h : Sound s) (w : LimitableResource) :
    0 ≤ s.resources.currentValues w := (h.hint_nonneg w).trans (h.hint_le w)

theorem Sound.setLimit (h : Sound s) (hvalue : InI64 value)
    (hle : s.resources.currentValues which ≤ value) :
    Sound { s with
      resources := { s.resources with
        limitValues := Function.update s.resources.limitValues which value
        peakValues := Function.update s.resources.peakValues which
          (s.resources.currentValues which) }
      seen := Function.update s.seen which [s.resources.currentValues which] } where
  hint_nonneg := h.hint_nonneg
  hint_le := h.hint_le
  le_limit w := by
    dsimp only
    rw [Function.update_apply]
    split
    case isTrue heq => exact heq ▸ hle
    case isFalse => exact h.le_limit w
  limit_lt w := by
    dsimp only
    rw [Function.update_apply]
    split
    case isTrue => exact hvalue.2
    case isFalse => exact h.limit_lt w
  values := h.values
  hints := h.hints
  parts := h.parts
  requests := h.requests
  waiters := h.waiters
  seen_current w := by
    dsimp only
    rw [Function.update_apply]
    split
    case isTrue heq => exact heq ▸ List.mem_singleton_self _
    case isFalse => exact h.seen_current w
  peak_seen w := by
    dsimp only
    rw [Function.update_apply, Function.update_apply]
    split
    case isTrue => exact List.mem_singleton_self _
    case isFalse => exact h.peak_seen w
  peak_le w v hv := by
    dsimp only at hv ⊢
    rw [Function.update_apply] at hv ⊢
    split at hv
    case isTrue heq =>
      rw [if_pos heq, List.mem_singleton.mp hv]
    case isFalse hne =>
      rw [if_neg hne]
      exact h.peak_le w v hv

theorem Sound.grant (h : Sound s) (hvalue : 0 ≤ value)
    (hroom : s.resources.currentValues which + value ≤ s.resources.limitValues which) :
    Sound (settle { s with resources := s.resources.granted which value } which value
      (.returned true)) where
  hint_nonneg w := by
    have hw := h.hint_nonneg w
    simp only [settle, note, KResourceLimit.granted, Function.update_apply]
    split
    case isTrue heq =>
      subst heq
      omega
    case isFalse => exact hw
  hint_le w := by
    have hw := h.hint_le w
    simp only [settle, note, KResourceLimit.granted, Function.update_apply]
    split
    case isTrue heq =>
      subst heq
      omega
    case isFalse => exact hw
  le_limit w := by
    simp only [settle, note, KResourceLimit.granted, Function.update_apply]
    split
    case isTrue heq =>
      subst heq
      exact hroom
    case isFalse => exact h.le_limit w
  limit_lt := h.limit_lt
  values w := by
    have hw := h.values w
    simp only [settle, note, KResourceLimit.granted, Function.update_apply, total_append]
    by_cases heq : w = which
    · subst heq
      rw [if_pos rfl, if_pos rfl, if_pos rfl]
      omega
    · rw [if_neg heq, if_neg (Ne.symm heq), if_neg (Ne.symm heq)]
      omega
  hints w := by
    have hw := h.hints w
    simp only [settle, note, KResourceLimit.granted, Function.update_apply, total_append]
    by_cases heq : w = which
    · subst heq
      rw [if_pos rfl, if_pos rfl, if_pos rfl]
      omega
    · rw [if_neg heq, if_neg (Ne.symm heq), if_neg (Ne.symm heq)]
      omega
  parts q hq := by
    rcases List.mem_append.mp hq with hq | hq
    · exact h.parts q hq
    · rw [List.mem_singleton.mp hq]
      exact ⟨le_rfl, le_rfl, hvalue⟩
  requests := h.requests
  waiters := h.waiters
  seen_current w := by
    simp only [settle, note, KResourceLimit.granted, Function.update_apply]
    split
    case isTrue heq =>
      rw [if_pos trivial]
      exact List.mem_cons_self
    case isFalse => exact h.seen_current w
  peak_seen w := by
    simp only [settle, note, KResourceLimit.granted, Function.update_apply]
    split
    case isTrue heq =>
      subst heq
      rw [if_pos trivial]
      rcases max_choice (s.resources.peakValues w) (s.resources.currentValues w + value) with
        hmax | hmax
      · rw [hmax]
        exact List.mem_cons_of_mem _ (h.peak_seen w)
      · rw [hmax]
        exact List.mem_cons_self
    case isFalse => exact h.peak_seen w
  peak_le w v hv := by
    simp only [settle, note, KResourceLimit.granted, Function.update_apply] at hv ⊢
    split at hv
    case isTrue heq =>
      subst heq
      rw [if_pos trivial] at hv
      rw [if_pos rfl]
      rcases List.mem_cons.mp hv with rfl | hv
      · exact le_max_right _ _
      · exact (h.peak_le w v hv).trans (le_max_left _ _)
    case isFalse hne =>
      rw [if_neg hne]
      exact h.peak_le w v hv

theorem Sound.wait (h : Sound s) (hvalue : 0 ≤ value) (hv : value < 2 ^ 63) :
    Sound (settle { s with resources := { s.resources with
      waiterCount := s.resources.waiterCount + 1 } } which value .waits) where
  hint_nonneg := h.hint_nonneg
  hint_le := h.hint_le
  le_limit := h.le_limit
  limit_lt := h.limit_lt
  values := h.values
  hints := h.hints
  parts := h.parts
  requests p hp := by
    rcases List.mem_append.mp hp with hp | hp
    · exact h.requests p hp
    · rw [List.mem_singleton.mp hp]
      exact ⟨hvalue, hv⟩
  waiters := by
    have hcount := h.waiters
    simp only [settle, List.length_append, List.length_singleton]
    omega
  seen_current := h.seen_current
  peak_seen := h.peak_seen
  peak_le := h.peak_le

/-- A reserver comes back from its wait. -/
theorem Sound.wake (h : Sound s) {i : ℕ} (hi : i < s.waiting.length) :
    Sound { s with
      resources := { s.resources with waiterCount := s.resources.waiterCount - 1 }
      waiting := s.waiting.eraseIdx i } where
  hint_nonneg := h.hint_nonneg
  hint_le := h.hint_le
  le_limit := h.le_limit
  limit_lt := h.limit_lt
  values := h.values
  hints := h.hints
  parts := h.parts
  requests p hp := h.requests p (List.mem_of_mem_eraseIdx hp)
  waiters := by
    have hcount := h.waiters
    dsimp only
    rw [List.length_eraseIdx_of_lt hi]
    omega
  seen_current := h.seen_current
  peak_seen := h.peak_seen
  peak_le := h.peak_le

def returned (r : KResourceLimit) (which : LimitableResource) (value hint : ℤ) : KResourceLimit :=
  { r with
    currentValues := Function.update r.currentValues which (r.currentValues which - value)
    currentHints := Function.update r.currentHints which (r.currentHints which - hint) }

theorem Sound.give (h : Sound s) {i : ℕ} {q : Reservation} {hint : ℤ} (hi : s.held[i]? = some q)
    (hvalue : 0 ≤ value) (hahead : q.released + value ≤ q.hinted + hint)
    (hwhole : q.hinted + hint ≤ q.value) :
    value ≤ s.resources.currentValues q.which ∧ hint ≤ s.resources.currentHints q.which ∧
      Sound (note { s with
        resources := returned s.resources q.which value hint
        held := s.held.set i
          { q with released := q.released + value, hinted := q.hinted + hint } } q.which) := by
  have hparts := h.parts q (List.mem_of_getElem? hi)
  have hshare : q.value - q.released ≤ s.resources.currentValues q.which := by
    rw [h.values, total_sub s.held]
    exact le_total (f := fun q => q.value - q.released) (fun p hp => by
      have := h.parts p hp
      omega) hi
  have hhintShare : q.value - q.hinted ≤ s.resources.currentHints q.which := by
    rw [h.hints, total_sub s.held]
    exact le_total (f := fun q => q.value - q.hinted) (fun p hp => by
      have := h.parts p hp
      omega) hi
  -- what the hints leave is not more than what the values leave, reservation by reservation
  have hgap : (q.hinted - q.released) ≤
      s.resources.currentValues q.which - s.resources.currentHints q.which := by
    have hdiff : s.resources.currentValues q.which - s.resources.currentHints q.which =
        total s.held (fun q => q.hinted - q.released) q.which := by
      rw [h.values, h.hints, ← total_sub s.held (fun q => q.hinted) fun q => q.released]
      omega
    rw [hdiff]
    exact le_total (f := fun q => q.hinted - q.released) (fun p hp => by
      have := h.parts p hp
      omega) hi
  have hset : ∀ (f : Reservation → ℤ) (w : LimitableResource), total (s.held.set i
      { q with released := q.released + value, hinted := q.hinted + hint }) f w = _ :=
    fun f w => total_set hi rfl
  refine ⟨by omega, by omega, ?_⟩
  constructor
  case hint_nonneg =>
    intro w
    have hw := h.hint_nonneg w
    simp only [note, returned, Function.update_apply]
    split
    · omega
    · exact hw
  case hint_le =>
    intro w
    have hw := h.hint_le w
    simp only [note, returned, Function.update_apply]
    split
    · omega
    · exact hw
  case le_limit =>
    intro w
    have hw := h.le_limit w
    simp only [note, returned, Function.update_apply]
    split
    case isTrue heq =>
      subst heq
      omega
    case isFalse => exact hw
  case limit_lt => exact h.limit_lt
  case values =>
    intro w
    have hw := h.values w
    simp only [note, returned, Function.update_apply]
    rw [hset, hset]
    by_cases heq : w = q.which
    · subst heq
      simp only [if_true]
      omega
    · rw [if_neg heq, if_neg (Ne.symm heq), if_neg (Ne.symm heq)]
      omega
  case hints =>
    intro w
    have hw := h.hints w
    simp only [note, returned, Function.update_apply]
    rw [hset, hset]
    by_cases heq : w = q.which
    · subst heq
      simp only [if_true]
      omega
    · rw [if_neg heq, if_neg (Ne.symm heq), if_neg (Ne.symm heq)]
      omega
  case parts =>
    intro p hp
    rcases List.mem_or_eq_of_mem_set hp with hp | rfl
    · exact h.parts p hp
    · exact ⟨by dsimp only; omega, hahead, hwhole⟩
  case requests => exact h.requests
  case waiters => exact h.waiters
  case seen_current =>
    intro w
    simp only [note, returned, Function.update_apply]
    split
    · rw [if_pos trivial]
      exact List.mem_cons_self
    · exact h.seen_current w
  case peak_seen =>
    intro w
    simp only [note, returned, Function.update_apply]
    split
    case isTrue heq =>
      subst heq
      exact List.mem_cons_of_mem _ (h.peak_seen _)
    case isFalse => exact h.peak_seen w
  case peak_le =>
    intro w v hv
    simp only [note, returned, Function.update_apply] at hv ⊢
    split at hv
    case isTrue heq =>
      subst heq
      rw [if_pos trivial] at hv
      rcases List.mem_cons.mp hv with rfl | hv
      · have hcurrent := h.peak_le _ _ (h.seen_current q.which)
        omega
      · exact h.peak_le _ v hv
    case isFalse => exact h.peak_le w v hv

end Steps

/-! ### Runs -/

theorem Sound.turn {s : System} (h : Sound s) (which : LimitableResource) {value : ℤ}
    (hvalue : 0 ≤ value) (hv : value < 2 ^ 63) (timely : Bool) :
    ∃ outcome r, s.resources.reserveTurn which value timely = some (outcome, r) ∧
      Sound (settle { s with resources := r } which value outcome) ∧
      (outcome ≠ .returned true → s.resources.SameValues r) := by
  rcases KResourceLimit.reserveTurn_cases timely (h.hint_nonneg which) (h.hint_le which)
    (h.le_limit which) (h.limit_lt which) hvalue hv with hturn | hturn | ⟨hroom, hturn⟩
  · exact ⟨_, _, hturn, h, fun _ => ⟨rfl, rfl, rfl, rfl⟩⟩
  · exact ⟨_, _, hturn, h.wait hvalue hv, fun _ => ⟨rfl, rfl, rfl, rfl⟩⟩
  · exact ⟨_, _, hturn, h.grant hvalue hroom, fun hne => absurd rfl hne⟩

/-- The reply to a section that is part of a failed call, or may become part of one. -/
def Reply.Quiet : Reply → Prop
  | .set ok => ok = false
  | .reserved outcome => outcome ≠ .returned true
  | .released _ => False

/-- A section keeps the system sound, changes no value unless it succeeds, and a release wakes
the waiting reservers whenever there are any. -/
theorem Sound.step {s : System} (h : Sound s) {e : Event} (hallowed : s.Allowed e) :
    ∃ reply s', s.step e = some (reply, s') ∧ Sound s' ∧
      (Reply.Quiet reply → s.resources.SameValues s'.resources) ∧
      ∀ broadcast, reply = .released broadcast → (broadcast = true ↔ s.waiting ≠ []) := by
  cases e with
  | setLimit which value =>
    by_cases hlow : s.resources.currentValues which > value
    · refine ⟨.set false, s, ?_, h, fun _ => ⟨rfl, rfl, rfl, rfl⟩, nofun⟩
      rw [System.step, KResourceLimit.setLimitValue, if_pos hlow]
      rfl
    · refine ⟨.set true, _, ?_, h.setLimit hallowed (not_lt.mp hlow), nofun, nofun⟩
      rw [System.step, KResourceLimit.setLimitValue, if_neg hlow]
      rfl
  | reserve which value timely =>
    obtain ⟨hvalue, hv⟩ := hallowed
    by_cases hfull : s.resources.currentHints which ≥ s.resources.limitValues which
    · refine ⟨.reserved (.returned false), s, ?_, h, fun _ => ⟨rfl, rfl, rfl, rfl⟩, nofun⟩
      rw [System.step, KResourceLimit.reserveEnter, if_neg (not_not_intro ⟨hvalue, h.hint_le which⟩),
        if_pos hfull]
      rfl
    · obtain ⟨outcome, r, hturn, hsound, hsame⟩ := h.turn which hvalue hv timely
      refine ⟨.reserved outcome, _, ?_, hsound, fun hquiet => ?_, nofun⟩
      · rw [System.step, KResourceLimit.reserveEnter,
          if_neg (not_not_intro ⟨hvalue, h.hint_le which⟩), if_neg hfull, hturn]
        rfl
      · rw [settle_values]
        exact hsame hquiet
  | resume i timely =>
    have hi := List.getElem?_eq_getElem hallowed
    obtain ⟨hvalue, hv⟩ := h.requests _ (List.getElem_mem hallowed)
    obtain ⟨outcome, r, hturn, hsound, hsame⟩ :=
      (h.wake hallowed).turn (s.waiting[i]).1 hvalue hv timely
    refine ⟨.reserved outcome, _, ?_, hsound, fun hquiet => ?_, nofun⟩
    · rw [System.step, hi]
      simp only [Option.bind_eq_bind, Option.bind_some]
      rw [KResourceLimit.reserveResume, hturn]
      rfl
    · rw [settle_values]
      exact hsame hquiet
  | release i value hint =>
    obtain ⟨q, hi, hvalue, hhint, hahead, hwhole⟩ := hallowed
    obtain ⟨hle, hhintLe, hsound⟩ := h.give hi hvalue hahead hwhole
    have hcurrent := h.current_nonneg q.which
    have hnonneg := h.hint_nonneg q.which
    have hlimit := h.le_limit q.which
    have hlt := h.limit_lt q.which
    have hle' := h.hint_le q.which
    have hnew : checked (s.resources.currentValues q.which - value) =
        some (s.resources.currentValues q.which - value) := if_pos ⟨by omega, by omega⟩
    have hnewHint : checked (s.resources.currentHints q.which - hint) =
        some (s.resources.currentHints q.which - hint) := if_pos ⟨by omega, by omega⟩
    refine ⟨.released (s.resources.waiterCount ≠ 0), _, ?_, hsound, nofun, fun b hb => ?_⟩
    · rw [System.step, hi]
      simp only [Option.bind_eq_bind, Option.bind_some]
      rw [KResourceLimit.releaseWithHint,
        if_neg (not_not_intro ⟨hvalue, hhint, hlimit, hle', hle, hhintLe⟩), hnew, hnewHint]
      rfl
    · injection hb with hb
      rw [← hb, decide_eq_true_eq, h.waiters, ← List.length_eq_zero_iff.ne]
      omega

theorem Reachable.sound {s : System} (h : Reachable s) : Sound s := by
  induction h with
  | new => exact sound_new
  | step _ hallowed hstep ih =>
    obtain ⟨reply, s', hrun, hsound, -⟩ := ih.step hallowed
    obtain ⟨-, rfl⟩ := Prod.mk.inj (Option.some.inj (hrun.symm.trans hstep))
    exact hsound

/-- Whatever the order of the sections: values, hints and limits stay in line, the values are what
is reserved and not yet released, the peaks are the highest values since the limits were set, the
waiters are counted, and no further section faults or changes values without success. -/
theorem reachable_sections {s : System} (h : Reachable s) :
    Sound s ∧ ∀ e, s.Allowed e → ∃ reply s', s.step e = some (reply, s') ∧
      (Reply.Quiet reply → s.resources.SameValues s'.resources) ∧
      ∀ broadcast, reply = .released broadcast → (broadcast = true ↔ s.waiting ≠ []) := by
  refine ⟨h.sound, fun e hallowed => ?_⟩
  obtain ⟨reply, s', hrun, -, hquiet, hwake⟩ := h.sound.step hallowed
  exact ⟨reply, s', hrun, hquiet, hwake⟩

/-- Two threads of three are reserved and one is promised back, so a request for two waits. -/
theorem reachable_sections_waiting :
    ∃ s, s.waiting = [(.threadCountMax, 2)] ∧ s.resources.currentValues .threadCountMax = 2 ∧
      Sound s := by
  have h₁ : Reachable _ :=
    .step (e := .setLimit .threadCountMax 3) .new (by decide : InI64 3) rfl
  have h₂ : Reachable _ :=
    .step (e := .reserve .threadCountMax 2 true) h₁ (by decide : (0 : ℤ) ≤ 2 ∧ (2 : ℤ) < 2 ^ 63) rfl
  have h₃ : Reachable _ :=
    .step (e := .release 0 0 1) h₂ ⟨_, rfl, by decide, by decide, by decide, by decide⟩ rfl
  have h₄ : Reachable _ :=
    .step (e := .reserve .threadCountMax 2 true) h₃ (by decide : (0 : ℤ) ≤ 2 ∧ (2 : ℤ) < 2 ^ 63) rfl
  exact ⟨_, rfl, rfl, (reachable_sections h₄).1⟩

end System

end Ruzu.ResourceLimit
