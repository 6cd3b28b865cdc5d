import Mathlib

/-!
# Lists of segments

A list of segments `[lower, upper)`, each with a value, shows a partial
function between two bounds: the function has the value of the segment over a
point and no value between segments.
-/

set_option autoImplicit false

namespace Ruzu

structure Segment (α : Type) where
  lower : ℕ
  upper : ℕ
  value : α
  deriving DecidableEq

namespace Segment

variable {α : Type}

def Covers (s : Segment α) (x : ℕ) : Prop := s.lower ≤ x ∧ x < s.upper

instance (s : Segment α) (x : ℕ) : Decidable (s.Covers x) := inferInstanceAs (Decidable (_ ∧ _))

def Ordered (l : List (Segment α)) : Prop := l.Pairwise fun s t => s.upper ≤ t.lower

/-- The value over a point. -/
def lookup (l : List (Segment α)) (x : ℕ) : Option α :=
  (l.find? fun s => decide (s.Covers x)).map Segment.value

/-- From `lo` to `hi` the segments are the places where `f` has a value, with that value. -/
def Shows (f : ℕ → Option α) : ℕ → ℕ → List (Segment α) → Prop
  | lo, hi, [] => lo ≤ hi ∧ ∀ x, lo ≤ x → x < hi → f x = none
  | lo, hi, s :: l =>
    lo ≤ s.lower ∧ s.lower < s.upper ∧ (∀ x, lo ≤ x → x < s.lower → f x = none) ∧
      (∀ x, s.Covers x → f x = some s.value) ∧ Shows f s.upper hi l

variable {f g : ℕ → Option α} {lo hi k x : ℕ} {l l' : List (Segment α)} {s : Segment α} {v : α}

theorem Shows.le (h : Shows f lo hi l) : lo ≤ hi := by
  induction l generalizing lo with
  | nil => exact h.1
  | cons s l ih =>
    obtain ⟨hlo, hlt, -, -, hrest⟩ := h
    exact Nat.le_trans hlo (Nat.le_trans hlt.le (ih hrest))

theorem Shows.cons (hlt : s.lower < s.upper) (hval : ∀ x, s.Covers x → f x = some s.value)
    (h : Shows f s.upper hi l) : Shows f s.lower hi (s :: l) :=
  ⟨le_rfl, hlt, fun _ hx hxs => absurd hx (not_le.mpr hxs), hval, h⟩

theorem Shows.congr (h : Shows f lo hi l) (hfg : ∀ x, lo ≤ x → x < hi → g x = f x) :
    Shows g lo hi l := by
  induction l generalizing lo with
  | nil => exact ⟨h.1, fun x hx hxhi => (hfg x hx hxhi).trans (h.2 x hx hxhi)⟩
  | cons s l ih =>
    obtain ⟨hlo, hlt, hgap, hval, hrest⟩ := h
    have hhi := hrest.le
    refine ⟨hlo, hlt, fun x hx hxs => ?_, fun x hx => ?_, ih hrest fun x hx => hfg x (by omega)⟩
    · exact (hfg x hx (by omega)).trans (hgap x hx hxs)
    · obtain ⟨hsx, hxs⟩ := hx
      exact (hfg x (by omega) (by omega)).trans (hval x ⟨hsx, hxs⟩)

/-- A bound moves down over points without a value. -/
theorem Shows.lower_bound (h : Shows f lo hi l) (hk : k ≤ lo)
    (hnone : ∀ x, k ≤ x → x < lo → f x = none) : Shows f k hi l := by
  have hgap : ∀ y, (∀ x, lo ≤ x → x < y → f x = none) → ∀ x, k ≤ x → x < y → f x = none := by
    intro y hy x hx hxy
    rcases Nat.lt_or_ge x lo with hlt | hge
    · exact hnone x hx hlt
    · exact hy x hge hxy
  cases l with
  | nil => exact ⟨Nat.le_trans hk h.1, hgap hi h.2⟩
  | cons s l =>
    obtain ⟨hlo, hlt, hnone', hval, hrest⟩ := h
    exact ⟨Nat.le_trans hk hlo, hlt, hgap s.lower hnone', hval, hrest⟩

/-- What follows a front below `k` can be replaced, together with the function from `k` on. -/
theorem Shows.replace (hfront : ∀ s ∈ l, s.upper ≤ k) (hlo : lo ≤ k)
    (h : Shows f lo hi (l ++ l')) :
    ∃ m ≤ k, Shows f m hi l' ∧ ∀ (g : ℕ → Option α) (r : List (Segment α)),
      (∀ x < k, g x = f x) → Shows g m hi r → Shows g lo hi (l ++ r) := by
  induction l generalizing lo with
  | nil => exact ⟨lo, hlo, h, fun _ _ _ hr => hr⟩
  | cons s l ih =>
    obtain ⟨hlo', hlt, hgap, hval, hrest⟩ := h
    have hk := hfront s (List.mem_cons_self ..)
    obtain ⟨m, hm, htail, hback⟩ := ih (fun t ht => hfront t (List.mem_cons_of_mem _ ht)) hk hrest
    refine ⟨m, hm, htail, fun g r hg hr => ?_⟩
    refine ⟨hlo', hlt, fun x hx hxs => ?_, fun x hx => ?_, hback g r hg hr⟩
    · exact (hg x (by omega)).trans (hgap x hx hxs)
    · exact (hg x (by have := hx.2; omega)).trans (hval x hx)

/-- Dropping segments by their values drops those values. -/
theorem Shows.filter (p : α → Bool) (h : Shows f lo hi l) :
    Shows (fun x => (f x).filter p) lo hi (l.filter fun s => p s.value) := by
  induction l generalizing lo with
  | nil => exact ⟨h.1, fun x hx hxhi => by simp only [h.2 x hx hxhi, Option.filter_none]⟩
  | cons s l ih =>
    obtain ⟨hlo, hlt, hgap, hval, hrest⟩ := h
    have hnone : ∀ x, lo ≤ x → x < s.lower → (f x).filter p = none := fun x hx hxs => by
      rw [hgap x hx hxs, Option.filter_none]
    have hover : ∀ x, s.Covers x → (f x).filter p = if p s.value then some s.value else none := by
      intro x hx
      rw [hval x hx, Option.filter_some]
    by_cases hp : p s.value
    · rw [List.filter_cons_of_pos (by exact hp)]
      exact ⟨hlo, hlt, hnone, fun x hx => (hover x hx).trans (if_pos hp), ih hrest⟩
    · rw [List.filter_cons_of_neg (by exact hp)]
      refine (ih hrest).lower_bound (Nat.le_trans hlo hlt.le) fun x hx hxs => ?_
      rcases Nat.lt_or_ge x s.lower with hbelow | hge
      · exact hnone x hx hbelow
      · exact (hover x ⟨hge, hxs⟩).trans (if_neg hp)

theorem Shows.mem (h : Shows f lo hi l) (hs : s ∈ l) :
    lo ≤ s.lower ∧ s.lower < s.upper ∧ s.upper ≤ hi ∧ ∀ x, s.Covers x → f x = some s.value := by
  induction l generalizing lo with
  | nil => cases hs
  | cons t l ih =>
    obtain ⟨hlo, hlt, -, hval, hrest⟩ := h
    rcases List.mem_cons.mp hs with rfl | hs
    · exact ⟨hlo, hlt, hrest.le, hval⟩
    · obtain ⟨hle, hmem⟩ := ih hrest hs
      exact ⟨Nat.le_trans hlo (Nat.le_trans hlt.le hle), hmem⟩

theorem Shows.ordered (h : Shows f lo hi l) : Ordered l := by
  induction l generalizing lo with
  | nil => exact List.Pairwise.nil
  | cons s l ih => exact List.pairwise_cons.mpr ⟨fun t ht => (h.2.2.2.2.mem ht).1, ih h.2.2.2.2⟩

/-- Every value stands in a segment. -/
theorem Shows.covered (h : Shows f lo hi l) (hx : lo ≤ x) (hxhi : x < hi) (hv : f x = some v) :
    ∃ s ∈ l, s.Covers x ∧ s.value = v := by
  induction l generalizing lo with
  | nil => rw [h.2 x hx hxhi] at hv; cases hv
  | cons s l ih =>
    obtain ⟨hlo, hlt, hgap, hval, hrest⟩ := h
    rcases Nat.lt_or_ge x s.lower with hbelow | hge
    · rw [hgap x hx hbelow] at hv
      cases hv
    · rcases Nat.lt_or_ge x s.upper with hin | habove
      · rw [hval x ⟨hge, hin⟩] at hv
        exact ⟨s, List.mem_cons_self .., ⟨hge, hin⟩, Option.some.inj hv⟩
      · obtain ⟨t, ht, hcov⟩ := ih hrest habove
        exact ⟨t, List.mem_cons_of_mem _ ht, hcov⟩

/-- The segments over a point: one where the function has a value, else none. -/
theorem Shows.filter_covers (h : Shows f lo hi l) (hx : lo ≤ x) (hxhi : x < hi) :
    (l.filter fun s => decide (s.Covers x)).map Segment.value = (f x).toList := by
  induction l generalizing lo with
  | nil => rw [h.2 x hx hxhi]; rfl
  | cons s l ih =>
    obtain ⟨hlo, hlt, hgap, hval, hrest⟩ := h
    rcases Nat.lt_or_ge x s.upper with hbelow | hge
    · have hnone : (l.filter fun t => decide (t.Covers x)) = [] := by
        refine List.filter_eq_nil_iff.mpr fun t ht => ?_
        have hst := (hrest.mem ht).1
        rw [decide_eq_true_eq]
        exact fun hcov => absurd hcov.1 (by omega)
      rcases Nat.lt_or_ge x s.lower with hout | hin
      · have hcov : ¬s.Covers x := fun hcov => not_lt.mpr hcov.1 hout
        rw [List.filter_cons_of_neg (by rw [decide_eq_true_eq]; exact hcov), hnone, hgap x hx hout]
        rfl
      · have hcov : s.Covers x := ⟨hin, hbelow⟩
        rw [List.filter_cons_of_pos (by rw [decide_eq_true_eq]; exact hcov), hnone, hval x hcov]
        rfl
    · have hcov : ¬s.Covers x := fun hcov => not_lt.mpr hge hcov.2
      rw [List.filter_cons_of_neg (by rw [decide_eq_true_eq]; exact hcov)]
      exact ih hrest hge

theorem lookup_eq (l : List (Segment α)) (x : ℕ) :
    lookup l x = ((l.filter fun s => decide (s.Covers x)).map Segment.value).head? := by
  rw [lookup, ← List.head?_filter, List.head?_map]

theorem Shows.lookup (h : Shows f lo hi l) (hx : lo ≤ x) (hxhi : x < hi) :
    Segment.lookup l x = f x := by
  rw [lookup_eq, h.filter_covers hx hxhi, Option.head?_toList]

/-- One segment over the points up to `k`, if there are any. -/
def fill (lo k : ℕ) (v : α) : List (Segment α) := if lo < k then [⟨lo, k, v⟩] else []

theorem Shows.fill (hle : lo ≤ k) (hv : ∀ x, lo ≤ x → x < k → f x = some v)
    (h : Shows f k hi l) : Shows f lo hi (Segment.fill lo k v ++ l) := by
  rw [Segment.fill]
  split
  case isTrue hlt =>
    exact Shows.cons (s := ⟨lo, k, v⟩) hlt (fun x hx => hv x hx.1 hx.2) h
  case isFalse hge =>
    obtain rfl : lo = k := le_antisymm hle (not_lt.mp hge)
    exact h

end Segment

end Ruzu
