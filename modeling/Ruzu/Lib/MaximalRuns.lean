import Mathlib

/-!
# Maximal runs of a partial map

A run is a stretch of arguments whose images are consecutive as well. The
runs of a range are found from left to right, piece by piece: a piece extends
the latest run where it continues it in arguments and images.
-/

set_option autoImplicit false

namespace Ruzu.MaximalRuns

structure Run where
  start : ℕ
  image : ℕ
  length : ℕ
  deriving DecidableEq

namespace Run

def stop (r : Run) : ℕ := r.start + r.length

def imageStop (r : Run) : ℕ := r.image + r.length

end Run

/-- The latest run comes first. -/
def add (rs : List Run) (a b n : ℕ) : List Run :=
  match rs with
  | [] => [⟨a, b, n⟩]
  | r :: rs =>
    if r.stop = a ∧ r.imageStop = b then { r with length := r.length + n } :: rs
    else ⟨a, b, n⟩ :: r :: rs

variable (f : ℕ → Option ℕ) (first : ℕ)

/-- The runs of the first arguments of a range, the latest first. -/
def latestFirst : ℕ → List Run
  | 0 => []
  | n + 1 =>
    match f (first + n) with
    | none => latestFirst n
    | some b => add (latestFirst n) (first + n) b 1

def runs (n : ℕ) : List Run := (latestFirst f first n).reverse

/-- The runs of a range: nonempty, in ascending order, covering what has an image, and none can be
longer. -/
structure Maximal (n : ℕ) (rs : List Run) : Prop where
  images : ∀ r ∈ rs, 0 < r.length ∧ first ≤ r.start ∧ r.stop ≤ first + n ∧
    ∀ j < r.length, f (r.start + j) = some (r.image + j)
  ascending : rs.Pairwise fun r r' => r.stop ≤ r'.start
  covers : ∀ a, first ≤ a → a < first + n → (f a).isSome → ∃ r ∈ rs, r.start ≤ a ∧ a < r.stop
  after : ∀ r ∈ rs, r.stop < first + n → f r.stop ≠ some r.imageStop
  before : ∀ r ∈ rs, first < r.start → ∀ b, f (r.start - 1) = some b → b + 1 ≠ r.image

variable {f first} {rs : List Run} {a b n k : ℕ}

/-! ### Pieces -/

theorem add_extend (k n : ℕ) : add (add rs a b k) (a + k) (b + k) n = add rs a b (k + n) := by
  cases rs with
  | nil => exact if_pos ⟨rfl, rfl⟩
  | cons r rs =>
    by_cases h : r.stop = a ∧ r.imageStop = b
    · have hnext : r.start + (r.length + k) = a + k ∧ r.image + (r.length + k) = b + k := by
        rw [← h.1, ← h.2, Run.stop, Run.imageStop, Nat.add_assoc, Nat.add_assoc]
        exact ⟨rfl, rfl⟩
      rw [show add (r :: rs) a b k = { r with length := r.length + k } :: rs from if_pos h,
        show add (r :: rs) a b (k + n) = { r with length := r.length + (k + n) } :: rs from
          if_pos h, ← Nat.add_assoc]
      exact if_pos hnext
    · rw [show add (r :: rs) a b k = ⟨a, b, k⟩ :: r :: rs from if_neg h,
        show add (r :: rs) a b (k + n) = ⟨a, b, k + n⟩ :: r :: rs from if_neg h]
      exact if_pos ⟨rfl, rfl⟩

/-- A piece of consecutive images is added as a whole. -/
theorem latestFirst_piece (hn : 0 < n)
    (hf : ∀ j < n, f (first + k + j) = some (b + j)) :
    latestFirst f first (k + n) = add (latestFirst f first k) (first + k) b n := by
  induction n with
  | zero => exact absurd hn (Nat.lt_irrefl 0)
  | succ n ih =>
    have hlast : f (first + (k + n)) = some (b + n) := by
      rw [← Nat.add_assoc]
      exact hf n (Nat.lt_succ_self n)
    rw [← Nat.add_assoc, latestFirst, hlast]
    dsimp only
    cases n with
    | zero => rfl
    | succ n =>
      rw [ih (Nat.succ_pos n) fun j hj => hf j (Nat.lt_succ_of_lt hj), ← Nat.add_assoc first,
        add_extend]

theorem latestFirst_hole (hf : ∀ j < n, f (first + k + j) = none) :
    latestFirst f first (k + n) = latestFirst f first k := by
  induction n with
  | zero => rfl
  | succ n ih =>
    have hlast : f (first + (k + n)) = none := by
      rw [← Nat.add_assoc]
      exact hf n (Nat.lt_succ_self n)
    rw [← Nat.add_assoc, latestFirst, hlast]
    exact ih fun j hj => hf j (Nat.lt_succ_of_lt hj)

/-! ### The runs are maximal -/

/-- What holds while the runs are found; the latest may still grow. -/
structure Growing (f : ℕ → Option ℕ) (first n : ℕ) (rs : List Run) : Prop where
  images : ∀ r ∈ rs, 0 < r.length ∧ first ≤ r.start ∧ r.stop ≤ first + n ∧
    ∀ j < r.length, f (r.start + j) = some (r.image + j)
  descending : rs.Pairwise fun r r' => r'.stop ≤ r.start
  covers : ∀ a, first ≤ a → a < first + n → (f a).isSome → ∃ r ∈ rs, r.start ≤ a ∧ a < r.stop
  after : ∀ r ∈ rs, r.stop < first + n → f r.stop ≠ some r.imageStop

theorem Growing.skip (h : Growing f first n rs) (hf : f (first + n) = none) :
    Growing f first (n + 1) rs where
  images r hr := by
    obtain ⟨hpos, hge, hle, himages⟩ := h.images r hr
    exact ⟨hpos, hge, by omega, himages⟩
  descending := h.descending
  covers a hge hlt ha := by
    rcases Nat.lt_or_ge a (first + n) with hlt' | hge'
    · exact h.covers a hge hlt' ha
    · obtain rfl : a = first + n := by omega
      rw [hf] at ha
      cases ha
  after r hr hlt := by
    rcases Nat.lt_or_ge r.stop (first + n) with hlt' | hge'
    · exact h.after r hr hlt'
    · rw [show r.stop = first + n by omega, hf]
      nofun

/-- Only the latest run reaches the end. -/
theorem Growing.stop_lt {r r' : Run} (h : Growing f first n (r :: rs)) (hr : r' ∈ rs) :
    r'.stop < first + n := by
  obtain ⟨hpos, -, hle, -⟩ := h.images r List.mem_cons_self
  have hbelow := (List.pairwise_cons.mp h.descending).1 r' hr
  rw [Run.stop] at hle
  omega

theorem Growing.extend {r : Run} (h : Growing f first n (r :: rs))
    (hf : f (first + n) = some r.imageStop) (hstop : r.stop = first + n) :
    Growing f first (n + 1) ({ r with length := r.length + 1 } :: rs) where
  images r' hr' := by
    rcases List.mem_cons.mp hr' with rfl | hr'
    · obtain ⟨hpos, hge, hle, himages⟩ := h.images r List.mem_cons_self
      refine ⟨Nat.succ_pos _, hge, ?_, fun j hj => ?_⟩
      · rw [Run.stop] at hstop ⊢
        dsimp only
        omega
      · dsimp only at hj ⊢
        rcases Nat.lt_succ_iff_lt_or_eq.mp hj with hj | rfl
        · exact himages j hj
        · rw [show r.start + r.length = first + n from hstop, hf]
          rfl
    · obtain ⟨hpos, hge, hle, himages⟩ := h.images r' (List.mem_cons_of_mem r hr')
      exact ⟨hpos, hge, by omega, himages⟩
  descending := List.pairwise_cons.mpr (List.pairwise_cons.mp h.descending)
  covers a hge hlt ha := by
    rcases Nat.lt_or_ge a (first + n) with hlt' | hge'
    · obtain ⟨r', hr', hin⟩ := h.covers a hge hlt' ha
      rcases List.mem_cons.mp hr' with rfl | hr'
      · refine ⟨_, List.mem_cons_self, hin.1, ?_⟩
        rw [Run.stop] at hin ⊢
        dsimp only
        omega
      · exact ⟨r', List.mem_cons_of_mem _ hr', hin⟩
    · obtain ⟨hpos, -, -, -⟩ := h.images r List.mem_cons_self
      refine ⟨_, List.mem_cons_self, ?_, ?_⟩
      · rw [Run.stop] at hstop
        dsimp only
        omega
      · rw [Run.stop] at hstop ⊢
        dsimp only
        omega
  after r' hr' hlt := by
    rcases List.mem_cons.mp hr' with rfl | hr'
    · rw [Run.stop] at hstop hlt
      dsimp only at hlt
      omega
    · exact h.after r' (List.mem_cons_of_mem r hr') (h.stop_lt hr')

theorem Growing.start (h : Growing f first n rs) (hf : f (first + n) = some b)
    (hnew : ∀ r ∈ rs.head?, ¬ (r.stop = first + n ∧ r.imageStop = b)) :
    Growing f first (n + 1) (⟨first + n, b, 1⟩ :: rs) where
  images r hr := by
    rcases List.mem_cons.mp hr with rfl | hr
    · refine ⟨Nat.one_pos, Nat.le_add_right .., Nat.le_refl _, fun j hj => ?_⟩
      obtain rfl : j = 0 := by
        dsimp only at hj
        omega
      exact hf
    · obtain ⟨hpos, hge, hle, himages⟩ := h.images r hr
      exact ⟨hpos, hge, by omega, himages⟩
  descending := List.pairwise_cons.mpr ⟨fun r hr => (h.images r hr).2.2.1, h.descending⟩
  covers a hge hlt ha := by
    rcases Nat.lt_or_ge a (first + n) with hlt' | hge'
    · obtain ⟨r, hr, hin⟩ := h.covers a hge hlt' ha
      exact ⟨r, List.mem_cons_of_mem _ hr, hin⟩
    · exact ⟨_, List.mem_cons_self, hge', hlt⟩
  after r hr hlt := by
    rcases List.mem_cons.mp hr with rfl | hr
    · exact absurd hlt (Nat.lt_irrefl _)
    · rcases Nat.lt_or_ge r.stop (first + n) with hlt' | hge'
      · exact h.after r hr hlt'
      · -- a run that reaches the end is the latest one
        have hstop : r.stop = first + n := by omega
        cases rs with
        | nil => cases hr
        | cons r' rs =>
          rcases List.mem_cons.mp hr with rfl | hr
          · rw [hstop, hf]
            intro heq
            exact hnew r rfl ⟨hstop, (Option.some.inj heq).symm⟩
          · exact absurd (h.stop_lt hr) (by omega)

theorem growing_latestFirst (f : ℕ → Option ℕ) (first n : ℕ) :
    Growing f first n (latestFirst f first n) := by
  induction n with
  | zero => exact ⟨nofun, .nil, fun a hge hlt => absurd hlt (by omega), nofun⟩
  | succ n ih =>
    rw [latestFirst]
    cases hf : f (first + n) with
    | none => exact ih.skip hf
    | some b =>
      dsimp only
      cases hrs : latestFirst f first n with
      | nil =>
        rw [hrs] at ih
        exact ih.start hf nofun
      | cons r rs =>
        rw [hrs] at ih
        rw [add]
        split
        case isTrue hnext => exact ih.extend (hnext.2 ▸ hf) hnext.1
        case isFalse hnew =>
          refine ih.start hf fun r' hr' => ?_
          obtain rfl := Option.some.inj hr'
          exact hnew

theorem apart (h : rs.Pairwise fun r r' => r.stop ≤ r'.start) {r r' : Run} (hr : r ∈ rs)
    (hr' : r' ∈ rs) : r = r' ∨ r.stop ≤ r'.start ∨ r'.stop ≤ r.start := by
  let R : Run → Run → Prop := fun r r' => r = r' ∨ r.stop ≤ r'.start ∨ r'.stop ≤ r.start
  have hself : ∀ x ∈ rs, R x x := fun x _ => .inl rfl
  have hupper : rs.Pairwise R := h.imp fun hle => .inr (.inl hle)
  have hlower : rs.Pairwise (flip R) := h.imp fun hle => Or.inr (.inr hle)
  exact List.Pairwise.forall_of_forall_of_flip hself hupper hlower hr hr'

theorem maximal_runs (f : ℕ → Option ℕ) (first n : ℕ) :
    Maximal f first n (runs f first n) := by
  have h := growing_latestFirst f first n
  have himages : ∀ r ∈ runs f first n, _ := fun r hr => h.images r (List.mem_reverse.mp hr)
  have hafter : ∀ r ∈ runs f first n, _ := fun r hr => h.after r (List.mem_reverse.mp hr)
  have hascending : (runs f first n).Pairwise fun r r' => r.stop ≤ r'.start :=
    List.pairwise_reverse.mpr h.descending
  have hcovers : ∀ a, first ≤ a → a < first + n → (f a).isSome →
      ∃ r ∈ runs f first n, r.start ≤ a ∧ a < r.stop := by
    intro a hge hlt ha
    obtain ⟨r, hr, hin⟩ := h.covers a hge hlt ha
    exact ⟨r, List.mem_reverse.mpr hr, hin⟩
  refine ⟨himages, hascending, hcovers, hafter, fun r hr hlt b hb heq => ?_⟩
  -- the argument before the run is in another run, which ends there and could go on
  obtain ⟨hpos, -, hle, hr'⟩ := himages r hr
  have hstop : r.stop = r.start + r.length := rfl
  obtain ⟨r', hr₁, hge, hlt'⟩ := hcovers (r.start - 1) (by omega) (by omega) (by rw [hb]; rfl)
  obtain ⟨hpos', -, -, himages'⟩ := himages r' hr₁
  have hstop' : r'.stop = r'.start + r'.length := rfl
  have hend : r'.stop = r.start := by
    rcases apart hascending hr₁ hr with rfl | hbelow | habove
    · omega
    · omega
    · omega
  refine hafter r' hr₁ (by omega) ?_
  have hlast := himages' (r.start - 1 - r'.start) (by omega)
  rw [show r'.start + (r.start - 1 - r'.start) = r.start - 1 by omega, hb] at hlast
  have himage := Option.some.inj hlast
  rw [hend, show r.start = r.start + 0 from rfl, hr' 0 hpos, Run.imageStop]
  congr 1
  omega

end Ruzu.MaximalRuns
