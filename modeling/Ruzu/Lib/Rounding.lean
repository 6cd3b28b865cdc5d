import Mathlib

/-!
# Rounding to an ascending sequence of values

A value between two neighbours of the sequence is a fraction of the way from
one to the other. The fraction decides every rounding.
-/

set_option autoImplicit false

namespace Ruzu.Rounding

variable {K : Type*} [Field K] [LinearOrder K] [IsStrictOrderedRing K]

/-- The greatest value that is not above. -/
def Below (value : ℕ → K) (v : K) (n : ℕ) : Prop := value n ≤ v ∧ ∀ k, value k ≤ v → k ≤ n

/-- The least value that is not below. -/
def Above (value : ℕ → K) (v : K) (n : ℕ) : Prop := v ≤ value n ∧ ∀ k, v ≤ value k → n ≤ k

/-- The nearest value, of two of them the one with an even number. -/
def NearestEven (value : ℕ → K) (v : K) (n : ℕ) : Prop :=
  (∀ k, |value n - v| ≤ |value k - v|) ∧ ∀ k, k ≠ n → |value k - v| = |value n - v| → Even n

/-- The nearest value, of two of them the greater one. -/
def NearestAway (value : ℕ → K) (v : K) (n : ℕ) : Prop :=
  (∀ k, |value n - v| ≤ |value k - v|) ∧ ∀ k, k ≠ n → |value k - v| = |value n - v| → k < n

/-- The value is the fraction `t` of the way from `n` to `n + 1`. -/
structure Between (value : ℕ → K) (v : K) (n : ℕ) (t : K) : Prop where
  nonneg : 0 ≤ t
  lt_one : t < 1
  eq : v = value n + (value (n + 1) - value n) * t

variable {value : ℕ → K} {v t : K} {n : ℕ}

namespace Between

theorem gap_pos (hmono : StrictMono value) : 0 < value (n + 1) - value n :=
  sub_pos.mpr (hmono (Nat.lt_succ_self n))

omit [IsStrictOrderedRing K] in
theorem low (h : Between value v n t) : v - value n = (value (n + 1) - value n) * t := by
  rw [h.eq]
  ring

omit [IsStrictOrderedRing K] in
theorem high (h : Between value v n t) :
    value (n + 1) - v = (value (n + 1) - value n) * (1 - t) := by
  rw [h.eq]
  ring

theorem low_nonneg (h : Between value v n t) (hmono : StrictMono value) : value n ≤ v :=
  sub_nonneg.mp (h.low ▸ mul_nonneg (gap_pos hmono).le h.nonneg)

theorem high_pos (h : Between value v n t) (hmono : StrictMono value) : v < value (n + 1) :=
  sub_pos.mp (h.high ▸ mul_pos (gap_pos hmono) (sub_pos.mpr h.lt_one))

theorem below (h : Between value v n t) (hmono : StrictMono value) : Below value v n :=
  ⟨h.low_nonneg hmono, fun _ hk =>
    Nat.lt_succ_iff.mp (hmono.lt_iff_lt.mp (hk.trans_lt (h.high_pos hmono)))⟩

theorem eq_iff (h : Between value v n t) (hmono : StrictMono value) : value n = v ↔ t = 0 := by
  have hlow := h.low
  constructor
  · intro heq
    rw [heq, sub_self] at hlow
    rcases mul_eq_zero.mp hlow.symm with hgap | ht
    · have hpos : value n < value (n + 1) := hmono (Nat.lt_succ_self n)
      exact absurd (sub_eq_zero.mp hgap) (heq ▸ hpos.ne')
    · exact ht
  · rintro rfl
    rw [mul_zero] at hlow
    exact (sub_eq_zero.mp hlow).symm

theorem above_self (h : Between value v n t) (hmono : StrictMono value) (ht : t = 0) :
    Above value v n := by
  have heq := (h.eq_iff hmono).mpr ht
  exact ⟨heq.ge, fun _ hk => hmono.le_iff_le.mp (heq.le.trans hk)⟩

theorem above_next (h : Between value v n t) (hmono : StrictMono value) (ht : t ≠ 0) :
    Above value v (n + 1) := by
  refine ⟨(h.high_pos hmono).le, fun k hk => ?_⟩
  have hlt : value n < v := (h.low_nonneg hmono).lt_of_ne fun heq => ht ((h.eq_iff hmono).mp heq)
  exact hmono.lt_iff_lt.mp (hlt.trans_le hk)

/-- Every other value is farther away than a neighbour. -/
theorem far (h : Between value v n t) (hmono : StrictMono value) (k : ℕ) :
    (k ≤ n ∧ v - value n ≤ |value k - v| ∧ (k ≠ n → v - value n < |value k - v|)) ∨
      n + 1 ≤ k ∧ value (n + 1) - v ≤ |value k - v| ∧
        (k ≠ n + 1 → value (n + 1) - v < |value k - v|) := by
  rcases Nat.lt_or_ge n k with hlt | hge
  · have hle : value (n + 1) ≤ value k := hmono.monotone hlt
    have habs : |value k - v| = value k - v :=
      abs_of_nonneg (by linarith [h.high_pos hmono])
    refine Or.inr ⟨hlt, by linarith, fun hne => ?_⟩
    have : value (n + 1) < value k := hmono (lt_of_le_of_ne hlt hne.symm)
    linarith
  · have hle : value k ≤ value n := hmono.monotone hge
    have habs : |value k - v| = v - value k := by
      rw [abs_sub_comm]
      exact abs_of_nonneg (by linarith [h.low_nonneg hmono])
    refine Or.inl ⟨hge, by linarith, fun hne => ?_⟩
    have : value k < value n := hmono (lt_of_le_of_ne hge hne)
    linarith

theorem abs_low (h : Between value v n t) (hmono : StrictMono value) :
    |value n - v| = v - value n := by
  rw [abs_sub_comm]
  exact abs_of_nonneg (sub_nonneg.mpr (h.low_nonneg hmono))

theorem abs_high (h : Between value v n t) (hmono : StrictMono value) :
    |value (n + 1) - v| = value (n + 1) - v :=
  abs_of_nonneg (sub_nonneg.mpr (h.high_pos hmono).le)

/-- In the lower half the lower neighbour is the nearest value, and the only one. -/
theorem nearest_low (h : Between value v n t) (hmono : StrictMono value) (ht : 2 * t < 1) (k : ℕ)
    (hk : k ≠ n) : |value n - v| < |value k - v| := by
  have hgap : (value (n + 1) - value n) * t < (value (n + 1) - value n) * (1 - t) :=
    mul_lt_mul_of_pos_left (by linarith) (gap_pos hmono)
  rw [h.abs_low hmono]
  have hlow := h.low
  have hhigh := h.high
  rcases h.far hmono k with ⟨-, -, hfar⟩ | ⟨-, hfar, -⟩
  · exact hfar hk
  · linarith

theorem nearest_high (h : Between value v n t) (hmono : StrictMono value) (ht : 1 < 2 * t) (k : ℕ)
    (hk : k ≠ n + 1) : |value (n + 1) - v| < |value k - v| := by
  have hgap : (value (n + 1) - value n) * (1 - t) < (value (n + 1) - value n) * t :=
    mul_lt_mul_of_pos_left (by linarith) (gap_pos hmono)
  rw [h.abs_high hmono]
  have hlow := h.low
  have hhigh := h.high
  rcases h.far hmono k with ⟨-, hfar, -⟩ | ⟨-, -, hfar⟩
  · linarith
  · exact hfar hk

/-- In the middle both neighbours are the nearest values, and the only ones. -/
theorem nearest_half (h : Between value v n t) (hmono : StrictMono value) (ht : 2 * t = 1) :
    |value n - v| = |value (n + 1) - v| ∧
      ∀ k, k ≠ n → k ≠ n + 1 → |value n - v| < |value k - v| := by
  have hgap : (value (n + 1) - value n) * t = (value (n + 1) - value n) * (1 - t) := by
    rw [show 1 - t = t by linarith]
  have hlow := h.low
  have hhigh := h.high
  rw [h.abs_low hmono, h.abs_high hmono]
  refine ⟨by linarith, fun k hk hk' => ?_⟩
  rcases h.far hmono k with ⟨-, -, hfar⟩ | ⟨-, -, hfar⟩
  · exact hfar hk
  · linarith [hfar hk']

omit [IsStrictOrderedRing K] in
theorem nearestEven_of_forall {m : ℕ} (h : ∀ k, k ≠ m → |value m - v| < |value k - v|) :
    NearestEven value v m := by
  refine ⟨fun k => ?_, fun k hk heq => absurd heq (h k hk).ne'⟩
  by_cases hk : k = m
  · rw [hk]
  · exact (h k hk).le

theorem nearestEven_low (h : Between value v n t) (hmono : StrictMono value) (ht : 2 * t < 1) :
    NearestEven value v n :=
  nearestEven_of_forall (h.nearest_low hmono ht)

theorem nearestEven_high (h : Between value v n t) (hmono : StrictMono value) (ht : 1 < 2 * t) :
    NearestEven value v (n + 1) :=
  nearestEven_of_forall (h.nearest_high hmono ht)

theorem nearestEven_half (h : Between value v n t) (hmono : StrictMono value) (ht : 2 * t = 1)
    {m : ℕ} (hm : m = n ∨ m = n + 1) (heven : Even m) : NearestEven value v m := by
  obtain ⟨hsame, hfar⟩ := h.nearest_half hmono ht
  refine ⟨fun k => ?_, fun _ _ _ => heven⟩
  have hmin : |value n - v| ≤ |value k - v| := by
    by_cases hk : k = n
    · rw [hk]
    · by_cases hk' : k = n + 1
      · rw [hk', hsame]
      · exact (hfar k hk hk').le
  rcases hm with rfl | rfl
  · exact hmin
  · rwa [← hsame]

end Between

end Ruzu.Rounding
