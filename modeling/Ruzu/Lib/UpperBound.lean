import Mathlib

/-!
# Upper bounds in ascending sequences

The place behind the last number of an ascending sequence that is not above a
given one. A run of comparisons that halves what is left finds it.
-/

set_option autoImplicit false

namespace Ruzu.UpperBound

variable {α : Type*} [LinearOrder α]

def Ascending (g : ℕ → α) (n : ℕ) : Prop := ∀ i j, i < j → j < n → g i ≤ g j

/-- What lies before the place is not above `x`, and the rest is. -/
structure IsUpperBound (g : ℕ → α) (n : ℕ) (x : α) (p : ℕ) : Prop where
  le : p ≤ n
  below : ∀ j, j < p → g j ≤ x
  above : ∀ j, p ≤ j → j < n → x < g j

variable {g g' : ℕ → α} {n p q : ℕ} {x : α}

theorem IsUpperBound.unique (h : IsUpperBound g n x p) (h' : IsUpperBound g n x q) : p = q := by
  refine le_antisymm (not_lt.mp fun hlt => ?_) (not_lt.mp fun hlt => ?_)
  · exact absurd (h.below q hlt) (not_le.mpr (h'.above q le_rfl (hlt.trans_le h.le)))
  · exact absurd (h'.below p hlt) (not_le.mpr (h.above p le_rfl (hlt.trans_le h'.le)))

theorem IsUpperBound.congr (h : IsUpperBound g n x p) (heq : ∀ j, j < n → g' j = g j) :
    IsUpperBound g' n x p where
  le := h.le
  below j hj := (heq j (hj.trans_le h.le)).trans_le (h.below j hj)
  above j hj hn := (h.above j hj hn).trans_eq (heq j hn).symm

/-- The place in a stretch of the sequence that has it in it. -/
theorem IsUpperBound.slice (h : IsUpperBound g n x p) {a m : ℕ} (ha : a ≤ p) (hp : p ≤ a + m)
    (hn : a + m ≤ n) : IsUpperBound (fun j => g (a + j)) m x (p - a) where
  le := by omega
  below j hj := h.below (a + j) (by omega)
  above j hj hm := h.above (a + j) (by omega) (by omega)

theorem IsUpperBound.take (h : IsUpperBound g n x p) {m : ℕ} (hp : p ≤ m) (hm : m ≤ n) :
    IsUpperBound g m x p where
  le := hp
  below := h.below
  above j hj hlt := h.above j hj (by omega)

/-- The numbers around the place decide it. -/
theorem Ascending.isUpperBound (h : Ascending g n) (hle : p ≤ n)
    (hbelow : ∀ j, j + 1 = p → g j ≤ x) (habove : p < n → x < g p) : IsUpperBound g n x p where
  le := hle
  below j hj := by
    rcases Nat.lt_or_ge (j + 1) p with hlt | hge
    · exact (h j (p - 1) (by omega) (by omega)).trans (hbelow (p - 1) (by omega))
    · exact hbelow j (by omega)
  above j hj hn := by
    rcases Nat.lt_or_ge p j with hlt | hge
    · exact (habove (by omega)).trans_le (h p j hlt hn)
    · obtain rfl : j = p := by omega
      exact habove hn

theorem Ascending.exists (h : Ascending g n) (x : α) : ∃ p, IsUpperBound g n x p := by
  induction n with
  | zero => exact ⟨0, le_rfl, by omega, by omega⟩
  | succ n ih =>
    obtain ⟨p, hp⟩ := ih fun i j hij hj => h i j hij (by omega)
    rcases le_or_gt (g n) x with hle | hgt
    · refine ⟨n + 1, h.isUpperBound le_rfl (fun j hj => ?_) fun hlt => absurd hlt (lt_irrefl _)⟩
      obtain rfl : j = n := by omega
      exact hle
    · refine ⟨p, hp.le.trans (Nat.le_succ n), hp.below, fun j hj hn => ?_⟩
      rcases Nat.lt_or_ge j n with hlt | hge
      · exact hp.above j hj hlt
      · obtain rfl : j = n := by omega
        exact hgt

/-- What is left of the sequence is halved with each comparison. -/
def bisect (g : ℕ → α) (x : α) : (fuel stop pos : ℕ) → ℕ
  | 0, _, pos => pos
  | fuel + 1, stop, pos =>
    if stop = 0 then pos
    else if g (pos + stop / 2) ≤ x then bisect g x fuel (stop - (stop / 2 + 1)) (pos + stop / 2 + 1)
    else bisect g x fuel (stop / 2) pos

theorem IsUpperBound.bisect_eq (h : IsUpperBound g n x p) {fuel stop pos : ℕ} (hfuel : stop ≤ fuel)
    (hpos : pos ≤ p) (hstop : p ≤ pos + stop) (hn : pos + stop ≤ n) :
    bisect g x fuel stop pos = p := by
  induction fuel generalizing stop pos with
  | zero =>
    rw [bisect]
    omega
  | succ fuel ih =>
    rw [bisect]
    split
    case isTrue hzero => omega
    case isFalse hpositive =>
      split
      case isTrue hle =>
        have hbefore : pos + stop / 2 < p := by
          by_contra hge
          exact absurd hle (not_le.mpr (h.above _ (not_lt.mp hge) (by omega)))
        exact ih (by omega) (by omega) (by omega) (by omega)
      case isFalse hgt =>
        have hbehind : p ≤ pos + stop / 2 := by
          by_contra hlt
          exact hgt (h.below _ (not_le.mp hlt))
        exact ih (by omega) (by omega) (by omega) (by omega)

/-- The front of the list that is not above `x`. -/
theorem IsUpperBound.length_takeWhile (h : IsUpperBound g n x p) :
    (((List.range n).map g).takeWhile (· ≤ x)).length = p := by
  have hsplit : (List.range n).map g =
      (List.range p).map g ++ (List.range (n - p)).map fun j => g (p + j) := by
    conv_lhs => rw [← Nat.add_sub_cancel' h.le, List.range_add, List.map_append, List.map_map]
    rfl
  have hfront : ∀ y ∈ (List.range p).map g, decide (y ≤ x) = true := by
    intro y hy
    obtain ⟨j, hj, rfl⟩ := List.mem_map.mp hy
    exact decide_eq_true (h.below j (List.mem_range.mp hj))
  have hrest : ((List.range (n - p)).map fun j => g (p + j)).takeWhile (· ≤ x) = [] := by
    cases hlen : n - p with
    | zero => rfl
    | succ k =>
      have habove := h.above p le_rfl (by omega)
      rw [List.range_succ_eq_map, List.map_cons, List.takeWhile_cons_of_neg]
      rwa [decide_eq_true_eq, not_le]
  rw [hsplit, List.takeWhile_append_of_pos hfront, hrest, List.append_nil, List.length_map,
    List.length_range]

end Ruzu.UpperBound
