import Mathlib

/-!
# Lanes of a bit vector

A vector of `n` bits is read as lanes of `w` bits, the lowest first.
-/

set_option autoImplicit false

namespace Ruzu.Lanes

variable {n w : ℕ}

def lane (w i : ℕ) (v : BitVec n) : BitVec w := v.extractLsb' (w * i) w

/-- The vector with these `count` lanes. -/
def fill (n w : ℕ) (f : ℕ → BitVec w) : ℕ → BitVec n
  | 0 => 0#n
  | count + 1 => fill n w f count ||| ((f count).setWidth n <<< (w * count))

def ofLanes (n w : ℕ) (f : ℕ → BitVec w) : BitVec n := fill n w f (n / w)

def setLane (i : ℕ) (v : BitVec n) (x : BitVec w) : BitVec n :=
  ofLanes n w fun j => if j = i then x else lane w j v

variable {f : ℕ → BitVec w} {a b v : BitVec n} {x : BitVec w} {i j k : ℕ}

theorem getLsbD_fill (hk : k < n) (count : ℕ) : (fill n w f count).getLsbD k =
    (decide (k < w * count) && (f (k / w)).getLsbD (k % w)) := by
  induction count with
  | zero => rw [fill, BitVec.getLsbD_zero, Nat.mul_zero, decide_eq_false (Nat.not_lt_zero k),
      Bool.false_and]
  | succ count ih =>
    rw [fill, BitVec.getLsbD_or, ih, BitVec.getLsbD_shiftLeft, decide_eq_true hk, Bool.true_and,
      BitVec.getLsbD_setWidth, Nat.mul_succ, decide_eq_true (show k - w * count < n by omega),
      Bool.true_and]
    rcases Nat.lt_or_ge k (w * count) with hlt | hge
    · rw [decide_eq_true hlt, decide_eq_true (show k < w * count + w by omega)]
      exact Bool.or_false _
    · rw [decide_eq_false (Nat.not_lt.mpr hge), Bool.false_and, Bool.false_or, Bool.not_false,
        Bool.true_and]
      rcases Nat.lt_or_ge (k - w * count) w with hin | hout
      · obtain ⟨j, rfl⟩ := Nat.exists_eq_add_of_le hge
        rw [Nat.add_sub_cancel_left] at hin ⊢
        rw [decide_eq_true (show w * count + j < w * count + w by omega), Bool.true_and,
          Nat.mul_add_div (by omega), Nat.div_eq_of_lt hin, Nat.add_zero, Nat.mul_add_mod,
          Nat.mod_eq_of_lt hin]
      · rw [BitVec.getLsbD_of_ge _ _ hout, decide_eq_false (by omega), Bool.false_and]

/-- The bits of whole lanes. -/
theorem getLsbD_ofLanes (hk : k < w * (n / w)) :
    (ofLanes n w f).getLsbD k = (f (k / w)).getLsbD (k % w) := by
  rw [ofLanes, getLsbD_fill (Nat.lt_of_lt_of_le hk (Nat.mul_div_le n w)), decide_eq_true hk,
    Bool.true_and]

theorem getLsbD_lane (hj : j < w) : (lane w i v).getLsbD j = v.getLsbD (w * i + j) := by
  rw [lane, BitVec.getLsbD_extractLsb', decide_eq_true hj, Bool.true_and]

/-- A bit of a vector is one of the lane that it is in. -/
theorem getLsbD_eq_lane (hw : 0 < w) : v.getLsbD k = (lane w (k / w) v).getLsbD (k % w) := by
  rw [getLsbD_lane (Nat.mod_lt k hw), Nat.div_add_mod]

theorem lane_ofLanes (h : w * (i + 1) ≤ n) : lane w i (ofLanes n w f) = f i := by
  apply BitVec.eq_of_getLsbD_eq
  intro j hj
  have hin : w * (i + 1) ≤ w * (n / w) :=
    Nat.mul_le_mul_left w ((Nat.le_div_iff_mul_le (by omega)).mpr (by rwa [Nat.mul_comm]))
  rw [Nat.mul_succ] at hin
  rw [getLsbD_lane hj, getLsbD_ofLanes (by omega), Nat.mul_add_div (by omega),
    Nat.div_eq_of_lt hj, Nat.add_zero, Nat.mul_add_mod, Nat.mod_eq_of_lt hj]

/-- Vectors are equal lane by lane. -/
theorem ext_lanes (hw : 0 < w) (h : ∀ i, w * i < n → lane w i a = lane w i b) : a = b := by
  apply BitVec.eq_of_getLsbD_eq
  intro k hk
  rw [getLsbD_eq_lane hw, getLsbD_eq_lane (v := b) hw,
    h (k / w) (Nat.lt_of_le_of_lt (Nat.mul_div_le k w) hk)]

theorem lane_setLane (h : w * (j + 1) ≤ n) :
    lane w j (setLane i v x) = if j = i then x else lane w j v := lane_ofLanes h

/-- A lane of half the width. -/
theorem lane_lane {m : ℕ} (h : w * (i + 1) ≤ m) :
    lane w i (lane m j v) = v.extractLsb' (m * j + w * i) w := by
  apply BitVec.eq_of_getLsbD_eq
  intro k hk
  rw [Nat.mul_succ] at h
  rw [getLsbD_lane hk, getLsbD_lane (by omega), BitVec.getLsbD_extractLsb', decide_eq_true hk,
    Bool.true_and, Nat.add_assoc]

theorem lane_xor : lane w i (a ^^^ b) = lane w i a ^^^ lane w i b := by
  apply BitVec.eq_of_getLsbD_eq
  intro k hk
  rw [BitVec.getLsbD_xor, getLsbD_lane hk, getLsbD_lane hk, getLsbD_lane hk, BitVec.getLsbD_xor]

theorem lane_or : lane w i (a ||| b) = lane w i a ||| lane w i b := by
  apply BitVec.eq_of_getLsbD_eq
  intro k hk
  rw [BitVec.getLsbD_or, getLsbD_lane hk, getLsbD_lane hk, getLsbD_lane hk, BitVec.getLsbD_or]

/-! ### Moving lanes -/

theorem lane_extract {m c : ℕ} (h : w * (i + 1) ≤ m) :
    lane w i (v.extractLsb' (w * c) m) = lane w (c + i) v := by
  apply BitVec.eq_of_getLsbD_eq
  intro k hk
  rw [Nat.mul_succ] at h
  rw [getLsbD_lane hk, getLsbD_lane hk, BitVec.getLsbD_extractLsb',
    decide_eq_true (show w * i + k < m by omega), Bool.true_and, Nat.mul_add, Nat.add_assoc]

theorem lane_append {m c : ℕ} (a : BitVec m) (b : BitVec n) (hn : n = w * c) :
    lane w i (a ++ b) = if i < c then lane w i b else lane w (i - c) a := by
  apply BitVec.eq_of_getLsbD_eq
  intro k hk
  rw [getLsbD_lane hk, BitVec.getLsbD_append]
  rcases Nat.lt_or_ge i c with hlt | hge
  · have hle := Nat.mul_le_mul_left w (show i + 1 ≤ c from hlt)
    rw [Nat.mul_succ] at hle
    rw [if_pos hlt, if_pos (by omega), getLsbD_lane hk]
  · have hle := Nat.mul_le_mul_left w hge
    rw [if_neg (Nat.not_lt.mpr hge), if_neg (by omega), getLsbD_lane hk, Nat.mul_sub]
    congr 1
    omega

/-- Lanes rotated towards the lowest one. -/
theorem lane_rotateRight {c r : ℕ} (hn : n = w * c) (hr : r < c) (hi : i < c) :
    lane w i (v.rotateRight (w * r)) = if i + r < c then lane w (r + i) v
      else lane w (i + r - c) v := by
  apply BitVec.eq_of_getLsbD_eq
  intro k hk
  have hwr := Nat.mul_le_mul_left w (show r + 1 ≤ c from hr)
  have hwi := Nat.mul_le_mul_left w (show i + 1 ≤ c from hi)
  rw [Nat.mul_succ] at hwr hwi
  rw [getLsbD_lane hk, BitVec.getLsbD_rotateRight_of_lt (by omega)]
  rcases Nat.lt_or_ge (i + r) c with hlt | hge
  · have hle := Nat.mul_le_mul_left w (show i + r + 1 ≤ c from hlt)
    rw [Nat.mul_succ, Nat.mul_add] at hle
    rw [decide_eq_true (show w * i + k < n - w * r by omega), cond_true, if_pos hlt,
      getLsbD_lane hk, Nat.mul_add, Nat.add_assoc]
  · have hle := Nat.mul_le_mul_left w hge
    rw [Nat.mul_add] at hle
    rw [decide_eq_false (show ¬ w * i + k < n - w * r by omega), cond_false,
      decide_eq_true (show w * i + k < n by omega), Bool.true_and, if_neg (Nat.not_lt.mpr hge),
      getLsbD_lane hk, Nat.mul_sub, Nat.mul_add]
    congr 1
    omega

/-- Lanes rotated away from the lowest one. -/
theorem lane_rotateLeft {c r : ℕ} (hn : n = w * c) (hr : r < c) (hi : i < c) :
    lane w i (v.rotateLeft (w * r)) = if i < r then lane w (c - r + i) v
      else lane w (i - r) v := by
  apply BitVec.eq_of_getLsbD_eq
  intro k hk
  have hwr := Nat.mul_le_mul_left w (show r + 1 ≤ c from hr)
  have hwi := Nat.mul_le_mul_left w (show i + 1 ≤ c from hi)
  rw [Nat.mul_succ] at hwr hwi
  rw [getLsbD_lane hk, BitVec.getLsbD_rotateLeft_of_le (by omega)]
  rcases Nat.lt_or_ge i r with hlt | hge
  · have hle := Nat.mul_le_mul_left w (show i + 1 ≤ r from hlt)
    rw [Nat.mul_succ] at hle
    rw [decide_eq_true (show w * i + k < w * r by omega), cond_true, if_pos hlt, getLsbD_lane hk,
      Nat.mul_add, Nat.mul_sub]
    congr 1
    omega
  · have hle := Nat.mul_le_mul_left w hge
    rw [decide_eq_false (show ¬ w * i + k < w * r by omega), cond_false,
      decide_eq_true (show w * i + k < n by omega), Bool.true_and, if_neg (Nat.not_lt.mpr hge),
      getLsbD_lane hk, Nat.mul_sub]
    congr 1
    omega

end Ruzu.Lanes
