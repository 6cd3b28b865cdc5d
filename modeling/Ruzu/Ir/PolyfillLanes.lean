import Ruzu.Ir.PolyfillValues

/-!
# The expansions against the architecture

Lane by lane, the expansions compute what the instructions are defined to.
-/

set_option autoImplicit false

namespace Ruzu.Ir.Polyfill

open Lanes IREmitter

variable {a b x y z w : BitVec 128} {i j : ℕ}

/-! ### Lanes of a vector -/

theorem four_lanes (h : 32 * i < 128) : i = 0 ∨ i = 1 ∨ i = 2 ∨ i = 3 := by omega

theorem lane_lanewise {f : BitVec 32 → BitVec 32} (hi : i < 4) :
    lane 32 i (lanewise 32 f a) = f (lane 32 i a) := lane_ofLanes (by omega)

theorem lane_lanewise₂ {f : BitVec 32 → BitVec 32 → BitVec 32} (hi : i < 4) :
    lane 32 i (lanewise₂ 32 f a b) = f (lane 32 i a) (lane 32 i b) := lane_ofLanes (by omega)

theorem lane_set {v : BitVec 32} (hi : i < 4) :
    lane 32 i (setLane j a v) = if i = j then v else lane 32 i a := lane_setLane (by omega)

theorem lane_low (hi : i < 2) : lane 32 i (x.extractLsb' 0 64) = lane 32 i x := by
  have := lane_extract (v := x) (w := 32) (c := 0) (i := i) (m := 64) (by omega)
  rwa [Nat.zero_add] at this

theorem lane_high (hi : i < 2) : lane 32 i (x.extractLsb' 64 64) = lane 32 (2 + i) x :=
  lane_extract (c := 2) (by omega)

/-- The lowest word goes to the top. -/
theorem extract_word :
    (y ++ x).extractLsb' 32 128 = y.extractLsb' 0 32 ++ x.extractLsb' 32 96 := by
  refine ext_lanes (w := 32) (by decide) fun i hi => ?_
  rw [show (y ++ x).extractLsb' 32 128 = (y ++ x).extractLsb' (32 * 1) 128 from rfl,
    lane_extract (by omega), lane_append y x (c := 4) rfl,
    lane_append (y.extractLsb' 0 32) (x.extractLsb' 32 96) (c := 3) rfl]
  obtain rfl | rfl | rfl | rfl := four_lanes hi
  · exact (lane_extract (w := 32) (c := 1) (m := 96) (v := x) (i := 0) (by decide)).symm
  · exact (lane_extract (w := 32) (c := 1) (m := 96) (v := x) (i := 1) (by decide)).symm
  · exact (lane_extract (w := 32) (c := 1) (m := 96) (v := x) (i := 2) (by decide)).symm
  · exact (lane_extract (w := 32) (c := 0) (m := 32) (v := y) (i := 0) (by decide)).symm

/-! ### The first schedule -/

theorem lane_schedule (t : BitVec 128) (hi : i < 4) :
    lane 32 i ([(0 : BitVec 8), 1, 2, 3].foldl (scheduleStep t) 0) =
      scheduleWord (lane 32 i t) := by
  simp only [List.foldl_cons, List.foldl_nil, scheduleStep]
  rw [lane_set hi, lane_set hi, lane_set hi, lane_set hi]
  obtain rfl | rfl | rfl | rfl := four_lanes (show 32 * i < 128 by omega) <;> rfl

theorem schedule0_eq : lanewise₂ 32 (· + ·)
    ([(0 : BitVec 8), 1, 2, 3].foldl (scheduleStep ((y ++ x).extractLsb' 32 128)) 0) x =
      Arm.sha256su0 x y := by
  refine ext_lanes (w := 32) (by decide) fun i hi => ?_
  rw [lane_lanewise₂ (by omega), lane_schedule _ (by omega), Arm.sha256su0, extract_word]
  dsimp only
  rw [lane_ofLanes (by omega)]
  rfl

/-! ### The second schedule -/

theorem lane_mixed (hi : i < 4) : lane 32 i (mixed a) = Arm.scheduleMix (lane 32 i a) := by
  rw [mixed, lane_xor, lane_xor, lane_or, lane_or, lane_lanewise hi, lane_lanewise hi,
    lane_lanewise hi, lane_lanewise hi, lane_lanewise hi, ← BitVec.xor_assoc]
  rfl

theorem lane_rotateHalf (hi : i < 2) : lane 32 i (x.rotateRight 64) = lane 32 (2 + i) x := by
  rw [show x.rotateRight 64 = x.rotateRight (32 * 2) from rfl,
    lane_rotateRight (c := 4) rfl (by decide) (by omega), if_pos (by omega)]

theorem schedule1_low (t : BitVec 128) :
    (lanewise₂ 32 (· + ·) (mixed (z.rotateRight 64)) (lanewise₂ 32 (· + ·) x t)).extractLsb' 0 64 =
      ofLanes 64 32 fun e => Arm.scheduleMix (lane 32 e (z.extractLsb' 64 64)) + lane 32 e x +
        lane 32 e t := by
  refine ext_lanes (w := 32) (by decide) fun i hi => ?_
  rw [lane_low (by omega), lane_ofLanes (by omega), lane_lanewise₂ (by omega),
    lane_mixed (by omega), lane_lanewise₂ (by omega), lane_high (by omega),
    lane_rotateHalf (by omega), BitVec.add_assoc]

theorem schedule1_high (t : BitVec 128) (low : BitVec 64) :
    lane 64 0 (lanewise₂ 32 (· + ·) (mixed (0#64 ++ low))
      (lanewise₂ 32 (· + ·) (x.rotateRight 64) (t.rotateRight 64))) =
      ofLanes 64 32 fun e => Arm.scheduleMix (lane 32 e low) + lane 32 (e + 2) x +
        lane 32 (e + 2) t := by
  refine ext_lanes (w := 32) (by decide) fun i hi => ?_
  rw [lane_ofLanes (by omega)]
  refine (lane_low (by omega)).trans ?_
  rw [lane_lanewise₂ (by omega), lane_mixed (by omega), lane_lanewise₂ (by omega),
    lane_rotateHalf (by omega), lane_rotateHalf (by omega), lane_append (0#64) low (c := 2) rfl,
    if_pos (by omega), BitVec.add_assoc, Nat.add_comm 2 i]

theorem schedule1_eq : schedule1 x y z = Arm.sha256su1 x y z := by
  rw [schedule1, Arm.sha256su1, extract_word, schedule1_low, schedule1_high]
  generalize (ofLanes 64 32 fun e => Arm.scheduleMix (lane 32 e (z.extractLsb' 64 64)) +
    lane 32 e x + lane 32 e (z.extractLsb' 0 32 ++ y.extractLsb' 32 96)) = low
  refine ext_lanes (w := 64) (by decide) fun i hi => ?_
  rw [lane_setLane (by omega), lane_append _ low (c := 1) rfl, lane_append _ low (c := 1) rfl]
  obtain rfl | rfl : i = 0 ∨ i = 1 := by omega
  · rfl
  · exact (BitVec.extractLsb'_eq_self).symm

/-! ### The hash -/

/-- `X` and `Y` with their highest words replaced, one behind the other and rotated by a word. -/
def turned (x y : BitVec 128) (p q : BitVec 32) : BitVec 256 :=
  ((q ++ y.extractLsb' 0 96 : BitVec 128) ++ (p ++ x.extractLsb' 0 96 : BitVec 128)).rotateLeft 32

theorem lane_replaced (p : BitVec 32) (hi : i < 4) :
    lane 32 i (p ++ x.extractLsb' 0 96 : BitVec 128) =
    if i < 3 then lane 32 i x else p := by
  rw [lane_append p (x.extractLsb' 0 96) (c := 3) rfl]
  split
  case isTrue hlt =>
    have := lane_extract (v := x) (w := 32) (c := 0) (i := i) (m := 96) (by omega)
    rwa [Nat.zero_add] at this
  case isFalse hge =>
    obtain rfl : i = 3 := by omega
    exact BitVec.extractLsb'_eq_self

theorem lane_turned (p q : BitVec 32) (hi : i < 8) : lane 32 i (turned x y p q) =
    if i = 0 then q else if i < 4 then lane 32 (i - 1) x else if i = 4 then p
      else lane 32 (i - 5) y := by
  rw [turned, show ∀ v : BitVec 256, v.rotateLeft 32 = v.rotateLeft (32 * 1) from fun _ => rfl,
    lane_rotateLeft (c := 8) rfl (by decide) hi]
  rcases Nat.eq_zero_or_pos i with rfl | hpos
  · rw [if_pos (by decide), if_pos rfl, lane_append _ _ (c := 4) rfl, if_neg (by decide),
      lane_replaced q (by decide), if_neg (by decide)]
  · rw [if_neg (by omega), if_neg (by omega), lane_append _ _ (c := 4) rfl]
    rcases Nat.lt_trichotomy i 4 with hlt | rfl | hgt
    · rw [if_pos (by omega), if_pos hlt, lane_replaced p (by omega), if_pos (by omega)]
    · rw [if_pos (by decide), if_neg (by decide), if_pos rfl, lane_replaced p (by decide),
        if_neg (by decide)]
    · rw [if_neg (by omega), if_neg (by omega), if_neg (by omega), lane_replaced q (by omega),
        if_pos (by omega), show i - 1 - 4 = i - 5 by omega]

/-- Rotating the words of a vector by three is moving each up, and the highest one down. -/
theorem lane_shuffled (p : BitVec 32) (hi : i < 4) : lane 32 i (setLane 0 (x.rotateRight 96) p) =
    if i = 0 then p else lane 32 (i - 1) x := by
  rw [lane_set hi]
  split
  case isTrue => rfl
  case isFalse hne =>
    rw [show x.rotateRight 96 = x.rotateRight (32 * 3) from rfl,
      lane_rotateRight (c := 4) rfl (by decide) hi, if_neg (by omega),
      show i + 3 - 4 = i - 1 by omega]

theorem turned_low (p q : BitVec 32) :
    setLane 0 (x.rotateRight 96) q = (turned x y p q).extractLsb' 0 128 := by
  refine ext_lanes (w := 32) (by decide) fun i hi => ?_
  have := lane_extract (v := turned x y p q) (w := 32) (c := 0) (i := i) (m := 128) (by omega)
  rw [lane_shuffled q (by omega), this, Nat.zero_add, lane_turned p q (by omega)]
  split
  case isTrue => rfl
  case isFalse => rw [if_pos (by omega)]

theorem turned_high (p q : BitVec 32) :
    setLane 0 (y.rotateRight 96) p = (turned x y p q).extractLsb' 128 128 := by
  refine ext_lanes (w := 32) (by decide) fun i hi => ?_
  have := lane_extract (v := turned x y p q) (w := 32) (c := 4) (i := i) (m := 128) (by omega)
  rw [lane_shuffled p (by omega), this, lane_turned p q (by omega)]
  rcases Nat.eq_zero_or_pos i with rfl | hpos
  · rfl
  · rw [if_neg (by omega), if_neg (by omega), if_neg (by omega), if_neg (by omega),
      show 4 + i - 5 = i - 1 by omega]

theorem hashRound_eq (xy : BitVec 128 × BitVec 128) (e : ℕ) :
    hashRoundOf w xy e = Arm.hashStep w xy e := by
  obtain ⟨x, y⟩ := xy
  have ht : lane 32 3 y + (Arm.shaHashSigma1 (lane 32 0 y) +
      (Arm.shaChoose (lane 32 0 y) (lane 32 1 y) (lane 32 2 y) + lane 32 e w)) =
      lane 32 3 y + Arm.shaHashSigma1 (lane 32 0 y) +
        Arm.shaChoose (lane 32 0 y) (lane 32 1 y) (lane 32 2 y) + lane 32 e w := by
    rw [BitVec.add_assoc, BitVec.add_assoc]
  rw [hashRoundOf, ht, ← BitVec.add_assoc]
  exact Prod.ext (turned_low _ _) (turned_high _ _)

theorem sha256Hash_eq (part1 : Bool) :
    (let (x', y') := [(0 : BitVec 8), 1, 2, 3].foldl (fun xy i => hashRoundOf w xy i.toNat) (x, y)
      if part1 then x' else y') = Arm.sha256Hash x y w part1 := by
  simp only [hashRound_eq]
  rfl

/-! ### Widening products -/

theorem extendOf_mul (signed : Bool) {n : ℕ} (u v : BitVec n) :
    extendOf signed n u * extendOf signed n v =
      BitVec.ofInt (2 * n) (Arm.toInt (!signed) u * Arm.toInt (!signed) v) := by
  rw [BitVec.ofInt_mul]
  cases signed with
  | true => rfl
  | false =>
    have hext : ∀ a : BitVec n, extendOf false n a = BitVec.ofInt (2 * n) (Arm.toInt true a) :=
      fun a => (BitVec.ofNat_toNat (2 * n) a).symm
    rw [hext, hext]
    rfl

theorem widened_eq (esize : ESize) (signed : Bool) :
    lanewise₂ (2 * esize.bits) (· * ·) (extendLanes esize.bits (extendOf signed esize.bits) x)
      (extendLanes esize.bits (extendOf signed esize.bits) y) =
      Arm.multiplyWiden esize.bits (!signed) x y := by
  have hpos : 0 < 2 * esize.bits := by cases esize <;> decide
  have hdvd : 2 * esize.bits ∣ 128 := by cases esize <;> decide
  refine ext_lanes hpos fun i hi => ?_
  have hin : 2 * esize.bits * (i + 1) ≤ 128 := by
    obtain ⟨c, hc⟩ := hdvd
    rw [hc] at hi ⊢
    exact Nat.mul_le_mul_left _ (Nat.lt_of_mul_lt_mul_left hi)
  rw [lanewise₂, lane_ofLanes hin, Arm.multiplyWiden, lane_ofLanes hin, extendLanes,
    lane_ofLanes hin, extendLanes, lane_ofLanes hin, extendOf_mul]

end Ruzu.Ir.Polyfill
