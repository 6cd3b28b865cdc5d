import Mathlib
import Ruzu.Fp.Unpacked
import Ruzu.Lib.Rounding

/-!
# What the words stand for

A word is a sign and the number of a magnitude. The magnitudes are numbered in
ascending order: a carry out of the fraction goes on in the exponent.
-/

set_option autoImplicit false

namespace Ruzu.Fp

open Rounding

/-- The magnitude with a number, with exponents that have no bound. -/
def FloatFormat.value (F : FloatFormat) (n : ℕ) : ℚ :=
  let biasedExp := n / 2 ^ F.explicitMantissaWidth
  let fraction := n % 2 ^ F.explicitMantissaWidth
  if biasedExp = 0 then fraction * 2 ^ (F.exponentMin - F.explicitMantissaWidth)
  else (2 ^ F.explicitMantissaWidth + fraction : ℕ) *
    2 ^ ((biasedExp : ℤ) - 1 + F.exponentMin - F.explicitMantissaWidth)

/-- The magnitude of an unpacked value. -/
def FpUnpacked.value (op : FpUnpacked) : ℚ :=
  op.mantissa * 2 ^ (op.exponent - normalizedPointPosition)

/-- The highest bit of the mantissa is bit 62. -/
def FpUnpacked.Normal (op : FpUnpacked) : Prop := 2 ^ 62 ≤ op.mantissa ∧ op.mantissa < 2 ^ 63

namespace FloatFormat

variable (F : FloatFormat)

/-- The numbers of a binade and the one that follows. -/
theorem value_eq {k q : ℕ} (hq : q ≤ 2 ^ (F.explicitMantissaWidth + 1))
    (hk : k = 0 ∨ 2 ^ F.explicitMantissaWidth ≤ q) :
    F.value (k * 2 ^ F.explicitMantissaWidth + q) =
      q * 2 ^ ((k : ℤ) + F.exponentMin - F.explicitMantissaWidth) := by
  rw [pow_succ] at hq
  have hpos : 0 < 2 ^ F.explicitMantissaWidth := Nat.two_pow_pos _
  have hsucc (j : ℤ) : (2 : ℚ) ^ (j + 1) = 2 * 2 ^ j := by
    rw [zpow_add₀ (by decide), zpow_one, mul_comm]
  generalize hM : 2 ^ F.explicitMantissaWidth = w at *
  rw [value]
  simp only [hM]
  rcases Nat.lt_or_ge q w with hlow | hhigh
  · obtain rfl : k = 0 := hk.resolve_right (by omega)
    rw [Nat.zero_mul, Nat.zero_add, Nat.div_eq_of_lt hlow, Nat.mod_eq_of_lt hlow, if_pos rfl]
    simp
  · rcases Nat.lt_or_ge q (2 * w) with hin | hout
    · obtain ⟨r, rfl⟩ := Nat.exists_eq_add_of_le hhigh
      have hdiv : (k * w + (w + r)) / w = k + 1 := by
        rw [← Nat.add_assoc, ← Nat.succ_mul, Nat.mul_comm, Nat.mul_add_div hpos,
          Nat.div_eq_of_lt (by omega), Nat.add_zero]
      have hmod : (k * w + (w + r)) % w = r := by
        rw [← Nat.add_assoc, ← Nat.succ_mul, Nat.mul_comm, Nat.mul_add_mod,
          Nat.mod_eq_of_lt (by omega)]
      rw [hdiv, hmod, if_neg (Nat.succ_ne_zero k)]
      congr 2
      push_cast
      ring
    · obtain rfl : q = 2 * w := by omega
      have hdiv : (k * w + 2 * w) / w = k + 2 := by
        rw [← Nat.add_mul, Nat.mul_div_cancel _ hpos]
      have hmod : (k * w + 2 * w) % w = 0 := by
        rw [← Nat.add_mul, Nat.mul_mod_left]
      rw [hdiv, hmod, if_neg (by omega), Nat.add_zero,
        show ((k + 2 : ℕ) : ℤ) - 1 + F.exponentMin - F.explicitMantissaWidth =
          k + F.exponentMin - F.explicitMantissaWidth + 1 by push_cast; ring, hsucc]
      push_cast
      ring

/-- A number lies in a binade. -/
theorem exists_binade (n : ℕ) : ∃ k q, n = k * 2 ^ F.explicitMantissaWidth + q ∧
    q < 2 ^ (F.explicitMantissaWidth + 1) ∧ (k = 0 ∨ 2 ^ F.explicitMantissaWidth ≤ q) := by
  have hpos : 0 < 2 ^ F.explicitMantissaWidth := Nat.two_pow_pos _
  rw [pow_succ]
  have hdiv := Nat.div_add_mod' n (2 ^ F.explicitMantissaWidth)
  have hmod := Nat.mod_lt n hpos
  rcases Nat.eq_zero_or_pos (n / 2 ^ F.explicitMantissaWidth) with hzero | hsome
  · rw [hzero, Nat.zero_mul] at hdiv
    exact ⟨0, n, by omega, by omega, Or.inl rfl⟩
  · obtain ⟨k, hk⟩ := Nat.exists_eq_add_of_le hsome
    rw [hk, Nat.add_comm 1 k, Nat.succ_mul] at hdiv
    exact ⟨k, 2 ^ F.explicitMantissaWidth + n % 2 ^ F.explicitMantissaWidth, by omega, by omega,
      Or.inr (Nat.le_add_right _ _)⟩

theorem value_strictMono : StrictMono F.value := by
  refine strictMono_nat_of_lt_succ fun n => ?_
  obtain ⟨k, q, rfl, hq, hk⟩ := F.exists_binade n
  rw [Nat.add_assoc, F.value_eq hq.le hk,
    F.value_eq (Nat.succ_le_of_lt hq) (hk.imp_right Nat.le_succ_of_le)]
  exact mul_lt_mul_of_pos_right (by exact_mod_cast Nat.lt_succ_self q) (zpow_pos (by decide) _)

end FloatFormat

end Ruzu.Fp
