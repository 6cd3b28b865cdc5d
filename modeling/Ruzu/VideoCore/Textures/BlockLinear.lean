import Mathlib

/-!
# Block-linear arrangement

A surface is cut into GOBs of 64 bytes by 8 rows, GOBs are stacked into blocks
and blocks follow one another along x, y and z. Inside a GOB the bits of x and
y are interleaved. Two bytes of a surface never share a position, and the
position grows with each coordinate.
-/

set_option autoImplicit false

namespace Ruzu.Textures

/-- The bits of a byte column inside a GOB go to the bits 0, 1, 2, 3, 5 and 8. -/
def depositX (x : ℕ) : ℕ := x % 16 + x / 16 % 2 * 32 + x / 32 % 2 * 256

/-- The bits of a row inside a GOB go to the bits 4, 6 and 7. -/
def depositY (y : ℕ) : ℕ := y % 2 * 16 + y / 2 % 2 * 64 + y / 4 % 2 * 128

theorem deposit_lt (x y : ℕ) : depositX x + depositY y < 512 := by
  simp only [depositX, depositY]
  omega

theorem Blocks.digit_inj {n a r a' r' : ℕ} (hr : r < n) (hr' : r' < n)
    (h : a * n + r = a' * n + r') : a = a' ∧ r = r' := by
  have hmod := congrArg (· % n) h
  simp only [Nat.mul_add_mod_self_right, Nat.mod_eq_of_lt hr, Nat.mod_eq_of_lt hr'] at hmod
  subst hmod
  have hmul : a * n = a' * n := by omega
  exact ⟨Nat.eq_of_mul_eq_mul_right (by omega) hmul, rfl⟩

/-- What is left of the coordinates inside a GOB. -/
theorem deposit_inj {x y x' y' : ℕ}
    (h : depositX x + depositY y = depositX x' + depositY y') :
    x % 64 = x' % 64 ∧ y % 8 = y' % 8 := by
  have hsum (x y : ℕ) : depositX x + depositY y =
      ((((x / 32 % 2 * 2 + y / 4 % 2) * 2 + y / 2 % 2) * 2 + x / 16 % 2) * 2 + y % 2) * 16 +
        x % 16 := by
    rw [depositX, depositY]
    ring
  have hcolumn (x : ℕ) : x % 64 = x % 16 + x / 16 % 2 * 16 + x / 32 % 2 * 32 := by omega
  have hrow (y : ℕ) : y % 8 = y % 2 + y / 2 % 2 * 2 + y / 4 % 2 * 4 := by omega
  have hbit (n : ℕ) : n % 2 < 2 := Nat.mod_lt n Nat.two_pos
  have hlow (n : ℕ) : n % 16 < 16 := Nat.mod_lt n (by decide)
  rw [hsum, hsum] at h
  obtain ⟨h, h₀⟩ := Blocks.digit_inj (hlow _) (hlow _) h
  obtain ⟨h, h₄⟩ := Blocks.digit_inj (hbit _) (hbit _) h
  obtain ⟨h, h₅⟩ := Blocks.digit_inj (hbit _) (hbit _) h
  obtain ⟨h, h₆⟩ := Blocks.digit_inj (hbit _) (hbit _) h
  obtain ⟨h₈, h₇⟩ := Blocks.digit_inj (hbit _) (hbit _) h
  rw [hcolumn x, hcolumn x', hrow y, hrow y', h₀, h₄, h₅, h₆, h₇, h₈]
  exact ⟨rfl, rfl⟩

theorem depositX_mono {x x' : ℕ} (h : x ≤ x') (hg : x / 64 = x' / 64) :
    depositX x ≤ depositX x' := by
  simp only [depositX]
  omega

theorem depositY_mono {y y' : ℕ} (h : y ≤ y') (hg : y / 8 = y' / 8) :
    depositY y ≤ depositY y' := by
  simp only [depositY]
  omega

/-- The bytes of a texel stay together. -/
theorem depositX_add {x k e : ℕ} (he : e ≤ 4) (hx : 2 ^ e ∣ x) (hk : k < 2 ^ e) :
    depositX (x + k) = depositX x + k := by
  obtain ⟨q, rfl⟩ := hx
  simp only [depositX]
  interval_cases e <;> omega

/-- GOBs in a row of blocks, rows of blocks in a slice of blocks, and the logarithms of the
GOBs that a block has along y and z. -/
structure Blocks where
  gobs : ℕ
  rows : ℕ
  blockHeight : ℕ
  blockDepth : ℕ

namespace Blocks

variable (b : Blocks)

def column : ℕ := 2 ^ (9 + b.blockHeight + b.blockDepth)
def block : ℕ := b.gobs * b.column
def slice : ℕ := b.rows * b.block

def offsetX (x : ℕ) : ℕ := x / 64 * b.column
def offsetY (y : ℕ) : ℕ :=
  y / 8 / 2 ^ b.blockHeight * b.block + y / 8 % 2 ^ b.blockHeight * 512
def offsetZ (z : ℕ) : ℕ :=
  z / 2 ^ b.blockDepth * b.slice + z % 2 ^ b.blockDepth * 2 ^ (9 + b.blockHeight)

def position (x y z : ℕ) : ℕ :=
  b.offsetZ z + b.offsetY y + b.offsetX x + (depositX x + depositY y)

variable {b}

theorem column_pos : 0 < b.column := Nat.two_pow_pos _

theorem column_eq : b.column = 512 * 2 ^ b.blockHeight * 2 ^ b.blockDepth := by
  rw [column, pow_add, pow_add]
  norm_num

theorem digit_le {n a r a' r' m : ℕ} (hr : r ≤ n) (hm : n ≤ m) (h : a < a' ∨ a = a' ∧ r ≤ r') :
    a * m + r ≤ a' * m + r' := by
  rcases h with h | ⟨rfl, h⟩
  · have hmul : (a + 1) * m ≤ a' * m := Nat.mul_le_mul_right m h
    rw [Nat.add_mul, Nat.one_mul] at hmul
    omega
  · omega

theorem div_lex {x x' : ℕ} (n : ℕ) (h : x ≤ x') :
    x / n < x' / n ∨ x / n = x' / n ∧ x % n ≤ x' % n := by
  rcases Nat.lt_or_eq_of_le (Nat.div_le_div_right (c := n) h) with hlt | heq
  · exact .inl hlt
  · refine .inr ⟨heq, ?_⟩
    have hx := Nat.div_add_mod x n
    have hx' := Nat.div_add_mod x' n
    rw [heq] at hx
    omega

theorem digit_lt {n a r m : ℕ} (ha : a < m) (hr : r < n) : a * n + r < m * n := by
  have hmul : (a + 1) * n ≤ m * n := Nat.mul_le_mul_right n ha
  rw [Nat.add_mul, Nat.one_mul] at hmul
  omega

/-- The position as a number in mixed radix. -/
theorem position_eq (x y z : ℕ) :
    b.position x y z =
      ((z / 2 ^ b.blockDepth * b.rows + y / 8 / 2 ^ b.blockHeight) * b.gobs + x / 64) * b.column +
      ((z % 2 ^ b.blockDepth * 2 ^ b.blockHeight + y / 8 % 2 ^ b.blockHeight) * 512 +
        (depositX x + depositY y)) := by
  simp only [position, offsetX, offsetY, offsetZ, slice, block, pow_add]
  ring

theorem inside_lt (x y z : ℕ) :
    (z % 2 ^ b.blockDepth * 2 ^ b.blockHeight + y / 8 % 2 ^ b.blockHeight) * 512 +
      (depositX x + depositY y) < b.column := by
  have hz : z % 2 ^ b.blockDepth < 2 ^ b.blockDepth := Nat.mod_lt _ (Nat.two_pow_pos _)
  have hy : y / 8 % 2 ^ b.blockHeight < 2 ^ b.blockHeight := Nat.mod_lt _ (Nat.two_pow_pos _)
  calc _ < 2 ^ b.blockDepth * 2 ^ b.blockHeight * 512 :=
        digit_lt (digit_lt hz hy) (deposit_lt x y)
    _ = b.column := by
        rw [column_eq]
        ring

/-- `n` slices of blocks hold all positions. -/
theorem position_lt {x y z n : ℕ} (hx : x < b.gobs * 64) (hy : y / 8 / 2 ^ b.blockHeight < b.rows)
    (hz : z / 2 ^ b.blockDepth < n) : b.position x y z < n * b.slice := by
  rw [position_eq, slice, block, ← Nat.mul_assoc, ← Nat.mul_assoc]
  exact digit_lt (digit_lt (digit_lt hz hy) (by omega)) (inside_lt x y z)

theorem position_inj {x y z x' y' z' : ℕ} (hx : x < b.gobs * 64) (hx' : x' < b.gobs * 64)
    (hy : y / 8 / 2 ^ b.blockHeight < b.rows) (hy' : y' / 8 / 2 ^ b.blockHeight < b.rows)
    (h : b.position x y z = b.position x' y' z') : x = x' ∧ y = y' ∧ z = z' := by
  rw [position_eq, position_eq] at h
  obtain ⟨hblock, hinside⟩ := digit_inj (inside_lt x y z) (inside_lt x' y' z') h
  obtain ⟨hrow, hcol⟩ := digit_inj (by omega) (by omega) hblock
  obtain ⟨hzb, hyb⟩ := digit_inj hy hy' hrow
  obtain ⟨hgob, hdep⟩ := digit_inj (deposit_lt x y) (deposit_lt x' y') hinside
  obtain ⟨hzi, hyi⟩ := digit_inj (Nat.mod_lt _ (Nat.two_pow_pos _))
    (Nat.mod_lt _ (Nat.two_pow_pos _)) hgob
  obtain ⟨hxi, hyr⟩ := deposit_inj hdep
  have hy8 : y / 8 = y' / 8 := by
    rw [← Nat.div_add_mod (y / 8) (2 ^ b.blockHeight), hyb, hyi, Nat.div_add_mod]
  have hz : z = z' := by
    rw [← Nat.div_add_mod z (2 ^ b.blockDepth), hzb, hzi, Nat.div_add_mod]
  omega

theorem position_mono {x y z x' y' z' : ℕ} (hgobs : 0 < b.gobs) (hrows : 0 < b.rows)
    (hx : x ≤ x') (hy : y ≤ y') (hz : z ≤ z') : b.position x y z ≤ b.position x' y' z' := by
  have hcol : 2 ^ b.blockHeight * 512 ≤ b.column := by
    rw [column_eq, Nat.mul_comm 512]
    exact Nat.le_mul_of_pos_right _ (Nat.two_pow_pos _)
  have hblock : b.column ≤ b.block := Nat.le_mul_of_pos_left _ hgobs
  have hslice : b.block ≤ b.slice := Nat.le_mul_of_pos_left _ hrows
  have hX : b.offsetX x + depositX x ≤ b.offsetX x' + depositX x' := by
    have hle : 512 ≤ b.column := by
      have := Nat.two_pow_pos b.blockHeight
      omega
    have hin : depositX x ≤ 512 := by
      simp only [depositX]
      omega
    refine digit_le hin hle ?_
    exact (div_lex 64 hx).imp_right fun h => ⟨h.1, depositX_mono hx h.1⟩
  have hY : b.offsetY y + depositY y ≤ b.offsetY y' + depositY y' := by
    simp only [offsetY, Nat.add_assoc]
    have hrow : depositY y < 512 := by
      simp only [depositY]
      omega
    have hin : y / 8 % 2 ^ b.blockHeight * 512 + depositY y ≤ 2 ^ b.blockHeight * 512 :=
      Nat.le_of_lt (digit_lt (Nat.mod_lt _ (Nat.two_pow_pos _)) hrow)
    refine digit_le hin (hcol.trans hblock) ?_
    refine (div_lex (2 ^ b.blockHeight) (Nat.div_le_div_right hy)).imp_right fun h => ⟨h.1, ?_⟩
    refine digit_le (show depositY y ≤ 512 by omega) (le_refl 512) ?_
    refine (Nat.lt_or_eq_of_le h.2).imp_right fun heq => ⟨heq, depositY_mono hy ?_⟩
    rw [← Nat.div_add_mod (y / 8) (2 ^ b.blockHeight), h.1, heq, Nat.div_add_mod]
  have hZ : b.offsetZ z ≤ b.offsetZ z' := by
    have hin : z % 2 ^ b.blockDepth * 2 ^ (9 + b.blockHeight) ≤ b.column := by
      rw [column, pow_add 2 (9 + b.blockHeight), Nat.mul_comm]
      exact Nat.mul_le_mul_left _ (Nat.le_of_lt (Nat.mod_lt _ (Nat.two_pow_pos _)))
    refine digit_le hin (hblock.trans hslice) ?_
    exact (div_lex _ hz).imp_right fun h => ⟨h.1, Nat.mul_le_mul_right _ h.2⟩
  simp only [position]
  omega

/-- The bytes of a texel follow one another. -/
theorem position_add {x k e : ℕ} (y z : ℕ) (he : e ≤ 4) (hx : 2 ^ e ∣ x) (hk : k < 2 ^ e) :
    b.position (x + k) y z = b.position x y z + k := by
  have hdiv : (x + k) / 64 = x / 64 := by
    obtain ⟨q, rfl⟩ := hx
    interval_cases e <;> omega
  simp only [position, offsetX, hdiv, depositX_add he hx hk]
  omega

end Blocks

end Ruzu.Textures
