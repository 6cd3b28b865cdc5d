import Ruzu.VideoCore.Textures.BlockLinear
import Ruzu.VideoCore.Textures.Decoders

/-!
# The offsets of the swizzle loops are exact

When the last byte of a surface has a position below `2 ^ 32`, the wrapping
arithmetic of the loops computes positions of the block-linear arrangement:
a product wraps around only where its other factor is zero.
-/

set_option autoImplicit false

namespace Ruzu.Textures

variable {a c n v w h d x y z : ℕ}

/-! ### Words -/

theorem wrappingAdd_of_lt (h : a + c < 2 ^ 32) : wrappingAdd a c = a + c := Nat.mod_eq_of_lt h

theorem wrappingMul_of_lt (h : a * c < 2 ^ 32) : wrappingMul a c = a * c := Nat.mod_eq_of_lt h

theorem wrappingShl_of_lt (hn : n < 32) (h : a * 2 ^ n < 2 ^ 32) :
    wrappingShl a n = a * 2 ^ n := by
  rw [wrappingShl, Nat.mod_eq_of_lt hn, Nat.shiftLeft_eq, Nat.mod_eq_of_lt h]

theorem wrappingShl_zero (n : ℕ) : wrappingShl 0 n = 0 := by
  rw [wrappingShl, Nat.shiftLeft_eq, Nat.zero_mul, Nat.zero_mod]

theorem shr_of_lt (hn : n < 32) (a : ℕ) : shr a n = a / 2 ^ n := by
  rw [shr, Nat.mod_eq_of_lt hn, Nat.shiftRight_eq_div_pow]

theorem and_mask (hn : n < 32) (a : ℕ) :
    a &&& wrappingSub (wrappingShl 1 n) 1 = a % 2 ^ n := by
  have hlt : 2 ^ n < 2 ^ 32 := Nat.pow_lt_pow_right (by decide) hn
  have hpos := Nat.two_pow_pos n
  have hmask : wrappingSub (wrappingShl 1 n) 1 = 2 ^ n - 1 := by
    rw [wrappingShl_of_lt hn (by omega), Nat.one_mul, wrappingSub]
    omega
  rw [hmask, Nat.and_two_pow_sub_one_eq_mod]

/-- `ceil (v / 2 ^ n)`. -/
theorem divCeilLog2_of_le (hn : n < 32) (h : v + 2 ^ n ≤ 2 ^ 32) :
    divCeilLog2 v n = (v + 2 ^ n - 1) / 2 ^ n := by
  have hpos := Nat.two_pow_pos n
  have hlt : 2 ^ n < 2 ^ 32 := Nat.pow_lt_pow_right (by decide) hn
  have hnum : wrappingSub (wrappingAdd v (2 ^ n)) 1 = v + 2 ^ n - 1 := by
    rw [wrappingSub, wrappingAdd]
    generalize 2 ^ n = p at *
    omega
  rw [divCeilLog2, shr_of_lt hn, wrappingShl_of_lt hn (by omega), Nat.one_mul, hnum]

theorem le_ceil_mul (v n : ℕ) : v ≤ (v + 2 ^ n - 1) / 2 ^ n * 2 ^ n := by
  have hpos := Nat.two_pow_pos n
  have hmod := Nat.div_add_mod (v + 2 ^ n - 1) (2 ^ n)
  have hlt := Nat.mod_lt (v + 2 ^ n - 1) hpos
  rw [Nat.mul_comm] at hmod
  omega

/-! ### Bit deposit -/

theorem and_two_pow_mod {v i n : ℕ} (h : i < n) : v % 2 ^ n &&& 2 ^ i = v &&& 2 ^ i := by
  apply Nat.eq_of_testBit_eq
  intro j
  rw [Nat.testBit_and, Nat.testBit_and, Nat.testBit_mod_two_pow, Nat.testBit_two_pow]
  rcases eq_or_ne i j with rfl | hne
  · simp [h]
  · simp [hne]

/-- One round for each bit of the mask. -/
theorem pdep_x_rounds (v : ℕ) : pdep swizzleXBits v =
    (let r := if v &&& 2 ^ 0 ≠ 0 then 1 else 0
    let r := if v &&& 2 ^ 1 ≠ 0 then r ||| 2 else r
    let r := if v &&& 2 ^ 2 ≠ 0 then r ||| 4 else r
    let r := if v &&& 2 ^ 3 ≠ 0 then r ||| 8 else r
    let r := if v &&& 2 ^ 4 ≠ 0 then r ||| 32 else r
    if v &&& 2 ^ 5 ≠ 0 then r ||| 256 else r) := rfl

theorem pdep_y_rounds (v : ℕ) : pdep swizzleYBits v =
    (let r := if v &&& 2 ^ 0 ≠ 0 then 16 else 0
    let r := if v &&& 2 ^ 1 ≠ 0 then r ||| 64 else r
    if v &&& 2 ^ 2 ≠ 0 then r ||| 128 else r) := rfl

theorem pdep_x (x : ℕ) : pdep swizzleXBits x = depositX x := by
  have hbit : ∀ i < 6, x % 2 ^ 6 &&& 2 ^ i = x &&& 2 ^ i := fun i hi => and_two_pow_mod hi
  have hmod : pdep swizzleXBits x = pdep swizzleXBits (x % 64) := by
    rw [show 64 = 2 ^ 6 by rfl]
    simp only [pdep_x_rounds, hbit, Nat.reduceLT]
  have hall : ∀ r < 64, pdep swizzleXBits r = depositX r := by decide +kernel
  rw [hmod, hall _ (Nat.mod_lt _ (by decide))]
  simp only [depositX]
  omega

theorem pdep_y (y : ℕ) : pdep swizzleYBits y = depositY y := by
  have hbit : ∀ i < 3, y % 2 ^ 3 &&& 2 ^ i = y &&& 2 ^ i := fun i hi => and_two_pow_mod hi
  have hmod : pdep swizzleYBits y = pdep swizzleYBits (y % 8) := by
    rw [show 8 = 2 ^ 3 by rfl]
    simp only [pdep_y_rounds, hbit, Nat.reduceLT]
  have hall : ∀ r < 8, pdep swizzleYBits r = depositY r := by decide +kernel
  rw [hmod, hall _ (Nat.mod_lt _ (by decide))]
  simp only [depositY]
  omega

theorem depositX_mod (x : ℕ) : depositX (x % 64) = depositX x := by
  simp only [depositX]
  omega

theorem depositY_mod (y : ℕ) : depositY (y % 8) = depositY y := by
  simp only [depositY]
  omega

theorem deposit_or (x y : ℕ) : depositX x ||| depositY y = depositX x + depositY y := by
  have hall : ∀ r < 64, ∀ t < 8, depositX r ||| depositY t = depositX r + depositY t := by
    decide +kernel
  rw [← depositX_mod, ← depositY_mod]
  exact hall _ (Nat.mod_lt _ (by decide)) _ (Nat.mod_lt _ (by decide))

/-- The deposited column advances with the column. -/
theorem incrpdep_x {e : ℕ} (he : e ≤ 4) (x : ℕ) :
    incrpdep swizzleXBits (2 ^ e) (depositX x) = depositX (x + 2 ^ e) := by
  have hall : ∀ e ≤ 4, ∀ r < 64,
      incrpdep swizzleXBits (2 ^ e) (depositX r) = depositX (r + 2 ^ e) := by
    decide +kernel
  rw [← depositX_mod, hall e he _ (Nat.mod_lt _ (by decide))]
  simp only [depositX]
  omega

/-! ### Offsets -/

/-- The layout holds the exact numbers wherever they fit into a word, and the last byte of a
surface of `w` bytes, `h` rows and `d` slices is in reach. -/
structure Layout.Exact (l : Layout) (b : Blocks) (w h d : ℕ) : Prop where
  blockHeight : b.blockHeight = l.blockHeight
  blockDepth : b.blockDepth = l.blockDepth
  shifts : l.blockHeight < 29 ∧ l.blockDepth < 32
  height : l.height = h
  positive : 0 < w ∧ 0 < h ∧ 0 < d
  wide : w ≤ b.gobs * 64
  rows : b.rows = (h + 2 ^ (l.blockHeight + 3) - 1) / 2 ^ (l.blockHeight + 3)
  gobs : b.gobs * 64 < 2 ^ 32 → l.gobsInX = b.gobs
  inReach : b.position (w - 1) (h - 1) (d - 1) < 2 ^ 32

namespace Layout.Exact

variable {l : Layout} {b : Blocks} (e : l.Exact b w h d)

include e

theorem gobs_pos : 0 < b.gobs := by
  have := e.wide
  have := e.positive
  omega

theorem high : h ≤ b.rows * 2 ^ (b.blockHeight + 3) := by
  rw [e.rows, e.blockHeight]
  exact le_ceil_mul h _

theorem rows_pos : 0 < b.rows := by
  by_contra hzero
  have hhigh := e.high
  rw [Nat.eq_zero_of_not_pos hzero, Nat.zero_mul] at hhigh
  have := e.positive
  omega

theorem position_lt (hx : x < w) (hy : y < h) (hz : z < d) : b.position x y z < 2 ^ 32 :=
  Nat.lt_of_le_of_lt (Blocks.position_mono e.gobs_pos e.rows_pos (by omega) (by omega) (by omega))
    e.inReach

theorem row_lt (hy : y < h) : y / 8 / 2 ^ b.blockHeight < b.rows := by
  have hhigh := e.high
  rw [Nat.div_div_eq_div_mul, Nat.div_lt_iff_lt_mul (by positivity)]
  rw [pow_add] at hhigh
  calc y < h := hy
    _ ≤ b.rows * (2 ^ b.blockHeight * 2 ^ 3) := hhigh
    _ = b.rows * (8 * 2 ^ b.blockHeight) := by ring

theorem blockSize_eq (hlt : b.block < 2 ^ 32) : l.blockSize = b.block := by
  have hcol : b.column < 2 ^ 32 :=
    Nat.lt_of_le_of_lt (Nat.le_mul_of_pos_left _ e.gobs_pos) hlt
  have hshift : l.xShift < 32 := by
    rw [Blocks.column, Nat.pow_lt_pow_iff_right (by decide), e.blockHeight, e.blockDepth] at hcol
    exact hcol
  have hgobs : b.gobs * 64 < 2 ^ 32 := by
    have h512 : 512 ≤ b.column := by
      rw [Blocks.column_eq, Nat.mul_assoc]
      exact Nat.le_mul_of_pos_right _ (by positivity)
    have := Nat.mul_le_mul_left b.gobs h512
    rw [Blocks.block] at hlt
    omega
  have hblock : b.block = l.gobsInX * 2 ^ l.xShift := by
    rw [e.gobs hgobs, Blocks.block, Blocks.column, e.blockHeight, e.blockDepth, xShift]
  rw [blockSize, wrappingShl_of_lt hshift (by rw [← hblock]; exact hlt), hblock]

theorem sliceSize_eq (hlt : b.slice < 2 ^ 32) : l.sliceSize = b.slice := by
  have hblock : b.block < 2 ^ 32 :=
    Nat.lt_of_le_of_lt (Nat.le_mul_of_pos_left _ e.rows_pos) hlt
  have hunit : 2 ^ (b.blockHeight + 3) * 64 ≤ b.block := by
    have hcol : 2 ^ (b.blockHeight + 3) * 64 ≤ b.column := by
      rw [Blocks.column_eq, pow_add]
      calc 2 ^ b.blockHeight * 2 ^ 3 * 64 = 512 * 2 ^ b.blockHeight := by ring
        _ ≤ 512 * 2 ^ b.blockHeight * 2 ^ b.blockDepth :=
          Nat.le_mul_of_pos_right _ (Nat.two_pow_pos _)
    exact hcol.trans (Nat.le_mul_of_pos_left _ e.gobs_pos)
  have hrows : h + 2 ^ (b.blockHeight + 3) ≤ 2 ^ 32 := by
    have hone := Nat.le_mul_of_pos_left (2 ^ (b.blockHeight + 3)) e.rows_pos
    have hmul := Nat.mul_le_mul_left b.rows hunit
    rw [← Nat.mul_assoc] at hmul
    have := e.high
    rw [Blocks.slice] at hlt
    omega
  rw [sliceSize, e.height, divCeilLog2_of_le (by have := e.shifts; omega)
    (by rw [← e.blockHeight]; exact hrows), ← e.rows, e.blockSize_eq hblock]
  exact wrappingMul_of_lt hlt

theorem offsetX_eq (hlt : b.offsetX x < 2 ^ 32) : l.offsetX x = b.offsetX x := by
  rw [offsetX, Nat.shiftRight_eq_div_pow, Blocks.offsetX]
  rcases Nat.eq_zero_or_pos (x / 64) with hzero | hpos
  · rw [show x / 2 ^ 6 = 0 from hzero, hzero, wrappingShl_zero, Nat.zero_mul]
  · have hcol : b.column < 2 ^ 32 := Nat.lt_of_le_of_lt (Nat.le_mul_of_pos_left _ hpos) hlt
    have hshift : l.xShift < 32 := by
      rw [Blocks.column, Nat.pow_lt_pow_iff_right (by decide), e.blockHeight, e.blockDepth] at hcol
      exact hcol
    have hcolumn : b.column = 2 ^ l.xShift := by
      rw [Blocks.column, e.blockHeight, e.blockDepth, xShift]
    rw [hcolumn]
    rw [Blocks.offsetX, hcolumn] at hlt
    exact wrappingShl_of_lt hshift hlt

theorem offsetY_eq (hlt : b.offsetY y < 2 ^ 32) : l.offsetY y = b.offsetY y := by
  have hsplit : b.offsetY y =
    y / 8 / 2 ^ b.blockHeight * b.block + y / 8 % 2 ^ b.blockHeight * 512 := rfl
  have hbh : l.blockHeight < 32 := by
    have := e.shifts
    omega
  have hmul : wrappingMul (y / 8 / 2 ^ b.blockHeight) l.blockSize =
      y / 8 / 2 ^ b.blockHeight * b.block := by
    rcases Nat.eq_zero_or_pos (y / 8 / 2 ^ b.blockHeight) with hzero | hpos
    · rw [hzero, wrappingMul, Nat.zero_mul, Nat.zero_mul, Nat.zero_mod]
    · have hblock : b.block < 2 ^ 32 :=
        Nat.lt_of_le_of_lt (Nat.le_mul_of_pos_left _ hpos) (by omega)
      rw [e.blockSize_eq hblock]
      exact wrappingMul_of_lt (by omega)
  have hshl : wrappingShl (y / 8 % 2 ^ b.blockHeight) 9 = y / 8 % 2 ^ b.blockHeight * 512 :=
    wrappingShl_of_lt (by decide) (by rw [show 2 ^ 9 = 512 by rfl]; omega)
  rw [offsetY, blockHeightMask, Nat.shiftRight_eq_div_pow, shr_of_lt hbh, and_mask hbh,
    ← e.blockHeight, show 2 ^ 3 = 8 by rfl, hmul, hshl, wrappingAdd_of_lt (by omega), hsplit]

theorem offsetZ_eq (hlt : b.offsetZ z < 2 ^ 32) : l.offsetZ z = b.offsetZ z := by
  have hsplit : b.offsetZ z =
    z / 2 ^ b.blockDepth * b.slice + z % 2 ^ b.blockDepth * 2 ^ (9 + b.blockHeight) := rfl
  have hbd : l.blockDepth < 32 := e.shifts.2
  have hmul : wrappingMul (z / 2 ^ b.blockDepth) l.sliceSize =
      z / 2 ^ b.blockDepth * b.slice := by
    rcases Nat.eq_zero_or_pos (z / 2 ^ b.blockDepth) with hzero | hpos
    · rw [hzero, wrappingMul, Nat.zero_mul, Nat.zero_mul, Nat.zero_mod]
    · have hslice : b.slice < 2 ^ 32 :=
        Nat.lt_of_le_of_lt (Nat.le_mul_of_pos_left _ hpos) (by omega)
      rw [e.sliceSize_eq hslice]
      exact wrappingMul_of_lt (by omega)
  have hshl : wrappingShl (z % 2 ^ b.blockDepth) (9 + b.blockHeight) =
      z % 2 ^ b.blockDepth * 2 ^ (9 + b.blockHeight) := by
    rcases Nat.eq_zero_or_pos (z % 2 ^ b.blockDepth) with hzero | hpos
    · rw [hzero, wrappingShl_zero, Nat.zero_mul]
    · have hunit : 2 ^ (9 + b.blockHeight) < 2 ^ 32 :=
        Nat.lt_of_le_of_lt (Nat.le_mul_of_pos_left _ hpos) (by omega)
      rw [Nat.pow_lt_pow_iff_right (by decide)] at hunit
      exact wrappingShl_of_lt hunit (by omega)
  rw [offsetZ, blockDepthMask, shr_of_lt hbd, and_mask hbd, ← e.blockDepth, ← e.blockHeight, hmul,
    hshl, wrappingAdd_of_lt (by omega), hsplit]

/-- The offset of the loops is the position of the arrangement. -/
theorem swizzledOffset_eq (hx : x < w) (hy : y < h) (hz : z < d) :
    l.swizzledOffset (depositX x) x y z = b.position x y z := by
  have hlt := e.position_lt hx hy hz
  have hsum : b.position x y z =
    b.offsetZ z + b.offsetY y + b.offsetX x + (depositX x + depositY y) := rfl
  rw [swizzledOffset, e.offsetX_eq (by omega), e.offsetY_eq (by omega), e.offsetZ_eq (by omega),
    pdep_y, deposit_or, wrappingAdd_of_lt (by omega : b.offsetZ z + b.offsetY y < 2 ^ 32),
    wrappingAdd_of_lt (by omega : b.offsetZ z + b.offsetY y + b.offsetX x < 2 ^ 32),
    wrappingAdd_of_lt (by omega), hsum]

end Layout.Exact

end Ruzu.Textures
