import Ruzu.VideoCore.Textures.DecodersOffsets

/-!
# Swizzling whole textures

The loops visit the bytes of the linear image in order. After each texel a
prefix of the image has been copied; the validated sizes keep every copy in
bounds, and no two bytes share a place on the tiled side.
-/

set_option autoImplicit false

namespace Ruzu.Textures

open Scatter

namespace Surface

variable (s : Surface)

/-! ### Exact sizes -/

def rowBytes : ℕ := s.width * s.bytesPerPixel

def exactStride : ℕ :=
  (s.width + 2 ^ s.strideAlignment - 1) / 2 ^ s.strideAlignment * 2 ^ s.strideAlignment *
    s.bytesPerPixel

def blocks : Blocks where
  gobs := (s.exactStride + 64 - 1) / 64
  rows := (s.height + 2 ^ (s.blockHeight + 3) - 1) / 2 ^ (s.blockHeight + 3)
  blockHeight := s.blockHeight
  blockDepth := s.blockDepth

def linearSize : ℕ := s.rowBytes * s.height * s.depth

/-- Through the last byte addressed. -/
def tiledSize : ℕ := s.blocks.position (s.rowBytes - 1) (s.height - 1) (s.depth - 1) + 1

/-- With the padding of the last blocks. -/
def paddedSize : ℕ := (s.depth + 2 ^ s.blockDepth - 1) / 2 ^ s.blockDepth * s.blocks.slice

/-- The sizes fit into a word, and so do the amounts that the source shifts by. -/
structure Fits : Prop where
  positive : 0 < s.bytesPerPixel ∧ 0 < s.width ∧ 0 < s.height ∧ 0 < s.depth
  linear : s.linearSize < 2 ^ 32
  tiled : s.tiledSize < 2 ^ 32
  shifts : s.blockHeight < 29 ∧ s.blockDepth < 32 ∧ s.strideAlignment < 64

variable {s}

theorem row_le_stride : s.rowBytes ≤ s.exactStride :=
  Nat.mul_le_mul_right _ (le_ceil_mul s.width s.strideAlignment)

theorem stride_le_gobs : s.exactStride ≤ s.blocks.gobs * 64 := le_ceil_mul s.exactStride 6

theorem linearSize_pos (h : 0 < s.bytesPerPixel ∧ 0 < s.width ∧ 0 < s.height ∧ 0 < s.depth) :
    0 < s.linearSize := by
  obtain ⟨hb, hw, hh, hd⟩ := h
  exact Nat.mul_pos (Nat.mul_pos (Nat.mul_pos hw hb) hh) hd

theorem gobs_pos (h : 0 < s.bytesPerPixel ∧ 0 < s.width ∧ 0 < s.height ∧ 0 < s.depth) :
    0 < s.blocks.gobs := by
  have hrow : 0 < s.rowBytes := Nat.mul_pos h.2.1 h.1
  have := row_le_stride (s := s)
  have := stride_le_gobs (s := s)
  omega

theorem lt_ceil {i v : ℕ} (n : ℕ) (h : i < v) : i / 2 ^ n < (v + 2 ^ n - 1) / 2 ^ n :=
  (Nat.div_lt_iff_lt_mul (Nat.two_pow_pos n)).mpr (Nat.lt_of_lt_of_le h (le_ceil_mul v n))

theorem ceil_pos {v : ℕ} (n : ℕ) (h : 0 < v) : 0 < (v + 2 ^ n - 1) / 2 ^ n :=
  Nat.lt_of_le_of_lt (Nat.zero_le _) (lt_ceil n h)

theorem row_lt {y : ℕ} (h : y < s.height) : y / 8 / 2 ^ s.blockHeight < s.blocks.rows := by
  have hdiv : y / 8 / 2 ^ s.blockHeight = y / 2 ^ (s.blockHeight + 3) := by
    rw [Nat.div_div_eq_div_mul, pow_add, Nat.mul_comm]
    rfl
  rw [hdiv]
  exact lt_ceil (s.blockHeight + 3) h

/-- A surface that fits with its padding fits. -/
theorem Fits.of_padded (h : 0 < s.bytesPerPixel ∧ 0 < s.width ∧ 0 < s.height ∧ 0 < s.depth)
    (linear : s.linearSize < 2 ^ 32) (padded : s.paddedSize < 2 ^ 32) : s.Fits := by
  obtain ⟨hb, hw, hh, hd⟩ := h
  have hgobs := gobs_pos ⟨hb, hw, hh, hd⟩
  have hrows : 0 < s.blocks.rows := Nat.lt_of_le_of_lt (Nat.zero_le _) (row_lt hh)
  have hcolumn : s.blocks.gobs * s.blocks.column ≤ s.paddedSize :=
    (Nat.le_mul_of_pos_left _ hrows).trans (Nat.le_mul_of_pos_left _ (ceil_pos _ hd))
  refine ⟨⟨hb, hw, hh, hd⟩, linear, ?_, ?_⟩
  · have hrow : s.rowBytes - 1 < s.blocks.gobs * 64 := by
      have := row_le_stride (s := s)
      have := stride_le_gobs (s := s)
      omega
    have hlt := Blocks.position_lt hrow (row_lt (Nat.sub_lt hh Nat.one_pos))
      (lt_ceil s.blockDepth (Nat.sub_lt hd Nat.one_pos))
    exact Nat.lt_of_le_of_lt hlt padded
  · have hunit : s.blocks.column < 2 ^ 32 :=
      Nat.lt_of_le_of_lt ((Nat.le_mul_of_pos_left _ hgobs).trans hcolumn) padded
    rw [Blocks.column, Nat.pow_lt_pow_iff_right (by decide)] at hunit
    have hstride : 2 ^ s.strideAlignment < 2 ^ 32 := by
      have hone : 2 ^ s.strideAlignment ≤ s.exactStride :=
        (Nat.le_mul_of_pos_left _ (ceil_pos _ hw)).trans (Nat.le_mul_of_pos_right _ hb)
      have h64 : s.blocks.gobs * 64 ≤ s.blocks.gobs * s.blocks.column := by
        refine Nat.mul_le_mul_left _ ?_
        rw [Blocks.column_eq, Nat.mul_assoc]
        have := Nat.mul_pos (Nat.two_pow_pos s.blocks.blockHeight)
          (Nat.two_pow_pos s.blocks.blockDepth)
        omega
      have := stride_le_gobs (s := s)
      omega
    rw [Nat.pow_lt_pow_iff_right (by decide)] at hstride
    change 9 + s.blockHeight + s.blockDepth < 32 at hunit
    omega

theorem alignUpLog2_eq {v n : ℕ} (hv : v < 2 ^ 32) (hn : n < 64) :
    alignUpLog2 v n = (v + 2 ^ n - 1) / 2 ^ n * 2 ^ n := by
  have hpow : 2 ^ n ≤ 2 ^ 63 := Nat.pow_le_pow_right (by decide) (by omega)
  have hpos := Nat.two_pow_pos n
  have hle := Nat.div_mul_le_self (v + (2 ^ n - 1)) (2 ^ n)
  simp only [alignUpLog2]
  rw [Nat.mod_eq_of_lt hn, Nat.one_shiftLeft, Nat.shiftRight_eq_div_pow, Nat.shiftLeft_eq,
    Nat.mod_eq_of_lt (by omega : v + (2 ^ n - 1) < 2 ^ 64),
    Nat.mod_eq_of_lt (by omega), Nat.add_sub_assoc hpos]

namespace Fits

variable (h : s.Fits)

include h

theorem row_pos : 0 < s.rowBytes := Nat.mul_pos h.positive.2.1 h.positive.1

theorem row_lt_word : s.rowBytes < 2 ^ 32 := by
  refine Nat.lt_of_le_of_lt ?_ h.linear
  rw [linearSize, Nat.mul_assoc]
  exact Nat.le_mul_of_pos_right _ (Nat.mul_pos h.positive.2.2.1 h.positive.2.2.2)

theorem stride_eq (hlt : s.blocks.gobs * 64 < 2 ^ 32) : s.stride = s.exactStride := by
  have hle := stride_le_gobs (s := s)
  have hwidth : s.width < 2 ^ 32 :=
    Nat.lt_of_le_of_lt (Nat.le_mul_of_pos_right _ h.positive.1) h.row_lt_word
  have haligned : (s.width + 2 ^ s.strideAlignment - 1) / 2 ^ s.strideAlignment *
      2 ^ s.strideAlignment ≤ s.exactStride := Nat.le_mul_of_pos_right _ h.positive.1
  rw [stride, alignUpLog2_eq hwidth h.shifts.2.2, Nat.mod_eq_of_lt (by omega)]
  exact wrappingMul_of_lt (Nat.lt_of_le_of_lt hle hlt)

theorem exact : s.layout.Exact s.blocks s.rowBytes s.height s.depth where
  blockHeight := rfl
  blockDepth := rfl
  shifts := ⟨h.shifts.1, h.shifts.2.1⟩
  height := rfl
  positive := ⟨h.row_pos, h.positive.2.2⟩
  wide := row_le_stride.trans stride_le_gobs
  rows := rfl
  gobs hlt := by
    have hle := stride_le_gobs (s := s)
    show divCeilLog2 s.stride 6 = (s.exactStride + 64 - 1) / 64
    rw [h.stride_eq hlt]
    exact divCeilLog2_of_le (by decide) (by omega)
  inReach := Nat.lt_of_succ_lt h.tiled

/-! ### The texel size of the copy -/

theorem widthBytes_eq : s.widthBytes = s.rowBytes := wrappingMul_of_lt h.row_lt_word

end Fits

/-- The bits below `trailing_zeros` are zero. -/
theorem dvd_trailingZeros {n k : ℕ} (hk : k ≤ trailingZeros n) (h32 : k ≤ 32) : 2 ^ k ∣ n := by
  refine Nat.dvd_of_mod_eq_zero (Nat.eq_of_testBit_eq fun i => ?_)
  rw [Nat.testBit_mod_two_pow, Nat.zero_testBit]
  by_cases hi : i < k
  · have hbit : n.testBit i = false := by
      by_contra hset
      have hfirst : trailingZeros n ≤ i := by
        cases hfind : (List.range 32).find? n.testBit with
        | none =>
          have := List.find?_range_eq_none.mp hfind i (by omega)
          simp [hset] at this
        | some j =>
          rw [trailingZeros, hfind, Option.getD_some]
          by_contra hlt
          have := (List.find?_range_eq_some.mp hfind).2.2 i (by omega)
          simp [hset] at this
      omega
    simp [hbit]
  · simp [hi]

theorem newBpp_le : s.newBpp ≤ 4 := Nat.min_le_left _ _

theorem texel_eq : s.texel = 2 ^ s.newBpp := by
  have hle : 2 ^ s.newBpp ≤ 2 ^ 4 := Nat.pow_le_pow_right (by decide) newBpp_le
  rw [texel, wrappingShl_of_lt (Nat.lt_of_le_of_lt newBpp_le (by decide)) (by omega), Nat.one_mul]

theorem texel_pos : 0 < s.texel := by
  rw [texel_eq]
  exact Nat.two_pow_pos _

theorem texel_dvd (c : ℕ) : 2 ^ s.newBpp ∣ c * s.texel := by
  rw [texel_eq]
  exact Nat.dvd_mul_left _ _

theorem texel_mem : s.texel ∈ bytesPerPixelCases := by
  have hle : s.newBpp ≤ 4 := newBpp_le
  rw [texel_eq]
  interval_cases s.newBpp <;> decide

namespace Fits

variable (h : s.Fits)

include h

theorem columns_mul : s.columns * s.texel = s.rowBytes := by
  have hdvd : 2 ^ s.newBpp ∣ s.widthBytes :=
    dvd_trailingZeros (Nat.min_le_right _ _) (Nat.le_trans newBpp_le (by decide))
  rw [columns, texel_eq, Nat.shiftRight_eq_div_pow, Nat.div_mul_cancel hdvd, h.widthBytes_eq]

/-! ### Positions of bytes -/

theorem coordinates {i : ℕ} (hi : i < s.linearSize) :
    i % s.rowBytes < s.rowBytes ∧ i / s.rowBytes % s.height < s.height ∧
      i / s.rowBytes / s.height < s.depth := by
  refine ⟨Nat.mod_lt _ h.row_pos, Nat.mod_lt _ h.positive.2.2.1, ?_⟩
  rw [Nat.div_div_eq_div_mul]
  exact Nat.div_lt_of_lt_mul hi

omit h in
theorem coordinates_of_index {x y z : ℕ} (hx : x < s.rowBytes) (hy : y < s.height) :
    ((z * s.height + y) * s.rowBytes + x) % s.rowBytes = x ∧
      ((z * s.height + y) * s.rowBytes + x) / s.rowBytes % s.height = y ∧
      ((z * s.height + y) * s.rowBytes + x) / s.rowBytes / s.height = z := by
  have hdiv : ((z * s.height + y) * s.rowBytes + x) / s.rowBytes = z * s.height + y := by
    rw [Nat.mul_comm, Nat.mul_add_div (by omega), Nat.div_eq_of_lt hx, Nat.add_zero]
  refine ⟨by rw [Nat.mul_add_mod_self_right, Nat.mod_eq_of_lt hx], ?_, ?_⟩
  · rw [hdiv, Nat.mul_add_mod_self_right, Nat.mod_eq_of_lt hy]
  · rw [hdiv, Nat.mul_comm, Nat.mul_add_div (by omega), Nat.div_eq_of_lt hy, Nat.add_zero]

omit h in
theorem index_lt {x y z : ℕ} (hx : x < s.rowBytes) (hy : y < s.height) (hz : z < s.depth) :
    (z * s.height + y) * s.rowBytes + x < s.linearSize := by
  have hsize : s.linearSize = s.depth * s.height * s.rowBytes := by
    rw [linearSize]
    ring
  rw [hsize]
  exact Blocks.digit_lt (Blocks.digit_lt hz hy) hx

/-- Where a byte goes. -/
theorem tiledPosition_eq {i : ℕ} (hi : i < s.linearSize) :
    s.tiledPosition i = s.blocks.position (i % s.rowBytes) (i / s.rowBytes % s.height)
      (i / s.rowBytes / s.height) := by
  obtain ⟨hx, hy, hz⟩ := h.coordinates hi
  have hword := h.row_lt_word
  have hdvd : s.texel ∣ s.rowBytes := ⟨s.columns, by rw [Nat.mul_comm, h.columns_mul]⟩
  have hrest : i % s.texel = i % s.rowBytes % s.texel := (Nat.mod_mod_of_dvd i hdvd).symm
  have hle := Nat.div_mul_le_self (i % s.rowBytes) s.texel
  have hsplit : i % s.rowBytes / s.texel * s.texel + i % s.rowBytes % s.texel = i % s.rowBytes := by
    rw [Nat.mul_comm]
    exact Nat.div_add_mod _ _
  have hmul : wrappingMul (i % s.rowBytes / s.texel) s.texel =
      i % s.rowBytes / s.texel * s.texel := wrappingMul_of_lt (by omega)
  simp only [tiledPosition, h.widthBytes_eq, hmul, pdep_x]
  rw [h.exact.swizzledOffset_eq (by omega) hy hz, hrest]
  rw [← Blocks.position_add _ _ newBpp_le (texel_dvd _)
    (by rw [← texel_eq]; exact Nat.mod_lt _ texel_pos), hsplit]

theorem tiledPosition_inj {i j : ℕ} (hi : i < s.linearSize) (hj : j < s.linearSize)
    (he : s.tiledPosition i = s.tiledPosition j) : i = j := by
  obtain ⟨hx, hy, hz⟩ := h.coordinates hi
  obtain ⟨hx', hy', hz'⟩ := h.coordinates hj
  rw [h.tiledPosition_eq hi, h.tiledPosition_eq hj] at he
  have hwide := h.exact.wide
  obtain ⟨hxe, hye, hze⟩ := Blocks.position_inj (by omega) (by omega) (h.exact.row_lt hy)
    (h.exact.row_lt hy') he
  rw [← Nat.div_add_mod i s.rowBytes, ← Nat.div_add_mod j s.rowBytes, hxe,
    ← Nat.div_add_mod (i / s.rowBytes) s.height, ← Nat.div_add_mod (j / s.rowBytes) s.height, hye,
    hze]

theorem tiledPosition_lt {i : ℕ} (hi : i < s.linearSize) : s.tiledPosition i < s.tiledSize := by
  obtain ⟨hx, hy, hz⟩ := h.coordinates hi
  rw [h.tiledPosition_eq hi]
  exact Nat.lt_succ_of_le (Blocks.position_mono h.exact.gobs_pos h.exact.rows_pos (by omega)
    (by omega) (by omega))

theorem tiledPosition_of_index {x y z : ℕ} (hx : x < s.rowBytes) (hy : y < s.height)
    (hz : z < s.depth) :
    s.tiledPosition ((z * s.height + y) * s.rowBytes + x) = s.blocks.position x y z := by
  obtain ⟨hxe, hye, hze⟩ := coordinates_of_index (z := z) hx hy
  rw [h.tiledPosition_eq (index_lt hx hy hz), hxe, hye, hze]

/-- The final byte has the greatest position. -/
theorem tiledPosition_last : s.tiledPosition (s.linearSize - 1) + 1 = s.tiledSize := by
  have hrow := h.row_pos
  obtain ⟨-, -, hh, hd⟩ := h.positive
  have hlast : s.linearSize - 1 =
      ((s.depth - 1) * s.height + (s.height - 1)) * s.rowBytes + (s.rowBytes - 1) := by
    obtain ⟨r, hr⟩ := Nat.exists_eq_succ_of_ne_zero (Nat.ne_of_gt hrow)
    obtain ⟨m, hm⟩ := Nat.exists_eq_succ_of_ne_zero (Nat.ne_of_gt hh)
    obtain ⟨n, hn⟩ := Nat.exists_eq_succ_of_ne_zero (Nat.ne_of_gt hd)
    have hsize : s.linearSize = (n * (m + 1) + m) * (r + 1) + r + 1 := by
      rw [linearSize, hr, hm, hn, Nat.succ_eq_add_one, Nat.succ_eq_add_one, Nat.succ_eq_add_one]
      ring
    rw [hsize, hr, hm, hn]
    rfl
  rw [hlast, h.tiledPosition_of_index (by omega) (by omega) (by omega), tiledSize]

/-! ### The validated sizes -/

theorem validatedLinear_eq :
    validatedLinear s.columns s.height s.depth s.texel = some s.linearSize := by
  have hrow := h.row_lt_word
  have hsize := h.linear
  have hheight : s.rowBytes * s.height ≤ s.linearSize :=
    Nat.le_mul_of_pos_right _ h.positive.2.2.2
  rw [validatedLinear, checkedMul, h.columns_mul, if_pos (by omega), Option.bind_some, checkedMul,
    if_pos (by omega), Option.bind_some, checkedMul]
  exact if_pos (Nat.lt_trans hsize (by decide))

theorem columns_pos : 0 < s.columns := by
  have hmul := h.columns_mul
  have hrow := h.row_pos
  by_contra hzero
  rw [Nat.eq_zero_of_not_pos hzero, Nat.zero_mul] at hmul
  omega

/-- The size that is checked before the loops is the extent of the tiled image. -/
theorem validatedTiled_eq : validatedTiled s.layout s.columns s.depth s.texel = s.tiledSize := by
  have hcolumns := h.columns_pos
  have hrow := h.row_pos
  have hmul := h.columns_mul
  have htexel := texel_pos (s := s)
  obtain ⟨-, -, hh, hd⟩ := h.positive
  have hx : (s.columns - 1) * s.texel = s.rowBytes - s.texel := by
    rw [Nat.sub_mul, Nat.one_mul, hmul]
  have hle : s.texel ≤ s.rowBytes := by
    rw [← hmul]
    exact Nat.le_mul_of_pos_left _ hcolumns
  have hword : wrappingMul (s.columns - 1) s.texel = (s.columns - 1) * s.texel :=
    wrappingMul_of_lt (by have := h.row_lt_word; omega)
  have hlast : s.blocks.position (s.rowBytes - 1) (s.height - 1) (s.depth - 1) =
      s.blocks.position ((s.columns - 1) * s.texel) (s.height - 1) (s.depth - 1) +
        (s.texel - 1) := by
    rw [← Blocks.position_add _ _ newBpp_le (texel_dvd _) (by rw [← texel_eq]; omega), hx]
    congr 1
    omega
  have hzero : ¬(s.columns = 0 ∨ s.height = 0 ∨ s.depth = 0) := by
    omega
  have hheight : s.layout.height = s.height := rfl
  simp only [validatedTiled, if_neg hzero, hword, pdep_x, hheight]
  rw [h.exact.swizzledOffset_eq (by omega) (Nat.sub_lt hh Nat.one_pos) (by omega), tiledSize,
    hlast]
  omega

/-! ### The loops -/

theorem unswizzledOffset_eq {column line slice : ℕ} (hx : column * s.texel < s.rowBytes)
    (hy : line < s.height) (hz : slice < s.depth) :
    unswizzledOffset (wrappingMul s.columns s.texel) s.height s.texel column line slice =
      (slice * s.height + line) * s.rowBytes + column * s.texel := by
  have hlt := Nat.lt_trans (index_lt hx hy hz) h.linear
  have hsum : (slice * s.height + line) * s.rowBytes + column * s.texel =
      slice * s.rowBytes * s.height + line * s.rowBytes + column * s.texel := by
    ring
  have hle : slice * s.rowBytes ≤ slice * s.rowBytes * s.height :=
    Nat.le_mul_of_pos_right _ h.positive.2.2.1
  rw [hsum] at hlt
  have hpitch : wrappingMul s.columns s.texel = s.rowBytes := by
    rw [wrappingMul, h.columns_mul, Nat.mod_eq_of_lt h.row_lt_word]
  have hslice : wrappingMul slice s.rowBytes = slice * s.rowBytes := wrappingMul_of_lt (by omega)
  have hlines : wrappingMul line s.rowBytes = line * s.rowBytes := wrappingMul_of_lt (by omega)
  have hcolumn : wrappingMul column s.texel = column * s.texel := wrappingMul_of_lt (by omega)
  have hmul : wrappingMul (slice * s.rowBytes) s.height = slice * s.rowBytes * s.height :=
    wrappingMul_of_lt (by omega)
  rw [unswizzledOffset, hpitch, hslice, hlines, hcolumn, hmul, hsum,
    wrappingAdd_of_lt (by omega : slice * s.rowBytes * s.height + line * s.rowBytes < 2 ^ 32),
    wrappingAdd_of_lt (by omega)]

end Fits

/-- The side a byte of the linear image is copied to, and the side it comes from. -/
def dest (s : Surface) (toLinear : Bool) (i : ℕ) : ℕ := if toLinear then s.tiledPosition i else i
def orig (s : Surface) (toLinear : Bool) (i : ℕ) : ℕ := if toLinear then i else s.tiledPosition i

/-- The length that `swizzle` asks of the side copied to. -/
def outputSize (s : Surface) (toLinear : Bool) : ℕ :=
  if toLinear then s.tiledSize else s.linearSize
def inputSize (s : Surface) (toLinear : Bool) : ℕ :=
  if toLinear then s.linearSize else s.tiledSize

/-- The first `n` bytes of the linear image have been copied. -/
def CopiedUpTo (s : Surface) (toLinear : Bool) (output input : Bytes) (n : ℕ) (out : Bytes) :
    Prop :=
  Copied (s.dest toLinear) (s.orig toLinear) output input {i | i < n} out

namespace Fits

variable (h : s.Fits) {toLinear : Bool} {output input out : Bytes}

include h

theorem compatible (toLinear : Bool) (input : Bytes) {n : ℕ} (hn : n ≤ s.linearSize) :
    Compatible (s.dest toLinear) (s.orig toLinear) input {i | i < n} := by
  intro p hp q hq he
  have hp : p < n := hp
  have hq : q < n := hq
  cases toLinear with
  | false =>
    obtain rfl : p = q := he
    rfl
  | true =>
    obtain rfl := h.tiledPosition_inj (by omega) (by omega) he
    rfl

/-- One texel. -/
theorem copyTexel_copied {column line slice : ℕ} (hx : column < s.columns) (hy : line < s.height)
    (hz : slice < s.depth) (hout : s.outputSize toLinear ≤ output.length)
    (hin : s.inputSize toLinear ≤ input.length)
    (hc : s.CopiedUpTo toLinear output input
      ((slice * s.height + line) * s.rowBytes + column * s.texel) out) :
    ∃ out', copyTexel toLinear out input
        (s.blocks.position (column * s.texel) line slice)
        ((slice * s.height + line) * s.rowBytes + column * s.texel) s.texel = some out' ∧
      s.CopiedUpTo toLinear output input
        ((slice * s.height + line) * s.rowBytes + (column + 1) * s.texel) out' := by
  have hmul := h.columns_mul
  have htexel := texel_pos (s := s)
  have hrow : column * s.texel + s.texel ≤ s.rowBytes := by
    rw [← hmul, ← Nat.succ_mul]
    exact Nat.mul_le_mul_right _ hx
  have hlast := index_lt (show column * s.texel + (s.texel - 1) < s.rowBytes by omega) hy hz
  have hbyte : ∀ k, k < s.texel →
      s.tiledPosition ((slice * s.height + line) * s.rowBytes + column * s.texel + k) =
        s.blocks.position (column * s.texel) line slice + k := by
    intro k hk
    rw [Nat.add_assoc, h.tiledPosition_of_index (by omega) hy hz,
      Blocks.position_add _ _ newBpp_le (texel_dvd _) (by rwa [← texel_eq])]
  have htiled := h.tiledPosition_lt hlast
  rw [← Nat.add_assoc, hbyte _ (by omega)] at htiled
  rw [← Nat.add_assoc] at hlast
  have hnext : (slice * s.height + line) * s.rowBytes + (column + 1) * s.texel =
      (slice * s.height + line) * s.rowBytes + column * s.texel + s.texel := by
    ring
  rw [hnext]
  generalize (slice * s.height + line) * s.rowBytes + column * s.texel = i at *
  have hmoved : ∀ p, p ∈ {j | j < i + s.texel} ↔ p ∈ {j | j < i} ∨ ∃ k, k < s.texel ∧ p = i + k := by
    intro p
    refine ⟨fun hp => ?_, ?_⟩
    · rcases Nat.lt_or_ge p i with hlt | hge
      · exact .inl hlt
      · have hp : p < i + s.texel := hp
        exact .inr ⟨p - i, by omega, by omega⟩
    · rintro (hp | ⟨k, hk, rfl⟩)
      · exact Nat.lt_of_lt_of_le hp (Nat.le_add_right _ _)
      · exact Nat.add_lt_add_left hk i
  have hcompatible := h.compatible toLinear input (n := i + s.texel) (by omega)
  have hlength := hc.length
  cases toLinear with
  | false =>
    have hbounds : InBounds out input i (s.blocks.position (column * s.texel) line slice)
        s.texel := by
      change s.linearSize ≤ _ at hout
      change s.tiledSize ≤ _ at hin
      exact ⟨by omega, by omega⟩
    refine ⟨_, if_pos hbounds, ?_⟩
    exact hc.splice hcompatible hbounds (i + ·) (fun _ _ => rfl) hbyte hmoved
  | true =>
    have hbounds : InBounds out input (s.blocks.position (column * s.texel) line slice) i
        s.texel := by
      change s.tiledSize ≤ _ at hout
      change s.linearSize ≤ _ at hin
      exact ⟨by omega, by omega⟩
    refine ⟨_, if_pos hbounds, ?_⟩
    exact hc.splice hcompatible hbounds (i + ·) hbyte (fun _ _ => rfl) hmoved

theorem swizzleLine_copied {line slice : ℕ} (hy : line < s.height) (hz : slice < s.depth)
    (hout : s.outputSize toLinear ≤ output.length) (hin : s.inputSize toLinear ≤ input.length)
    (hc : s.CopiedUpTo toLinear output input ((slice * s.height + line) * s.rowBytes) out) :
    ∃ out', swizzleLine toLinear s.texel input s.columns s.layout slice out line = some out' ∧
      s.CopiedUpTo toLinear output input ((slice * s.height + (line + 1)) * s.rowBytes) out' := by
  have hmul := h.columns_mul
  have hword := h.row_lt_word
  have hloop : ∃ st, loop s.columns (out, pdep swizzleXBits 0)
      (swizzleColumn toLinear s.texel input s.columns s.layout line slice) = some st ∧
        st.2 = depositX (s.columns * s.texel) ∧ s.CopiedUpTo toLinear output input
          ((slice * s.height + line) * s.rowBytes + s.columns * s.texel) st.1 := by
    refine loop_rule (fun column (st : Bytes × ℕ) => st.2 = depositX (column * s.texel) ∧
      s.CopiedUpTo toLinear output input
        ((slice * s.height + line) * s.rowBytes + column * s.texel) st.1) ?_ ?_
    · rw [Nat.zero_mul, Nat.add_zero]
      exact ⟨pdep_x 0, hc⟩
    · rintro column ⟨now, swizzledX⟩ hcolumn ⟨rfl, hnow⟩
      have hx : column * s.texel < s.rowBytes := by
        rw [← hmul]
        exact Nat.mul_lt_mul_of_pos_right hcolumn texel_pos
      have hxw : wrappingMul column s.texel = column * s.texel := wrappingMul_of_lt (by omega)
      have hheight : s.layout.height = s.height := rfl
      obtain ⟨next, hcopy, hnext⟩ := h.copyTexel_copied hcolumn hy hz hout hin hnow
      refine ⟨(next, depositX ((column + 1) * s.texel)), ?_, rfl, hnext⟩
      simp only [swizzleColumn, hxw, h.exact.swizzledOffset_eq hx hy hz, hheight,
        h.unswizzledOffset_eq hx hy hz, hcopy, Option.map_some]
      rw [Nat.succ_mul, texel_eq, incrpdep_x newBpp_le]
  obtain ⟨st, hst, -, hdone⟩ := hloop
  refine ⟨st.1, ?_, ?_⟩
  · rw [swizzleLine, hst, Option.map_some]
  · rwa [hmul, ← Nat.succ_mul] at hdone

theorem swizzleSlice_copied {slice : ℕ} (hz : slice < s.depth)
    (hout : s.outputSize toLinear ≤ output.length) (hin : s.inputSize toLinear ≤ input.length)
    (hc : s.CopiedUpTo toLinear output input (slice * s.height * s.rowBytes) out) :
    ∃ out', swizzleSlice toLinear s.texel input s.columns s.layout out slice = some out' ∧
      s.CopiedUpTo toLinear output input ((slice + 1) * s.height * s.rowBytes) out' := by
  rw [Nat.succ_mul]
  exact loop_rule (fun line out => s.CopiedUpTo toLinear output input
    ((slice * s.height + line) * s.rowBytes) out) hc
    fun line now hy hnow => h.swizzleLine_copied hy hz hout hin hnow

/-- Both directions succeed and copy the whole image. -/
theorem swizzle_copied (toLinear : Bool) (hout : s.outputSize toLinear ≤ output.length)
    (hin : s.inputSize toLinear ≤ input.length) :
    ∃ out, swizzle toLinear output input s.texel s.columns s.depth s.layout = some out ∧
      s.CopiedUpTo toLinear output input s.linearSize out := by
  have hloop : ∃ out, loop s.depth output
      (swizzleSlice toLinear s.texel input s.columns s.layout) = some out ∧
        s.CopiedUpTo toLinear output input (s.depth * s.height * s.rowBytes) out := by
    refine loop_rule (fun slice out => s.CopiedUpTo toLinear output input
      (slice * s.height * s.rowBytes) out) ?_
      fun slice now hz hnow => h.swizzleSlice_copied hz hout hin hnow
    have hnone : {i | i < 0 * s.height * s.rowBytes} = (∅ : Set ℕ) := by
      ext i
      simp
    rw [CopiedUpTo, hnone]
    exact Copied.nothing
  obtain ⟨out, hst, hdone⟩ := hloop
  refine ⟨out, ?_, ?_⟩
  · have hheight : s.layout.height = s.height := rfl
    rw [swizzle, if_pos texel_mem, swizzleImpl, hheight, h.validatedLinear_eq, h.validatedTiled_eq]
    cases toLinear <;> exact (if_pos ⟨hout, hin⟩).trans hst
  · rwa [show s.depth * s.height * s.rowBytes = s.linearSize by rw [linearSize]; ring] at hdone

end Fits

end Surface

end Ruzu.Textures
