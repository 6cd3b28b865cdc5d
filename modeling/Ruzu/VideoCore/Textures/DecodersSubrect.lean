import Ruzu.VideoCore.Textures.DecodersRuns

/-!
# Swizzling rectangles

A rectangle of a surface with one slice goes to the places that the whole
surface gives to its bytes. A texel that is not in bounds on either side is
skipped.
-/

set_option autoImplicit false

namespace Ruzu.Textures

open Scatter

namespace Surface

variable (s : Surface) (r : Rectangle)

/-- The bytes of a line of the rectangle. -/
def lineBytes : ℕ := r.extentX * s.bytesPerPixel

def rectangleBytes : ℕ := r.extentY * s.lineBytes r

/-- The byte `j` of the rectangle in the linear image of the surface. -/
def surfaceIndex (j : ℕ) : ℕ :=
  (r.originY + j / s.lineBytes r) * s.rowBytes +
    (r.originX * s.bytesPerPixel + j % s.lineBytes r)

/-- The byte `j` of the rectangle in its own linear image. -/
def pitchIndex (j : ℕ) : ℕ := j / s.lineBytes r * r.pitchLinear + j % s.lineBytes r

/-- A rectangle inside the surface, with a linear size that fits into a word. -/
structure Contains : Prop where
  columns : r.originX + r.extentX ≤ s.width
  lines : r.originY + r.extentY ≤ s.height
  linear : (r.extentY - 1) * r.pitchLinear + s.lineBytes r < 2 ^ 32

/-- The texel of the byte `j` is in bounds on both sides. -/
def TexelInBounds (tiledLength linearLength j : ℕ) : Prop :=
  s.tiledPosition (s.surfaceIndex r (j / s.bytesPerPixel * s.bytesPerPixel)) + s.bytesPerPixel ≤
      tiledLength ∧
    s.pitchIndex r (j / s.bytesPerPixel * s.bytesPerPixel) + s.bytesPerPixel ≤ linearLength

/-- What `swizzle_subrect` is asked for here: texels of a power of two up to 16, one slice, no
extra stride. -/
structure Plain : Prop where
  texel : ∃ e ≤ 4, s.bytesPerPixel = 2 ^ e
  depth : s.depth = 1
  stride : s.strideAlignment = 0

def subrectDest (toLinear : Bool) (j : ℕ) : ℕ :=
  if toLinear then s.tiledPosition (s.surfaceIndex r j) else s.pitchIndex r j
def subrectOrig (toLinear : Bool) (j : ℕ) : ℕ :=
  if toLinear then s.pitchIndex r j else s.tiledPosition (s.surfaceIndex r j)

/-- The bytes among the first `n` whose texel is in bounds. -/
def copiedBytes (toLinear : Bool) (output input : Bytes) (n : ℕ) : Set ℕ :=
  {j | j < n ∧ s.TexelInBounds r (if toLinear then output.length else input.length)
    (if toLinear then input.length else output.length) j}

variable {s r} {toLinear : Bool} {output input out : Bytes}

theorem Plain.mem (p : s.Plain) : s.bytesPerPixel ∈ bytesPerPixelCases := by
  obtain ⟨e, he, hbpp⟩ := p.texel
  rw [hbpp]
  interval_cases e <;> decide

variable (p : s.Plain) (h : s.Fits) (c : s.Contains r)

include p h in
theorem exact_subrect : (subrectLayout s.bytesPerPixel s.width s.height s.blockHeight
    s.blockDepth).Exact s.blocks s.rowBytes s.height s.depth where
  blockHeight := rfl
  blockDepth := rfl
  shifts := h.exact.shifts
  height := rfl
  positive := h.exact.positive
  wide := h.exact.wide
  rows := h.exact.rows
  gobs hlt := by
    have hstride : s.exactStride = s.rowBytes := by
      rw [exactStride, p.stride]
      simp [rowBytes]
    have hgobs : s.blocks.gobs = (s.rowBytes + 64 - 1) / 64 := by
      show (s.exactStride + 64 - 1) / 64 = _
      rw [hstride]
    have hmul : wrappingMul s.width s.bytesPerPixel = s.rowBytes :=
      wrappingMul_of_lt h.row_lt_word
    have halign : alignUpLog2 s.rowBytes 6 = s.blocks.gobs * 64 := by
      rw [alignUpLog2_eq h.row_lt_word (by decide), hgobs]
      rfl
    show divCeilLog2 (alignUpLog2 (wrappingMul s.width s.bytesPerPixel) 6 % 2 ^ 32) 6 = _
    rw [hmul, halign, Nat.mod_eq_of_lt hlt,
      divCeilLog2_of_le (by decide) (by rw [show 2 ^ 6 = 64 by rfl]; omega)]
    rw [show 2 ^ 6 = 64 by rfl]
    omega
  inReach := h.exact.inReach

/-! ### One texel -/

theorem line_of_index (line : ℕ) {b : ℕ} (hb : b < s.lineBytes r) :
    (line * s.lineBytes r + b) / s.lineBytes r = line ∧
      (line * s.lineBytes r + b) % s.lineBytes r = b := by
  constructor
  · rw [Nat.mul_comm, Nat.mul_add_div (by omega), Nat.div_eq_of_lt hb, Nat.add_zero]
  · rw [Nat.mul_add_mod_self_right, Nat.mod_eq_of_lt hb]

include p h c in
/-- Where the bytes of a texel go. -/
theorem texel_position {line column k : ℕ} (hline : line < r.extentY)
    (hcolumn : column < r.extentX) (hk : k < s.bytesPerPixel) :
    s.tiledPosition (s.surfaceIndex r (line * s.lineBytes r + column * s.bytesPerPixel + k)) =
      s.blocks.position ((column + r.originX) * s.bytesPerPixel) (line + r.originY) 0 + k := by
  obtain ⟨e, he, hbpp⟩ := p.texel
  have hb : column * s.bytesPerPixel + k < s.lineBytes r := Blocks.digit_lt hcolumn hk
  obtain ⟨hdiv, hmod⟩ := line_of_index line hb
  have hcol : column + r.originX < s.width := by
    have := c.columns
    omega
  have hx : (column + r.originX) * s.bytesPerPixel + k < s.rowBytes := Blocks.digit_lt hcol hk
  have hy : line + r.originY < s.height := by
    have := c.lines
    omega
  have hindex : s.surfaceIndex r (line * s.lineBytes r + column * s.bytesPerPixel + k) =
      (0 * s.height + (line + r.originY)) * s.rowBytes +
        ((column + r.originX) * s.bytesPerPixel + k) := by
    rw [Nat.add_assoc, surfaceIndex, hdiv, hmod]
    ring
  rw [hindex, h.tiledPosition_of_index hx hy (by rw [p.depth]; exact Nat.one_pos)]
  refine Blocks.position_add _ _ he ?_ (by rwa [← hbpp])
  rw [hbpp]
  exact Nat.dvd_mul_left _ _

theorem texel_pitch (line : ℕ) {column k : ℕ} (hcolumn : column < r.extentX)
    (hk : k < s.bytesPerPixel) :
    s.pitchIndex r (line * s.lineBytes r + column * s.bytesPerPixel + k) =
      line * r.pitchLinear + column * s.bytesPerPixel + k := by
  have hb : column * s.bytesPerPixel + k < s.lineBytes r := Blocks.digit_lt hcolumn hk
  obtain ⟨hdiv, hmod⟩ := line_of_index line hb
  rw [Nat.add_assoc, pitchIndex, hdiv, hmod, Nat.add_assoc]

theorem texel_start {line column k : ℕ} (hk : k < s.bytesPerPixel) :
    (line * s.lineBytes r + column * s.bytesPerPixel + k) / s.bytesPerPixel * s.bytesPerPixel =
      line * s.lineBytes r + column * s.bytesPerPixel := by
  have hmul : line * s.lineBytes r + column * s.bytesPerPixel =
      (line * r.extentX + column) * s.bytesPerPixel := by
    rw [lineBytes]
    ring
  rw [hmul, Nat.mul_comm (line * r.extentX + column), Nat.mul_add_div (by omega),
    Nat.div_eq_of_lt hk, Nat.add_zero, Nat.mul_comm]

theorem index_lt_rectangle {line column : ℕ} (hline : line < r.extentY)
    (hcolumn : column < r.extentX) :
    line * s.lineBytes r + column * s.bytesPerPixel + s.bytesPerPixel ≤ s.rectangleBytes r := by
  have hcol : (column + 1) * s.bytesPerPixel ≤ s.lineBytes r := Nat.mul_le_mul_right _ hcolumn
  have hrow : (line + 1) * s.lineBytes r ≤ s.rectangleBytes r := Nat.mul_le_mul_right _ hline
  rw [Nat.succ_mul] at hcol hrow
  omega

include p h c in
theorem tryTexel_copied {line column : ℕ} (hline : line < r.extentY) (hcolumn : column < r.extentX)
    (compatible : Compatible (s.subrectDest r toLinear) (s.subrectOrig r toLinear) input
      (s.copiedBytes r toLinear output input (s.rectangleBytes r)))
    (hc : Copied (s.subrectDest r toLinear) (s.subrectOrig r toLinear) output input
      (s.copiedBytes r toLinear output input (line * s.lineBytes r + column * s.bytesPerPixel))
      out) :
    Copied (s.subrectDest r toLinear) (s.subrectOrig r toLinear) output input
      (s.copiedBytes r toLinear output input
        (line * s.lineBytes r + column * s.bytesPerPixel + s.bytesPerPixel))
      (tryTexel toLinear out input
        (s.blocks.position ((column + r.originX) * s.bytesPerPixel) (line + r.originY) 0)
        (line * r.pitchLinear + column * s.bytesPerPixel) s.bytesPerPixel) := by
  have hpos : 0 < s.bytesPerPixel := h.positive.1
  have htiled := fun k (hk : k < s.bytesPerPixel) => texel_position p h c hline hcolumn hk
  have hpitch := fun k (hk : k < s.bytesPerPixel) =>
    texel_pitch (s := s) line hcolumn hk
  have hbounds : ∀ a b k, k < s.bytesPerPixel →
      (s.TexelInBounds r a b (line * s.lineBytes r + column * s.bytesPerPixel + k) ↔
        s.blocks.position ((column + r.originX) * s.bytesPerPixel) (line + r.originY) 0 +
          s.bytesPerPixel ≤ a ∧
        line * r.pitchLinear + column * s.bytesPerPixel + s.bytesPerPixel ≤ b) := by
    intro a b k hk
    rw [TexelInBounds, texel_start hk, ← Nat.add_zero (_ + column * s.bytesPerPixel),
      htiled 0 hpos, hpitch 0 hpos]
    rfl
  have hcompatible : Compatible (s.subrectDest r toLinear) (s.subrectOrig r toLinear) input
      (s.copiedBytes r toLinear output input
        (line * s.lineBytes r + column * s.bytesPerPixel + s.bytesPerPixel)) :=
    compatible.mono fun j hj =>
      ⟨Nat.lt_of_lt_of_le hj.1 (index_lt_rectangle hline hcolumn), hj.2⟩
  generalize s.blocks.position ((column + r.originX) * s.bytesPerPixel) (line + r.originY) 0 = d
    at *
  generalize line * r.pitchLinear + column * s.bytesPerPixel = q at *
  generalize line * s.lineBytes r + column * s.bytesPerPixel = i at *
  have hlength := hc.length
  by_cases hin : d + s.bytesPerPixel ≤ (if toLinear then output.length else input.length) ∧
      q + s.bytesPerPixel ≤ (if toLinear then input.length else output.length)
  · have hmoved : ∀ j, j ∈ s.copiedBytes r toLinear output input (i + s.bytesPerPixel) ↔
        j ∈ s.copiedBytes r toLinear output input i ∨ ∃ k, k < s.bytesPerPixel ∧ j = i + k := by
      intro j
      constructor
      · rintro ⟨hj, hok⟩
        rcases Nat.lt_or_ge j i with hlt | hge
        · exact .inl ⟨hlt, hok⟩
        · exact .inr ⟨j - i, by omega, by omega⟩
      · rintro (⟨hj, hok⟩ | ⟨k, hk, rfl⟩)
        · exact ⟨by omega, hok⟩
        · exact ⟨by omega, (hbounds _ _ k hk).mpr hin⟩
    cases toLinear with
    | true =>
      have hb : InBounds out input d q s.bytesPerPixel := ⟨by rw [hlength]; exact hin.1, hin.2⟩
      rw [tryTexel, copyTexel, if_pos rfl, copyNonoverlapping, if_pos hb, Option.getD_some]
      exact hc.splice hcompatible hb (i + ·) htiled hpitch hmoved
    | false =>
      have hb : InBounds out input q d s.bytesPerPixel := ⟨by rw [hlength]; exact hin.2, hin.1⟩
      rw [tryTexel, copyTexel, if_neg (by decide), copyNonoverlapping, if_pos hb,
        Option.getD_some]
      exact hc.splice hcompatible hb (i + ·) hpitch htiled hmoved
  · have hsame : s.copiedBytes r toLinear output input (i + s.bytesPerPixel) =
        s.copiedBytes r toLinear output input i := by
      ext j
      refine ⟨fun ⟨hj, hok⟩ => ⟨?_, hok⟩, fun ⟨hj, hok⟩ => ⟨by omega, hok⟩⟩
      by_contra hge
      refine hin ((hbounds _ _ (j - i) (by omega)).mp ?_)
      rwa [Nat.add_sub_cancel' (by omega)]
    rw [hsame]
    cases toLinear with
    | true =>
      have hb : ¬InBounds out input d q s.bytesPerPixel := fun hb =>
        hin ⟨by rw [if_pos rfl, ← hlength]; exact hb.1, hb.2⟩
      rwa [tryTexel, copyTexel, if_pos rfl, copyNonoverlapping, if_neg hb, Option.getD_none]
    | false =>
      have hb : ¬InBounds out input q d s.bytesPerPixel := fun hb =>
        hin ⟨hb.2, by rw [if_neg (by decide), ← hlength]; exact hb.1⟩
      rwa [tryTexel, copyTexel, if_neg (by decide), copyNonoverlapping, if_neg hb,
        Option.getD_none]

/-! ### The loops -/

include p h c in
theorem swizzleSubrectLine_copied {line : ℕ} (hline : line < r.extentY)
    (compatible : Compatible (s.subrectDest r toLinear) (s.subrectOrig r toLinear) input
      (s.copiedBytes r toLinear output input (s.rectangleBytes r)))
    (hc : Copied (s.subrectDest r toLinear) (s.subrectOrig r toLinear) output input
      (s.copiedBytes r toLinear output input (line * s.lineBytes r)) out) :
    Copied (s.subrectDest r toLinear) (s.subrectOrig r toLinear) output input
      (s.copiedBytes r toLinear output input ((line + 1) * s.lineBytes r))
      (swizzleSubrectLine toLinear s.bytesPerPixel input (subrectLayout s.bytesPerPixel s.width
        s.height s.blockHeight s.blockDepth) r 0 out line) := by
  obtain ⟨e, he, hbpp⟩ := p.texel
  have hpos : 0 < s.bytesPerPixel := h.positive.1
  have hrow := h.row_lt_word
  have hheight : s.height < 2 ^ 32 := by
    refine Nat.lt_of_le_of_lt ?_ h.linear
    rw [linearSize, Nat.mul_right_comm]
    exact Nat.le_mul_of_pos_left _ (Nat.mul_pos h.row_pos h.positive.2.2.2)
  have hy : line + r.originY < s.height := by
    have := c.lines
    omega
  have hlinear : line * r.pitchLinear + s.lineBytes r < 2 ^ 32 := by
    have hle : line * r.pitchLinear ≤ (r.extentY - 1) * r.pitchLinear :=
      Nat.mul_le_mul_right _ (by omega)
    have := c.linear
    omega
  have hwidth : s.width ≤ s.rowBytes := Nat.le_mul_of_pos_right _ hpos
  have hstart : r.originX * s.bytesPerPixel ≤ s.rowBytes := by
    have := c.columns
    exact Nat.mul_le_mul_right _ (by omega)
  rw [Nat.succ_mul]
  refine (foldl_rule (fun column (st : Bytes × ℕ) =>
    st.2 = depositX ((column + r.originX) * s.bytesPerPixel) ∧
      Copied (s.subrectDest r toLinear) (s.subrectOrig r toLinear) output input
        (s.copiedBytes r toLinear output input
          (line * s.lineBytes r + column * s.bytesPerPixel)) st.1) ?_ ?_).2
  · rw [Nat.zero_mul, Nat.add_zero, Nat.zero_add]
    exact ⟨by rw [pdep_x, wrappingMul_of_lt (by omega)], hc⟩
  · rintro column ⟨now, swizzledX⟩ hcolumn ⟨rfl, hnow⟩
    have hcol : column + r.originX < s.width := by
      have := c.columns
      omega
    have hx : (column + r.originX) * s.bytesPerPixel < s.rowBytes :=
      Nat.mul_lt_mul_of_pos_right hcol hpos
    have hlt : column * s.bytesPerPixel < s.lineBytes r :=
      Nat.mul_lt_mul_of_pos_right hcolumn hpos
    have hxw : wrappingMul (wrappingAdd column r.originX) s.bytesPerPixel =
        (column + r.originX) * s.bytesPerPixel := by
      rw [wrappingAdd_of_lt (by omega), wrappingMul_of_lt (by omega)]
    have hyw : wrappingAdd line r.originY = line + r.originY := wrappingAdd_of_lt (by omega)
    have hpitch : unswizzledOffset r.pitchLinear s.height s.bytesPerPixel column line 0 =
        line * r.pitchLinear + column * s.bytesPerPixel := by
      rw [unswizzledOffset, wrappingMul_of_lt (by omega : column * s.bytesPerPixel < 2 ^ 32),
        wrappingMul_of_lt (by omega : line * r.pitchLinear < 2 ^ 32)]
      simp only [wrappingMul, Nat.zero_mul, Nat.zero_mod]
      rw [wrappingAdd_of_lt (by omega : 0 + line * r.pitchLinear < 2 ^ 32), Nat.zero_add,
        wrappingAdd_of_lt (by omega)]
    have hlayout : (subrectLayout s.bytesPerPixel s.width s.height s.blockHeight
        s.blockDepth).height = s.height := rfl
    have hdone := tryTexel_copied p h c hline hcolumn compatible hnow
    rw [Nat.succ_mul, ← Nat.add_assoc]
    refine ⟨?_, ?_⟩
    · simp only [swizzleSubrectColumn]
      rw [hbpp, incrpdep_x he, Nat.add_right_comm, Nat.succ_mul]
    · simp only [swizzleSubrectColumn, hxw, hyw, hlayout, hpitch,
        (exact_subrect p h).swizzledOffset_eq hx hy (by rw [p.depth]; exact Nat.one_pos)]
      exact hdone

include p h c in
/-- The rectangle has been copied, but for the texels that are not in bounds. -/
theorem subrect_copied (toLinear : Bool) (output input : Bytes)
    (compatible : Compatible (s.subrectDest r toLinear) (s.subrectOrig r toLinear) input
      (s.copiedBytes r toLinear output input (s.rectangleBytes r))) :
    ∃ out, subrect toLinear output input s r = some out ∧
      Copied (s.subrectDest r toLinear) (s.subrectOrig r toLinear) output input
        (s.copiedBytes r toLinear output input (s.rectangleBytes r)) out := by
  have hheight : s.height < 2 ^ 32 := by
    refine Nat.lt_of_le_of_lt ?_ h.linear
    rw [linearSize, Nat.mul_right_comm]
    exact Nat.le_mul_of_pos_left _ (Nat.mul_pos h.row_pos h.positive.2.2.2)
  have hlines : min r.extentY (min r.extentY (wrappingSub s.height r.originY)) = r.extentY := by
    have := c.lines
    rw [wrappingSub]
    omega
  have hdone : wrappingSub r.extentY r.extentY = 0 := by
    rw [wrappingSub, Nat.add_sub_cancel_left, Nat.mod_self]
  refine ⟨_, if_pos p.mem, ?_⟩
  rw [p.depth]
  simp only [swizzleSubrectSlices]
  rw [show (subrectLayout s.bytesPerPixel s.width s.height s.blockHeight s.blockDepth).height =
    s.height from rfl, hlines, if_pos hdone]
  refine foldl_rule (fun line out => Copied (s.subrectDest r toLinear) (s.subrectOrig r toLinear)
    output input (s.copiedBytes r toLinear output input (line * s.lineBytes r)) out) ?_
    fun line now hline hnow => swizzleSubrectLine_copied p h c hline compatible hnow
  have hnone : s.copiedBytes r toLinear output input (0 * s.lineBytes r) = ∅ := by
    ext j
    simp [copiedBytes]
  rw [hnone]
  exact Copied.nothing

/-! ### The places of a rectangle -/

include c in
theorem surfaceIndex_lt {j : ℕ} (hj : j < s.rectangleBytes r) :
    r.originY + j / s.lineBytes r < s.height ∧
      r.originX * s.bytesPerPixel + j % s.lineBytes r < s.rowBytes := by
  have hline : 0 < s.lineBytes r := by
    by_contra hzero
    rw [rectangleBytes, Nat.eq_zero_of_not_pos hzero, Nat.mul_zero] at hj
    omega
  have hrow : j / s.lineBytes r < r.extentY := (Nat.div_lt_iff_lt_mul hline).mpr hj
  have hmod := Nat.mod_lt j hline
  have hwidth : (r.originX + r.extentX) * s.bytesPerPixel ≤ s.rowBytes :=
    Nat.mul_le_mul_right _ c.columns
  rw [Nat.add_mul] at hwidth
  have hlineBytes : s.lineBytes r = r.extentX * s.bytesPerPixel := rfl
  have := c.lines
  omega

include p h c in
theorem surfacePosition_inj {j j' : ℕ} (hj : j < s.rectangleBytes r)
    (hj' : j' < s.rectangleBytes r)
    (he : s.tiledPosition (s.surfaceIndex r j) = s.tiledPosition (s.surfaceIndex r j')) :
    j = j' := by
  obtain ⟨hy, hx⟩ := surfaceIndex_lt c hj
  obtain ⟨hy', hx'⟩ := surfaceIndex_lt c hj'
  have hlt : ∀ y x, y < s.height → x < s.rowBytes → y * s.rowBytes + x < s.linearSize := by
    intro y x hy hx
    have hlt := Fits.index_lt (z := 0) hx hy (by rw [p.depth]; exact Nat.one_pos)
    rwa [Nat.zero_mul, Nat.zero_add] at hlt
  obtain ⟨hline, hcol⟩ := Blocks.digit_inj hx hx'
    (h.tiledPosition_inj (hlt _ _ hy hx) (hlt _ _ hy' hx') he)
  rw [← Nat.div_add_mod j (s.lineBytes r), ← Nat.div_add_mod j' (s.lineBytes r),
    show j / s.lineBytes r = j' / s.lineBytes r by omega,
    show j % s.lineBytes r = j' % s.lineBytes r by omega]

include p h c in
theorem swizzleSubrect_copied (output input : Bytes) :
    ∃ out, swizzleSubrect output input s r = some out ∧
      Copied (fun j => s.tiledPosition (s.surfaceIndex r j)) (s.pitchIndex r) output input
        {j | j < s.rectangleBytes r ∧ s.TexelInBounds r output.length input.length j} out := by
  refine subrect_copied p h c true output input fun j hj j' hj' he => ?_
  rw [surfacePosition_inj p h c hj.1 hj'.1 he]

include p h c in
theorem unswizzleSubrect_copied {back : Bytes}
    (hswizzle : swizzleSubrect output input s r = some out)
    (hbounds : ∀ j < s.rectangleBytes r,
      s.TexelInBounds r output.length (min input.length back.length) j) :
    ∃ result, unswizzleSubrect back out s r = some result ∧
      Copied (s.pitchIndex r) (s.pitchIndex r) back input {j | j < s.rectangleBytes r} result := by
  obtain ⟨out', hout', hthere⟩ := swizzleSubrect_copied p h c output input
  obtain rfl : out = out' := Option.some.inj (hswizzle.symm.trans hout')
  have hlength := hthere.length
  have hmoved : ∀ j < s.rectangleBytes r, out[s.tiledPosition (s.surfaceIndex r j)]? =
      input[s.pitchIndex r j]? := fun j hj => hthere.copied j
    ⟨hj, (hbounds j hj).1, (hbounds j hj).2.trans (Nat.min_le_left _ _)⟩
  have hall : s.copiedBytes r false back out (s.rectangleBytes r) =
      {j | j < s.rectangleBytes r} := by
    ext j
    refine ⟨fun hj => hj.1, fun hj => ⟨hj, ?_, (hbounds j hj).2.trans (Nat.min_le_right _ _)⟩⟩
    rw [if_neg (by decide), hlength]
    exact (hbounds j hj).1
  obtain ⟨result, hresult, hback⟩ := subrect_copied p h c false back out fun j hj j' hj' he => by
      show out[s.tiledPosition (s.surfaceIndex r j)]? = out[s.tiledPosition (s.surfaceIndex r j')]?
      rw [hmoved j hj.1, hmoved j' hj'.1]
      exact congrArg (input[·]?) he
  rw [hall] at hback
  refine ⟨result, hresult, hback.length, fun j hj => ?_, hback.kept⟩
  rw [← hmoved j hj]
  exact hback.copied j hj

end Surface

/-! ### The textures of a surface that fits -/

section

variable {s : Surface} (h : s.Fits)

include h

theorem swizzleTexture_copied {output input : Bytes} (hout : s.tiledSize ≤ output.length)
    (hin : s.linearSize ≤ input.length) :
    ∃ out, swizzleTexture output input s = some out ∧
      Copied s.tiledPosition id output input {i | i < s.linearSize} out :=
  h.swizzle_copied true hout hin

theorem unswizzleTexture_copied {output input : Bytes} (hout : s.linearSize ≤ output.length)
    (hin : s.tiledSize ≤ input.length) :
    ∃ out, unswizzleTexture output input s = some out ∧
      Copied id s.tiledPosition output input {i | i < s.linearSize} out :=
  h.swizzle_copied false hout hin

theorem unswizzle_swizzle {x tiled output : Bytes} (hx : x.length = s.linearSize)
    (htiled : s.tiledSize ≤ tiled.length) (hout : output.length = s.linearSize) :
    ∃ t, swizzleTexture tiled x s = some t ∧ unswizzleTexture output t s = some x := by
  obtain ⟨t, ht, hthere⟩ := swizzleTexture_copied h htiled (Nat.le_of_eq hx.symm)
  obtain ⟨y, hy, hback⟩ := unswizzleTexture_copied h (Nat.le_of_eq hout.symm)
    (by rw [hthere.length]; exact htiled)
  refine ⟨t, ht, ?_⟩
  have hsame : y = x := by
    apply List.ext_getElem?
    intro i
    rcases Nat.lt_or_ge i s.linearSize with hi | hi
    · exact hthere.back hback ⟨i, hi, rfl⟩
    · rw [List.getElem?_eq_none (by rw [hback.length, hout]; exact hi),
        List.getElem?_eq_none (by omega)]
  rw [hy, hsame]

/-- Bytes keep apart on the tiled side, the final one last; both directions stay in bounds and
undo one another; a rectangle goes where the whole surface puts it, and comes back. -/
theorem swizzle_places_bytes :
    (∀ i < s.linearSize, ∀ j < s.linearSize, s.tiledPosition i = s.tiledPosition j → i = j) ∧
    (∀ i < s.linearSize, s.tiledPosition i ≤ s.tiledPosition (s.linearSize - 1)) ∧
    validatedTiled s.layout s.columns s.depth s.texel = s.tiledSize ∧
    s.tiledPosition (s.linearSize - 1) + 1 = s.tiledSize ∧
    (∀ output input : Bytes, s.tiledSize ≤ output.length → s.linearSize ≤ input.length →
      ∃ out, swizzleTexture output input s = some out ∧
        Copied s.tiledPosition id output input {i | i < s.linearSize} out) ∧
    (∀ output input : Bytes, s.linearSize ≤ output.length → s.tiledSize ≤ input.length →
      ∃ out, unswizzleTexture output input s = some out ∧
        Copied id s.tiledPosition output input {i | i < s.linearSize} out) ∧
    (∀ x tiled output : Bytes, x.length = s.linearSize → s.tiledSize ≤ tiled.length →
      output.length = s.linearSize →
      ∃ t, swizzleTexture tiled x s = some t ∧ unswizzleTexture output t s = some x) ∧
    ∀ r : Rectangle, s.Plain → s.Contains r → ∀ output input : Bytes,
      ∃ out, swizzleSubrect output input s r = some out ∧
        Copied (fun j => s.tiledPosition (s.surfaceIndex r j)) (s.pitchIndex r) output input
          {j | j < s.rectangleBytes r ∧ s.TexelInBounds r output.length input.length j} out ∧
        ∀ back : Bytes, (∀ j < s.rectangleBytes r,
            s.TexelInBounds r output.length (min input.length back.length) j) →
          ∃ result, unswizzleSubrect back out s r = some result ∧
            Copied (s.pitchIndex r) (s.pitchIndex r) back input {j | j < s.rectangleBytes r}
              result := by
  refine ⟨fun i hi j hj he => h.tiledPosition_inj hi hj he, fun i hi => ?_, h.validatedTiled_eq,
    h.tiledPosition_last, fun output input hout hin => swizzleTexture_copied h hout hin,
    fun output input hout hin => unswizzleTexture_copied h hout hin,
    fun x tiled output hx htiled hout => unswizzle_swizzle h hx htiled hout, ?_⟩
  · have hlt := h.tiledPosition_lt hi
    rw [← h.tiledPosition_last] at hlt
    exact Nat.le_of_lt_succ hlt
  · intro r p c output input
    obtain ⟨out, hout, hcopied⟩ := Surface.swizzleSubrect_copied p h c output input
    exact ⟨out, hout, hcopied, fun back hbounds =>
      Surface.unswizzleSubrect_copied p h c hout hbounds⟩

end

/-- 13 by 9 texels of 4 bytes in blocks of two GOBs. -/
def smallSurface : Surface := ⟨4, 13, 9, 1, 1, 0, 0⟩

def smallRectangle : Rectangle := ⟨2, 3, 5, 4, 32⟩

theorem swizzle_places_bytes_small :
    (∃ t, swizzleTexture (List.replicate 2048 0) (List.replicate 468 7) smallSurface = some t ∧
      unswizzleTexture (List.replicate 468 0) t smallSurface = some (List.replicate 468 7)) ∧
    ∃ out, swizzleSubrect (List.replicate 2048 0) (List.replicate 128 5) smallSurface
      smallRectangle = some out := by
  have fits : smallSurface.Fits := by
    refine ⟨?_, ?_, ?_, ?_⟩ <;> decide +kernel
  obtain ⟨-, -, -, -, -, -, hround, hrect⟩ := swizzle_places_bytes fits
  refine ⟨hround _ _ _ (by decide +kernel) (by decide +kernel) (by decide +kernel), ?_⟩
  have plain : smallSurface.Plain := ⟨⟨2, by decide, rfl⟩, rfl, rfl⟩
  have contains : smallSurface.Contains smallRectangle := by
    refine ⟨?_, ?_, ?_⟩ <;> decide
  obtain ⟨out, hout, -⟩ := hrect smallRectangle plain contains (List.replicate 2048 0)
    (List.replicate 128 5)
  exact ⟨out, hout⟩

end Ruzu.Textures
