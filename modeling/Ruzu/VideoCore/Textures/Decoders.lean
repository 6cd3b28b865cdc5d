import Ruzu.Lib.Scatter

/-!
# Swizzling textures

`decoders.rs`: the copy between linear and block-linear textures. Words of 32
bits are natural numbers and wrap around explicitly; a shift takes its amount
modulo the width. `none` is a panic, or a copy that is not in bounds.
-/

set_option autoImplicit false

namespace Ruzu.Textures

open Scatter

abbrev Bytes := List UInt8

/-! ### Words -/

def wrappingAdd (a b : ℕ) : ℕ := (a + b) % 2 ^ 32
def wrappingMul (a b : ℕ) : ℕ := a * b % 2 ^ 32
def wrappingSub (a b : ℕ) : ℕ := (a + 2 ^ 32 - b) % 2 ^ 32
def wrappingNeg (a : ℕ) : ℕ := wrappingSub 0 a
def wrappingShl (a n : ℕ) : ℕ := (a <<< (n % 32)) % 2 ^ 32
def shr (a n : ℕ) : ℕ := a >>> (n % 32)

/-- `trailing_zeros` of a 32-bit word. -/
def trailingZeros (n : ℕ) : ℕ := ((List.range 32).find? n.testBit).getD 32

/-- `align_up_log2`, on 64 bits. -/
def alignUpLog2 (value alignLog2 : ℕ) : ℕ :=
  let shift := alignLog2 % 64
  ((((value + ((1 <<< shift) - 1)) % 2 ^ 64) >>> shift) <<< shift) % 2 ^ 64

def divCeilLog2 (value alignmentLog2 : ℕ) : ℕ :=
  shr (wrappingSub (wrappingAdd value (wrappingShl 1 alignmentLog2)) 1) alignmentLog2

/-! ### Bit deposit -/

def swizzleXBits : ℕ := 0b100101111
def swizzleYBits : ℕ := 0b011010000

/-- Each round clears one bit of the mask, so 32 rounds are enough. -/
def pdepLoop (value : ℕ) : ℕ → ℕ → ℕ → ℕ → ℕ
  | 0, _, _, result => result
  | rounds + 1, m, bit, result =>
    if m = 0 then result
    else pdepLoop value rounds (m &&& wrappingSub m 1) (wrappingAdd bit bit)
      (if value &&& bit ≠ 0 then result ||| (m &&& wrappingNeg m) else result)

def pdep (mask value : ℕ) : ℕ := pdepLoop value 32 mask 1 0

def incrpdep (mask incrAmount value : ℕ) : ℕ :=
  wrappingAdd (value ||| (2 ^ 32 - 1 - mask)) (pdep mask incrAmount) &&& mask

/-! ### Offsets -/

/-- What the loops need of a tiled surface. -/
structure Layout where
  height : ℕ
  blockHeight : ℕ
  blockDepth : ℕ
  stride : ℕ

namespace Layout

variable (l : Layout)

def gobsInX : ℕ := divCeilLog2 l.stride 6
def xShift : ℕ := 9 + l.blockHeight + l.blockDepth
def blockSize : ℕ := wrappingShl l.gobsInX l.xShift
def sliceSize : ℕ := wrappingMul (divCeilLog2 l.height (l.blockHeight + 3)) l.blockSize
def blockHeightMask : ℕ := wrappingSub (wrappingShl 1 l.blockHeight) 1
def blockDepthMask : ℕ := wrappingSub (wrappingShl 1 l.blockDepth) 1

def offsetZ (z : ℕ) : ℕ :=
  wrappingAdd (wrappingMul (shr z l.blockDepth) l.sliceSize)
    (wrappingShl (z &&& l.blockDepthMask) (9 + l.blockHeight))

def offsetY (y : ℕ) : ℕ :=
  let blockY := y >>> 3
  wrappingAdd (wrappingMul (shr blockY l.blockHeight) l.blockSize)
    (wrappingShl (blockY &&& l.blockHeightMask) 9)

def offsetX (x : ℕ) : ℕ := wrappingShl (x >>> 6) l.xShift

/-- `swizzled_offset`; the column part of the deposit comes from the caller. -/
def swizzledOffset (swizzledX x y z : ℕ) : ℕ :=
  wrappingAdd (wrappingAdd (wrappingAdd (l.offsetZ z) (l.offsetY y)) (l.offsetX x))
    (swizzledX ||| pdep swizzleYBits y)

end Layout

/-- `unswizzled_offset`. -/
def unswizzledOffset (pitch height bytesPerPixel column line slice : ℕ) : ℕ :=
  wrappingAdd (wrappingAdd (wrappingMul (wrappingMul slice pitch) height) (wrappingMul line pitch))
    (wrappingMul column bytesPerPixel)

/-! ### Whole textures -/

/-- `checked_mul` of `usize`. -/
def checkedMul (a b : ℕ) : Option ℕ := if a * b < 2 ^ 64 then some (a * b) else none

/-- The bytes of the linear side. -/
def validatedLinear (width height depth bytesPerPixel : ℕ) : Option ℕ :=
  ((checkedMul width bytesPerPixel).bind (checkedMul · height)).bind (checkedMul · depth)

/-- The tiled side through the last byte addressed. -/
def validatedTiled (l : Layout) (width depth bytesPerPixel : ℕ) : ℕ :=
  if width = 0 ∨ l.height = 0 ∨ depth = 0 then 0
  else
    let x := wrappingMul (width - 1) bytesPerPixel
    l.swizzledOffset (pdep swizzleXBits x) x (l.height - 1) (depth - 1) + bytesPerPixel

/-- `copy_nonoverlapping` between slices; out of bounds it is undefined. -/
def copyNonoverlapping (output input : Bytes) (dst src n : ℕ) : Option Bytes :=
  if InBounds output input dst src n then some (splice output input dst src n) else none

/-- A texel goes from the linear to the tiled side, or back; in the source `TO_LINEAR` stands
for the former. -/
def copyTexel (toLinear : Bool) (output input : Bytes) (swizzled unswizzled bytesPerPixel : ℕ) :
    Option Bytes :=
  if toLinear then copyNonoverlapping output input swizzled unswizzled bytesPerPixel
  else copyNonoverlapping output input unswizzled swizzled bytesPerPixel

/-- One turn of the loop over the columns; it carries `swizzled_x` along. -/
def swizzleColumn (toLinear : Bool) (bytesPerPixel : ℕ) (input : Bytes) (width : ℕ) (l : Layout)
    (line slice : ℕ) (state : Bytes × ℕ) (column : ℕ) : Option (Bytes × ℕ) :=
  let x := wrappingMul column bytesPerPixel
  (copyTexel toLinear state.1 input (l.swizzledOffset state.2 x line slice)
    (unswizzledOffset (wrappingMul width bytesPerPixel) l.height bytesPerPixel column line slice)
    bytesPerPixel).map fun out => (out, incrpdep swizzleXBits bytesPerPixel state.2)

def swizzleLine (toLinear : Bool) (bytesPerPixel : ℕ) (input : Bytes) (width : ℕ) (l : Layout)
    (slice : ℕ) (output : Bytes) (line : ℕ) : Option Bytes :=
  (loop width (output, pdep swizzleXBits 0)
    (swizzleColumn toLinear bytesPerPixel input width l line slice)).map Prod.fst

def swizzleSlice (toLinear : Bool) (bytesPerPixel : ℕ) (input : Bytes) (width : ℕ) (l : Layout)
    (output : Bytes) (slice : ℕ) : Option Bytes :=
  loop l.height output (swizzleLine toLinear bytesPerPixel input width l slice)

def swizzleImpl (toLinear : Bool) (bytesPerPixel : ℕ) (output input : Bytes) (width depth : ℕ)
    (l : Layout) : Option Bytes := do
  let linearSize ← validatedLinear width l.height depth bytesPerPixel
  let tiledSize := validatedTiled l width depth bytesPerPixel
  let (outputSize, inputSize) :=
    if toLinear then (tiledSize, linearSize) else (linearSize, tiledSize)
  if outputSize ≤ output.length ∧ inputSize ≤ input.length then
    loop depth output (swizzleSlice toLinear bytesPerPixel input width l)
  else none

/-- The sizes that `swizzle` and `swizzle_subrect` have a case for. -/
def bytesPerPixelCases : List ℕ := [1, 2, 3, 4, 6, 8, 12, 16]

def swizzle (toLinear : Bool) (output input : Bytes) (bytesPerPixel width depth : ℕ)
    (l : Layout) : Option Bytes :=
  if bytesPerPixel ∈ bytesPerPixelCases then
    swizzleImpl toLinear bytesPerPixel output input width depth l
  else none

/-- The arguments of `swizzle_texture` and `unswizzle_texture`. -/
structure Surface where
  bytesPerPixel : ℕ
  width : ℕ
  height : ℕ
  depth : ℕ
  blockHeight : ℕ
  blockDepth : ℕ
  strideAlignment : ℕ

namespace Surface

variable (s : Surface)

def stride : ℕ := wrappingMul (alignUpLog2 s.width s.strideAlignment % 2 ^ 32) s.bytesPerPixel
def widthBytes : ℕ := wrappingMul s.width s.bytesPerPixel
def newBpp : ℕ := min 4 (trailingZeros s.widthBytes)

/-- The texel size that the copy uses. -/
def texel : ℕ := wrappingShl 1 s.newBpp

def columns : ℕ := s.widthBytes >>> s.newBpp

def layout : Layout := ⟨s.height, s.blockHeight, s.blockDepth, s.stride⟩

/-- Where the byte `i` of the linear image goes: its texel at the offset of the loops. -/
def tiledPosition (i : ℕ) : ℕ :=
  let x := wrappingMul (i % s.widthBytes / s.texel) s.texel
  s.layout.swizzledOffset (pdep swizzleXBits x) x (i / s.widthBytes % s.height)
    (i / s.widthBytes / s.height) + i % s.texel

end Surface

def unswizzleTexture (output input : Bytes) (s : Surface) : Option Bytes :=
  swizzle false output input s.texel s.columns s.depth s.layout

def swizzleTexture (output input : Bytes) (s : Surface) : Option Bytes :=
  swizzle true output input s.texel s.columns s.depth s.layout

/-! ### Rectangles -/

/-- The arguments of `swizzle_subrect` and `unswizzle_subrect` besides the surface. -/
structure Rectangle where
  originX : ℕ
  originY : ℕ
  extentX : ℕ
  extentY : ℕ
  pitchLinear : ℕ

/-- A texel that is not in bounds is skipped. -/
def tryTexel (toLinear : Bool) (output input : Bytes) (swizzled unswizzled bytesPerPixel : ℕ) :
    Bytes :=
  (copyTexel toLinear output input swizzled unswizzled bytesPerPixel).getD output

def subrectLayout (bytesPerPixel width height blockHeight blockDepth : ℕ) : Layout :=
  ⟨height, blockHeight, blockDepth,
    alignUpLog2 (wrappingMul width bytesPerPixel) 6 % 2 ^ 32⟩

def swizzleSubrectColumn (toLinear : Bool) (bytesPerPixel : ℕ) (input : Bytes) (l : Layout)
    (r : Rectangle) (line slice : ℕ) (state : Bytes × ℕ) (column : ℕ) : Bytes × ℕ :=
  let x := wrappingMul (wrappingAdd column r.originX) bytesPerPixel
  (tryTexel toLinear state.1 input (l.swizzledOffset state.2 x (wrappingAdd line r.originY) slice)
    (unswizzledOffset r.pitchLinear l.height bytesPerPixel column line slice) bytesPerPixel,
    incrpdep swizzleXBits bytesPerPixel state.2)

def swizzleSubrectLine (toLinear : Bool) (bytesPerPixel : ℕ) (input : Bytes) (l : Layout)
    (r : Rectangle) (slice : ℕ) (output : Bytes) (line : ℕ) : Bytes :=
  ((List.range r.extentX).foldl
    (swizzleSubrectColumn toLinear bytesPerPixel input l r line slice)
    (output, pdep swizzleXBits (wrappingMul r.originX bytesPerPixel))).1

/-- The loop over the slices, from `slice` on; it stops when no line is left. -/
def swizzleSubrectSlices (toLinear : Bool) (bytesPerPixel : ℕ) (input : Bytes) (l : Layout)
    (r : Rectangle) (slice : ℕ) : ℕ → Bytes → ℕ → Bytes
  | 0, output, _ => output
  | slices + 1, output, unprocessedLines =>
    let extentY := min r.extentY (wrappingSub l.height r.originY)
    let linesInY := min unprocessedLines extentY
    let output := (List.range linesInY).foldl
      (swizzleSubrectLine toLinear bytesPerPixel input l r slice) output
    let unprocessedLines := wrappingSub unprocessedLines linesInY
    if unprocessedLines = 0 then output
    else swizzleSubrectSlices toLinear bytesPerPixel input l r (slice + 1) slices output
      unprocessedLines

def subrect (toLinear : Bool) (output input : Bytes) (s : Surface) (r : Rectangle) :
    Option Bytes :=
  if s.bytesPerPixel ∈ bytesPerPixelCases then
    some (swizzleSubrectSlices toLinear s.bytesPerPixel input
      (subrectLayout s.bytesPerPixel s.width s.height s.blockHeight s.blockDepth) r 0 s.depth
      output r.extentY)
  else none

def swizzleSubrect (output input : Bytes) (s : Surface) (r : Rectangle) : Option Bytes :=
  subrect true output input s r

def unswizzleSubrect (output input : Bytes) (s : Surface) (r : Rectangle) : Option Bytes :=
  subrect false output input s r

end Ruzu.Textures
