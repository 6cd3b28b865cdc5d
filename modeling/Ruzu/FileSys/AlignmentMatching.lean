import Ruzu.FileSys.BaseStorage

/-!
# Alignment matching

`alignment_matching_storage_impl.rs`: a range is read from or written to a
storage that is accessed by whole blocks. The blocks inside the range go
straight to the buffer when its address allows it, or to a later place of the
buffer and then down. The rest goes through a work buffer, block by block.
-/

set_option autoImplicit false

namespace Ruzu.FileSys.AlignmentMatching

/-! ### Alignments -/

/-- `x & !(align - 1)` on `usize`. -/
def alignDown (x align : ℕ) : ℕ := x &&& (2 ^ 64 - 1 - (align - 1))

def alignUp (x align : ℕ) : ℕ := alignDown ((x + align - 1) % 2 ^ 64) align

def isAligned (x align : ℕ) : Bool := x &&& (align - 1) = 0

def getRoundDownDifference (x align : ℕ) : ℕ := x - alignDown x align

def getRoundUpDifference (x align : ℕ) : ℕ := (alignUp x align + 2 ^ 64 - x) % 2 ^ 64

/-! ### Reading -/

structure Extents where
  alignedCoreBufferOffset : ℕ
  coreOffset : ℕ
  coreSize : ℕ
  bufferGap : ℕ
  offsetGap : ℕ
  coveredOffset : ℕ

def Extents.effectiveCoreSize (e : Extents) : ℕ :=
  if e.coreSize > e.offsetGap then e.coreSize - e.offsetGap else 0

def readExtents (dataAlignment bufferAlignment bufPtr offset size : ℕ) : Extents :=
  let offsetRoundUpDiff := getRoundUpDifference offset dataAlignment
  if isAligned (bufPtr + offsetRoundUpDiff) bufferAlignment then
    let coreOffset := alignUp offset dataAlignment
    let coreSize := if size < offsetRoundUpDiff then 0
      else alignDown (size - offsetRoundUpDiff) dataAlignment
    ⟨offsetRoundUpDiff, coreOffset, coreSize, 0, 0, if coreSize > 0 then coreOffset else offset⟩
  else
    let bufferRoundUpDiff := getRoundUpDifference bufPtr bufferAlignment
    let coreSize := if size < bufferRoundUpDiff then 0
      else alignDown (size - bufferRoundUpDiff) dataAlignment
    ⟨bufferRoundUpDiff, alignDown offset dataAlignment, coreSize, bufferRoundUpDiff,
      getRoundDownDifference offset dataAlignment, offset⟩

/-- The work buffer, the buffer and the storage. -/
structure State where
  workBuf : List UInt8
  buffer : List UInt8
  base : BaseStorage

/-- `none` stands for a range outside a slice. -/
def readCore (e : Extents) (s : State) : Option State :=
  if e.coreSize > 0 ∧ e.alignedCoreBufferOffset + e.coreSize ≤ s.buffer.length then do
    let piece ← Image.slice s.buffer e.alignedCoreBufferOffset e.coreSize
    let (piece, base) := s.base.read piece e.coreSize e.coreOffset
    let buffer ← Image.write s.buffer e.alignedCoreBufferOffset piece
    if e.offsetGap ≠ 0 ∨ e.bufferGap ≠ 0 then
      let buffer ← Image.copy buffer (e.alignedCoreBufferOffset - e.bufferGap) buffer
        (e.alignedCoreBufferOffset + e.offsetGap) (e.coreSize - e.offsetGap)
      some ⟨s.workBuf, buffer, base⟩
    else some ⟨s.workBuf, buffer, base⟩
  else some s

def readHead (dataAlignment offset coveredOffset : ℕ) (s : State) : Option State :=
  if offset < coveredOffset then do
    let headOffset := alignDown offset dataAlignment
    let (workBuf, base) := s.base.read s.workBuf dataAlignment headOffset
    let buffer ← Image.copy s.buffer 0 workBuf (getRoundDownDifference offset dataAlignment)
      (coveredOffset - offset)
    some ⟨workBuf, buffer, base⟩
  else some s

/-- The loop over the tail, with a bound on its rounds. -/
def readTail (dataAlignment offset stop : ℕ) : ℕ → ℕ → State → Option State
  | 0, _, _ => none
  | rounds + 1, tailOffset, s =>
    if tailOffset < stop then do
      let aligned := alignDown tailOffset dataAlignment
      let curSize := min (stop - tailOffset) (aligned + dataAlignment - tailOffset)
      let (workBuf, base) := s.base.read s.workBuf dataAlignment aligned
      let buffer ← Image.copy s.buffer (tailOffset - offset) workBuf (tailOffset - aligned) curSize
      readTail dataAlignment offset stop rounds (tailOffset + curSize) ⟨workBuf, buffer, base⟩
    else some s

def read (base : BaseStorage) (workBuf : List UInt8) (dataAlignment bufferAlignment offset : ℕ)
    (bufPtr : ℕ) (buffer : List UInt8) (size : ℕ) : Option (ℕ × State) :=
  if workBuf.length < dataAlignment then none
  else if size = 0 then some (size, ⟨workBuf, buffer, base⟩)
  else do
    let e := readExtents dataAlignment bufferAlignment bufPtr offset size
    let s ← readCore e ⟨workBuf, buffer, base⟩
    let s ← readHead dataAlignment offset e.coveredOffset s
    let s ← readTail dataAlignment offset (offset + size) (size + 1)
      (e.coveredOffset + e.effectiveCoreSize) s
    some (size, s)

/-! ### Writing -/

/-- The offset and the size of the core, and the offset that it covers from. -/
def writeExtents (dataAlignment bufferAlignment bufPtr offset size : ℕ) : ℕ × ℕ × ℕ :=
  let offsetRoundUpDiff := getRoundUpDifference offset dataAlignment
  if isAligned (bufPtr + offsetRoundUpDiff) bufferAlignment then
    let coreOffset := alignUp offset dataAlignment
    let coreSize := if size < offsetRoundUpDiff then 0
      else alignDown (size - offsetRoundUpDiff) dataAlignment
    (coreOffset, coreSize, if coreSize > 0 then coreOffset else offset)
  else (alignDown offset dataAlignment, 0, offset)

def writeCore (coreOffset coreSize offset : ℕ) (s : State) : Option State :=
  if coreSize > 0 then do
    let piece ← Image.slice s.buffer (coreOffset - offset) coreSize
    some { s with base := s.base.write piece coreSize coreOffset }
  else some s

def writeHead (dataAlignment offset coveredOffset : ℕ) (s : State) : Option State :=
  if offset < coveredOffset then do
    let headOffset := alignDown offset dataAlignment
    let (workBuf, base) := s.base.read s.workBuf dataAlignment headOffset
    let workBuf ← Image.copy workBuf (offset - headOffset) s.buffer 0 (coveredOffset - offset)
    some ⟨workBuf, s.buffer, base.write workBuf dataAlignment headOffset⟩
  else some s

def writeTail (dataAlignment offset stop : ℕ) : ℕ → ℕ → State → Option State
  | 0, _, _ => none
  | rounds + 1, tailOffset, s =>
    if tailOffset < stop then do
      let aligned := alignDown tailOffset dataAlignment
      let curSize := min (stop - tailOffset) (aligned + dataAlignment - tailOffset)
      let (workBuf, base) := s.base.read s.workBuf dataAlignment aligned
      let workBuf ← Image.copy workBuf (getRoundDownDifference tailOffset dataAlignment) s.buffer
        (tailOffset - offset) curSize
      writeTail dataAlignment offset stop rounds (tailOffset + curSize)
        ⟨workBuf, s.buffer, base.write workBuf dataAlignment aligned⟩
    else some s

def write (base : BaseStorage) (workBuf : List UInt8) (dataAlignment bufferAlignment offset : ℕ)
    (bufPtr : ℕ) (buffer : List UInt8) (size : ℕ) : Option (ℕ × State) :=
  if workBuf.length < dataAlignment then none
  else if size = 0 then some (size, ⟨workBuf, buffer, base⟩)
  else do
    let (coreOffset, coreSize, coveredOffset) :=
      writeExtents dataAlignment bufferAlignment bufPtr offset size
    let s ← writeCore coreOffset coreSize offset ⟨workBuf, buffer, base⟩
    let s ← writeHead dataAlignment offset coveredOffset s
    let s ← writeTail dataAlignment offset (offset + size) (size + 1) (coveredOffset + coreSize) s
    some (size, s)

/-! ### Aligned numbers -/

theorem alignDown_eq {k x : ℕ} (hk : k < 64) (hx : x < 2 ^ 64) :
    alignDown x (2 ^ k) = x / 2 ^ k * 2 ^ k := by
  have hpow : 2 ^ k ≤ 2 ^ 64 := Nat.pow_le_pow_right (by decide) hk.le
  have hmask : 2 ^ 64 - 1 - (2 ^ k - 1) = 2 ^ 64 - (2 ^ k - 1 + 1) := by omega
  refine Nat.eq_of_testBit_eq fun i => ?_
  rw [alignDown, hmask, Nat.testBit_and, Nat.testBit_two_pow_sub_succ (by omega),
    Nat.testBit_two_pow_sub_one, Nat.testBit_mul_two_pow, Nat.testBit_div_two_pow]
  by_cases hlow : i < k
  · simp [hlow]
  · have hle : k ≤ i := not_lt.mp hlow
    rcases Nat.lt_or_ge i 64 with hlt | hge
    · simp [hlow, hle, hlt, Nat.sub_add_cancel hle]
    · have hzero : x.testBit i = false :=
        Nat.testBit_lt_two_pow (hx.trans_le (Nat.pow_le_pow_right (by decide) hge))
      simp [hzero, Nat.sub_add_cancel hle]

theorem alignDown_spec {k x : ℕ} (hk : k < 64) (hx : x < 2 ^ 64) :
    2 ^ k ∣ alignDown x (2 ^ k) ∧ alignDown x (2 ^ k) ≤ x ∧ x < alignDown x (2 ^ k) + 2 ^ k := by
  rw [alignDown_eq hk hx]
  exact ⟨Nat.dvd_mul_left .., Nat.div_mul_le_self .., Nat.lt_div_mul_add (Nat.two_pow_pos k)⟩

theorem roundUp_spec {k x : ℕ} (hk : k < 64) (hx : x + 2 ^ k ≤ 2 ^ 64) :
    getRoundUpDifference x (2 ^ k) < 2 ^ k ∧
      alignUp x (2 ^ k) = x + getRoundUpDifference x (2 ^ k) ∧ 2 ^ k ∣ alignUp x (2 ^ k) := by
  have hpos : 0 < 2 ^ k := Nat.two_pow_pos k
  have hmod : (x + 2 ^ k - 1) % 2 ^ 64 = x + 2 ^ k - 1 := Nat.mod_eq_of_lt (by omega)
  obtain ⟨hdvd, hle, hlt⟩ := alignDown_spec hk (show x + 2 ^ k - 1 < 2 ^ 64 by omega)
  have hup : alignUp x (2 ^ k) = alignDown (x + 2 ^ k - 1) (2 ^ k) := by rw [alignUp, hmod]
  have hdiff : getRoundUpDifference x (2 ^ k) = alignUp x (2 ^ k) - x := by
    rw [getRoundUpDifference, hup]
    omega
  rw [hdiff, hup]
  exact ⟨by omega, by omega, hdvd⟩

/-- A block that starts inside the storage ends inside it. -/
theorem block_le {D n a : ℕ} (hn : D ∣ n) (ha : D ∣ a) (hlt : a < n) : a + D ≤ n := by
  obtain ⟨m, rfl⟩ := hn
  obtain ⟨j, rfl⟩ := ha
  have hj : j < m := lt_of_mul_lt_mul_left hlt (Nat.zero_le D)
  calc D * j + D = D * (j + 1) := by ring
    _ ≤ D * m := Nat.mul_le_mul_left D hj

/-- The range is inside a storage of whole blocks, and the buffers are large enough. -/
structure Fits (k offset size : ℕ) (base : BaseStorage) (workBuf buffer : List UInt8) : Prop where
  exponent : k < 64
  blocks : 2 ^ k ∣ base.size
  bounded : base.size < 2 ^ 64
  range : offset + size ≤ base.size
  room : size ≤ buffer.length
  work : 2 ^ k ≤ workBuf.length

theorem Fits.offset_add_le {k offset size : ℕ} {base : BaseStorage} {workBuf buffer : List UInt8}
    (h : Fits k offset size base workBuf buffer) : offset + 2 ^ k ≤ 2 ^ 64 := by
  have hend : base.size + 2 ^ k ≤ 2 ^ 64 :=
    block_le (Nat.pow_dvd_pow 2 h.exponent.le) h.blocks h.bounded
  have hrange := h.range
  omega

/-! ### What a read delivers -/

/-- The accesses made since the storage `base` are by whole blocks. -/
def ByBlocks (k : ℕ) (base base' : BaseStorage) : Prop :=
  ∀ a ∈ base'.accesses, a ∈ base.accesses ∨ 2 ^ k ∣ a.1 ∧ 2 ^ k ∣ a.2

theorem ByBlocks.snoc {k : ℕ} {base base' base'' : BaseStorage} (h : ByBlocks k base base')
    {a : ℕ × ℕ} (hacc : base''.accesses = base'.accesses ++ [a]) (ha : 2 ^ k ∣ a.1)
    (hlen : 2 ^ k ∣ a.2) : ByBlocks k base base'' := by
  intro b hb
  rw [hacc, List.mem_append, List.mem_singleton] at hb
  rcases hb with hold | rfl
  · exact h b hold
  · exact .inr ⟨ha, hlen⟩

/-- The part of the buffer from `lo` to `hi` has the bytes of the storage. -/
structure Delivered (k offset : ℕ) (base : BaseStorage) (buffer : List UInt8) (lo hi : ℕ)
    (s : State) : Prop where
  data : s.base.data = base.data
  byBlocks : ByBlocks k base s.base
  bytes : ∀ i, lo ≤ i → i < hi → s.buffer[i]? = base.data[offset + i]?
  length : s.buffer.length = buffer.length
  work : 2 ^ k ≤ s.workBuf.length

section Reading

variable {k offset size : ℕ} {base : BaseStorage} {workBuf buffer : List UInt8} {lo hi : ℕ}
  {s : State}

/-- One block is read, and a part of it goes to the buffer. -/
def readBlock (dataAlignment offset tailOffset curSize : ℕ) (s : State) : Option State := do
  let aligned := alignDown tailOffset dataAlignment
  let (workBuf, base) := s.base.read s.workBuf dataAlignment aligned
  let buffer ← Image.copy s.buffer (tailOffset - offset) workBuf (tailOffset - aligned) curSize
  some ⟨workBuf, buffer, base⟩

theorem readHead_eq (dataAlignment offset coveredOffset : ℕ) (s : State) :
    readHead dataAlignment offset coveredOffset s =
      if offset < coveredOffset then
        readBlock dataAlignment offset offset (coveredOffset - offset) s
      else some s := by
  rw [readHead, readBlock, Nat.sub_self]
  rfl

theorem readTail_succ (dataAlignment offset stop rounds tailOffset : ℕ) (s : State) :
    readTail dataAlignment offset stop (rounds + 1) tailOffset s =
      if tailOffset < stop then
        let curSize := min (stop - tailOffset)
          (alignDown tailOffset dataAlignment + dataAlignment - tailOffset)
        (readBlock dataAlignment offset tailOffset curSize s).bind fun s =>
          readTail dataAlignment offset stop rounds (tailOffset + curSize) s
      else some s := by
  rw [readTail]
  split
  case isTrue =>
    simp only [readBlock, Option.bind_eq_bind, Option.bind_assoc, Option.bind_some]
  case isFalse => rfl

theorem readBlock_spec (hfits : Fits k offset size base workBuf buffer)
    (h : Delivered k offset base buffer lo hi s) {tail cur : ℕ} (hfrom : offset ≤ tail)
    (hin : tail + cur ≤ offset + size) (hcur : 0 < cur)
    (hblock : tail + cur ≤ alignDown tail (2 ^ k) + 2 ^ k) :
    ∃ s', readBlock (2 ^ k) offset tail cur s = some s' ∧ s'.base.data = base.data ∧
      ByBlocks k base s'.base ∧ s'.buffer.length = buffer.length ∧ 2 ^ k ≤ s'.workBuf.length ∧
        ∀ i, s'.buffer[i]? = if tail - offset ≤ i ∧ i < tail - offset + cur then
          base.data[offset + i]? else s.buffer[i]? := by
  have hbounded := hfits.bounded
  have hrange := hfits.range
  have hroom := hfits.room
  obtain ⟨hdvd, hle, hlt⟩ := alignDown_spec hfits.exponent (show tail < 2 ^ 64 by omega)
  have hend : alignDown tail (2 ^ k) + 2 ^ k ≤ base.size :=
    block_le hfits.blocks hdvd (by omega)
  have hsize : alignDown tail (2 ^ k) + 2 ^ k ≤ s.base.size := by
    rw [BaseStorage.size, h.data]
    exact hend
  let r := s.base.read s.workBuf (2 ^ k) (alignDown tail (2 ^ k))
  have hwork : r.1.length = s.workBuf.length := BaseStorage.length_read h.work
  have hlong := h.work
  have hcopy : ∃ buffer', Image.copy s.buffer (tail - offset) r.1
      (tail - alignDown tail (2 ^ k)) cur = some buffer' :=
    Image.copy_eq_some (by omega) (by rw [h.length]; omega)
  obtain ⟨buffer', hbuffer'⟩ := hcopy
  have haccesses : r.2.accesses = s.base.accesses ++ [(alignDown tail (2 ^ k), 2 ^ k)] := rfl
  refine ⟨⟨r.1, buffer', r.2⟩, ?_, h.data, h.byBlocks.snoc haccesses hdvd dvd_rfl,
    (Image.length_copy hbuffer').trans h.length, hlong.trans_eq hwork.symm, fun i => ?_⟩
  · exact Option.bind_eq_some_iff.mpr ⟨buffer', hbuffer', rfl⟩
  · rw [Image.getElem?_copy hbuffer']
    split
    case isTrue hat =>
      rw [BaseStorage.getElem?_read hsize, if_pos (by omega), h.data]
      congr 1
      omega
    case isFalse => rfl

theorem readHead_spec (hfits : Fits k offset size base workBuf buffer) {covered : ℕ}
    (h : Delivered k offset base buffer (covered - offset) hi s)
    (hblock : covered ≤ alignDown offset (2 ^ k) + 2 ^ k) (hin : covered ≤ offset + size) :
    ∃ s', readHead (2 ^ k) offset covered s = some s' ∧ Delivered k offset base buffer 0 hi s' := by
  rw [readHead_eq]
  split
  case isTrue hlt =>
    have hcur : 0 < covered - offset := by omega
    obtain ⟨s', hrun, hdata, hblocks, hlength, hwork, hbytes⟩ :=
      readBlock_spec hfits h le_rfl (by omega) hcur (by omega)
    refine ⟨s', hrun, hdata, hblocks, fun i _ hhi => ?_, hlength, hwork⟩
    rw [hbytes]
    split
    case isTrue => rfl
    case isFalse hout => exact h.bytes i (by omega) hhi
  case isFalse hge => exact ⟨s, rfl, h.data, h.byBlocks, fun i _ hhi => h.bytes i (by omega) hhi,
      h.length, h.work⟩

/-- Every round of the loop delivers at least a byte more. -/
theorem readTail_spec (hfits : Fits k offset size base workBuf buffer) (rounds tail : ℕ)
    (hfrom : offset ≤ tail) (hrounds : offset + size < tail + rounds)
    (h : Delivered k offset base buffer 0 (tail - offset) s) (hin : tail ≤ offset + size) :
    ∃ s', readTail (2 ^ k) offset (offset + size) rounds tail s = some s' ∧
      Delivered k offset base buffer 0 size s' := by
  induction rounds generalizing tail s with
  | zero => omega
  | succ rounds ih =>
    rw [readTail_succ]
    split
    case isTrue hlt =>
      have hbounded := hfits.bounded
      have hrange := hfits.range
      obtain ⟨-, -, hblock⟩ := alignDown_spec hfits.exponent (show tail < 2 ^ 64 by omega)
      have hcur : 0 < min (offset + size - tail) (alignDown tail (2 ^ k) + 2 ^ k - tail) := by
        omega
      obtain ⟨s', hrun, hdata, hblocks, hlength, hwork, hbytes⟩ :=
        readBlock_spec hfits h hfrom (by omega) hcur (by omega)
      dsimp only
      rw [hrun, Option.bind_some]
      refine ih _ (by omega) (by omega) ⟨hdata, hblocks, fun i hlo hhi => ?_, hlength, hwork⟩
        (by omega)
      rw [hbytes]
      split
      case isTrue => rfl
      case isFalse hout => exact h.bytes i hlo (by omega)
    case isFalse hge =>
      exact ⟨s, rfl, h.data, h.byBlocks, fun i hlo hhi => h.bytes i hlo (by omega), h.length,
        h.work⟩

/-- What the two ways to cut the range have in common. -/
structure Plan (k offset size : ℕ) (e : Extents) : Prop where
  offsetBlocks : 2 ^ k ∣ e.coreOffset
  sizeBlocks : 2 ^ k ∣ e.coreSize
  gap : e.bufferGap ≤ e.alignedCoreBufferOffset
  covered : offset ≤ e.coveredOffset
  head : e.coveredOffset ≤ alignDown offset (2 ^ k) + 2 ^ k
  empty : e.coreSize = 0 → e.coveredOffset = offset
  core : 0 < e.coreSize → e.offsetGap < e.coreSize ∧
    e.alignedCoreBufferOffset + e.coreSize ≤ size ∧
    e.coreOffset + e.offsetGap = e.coveredOffset ∧
    e.coveredOffset - offset + e.bufferGap = e.alignedCoreBufferOffset

theorem Plan.end_le {e : Extents} (h : Plan k offset size e) (hsize : 0 < size) :
    e.coveredOffset + e.effectiveCoreSize ≤ offset + size := by
  have hcovered := h.covered
  rw [Extents.effectiveCoreSize]
  rcases Nat.eq_zero_or_pos e.coreSize with hzero | hpos
  · rw [h.empty hzero, hzero, if_neg (Nat.not_lt_zero _)]
    omega
  · obtain ⟨hgap, hroom, hfrom, hat⟩ := h.core hpos
    rw [if_pos hgap]
    omega

theorem readCore_spec (hfits : Fits k offset size base workBuf buffer) {e : Extents}
    (hplan : Plan k offset size e) :
    ∃ s', readCore e ⟨workBuf, buffer, base⟩ = some s' ∧
      Delivered k offset base buffer (e.coveredOffset - offset)
        (e.coveredOffset + e.effectiveCoreSize - offset) s' := by
  have hcovered := hplan.covered
  have hblocks : ByBlocks k base base := fun a ha => .inl ha
  rw [Extents.effectiveCoreSize]
  rcases Nat.eq_zero_or_pos e.coreSize with hzero | hpos
  · rw [readCore, if_neg (by omega), hzero, if_neg (Nat.not_lt_zero _)]
    exact ⟨_, rfl, rfl, hblocks, fun i hlo hhi => by omega, rfl, hfits.work⟩
  · obtain ⟨hgap, hroom, hfrom, hat⟩ := hplan.core hpos
    have hlong := hfits.room
    have hrange := hfits.range
    have hread : e.coreOffset + e.coreSize ≤ base.size := by omega
    obtain ⟨piece, hpiece⟩ := Image.slice_eq_some buffer e.alignedCoreBufferOffset e.coreSize
      (by omega)
    have hpieceLength := Image.length_slice hpiece
    let r := base.read piece e.coreSize e.coreOffset
    have hr : r.1.length = e.coreSize :=
      (BaseStorage.length_read hpieceLength.ge).trans hpieceLength
    obtain ⟨buffer₁, hwrite⟩ := Image.write_eq_some buffer e.alignedCoreBufferOffset r.1 (by omega)
    have hlength₁ := Image.length_write hwrite
    have hbytes₁ : ∀ j < e.coreSize, buffer₁[e.alignedCoreBufferOffset + j]? =
        base.data[e.coreOffset + j]? := by
      intro j hj
      rw [Image.getElem?_write hwrite, if_pos (by omega), Nat.add_sub_cancel_left,
        BaseStorage.getElem?_read hread, if_pos hj]
    have hlog : ByBlocks k base r.2 := hblocks.snoc
      (show r.2.accesses = base.accesses ++ [(e.coreOffset, e.coreSize)] from rfl)
      hplan.offsetBlocks hplan.sizeBlocks
    have hend : ∀ buffer₂ : List UInt8, buffer₂.length = buffer.length →
        (∀ i, e.coveredOffset - offset ≤ i →
          i < e.coveredOffset + (e.coreSize - e.offsetGap) - offset →
            buffer₂[i]? = base.data[offset + i]?) →
        Delivered k offset base buffer (e.coveredOffset - offset)
          (e.coveredOffset + (e.coreSize - e.offsetGap) - offset) ⟨workBuf, buffer₂, r.2⟩ :=
      fun buffer₂ hlength hbytes => ⟨rfl, hlog, hbytes, hlength, hfits.work⟩
    have hinside : e.alignedCoreBufferOffset + e.coreSize ≤ buffer.length := by omega
    rw [readCore, if_pos ⟨hpos, hinside⟩, if_pos hgap]
    simp only [hpiece, Option.bind_eq_bind, Option.bind_some]
    rw [show Image.write buffer e.alignedCoreBufferOffset
      (base.read piece e.coreSize e.coreOffset).1 = some buffer₁ from hwrite, Option.bind_some]
    split
    case isTrue hmove =>
      have hcopy : ∃ buffer₂, Image.copy buffer₁ (e.alignedCoreBufferOffset - e.bufferGap) buffer₁
          (e.alignedCoreBufferOffset + e.offsetGap) (e.coreSize - e.offsetGap) = some buffer₂ :=
        Image.copy_eq_some (by omega) (by omega)
      obtain ⟨buffer₂, hbuffer₂⟩ := hcopy
      rw [hbuffer₂, Option.bind_some]
      refine ⟨_, rfl, hend buffer₂ ((Image.length_copy hbuffer₂).trans hlength₁)
        fun i hlo hhi => ?_⟩
      have hj := hbytes₁ (e.offsetGap + (i - (e.coveredOffset - offset))) (by omega)
      rw [Image.getElem?_copy hbuffer₂, if_pos (by omega)]
      rw [show e.coreOffset + (e.offsetGap + (i - (e.coveredOffset - offset))) = offset + i by
        omega] at hj
      rw [← hj]
      congr 1
      omega
    case isFalse hstay =>
      refine ⟨_, rfl, hend buffer₁ hlength₁ fun i hlo hhi => ?_⟩
      have hj := hbytes₁ (i - (e.coveredOffset - offset)) (by omega)
      rw [show e.coreOffset + (i - (e.coveredOffset - offset)) = offset + i by omega] at hj
      rw [← hj]
      congr 1
      omega

/-- The core that is left of the range after `d` bytes. -/
def coreSizeAfter (k size d : ℕ) : ℕ := if size < d then 0 else alignDown (size - d) (2 ^ k)

theorem coreSizeAfter_spec (hfits : Fits k offset size base workBuf buffer) (d : ℕ) :
    2 ^ k ∣ coreSizeAfter k size d ∧ (0 < coreSizeAfter k size d →
      2 ^ k ≤ coreSizeAfter k size d ∧ d + coreSizeAfter k size d ≤ size) := by
  have hbounded := hfits.bounded
  have hrange := hfits.range
  rw [coreSizeAfter]
  split
  case isTrue => exact ⟨dvd_zero _, fun hpos => absurd hpos (lt_irrefl 0)⟩
  case isFalse hlarge =>
    obtain ⟨hdvd, hle, -⟩ := alignDown_spec hfits.exponent (show size - d < 2 ^ 64 by omega)
    exact ⟨hdvd, fun hpos => ⟨Nat.le_of_dvd hpos hdvd, by omega⟩⟩

theorem Fits.alignUp_le (h : Fits k offset size base workBuf buffer) :
    alignUp offset (2 ^ k) ≤ alignDown offset (2 ^ k) + 2 ^ k := by
  have hbounded := h.bounded
  have hrange := h.range
  obtain ⟨hdvd, hle, hlt⟩ := alignDown_spec h.exponent (show offset < 2 ^ 64 by omega)
  obtain ⟨hdiff, hup, hupDvd⟩ := roundUp_spec h.exponent h.offset_add_le
  by_contra hgt
  have hnext : alignDown offset (2 ^ k) + 2 ^ k + 2 ^ k ≤ alignUp offset (2 ^ k) :=
    block_le hupDvd (Nat.dvd_add hdvd dvd_rfl) (not_le.mp hgt)
  omega

theorem readExtents_plan (hfits : Fits k offset size base workBuf buffer)
    (bufferAlignment bufPtr : ℕ) :
    Plan k offset size (readExtents (2 ^ k) bufferAlignment bufPtr offset size) := by
  have hbounded := hfits.bounded
  have hrange := hfits.range
  have hup_le := hfits.alignUp_le
  obtain ⟨hdvd, hle, hlt⟩ := alignDown_spec hfits.exponent (show offset < 2 ^ 64 by omega)
  obtain ⟨hdiff, hup, hupDvd⟩ := roundUp_spec hfits.exponent hfits.offset_add_le
  rw [readExtents]
  dsimp only
  split
  case isTrue =>
    obtain ⟨hcoreDvd, hcoreIn⟩ :=
      coreSizeAfter_spec hfits (getRoundUpDifference offset (2 ^ k))
    rw [← coreSizeAfter]
    generalize coreSizeAfter k size (getRoundUpDifference offset (2 ^ k)) = coreSize
      at hcoreDvd hcoreIn ⊢
    refine ⟨hupDvd, hcoreDvd, Nat.zero_le _, ?_, ?_, fun hzero => ?_, fun hpos => ?_⟩
    · dsimp only
      split <;> omega
    · dsimp only
      split <;> omega
    · exact if_neg (by dsimp only at hzero; omega)
    · have hin := (hcoreIn hpos).2
      dsimp only at hpos ⊢
      rw [if_pos hpos]
      omega
  case isFalse =>
    obtain ⟨hcoreDvd, hcoreIn⟩ :=
      coreSizeAfter_spec hfits (getRoundUpDifference bufPtr bufferAlignment)
    rw [← coreSizeAfter]
    generalize coreSizeAfter k size (getRoundUpDifference bufPtr bufferAlignment) = coreSize
      at hcoreDvd hcoreIn ⊢
    refine ⟨hdvd, hcoreDvd, le_rfl, le_rfl, hlt.le, fun _ => rfl, fun hpos => ?_⟩
    obtain ⟨hblock, hin⟩ := hcoreIn hpos
    dsimp only
    rw [getRoundDownDifference]
    omega

/-- A read delivers the range, whatever the address of the buffer. -/
theorem read_delivers (hfits : Fits k offset size base workBuf buffer)
    (bufferAlignment bufPtr : ℕ) :
    ∃ s', read base workBuf (2 ^ k) bufferAlignment offset bufPtr buffer size = some (size, s') ∧
      Delivered k offset base buffer 0 size s' := by
  rw [read, if_neg (not_lt.mpr hfits.work)]
  split
  case isTrue hzero =>
    exact ⟨_, rfl, rfl, fun a ha => .inl ha, fun i _ hhi => by omega, rfl, hfits.work⟩
  case isFalse hsize =>
    have hplan := readExtents_plan hfits bufferAlignment bufPtr
    have hend := hplan.end_le (Nat.pos_of_ne_zero hsize)
    have hcovered := hplan.covered
    obtain ⟨s₁, hrun₁, h₁⟩ := readCore_spec hfits hplan
    obtain ⟨s₂, hrun₂, h₂⟩ := readHead_spec hfits h₁ hplan.head (by omega)
    obtain ⟨s₃, hrun₃, h₃⟩ := readTail_spec hfits (size + 1) _ (by omega) (by omega) h₂ hend
    refine ⟨s₃, ?_, h₃⟩
    exact Option.bind_eq_some_iff.mpr ⟨s₁, hrun₁, Option.bind_eq_some_iff.mpr ⟨s₂, hrun₂,
      Option.bind_eq_some_iff.mpr ⟨s₃, hrun₃, rfl⟩⟩⟩

end Reading

/-! ### What a write leaves -/

/-- The storage has the bytes of the buffer from `lo` to `hi`, and its old ones elsewhere. -/
structure Patched (k offset : ℕ) (base : BaseStorage) (buffer : List UInt8) (lo hi : ℕ)
    (s : State) : Prop where
  data : ∀ i, s.base.data[i]? =
    if lo ≤ i ∧ i < hi then buffer[i - offset]? else base.data[i]?
  size : s.base.size = base.size
  byBlocks : ByBlocks k base s.base
  buffer : s.buffer = buffer
  work : 2 ^ k ≤ s.workBuf.length

section Writing

variable {k offset size : ℕ} {base : BaseStorage} {workBuf buffer : List UInt8} {lo hi : ℕ}
  {s : State}

/-- A part of one block is read, changed and written back. -/
def writeBlock (dataAlignment offset tailOffset curSize : ℕ) (s : State) : Option State := do
  let aligned := alignDown tailOffset dataAlignment
  let (workBuf, base) := s.base.read s.workBuf dataAlignment aligned
  let workBuf ← Image.copy workBuf (tailOffset - aligned) s.buffer (tailOffset - offset) curSize
  some ⟨workBuf, s.buffer, base.write workBuf dataAlignment aligned⟩

theorem writeHead_eq (dataAlignment offset coveredOffset : ℕ) (s : State) :
    writeHead dataAlignment offset coveredOffset s =
      if offset < coveredOffset then
        writeBlock dataAlignment offset offset (coveredOffset - offset) s
      else some s := by
  rw [writeHead, writeBlock, Nat.sub_self]

theorem writeTail_succ (dataAlignment offset stop rounds tailOffset : ℕ) (s : State) :
    writeTail dataAlignment offset stop (rounds + 1) tailOffset s =
      if tailOffset < stop then
        let curSize := min (stop - tailOffset)
          (alignDown tailOffset dataAlignment + dataAlignment - tailOffset)
        (writeBlock dataAlignment offset tailOffset curSize s).bind fun s =>
          writeTail dataAlignment offset stop rounds (tailOffset + curSize) s
      else some s := by
  rw [writeTail]
  split
  case isTrue =>
    simp only [writeBlock, getRoundDownDifference, Option.bind_eq_bind, Option.bind_assoc,
      Option.bind_some]
  case isFalse => rfl

theorem writeBlock_spec (hfits : Fits k offset size base workBuf buffer)
    (h : Patched k offset base buffer lo hi s) {tail cur : ℕ} (hfrom : offset ≤ tail)
    (hin : tail + cur ≤ offset + size) (hcur : 0 < cur)
    (hblock : tail + cur ≤ alignDown tail (2 ^ k) + 2 ^ k) :
    ∃ s', writeBlock (2 ^ k) offset tail cur s = some s' ∧ s'.base.size = base.size ∧
      ByBlocks k base s'.base ∧ s'.buffer = buffer ∧ 2 ^ k ≤ s'.workBuf.length ∧
        ∀ i, s'.base.data[i]? = if tail ≤ i ∧ i < tail + cur then buffer[i - offset]?
          else s.base.data[i]? := by
  have hbounded := hfits.bounded
  have hrange := hfits.range
  have hroom := hfits.room
  obtain ⟨hdvd, hle, hlt⟩ := alignDown_spec hfits.exponent (show tail < 2 ^ 64 by omega)
  have hend : alignDown tail (2 ^ k) + 2 ^ k ≤ base.size :=
    block_le hfits.blocks hdvd (by omega)
  have hsize : alignDown tail (2 ^ k) + 2 ^ k ≤ s.base.size := hend.trans_eq h.size.symm
  let r := s.base.read s.workBuf (2 ^ k) (alignDown tail (2 ^ k))
  have hwork : r.1.length = s.workBuf.length := BaseStorage.length_read h.work
  have hlong := h.work
  have hcopy : ∃ work', Image.copy r.1 (tail - alignDown tail (2 ^ k)) s.buffer (tail - offset)
      cur = some work' :=
    Image.copy_eq_some (by rw [h.buffer]; omega) (by omega)
  obtain ⟨work', hwork'⟩ := hcopy
  have hlength := Image.length_copy hwork'
  have hfull : 2 ^ k ≤ work'.length := by omega
  have hread : ByBlocks k base r.2 := h.byBlocks.snoc
    (show r.2.accesses = s.base.accesses ++ [(alignDown tail (2 ^ k), 2 ^ k)] from rfl) hdvd dvd_rfl
  refine ⟨⟨work', s.buffer, r.2.write work' (2 ^ k) (alignDown tail (2 ^ k))⟩,
    Option.bind_eq_some_iff.mpr ⟨work', hwork', rfl⟩,
    (BaseStorage.size_write hsize hfull).trans h.size,
    hread.snoc BaseStorage.write_accesses hdvd dvd_rfl, h.buffer, hfull, fun i => ?_⟩
  refine (BaseStorage.getElem?_write hsize hfull i).trans ?_
  by_cases hblockAt : alignDown tail (2 ^ k) ≤ i ∧ i < alignDown tail (2 ^ k) + 2 ^ k
  · rw [if_pos hblockAt, Image.getElem?_copy hwork']
    by_cases hat : tail ≤ i ∧ i < tail + cur
    · rw [if_pos hat, if_pos (by omega), h.buffer]
      congr 1
      omega
    · rw [if_neg hat, if_neg (by omega), BaseStorage.getElem?_read hsize, if_pos (by omega)]
      congr 1
      omega
  · rw [if_neg hblockAt, if_neg (by omega)]

theorem writeHead_spec (hfits : Fits k offset size base workBuf buffer) {covered : ℕ}
    (h : Patched k offset base buffer covered hi s) (hhi : covered ≤ hi)
    (hblock : covered ≤ alignDown offset (2 ^ k) + 2 ^ k) (hfrom : offset ≤ covered)
    (hin : covered ≤ offset + size) :
    ∃ s', writeHead (2 ^ k) offset covered s = some s' ∧
      Patched k offset base buffer offset hi s' := by
  rw [writeHead_eq]
  split
  case isTrue hlt =>
    have hcur : 0 < covered - offset := by omega
    obtain ⟨s', hrun, hsize, hblocks, hbuffer, hwork, hdata⟩ :=
      writeBlock_spec hfits h le_rfl (by omega) hcur (by omega)
    refine ⟨s', hrun, fun i => ?_, hsize, hblocks, hbuffer, hwork⟩
    rw [hdata, h.data]
    by_cases hhead : offset ≤ i ∧ i < offset + (covered - offset)
    · rw [if_pos hhead, if_pos (by omega)]
    · rw [if_neg hhead]
      refine if_congr ?_ rfl rfl
      omega
  case isFalse hge =>
    obtain rfl : covered = offset := by omega
    exact ⟨s, rfl, h⟩

/-- Every round of the loop writes at least a byte more. -/
theorem writeTail_spec (hfits : Fits k offset size base workBuf buffer) (rounds tail : ℕ)
    (hfrom : offset ≤ tail) (hrounds : offset + size < tail + rounds)
    (h : Patched k offset base buffer offset tail s) (hin : tail ≤ offset + size) :
    ∃ s', writeTail (2 ^ k) offset (offset + size) rounds tail s = some s' ∧
      Patched k offset base buffer offset (offset + size) s' := by
  induction rounds generalizing tail s with
  | zero => omega
  | succ rounds ih =>
    rw [writeTail_succ]
    split
    case isTrue hlt =>
      have hbounded := hfits.bounded
      have hrange := hfits.range
      obtain ⟨-, -, hblock⟩ := alignDown_spec hfits.exponent (show tail < 2 ^ 64 by omega)
      have hcur : 0 < min (offset + size - tail) (alignDown tail (2 ^ k) + 2 ^ k - tail) := by
        omega
      obtain ⟨s', hrun, hsize, hblocks, hbuffer, hwork, hdata⟩ :=
        writeBlock_spec hfits h hfrom (by omega) hcur (by omega)
      dsimp only
      rw [hrun, Option.bind_some]
      refine ih _ (by omega) (by omega) ⟨fun i => ?_, hsize, hblocks, hbuffer, hwork⟩ (by omega)
      rw [hdata, h.data]
      generalize min (offset + size - tail) (alignDown tail (2 ^ k) + 2 ^ k - tail) = cur
      by_cases hat : tail ≤ i ∧ i < tail + cur
      · rw [if_pos hat, if_pos (by omega)]
      · rw [if_neg hat]
        refine if_congr ?_ rfl rfl
        omega
    case isFalse hge =>
      obtain rfl : tail = offset + size := by omega
      exact ⟨s, rfl, h⟩

/-- What the two ways to cut the range for a write have in common. -/
theorem writeExtents_plan (hfits : Fits k offset size base workBuf buffer)
    (bufferAlignment bufPtr : ℕ) {coreOffset coreSize covered : ℕ}
    (h : writeExtents (2 ^ k) bufferAlignment bufPtr offset size =
      (coreOffset, coreSize, covered)) :
    2 ^ k ∣ coreOffset ∧ 2 ^ k ∣ coreSize ∧ offset ≤ covered ∧
      covered ≤ alignDown offset (2 ^ k) + 2 ^ k ∧ (coreSize = 0 → covered = offset) ∧
        (0 < coreSize → covered = coreOffset ∧ coreOffset + coreSize ≤ offset + size) := by
  have hbounded := hfits.bounded
  have hrange := hfits.range
  have hup_le := hfits.alignUp_le
  obtain ⟨hdvd, hle, hlt⟩ := alignDown_spec hfits.exponent (show offset < 2 ^ 64 by omega)
  obtain ⟨hdiff, hup, hupDvd⟩ := roundUp_spec hfits.exponent hfits.offset_add_le
  rw [writeExtents] at h
  dsimp only at h
  split at h
  case isTrue =>
    obtain ⟨hcoreDvd, hcoreIn⟩ :=
      coreSizeAfter_spec hfits (getRoundUpDifference offset (2 ^ k))
    rw [← coreSizeAfter] at h
    obtain ⟨rfl, rfl, rfl⟩ : alignUp offset (2 ^ k) = coreOffset ∧
        coreSizeAfter k size (getRoundUpDifference offset (2 ^ k)) = coreSize ∧
          (if coreSizeAfter k size (getRoundUpDifference offset (2 ^ k)) > 0 then
            alignUp offset (2 ^ k) else offset) = covered := by simpa using h
    refine ⟨hupDvd, hcoreDvd, ?_, ?_, fun hzero => if_neg (by omega), fun hpos => ?_⟩
    · split <;> omega
    · split <;> omega
    · have hin := (hcoreIn hpos).2
      exact ⟨if_pos hpos, by omega⟩
  case isFalse =>
    obtain ⟨rfl, rfl, rfl⟩ : alignDown offset (2 ^ k) = coreOffset ∧ 0 = coreSize ∧
        offset = covered := by simpa using h
    exact ⟨hdvd, dvd_zero _, le_rfl, hlt.le, fun _ => rfl, fun hpos => absurd hpos (lt_irrefl 0)⟩

theorem writeCore_spec (hfits : Fits k offset size base workBuf buffer)
    {coreOffset coreSize covered : ℕ} (hoffset : 2 ^ k ∣ coreOffset) (hsize : 2 ^ k ∣ coreSize)
    (hfrom : offset ≤ covered)
    (hcore : 0 < coreSize → covered = coreOffset ∧ coreOffset + coreSize ≤ offset + size) :
    ∃ s', writeCore coreOffset coreSize offset ⟨workBuf, buffer, base⟩ = some s' ∧
      Patched k offset base buffer covered (covered + coreSize) s' := by
  have hblocks : ByBlocks k base base := fun a ha => .inl ha
  have hroom := hfits.room
  have hrange := hfits.range
  rw [writeCore]
  split
  case isTrue hpos =>
    obtain ⟨rfl, hin⟩ := hcore hpos
    obtain ⟨piece, hpiece⟩ := Image.slice_eq_some buffer (covered - offset) coreSize (by omega)
    have hlength := Image.length_slice hpiece
    have hend : covered + coreSize ≤ base.size := by omega
    refine ⟨_, Option.bind_eq_some_iff.mpr ⟨piece, hpiece, rfl⟩, fun i => ?_,
      BaseStorage.size_write hend hlength.ge,
      hblocks.snoc BaseStorage.write_accesses hoffset hsize, rfl, hfits.work⟩
    refine (BaseStorage.getElem?_write hend hlength.ge i).trans ?_
    split
    case isTrue hat =>
      rw [Image.getElem?_slice hpiece (by omega)]
      congr 1
      omega
    case isFalse => rfl
  case isFalse hzero =>
    refine ⟨_, rfl, fun i => ?_, rfl, hblocks, rfl, hfits.work⟩
    rw [if_neg (by omega)]

/-- A write leaves the bytes of the buffer in the range, whatever the address of the buffer. -/
theorem write_patches (hfits : Fits k offset size base workBuf buffer)
    (bufferAlignment bufPtr : ℕ) :
    ∃ s', write base workBuf (2 ^ k) bufferAlignment offset bufPtr buffer size = some (size, s') ∧
      Patched k offset base buffer offset (offset + size) s' := by
  rw [write, if_neg (not_lt.mpr hfits.work)]
  split
  case isTrue hzero =>
    refine ⟨_, rfl, fun i => ?_, rfl, fun a ha => .inl ha, rfl, hfits.work⟩
    rw [if_neg (by omega)]
  case isFalse hsize =>
    obtain ⟨⟨coreOffset, coreSize, covered⟩, hextents⟩ :
        ∃ e, writeExtents (2 ^ k) bufferAlignment bufPtr offset size = e := ⟨_, rfl⟩
    obtain ⟨hoffset, hcoreSize, hfrom, hhead, hempty, hcore⟩ :=
      writeExtents_plan hfits bufferAlignment bufPtr hextents
    have hend : covered + coreSize ≤ offset + size := by
      rcases Nat.eq_zero_or_pos coreSize with hzero | hpos
      · have heq := hempty hzero
        omega
      · have hin := hcore hpos
        omega
    obtain ⟨s₁, hrun₁, h₁⟩ := writeCore_spec hfits hoffset hcoreSize hfrom hcore
    obtain ⟨s₂, hrun₂, h₂⟩ := writeHead_spec hfits h₁ (Nat.le_add_right ..) hhead hfrom (by omega)
    obtain ⟨s₃, hrun₃, h₃⟩ := writeTail_spec hfits (size + 1) _ (by omega) (by omega) h₂ hend
    refine ⟨s₃, ?_, h₃⟩
    rw [hextents]
    exact Option.bind_eq_some_iff.mpr ⟨s₁, hrun₁, Option.bind_eq_some_iff.mpr ⟨s₂, hrun₂,
      Option.bind_eq_some_iff.mpr ⟨s₃, hrun₃, rfl⟩⟩⟩

end Writing

/-- A read returns the range of the storage, a write replaces it, and both go to the storage by
whole blocks. -/
theorem transfers {k offset size : ℕ} {base : BaseStorage} {workBuf buffer : List UInt8}
    (h : Fits k offset size base workBuf buffer) (bufferAlignment bufPtr : ℕ) :
    (∃ s, read base workBuf (2 ^ k) bufferAlignment offset bufPtr buffer size = some (size, s) ∧
      (∀ i < size, s.buffer[i]? = base.data[offset + i]?) ∧ s.base.data = base.data ∧
        ByBlocks k base s.base) ∧
    ∃ s, write base workBuf (2 ^ k) bufferAlignment offset bufPtr buffer size = some (size, s) ∧
      (∀ i < size, s.base.data[offset + i]? = buffer[i]?) ∧
        (∀ i, i < offset ∨ offset + size ≤ i → s.base.data[i]? = base.data[i]?) ∧
          ByBlocks k base s.base := by
  obtain ⟨s, hread, hdelivered⟩ := read_delivers h bufferAlignment bufPtr
  obtain ⟨s', hwrite, hpatched⟩ := write_patches h bufferAlignment bufPtr
  refine ⟨⟨s, hread, fun i hi => hdelivered.bytes i (Nat.zero_le _) hi, hdelivered.data,
    hdelivered.byBlocks⟩, s', hwrite, fun i hi => ?_, fun i hi => ?_, hpatched.byBlocks⟩
  · rw [hpatched.data, if_pos (by omega), Nat.add_sub_cancel_left]
  · rw [hpatched.data, if_neg (by omega)]

theorem transfers_misaligned :
    ∃ s, read ⟨List.replicate 16 7, []⟩ [0, 0, 0, 0] (2 ^ 2) 8 3 5 (List.replicate 9 0) 9 =
      some (9, s) ∧ ∀ i < 9, s.buffer[i]? = (List.replicate 16 7)[3 + i]? := by
  have hfits : Fits 2 3 9 ⟨List.replicate 16 7, []⟩ [0, 0, 0, 0] (List.replicate 9 0) := by
    constructor <;> decide
  obtain ⟨s, hread, hbytes, -⟩ := (transfers hfits 8 5).1
  exact ⟨s, hread, hbytes⟩

end Ruzu.FileSys.AlignmentMatching
