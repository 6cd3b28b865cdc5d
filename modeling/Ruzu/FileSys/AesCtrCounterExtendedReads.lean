import Ruzu.FileSys.AesCtrCounterExtended

/-!
# Reading through a table of counters

What a read that returns has made of each entry that it came to, and the entries
that it gets past. Every byte is that of its entry just when the table is intact
where the read comes to it, and the counters begin at whole blocks.
-/

set_option autoImplicit false

namespace Ruzu.FileSys

open BucketTree

namespace AesCtrCounterExtendedStorage

/-! ### The stream of an entry -/

theorem makeIv_eq_some {upper : UInt64} {offset : ℤ} {iv : List UInt8} :
    AesCtrStorage.makeIv upper offset = some iv ↔
      0 ≤ offset ∧ ivBlock upper.toNat (offset.toNat / blockSize) = iv := by
  rw [AesCtrStorage.makeIv, Option.ite_none_left_eq_some, not_lt, Option.some_inj]

theorem length_ivBlock (upper lower : ℕ) : (ivBlock upper lower).length = blockSize := by
  rw [ivBlock, List.length_append, List.length_reverse, List.length_reverse, Image.length_le,
    Image.length_le, blockSize]

theorem fromLe_append (bytes bytes' : List UInt8) :
    Image.fromLe (bytes ++ bytes') =
      Image.fromLe bytes + 256 ^ bytes.length * Image.fromLe bytes' := by
  induction bytes with
  | nil => simp [Image.fromLe]
  | cons byte bytes ih =>
    rw [List.cons_append, Image.fromLe, Image.fromLe, ih, List.length_cons, pow_succ]
    ring

theorem fromLe_ivBlock {upper lower : ℕ} (hupper : upper < 2 ^ 64) (hlower : lower < 2 ^ 64) :
    Image.fromLe (ivBlock upper lower).reverse = lower + 2 ^ 64 * upper := by
  rw [ivBlock, List.reverse_append, List.reverse_reverse, List.reverse_reverse, fromLe_append,
    Image.length_le, Image.fromLe_le _ _ hlower, Image.fromLe_le _ _ hupper]
  rfl

/-- The counter goes on in its lower half. -/
theorem counterBlock_ivBlock {upper lower n : ℕ} (hupper : upper < 2 ^ 64)
    (hlower : lower + n < 2 ^ 64) :
    counterBlock (ivBlock upper lower) n = ivBlock upper (lower + n) := by
  have hle : Image.le blockSize (Image.fromLe (ivBlock upper (lower + n)).reverse) =
      (ivBlock upper (lower + n)).reverse := by
    have hlength : (ivBlock upper (lower + n)).reverse.length = blockSize := by
      rw [List.length_reverse, length_ivBlock]
    rw [← hlength, Image.le_fromLe]
  have hsum : Image.fromLe (ivBlock upper lower).reverse + n =
      Image.fromLe (ivBlock upper (lower + n)).reverse := by
    rw [fromLe_ivBlock hupper (by omega), fromLe_ivBlock hupper hlower]
    omega
  rw [counterBlock, hsum, hle, List.reverse_reverse]

/-- The byte of the stream at an absolute position. -/
def streamByte (aes : Aes) (key : List UInt8) (upper : UInt64) (p : ℕ) : UInt8 :=
  ((aes.encrypt key (ivBlock upper.toNat (p / blockSize)))[p % blockSize]?).getD 0

theorem keystream_ivBlock {aes : Aes} {key : List UInt8} {upper : UInt64} {c j : ℕ}
    (h : c / blockSize + j / blockSize < 2 ^ 64) :
    keystream aes key (ivBlock upper.toNat (c / blockSize)) j =
      ((aes.encrypt key (ivBlock upper.toNat (c / blockSize + j / blockSize)))[
        j % blockSize]?).getD 0 := by
  rw [keystream, counterBlock_ivBlock upper.toNat_lt h]

theorem keystream_aligned {aes : Aes} {key : List UInt8} {upper : UInt64} {c j : ℕ}
    (hc : c % blockSize = 0) (h : c + j < 2 ^ 64) :
    keystream aes key (ivBlock upper.toNat (c / blockSize)) j =
      streamByte aes key upper (c + j) := by
  obtain ⟨q, rfl⟩ := Nat.dvd_of_mod_eq_zero hc
  have hq : blockSize * q / blockSize = q := Nat.mul_div_cancel_left q (by decide)
  rw [keystream_ivBlock, streamByte, hq, Nat.mul_add_div (by decide), Nat.mul_add_mod]
  rw [blockSize] at h ⊢
  omega

/-- A cipher that adds a number to each byte of a block. -/
def tagged (tag : ℕ → UInt8) : Aes where
  encrypt _ block := block.mapIdx fun i byte => byte + tag i
  decrypt _ block := block.mapIdx fun i byte => byte - tag i
  length_encrypt _ _ := List.length_mapIdx
  length_decrypt _ _ := List.length_mapIdx
  decrypt_encrypt key block _ := List.ext_getElem? fun i => by
    cases h : block[i]? <;> simp [List.getElem?_mapIdx, h]
  encrypt_decrypt key block _ := List.ext_getElem? fun i => by
    cases h : block[i]? <;> simp [List.getElem?_mapIdx, h]

theorem exists_getElem? {block : List UInt8} (h : block.length = blockSize) (i : ℕ) :
    ∃ byte, block[i % blockSize]? = some byte :=
  ⟨_, List.getElem?_eq_getElem ((Nat.mod_lt i (by decide)).trans_eq h.symm)⟩

/-- No byte of the data is its own ciphertext under every cipher. -/
theorem exists_streamByte_ne (key : List UInt8) (upper : UInt64) (p : ℕ) :
    ∃ aes : Aes, streamByte aes key upper p ≠ 0 := by
  obtain ⟨byte, hbyte⟩ := exists_getElem? (length_ivBlock upper.toNat (p / blockSize)) p
  refine ⟨tagged fun _ => 1 - byte, ?_⟩
  rw [streamByte, tagged, List.getElem?_mapIdx, hbyte, Option.map_some, Option.getD_some,
    UInt8.add_comm, UInt8.sub_add_cancel]
  decide

/-- A stream that begins inside a block is another one. -/
theorem exists_keystream_ne (key : List UInt8) (upper : UInt64) {c : ℕ} (hc : c % blockSize ≠ 0)
    (hlt : c < 2 ^ 64) :
    ∃ aes : Aes, keystream aes key (ivBlock upper.toNat (c / blockSize)) 0 ≠
      streamByte aes key upper c := by
  obtain ⟨first, hfirst⟩ := exists_getElem? (length_ivBlock upper.toNat (c / blockSize)) 0
  obtain ⟨byte, hbyte⟩ := exists_getElem? (length_ivBlock upper.toNat (c / blockSize)) c
  refine ⟨tagged fun i => if i = 0 then 0 - first else 1 - byte, ?_⟩
  rw [keystream_ivBlock (by rw [blockSize]; omega), streamByte, tagged, Nat.zero_div, Nat.add_zero,
    List.getElem?_mapIdx, List.getElem?_mapIdx, hfirst, hbyte, Nat.zero_mod, if_pos rfl, if_neg hc,
    Option.map_some, Option.map_some, Option.getD_some, Option.getD_some, UInt8.add_comm first,
    UInt8.add_comm byte, UInt8.sub_add_cancel, UInt8.sub_add_cancel]
  decide

/-! ### One round -/

/-- The counter at a position, and whether it can be given to `make_iv`. -/
def CounterFits (counterOffset p : ℤ) : Prop := 0 ≤ counterOffset + p ∧ counterOffset + p < 2 ^ 63

variable {s : AesCtrCounterExtendedStorage} {aes : Aes} {entry : Entry}
  {buffer buffer' : List UInt8} {at' size : ℕ} {p : ℤ}

/-- What the stream of an entry adds to the byte `j` behind the position that it begins at. -/
def pad (aes : Aes) (s : AesCtrCounterExtendedStorage) (entry : Entry) (p : ℤ) (j : ℕ) : UInt8 :=
  if entry.encryptionValue = encrypted then
    keystream aes s.key
      (ivBlock (s.upperIv entry).toNat ((s.counterOffset + p).toNat / blockSize)) j
  else 0

theorem decryptPiece_some (hdec : s.decryptor = some (softwareDecryptor aes))
    (hrun : s.decryptPiece entry buffer at' size (p - entry.offset) = some buffer') :
    (entry.encryptionValue = encrypted → CounterFits s.counterOffset p) ∧
      buffer'.length = buffer.length ∧
        ∀ k, buffer'[k]? = if at' ≤ k ∧ k < at' + size then
          buffer[k]?.map (· ^^^ pad aes s entry p (k - at')) else buffer[k]? := by
  have hcounter : s.counterOffset + entry.offset + (p - entry.offset) = s.counterOffset + p := by
    omega
  rw [decryptPiece, hdec] at hrun
  dsimp only at hrun
  rw [hcounter] at hrun
  split at hrun
  case isFalse hplain =>
    obtain rfl := Option.some.inj hrun
    refine ⟨fun h => absurd h hplain, rfl, fun k => ?_⟩
    simp only [pad, if_neg hplain, UInt8.xor_zero, Option.map_id', ite_self]
  case isTrue henc =>
    rw [Option.ite_none_left_eq_some] at hrun
    obtain ⟨hbelow, hrun⟩ := hrun
    obtain ⟨iv, hiv, hrun⟩ := Option.bind_eq_some_iff.mp hrun
    obtain ⟨piece, hpiece, hrun⟩ := Option.bind_eq_some_iff.mp hrun
    obtain ⟨hnonneg, rfl⟩ := makeIv_eq_some.1 hiv
    have hlength := Image.length_slice hpiece
    refine ⟨fun _ => ⟨hnonneg, not_le.mp hbelow⟩, Image.length_write hrun, fun k => ?_⟩
    rw [Image.getElem?_write hrun, softwareDecryptor, length_transcodeCtr, hlength]
    split
    case isFalse => rfl
    case isTrue hin =>
      rw [getElem?_transcodeCtr, Image.getElem?_slice hpiece (by omega), Nat.add_sub_cancel' hin.1,
        pad, if_pos henc]

theorem decryptPiece_isSome (hdec : s.decryptor = some (softwareDecryptor aes))
    (hcounter : entry.encryptionValue = encrypted → CounterFits s.counterOffset p)
    (hfit : at' + size ≤ buffer.length) :
    ∃ buffer', s.decryptPiece entry buffer at' size (p - entry.offset) = some buffer' := by
  have hsum : s.counterOffset + entry.offset + (p - entry.offset) = s.counterOffset + p := by
    omega
  rw [decryptPiece, hdec]
  dsimp only
  rw [hsum]
  split
  case isFalse => exact ⟨_, rfl⟩
  case isTrue henc =>
    obtain ⟨hnonneg, hbelow⟩ := hcounter henc
    obtain ⟨piece, hpiece⟩ := Image.slice_eq_some buffer at' size hfit
    have hlength := Image.length_slice hpiece
    obtain ⟨image, himage⟩ := Image.write_eq_some buffer at'
      (softwareDecryptor aes piece s.key
        (ivBlock (s.upperIv entry).toNat ((s.counterOffset + p).toNat / blockSize)))
      (by rw [softwareDecryptor, length_transcodeCtr, hlength]; exact hfit)
    refine ⟨image, ?_⟩
    rw [if_neg (not_le.mpr hbelow), makeIv_eq_some.2 ⟨hnonneg, rfl⟩]
    dsimp only [bind, Option.bind]
    rw [hpiece]
    exact himage

/-! ### The entries of a range -/

variable {L : Layout} {badSet badNode : ℕ → Prop} {nodeStorage entryStorage : VfsFile}
  {i j fuel pos start stop : ℕ}

def entryAt (L : Layout) (i : ℕ) : Entry := entryOf (L.entry i)

/-- The entry covers a position of the range. -/
def Meets (L : Layout) (i start stop : ℕ) : Prop :=
  ∃ pos : ℕ, start ≤ pos ∧ pos < stop ∧ L.Covers i pos

/-- Where a range comes to an entry, and where it leaves it. -/
def pieceStart (L : Layout) (i start : ℕ) : ℕ := max start (L.virt i).toNat

def pieceEnd (L : Layout) (i stop : ℕ) : ℕ := min stop (L.bound (i + 1)).toNat

/-- The loop gets past the entry. -/
structure Passable (L : Layout) (badSet : ℕ → Prop) (counterOffset : ℤ) (start i : ℕ) :
    Prop where
  next : i + 1 < L.entries.length → ¬badSet ((i + 1) / L.perSet)
  counter : (entryAt L i).encryptionValue = encrypted →
    CounterFits counterOffset (pieceStart L i start)

section Entries

variable (h : L.Ordered)

include h

theorem virt_nonneg (hi : i < L.entries.length) : 0 ≤ L.virt i := by
  have hle := Layout.bound_le h (Nat.zero_le i)
  rw [Layout.bound_entry hi, Layout.bound_entry h.nonempty] at hle
  exact h.nonneg.trans hle

theorem covers_le (hi : L.Covers i start) (hj : L.Covers j pos) (hle : start ≤ pos) : i ≤ j := by
  by_contra hlt
  have hbound := Layout.bound_le h (show j + 1 ≤ i by omega)
  rw [Layout.bound_entry hi.lt] at hbound
  have hstart := hi.le
  have hpos := hj.below
  omega

theorem covers_next (hi : i + 1 < L.entries.length) (hpos : (pos : ℤ) = L.bound (i + 1)) :
    L.Covers (i + 1) pos where
  lt := hi
  le := (Layout.bound_entry hi).symm.le.trans hpos.symm.le
  below := hpos.le.trans_lt (Layout.bound_lt h (i + 1).lt_succ_self hi)

omit h in
theorem pieceStart_next (hi : i + 1 < L.entries.length) (hpos : (pos : ℤ) = L.bound (i + 1))
    (hle : start ≤ pos) : pieceStart L (i + 1) start = pos := by
  rw [pieceStart, ← Layout.bound_entry hi, ← hpos, Int.toNat_natCast, Nat.max_eq_right hle]

omit h in
theorem pieceEnd_le : pieceEnd L i stop ≤ stop := Nat.min_le_left _ _

omit h in
theorem lt_pieceEnd (hi : L.Covers i pos) (hstop : pos < stop) : pos < pieceEnd L i stop := by
  have hbelow := hi.below
  rw [pieceEnd]
  omega

theorem pieceEnd_eq (hi : i < L.entries.length) (hlt : pieceEnd L i stop < stop) :
    (pieceEnd L i stop : ℤ) = L.bound (i + 1) := by
  have hbound : L.bound i < L.bound (i + 1) := Layout.bound_lt h i.lt_succ_self hi
  have hnonneg := virt_nonneg h hi
  rw [Layout.bound_entry hi] at hbound
  rw [pieceEnd] at hlt ⊢
  omega

end Entries

section Rounds

variable (h : L.Ordered) (hentry : L.entrySize = entrySize)

include h

include hentry in
theorem getEntry_visitor (hi : i < L.entries.length) :
    getEntry (L.visitor nodeStorage entryStorage i) = some (entryAt L i) :=
  if_pos ⟨Layout.isValid_visitor, (hentry.symm.trans (Layout.length_entry h hi).symm).le⟩

variable (hstored : L.Stored badSet badNode nodeStorage entryStorage)
  (htable : s.table = L.tree nodeStorage entryStorage) {endOffset : ℤ}

theorem nextEntryOffset_last (hi : i + 1 = L.entries.length)
    (htable : s.table = L.tree nodeStorage entryStorage) :
    s.nextEntryOffset (L.visitor nodeStorage entryStorage i) endOffset =
      some (L.bound (i + 1), L.visitor nodeStorage entryStorage i) := by
  rw [nextEntryOffset, Layout.canMoveNext_visitor h (by omega), if_neg (by simp [hi]), htable,
    Layout.bound, if_neg (by omega)]
  rfl

include hentry hstored

theorem nextEntryOffset_next (hi : i + 1 < L.entries.length)
    (hgood : ¬badSet ((i + 1) / L.perSet)) :
    s.nextEntryOffset (L.visitor nodeStorage entryStorage i) endOffset =
      some (L.bound (i + 1), L.visitor nodeStorage entryStorage (i + 1)) := by
  rw [nextEntryOffset, Layout.canMoveNext_visitor h (by omega), if_pos (by simp [hi]),
    Layout.moveNext_eq h hstored hi hgood]
  dsimp only
  rw [getEntry_visitor h hentry hi, Layout.bound_entry hi]
  rfl

omit hentry in
theorem nextEntryOffset_bad (hi : i + 1 < L.entries.length) (hset : ¬badSet (i / L.perSet))
    (hbad : badSet ((i + 1) / L.perSet)) :
    s.nextEntryOffset (L.visitor nodeStorage entryStorage i) endOffset = none := by
  have hcross : (i + 1) % L.perSet = 0 := by
    by_contra hsame
    rw [(Layout.next_same h hsame).1] at hbad
    exact hset hbad
  obtain ⟨code, hmove⟩ := Layout.moveNext_bad h hstored hi hcross hbad
  rw [nextEntryOffset, Layout.canMoveNext_visitor h (by omega), if_pos (by simp [hi]), hmove]

omit hstored

theorem readLoop_none {v : Visitor} {endOffset curOffset : ℤ} (hlt : curOffset < endOffset)
    (hi : i < L.entries.length) (hv : v = L.visitor nodeStorage entryStorage i)
    (hnext : s.nextEntryOffset v endOffset = none) :
    s.readLoop (fuel + 1) v buffer at' curOffset endOffset = none := by
  rw [readLoop, if_pos hlt, hnext, hv, getEntry_visitor h hentry hi]
  rfl

/-- A round from a position that an entry covers. -/
theorem readLoop_step {w : Visitor} (hi : L.Covers i pos) (hlt : pos < stop) (hstop : stop < 2 ^ 63)
    (hle : start ≤ pos)
    (hnext : s.nextEntryOffset (L.visitor nodeStorage entryStorage i) stop =
      some (L.bound (i + 1), w)) :
    s.readLoop (fuel + 1) (L.visitor nodeStorage entryStorage i) buffer (pos - start) pos stop =
      (s.decryptPiece (entryAt L i) buffer (pos - start) (pieceEnd L i stop - pos)
        (pos - (entryAt L i).offset)).bind fun buffer =>
          s.readLoop fuel w buffer (pieceEnd L i stop - start) (pieceEnd L i stop) stop := by
  have hend := lt_pieceEnd hi hlt
  have hendStop : pieceEnd L i stop ≤ stop := pieceEnd_le
  have hbelow := hi.below
  have hsize : toUsize (min ((stop : ℤ) - pos)
      (L.bound (i + 1) - (entryAt L i).offset - (pos - (entryAt L i).offset))) =
        pieceEnd L i stop - pos := by
    have hmin : min ((stop : ℤ) - pos)
        (L.bound (i + 1) - (entryAt L i).offset - (pos - (entryAt L i).offset)) =
          (pieceEnd L i stop - pos : ℕ) := by
      rw [pieceEnd] at hend ⊢
      omega
    rw [hmin, toUsize_eq (by omega)]
  rw [readLoop, if_pos (Int.ofNat_lt.mpr hlt), getEntry_visitor h hentry hi.lt, hnext]
  dsimp only [bind, Option.bind]
  have hcur : pos - start + (pieceEnd L i stop - pos) = pieceEnd L i stop - start := by omega
  have hpos : (pos : ℤ) + (pieceEnd L i stop - pos : ℕ) = pieceEnd L i stop := by omega
  have hfits : ¬pieceEnd L i stop - start ≥ 2 ^ 64 := by omega
  rw [hsize, if_neg (by omega), toI64_eq (by omega), hpos, hcur]
  simp only [if_neg hfits]

end Rounds

/-! ### The whole loop -/

/-- What has been made of the positions from one on. -/
structure Decrypted (aes : Aes) (s : AesCtrCounterExtendedStorage) (L : Layout)
    (badSet : ℕ → Prop) (start pos stop : ℕ) (buffer buffer' : List UInt8) : Prop where
  length : buffer'.length = buffer.length
  before : ∀ k, k < pos - start → buffer'[k]? = buffer[k]?
  passable : ∀ j, Meets L j pos stop → Passable L badSet s.counterOffset start j
  byte : ∀ j q : ℕ, pos ≤ q → q < stop → L.Covers j q → buffer'[q - start]? =
    buffer[q - start]?.map (· ^^^ pad aes s (entryAt L j) (pieceStart L j start)
      (q - pieceStart L j start))

theorem Decrypted.refl (hnone : ∀ j, ¬Meets L j pos stop) :
    Decrypted aes s L badSet start pos stop buffer buffer where
  length := rfl
  before _ _ := rfl
  passable j hj := absurd hj (hnone j)
  byte j q hq hstop hj := absurd ⟨q, hq, hstop, hj⟩ (hnone j)

theorem Decrypted.step {piece : List UInt8} (h : L.Ordered)
    (hdec : s.decryptor = some (softwareDecryptor aes)) (hi : L.Covers i pos)
    (hstart : pos = pieceStart L i start) (hlt : pos < stop)
    (hnext : i + 1 < L.entries.length → ¬badSet ((i + 1) / L.perSet))
    (hpiece : s.decryptPiece (entryAt L i) buffer (pos - start) (pieceEnd L i stop - pos)
      (pos - (entryAt L i).offset) = some piece)
    (hrest : Decrypted aes s L badSet start (pieceEnd L i stop) stop piece buffer') :
    Decrypted aes s L badSet start pos stop buffer buffer' := by
  obtain ⟨hcounter, hlength, hbytes⟩ := decryptPiece_some hdec hpiece
  have hend := lt_pieceEnd hi hlt
  have hle : start ≤ pos := hstart ▸ Nat.le_max_left _ _
  have hsame : ∀ {j q : ℕ}, pos ≤ q → q < pieceEnd L i stop → L.Covers j q → j = i := by
    intro j q hq hqend hj
    have hpos : (pos : ℤ) ≤ q := Int.ofNat_le.mpr hq
    have hiq : L.Covers i q := by
      refine ⟨hi.lt, hi.le.trans hpos, ?_⟩
      rw [pieceEnd] at hqend
      omega
    exact le_antisymm (covers_le h hj hiq le_rfl) (covers_le h hiq hj le_rfl)
  refine ⟨hrest.length.trans hlength, fun k hk => ?_, ?_, fun j q hq hqstop hj => ?_⟩
  · rw [hrest.before k (by omega), hbytes, if_neg (by omega)]
  · rintro j ⟨q, hq, hqstop, hj⟩
    rcases Nat.lt_or_ge q (pieceEnd L i stop) with hqend | hqend
    · obtain rfl := hsame hq hqend hj
      exact ⟨hnext, hstart ▸ hcounter⟩
    · exact hrest.passable j ⟨q, hqend, hqstop, hj⟩
  · rcases Nat.lt_or_ge q (pieceEnd L i stop) with hqend | hqend
    · obtain rfl := hsame hq hqend hj
      rw [hrest.before _ (by omega), hbytes, if_pos (by omega), ← hstart,
        Nat.sub_sub_sub_cancel_right hle]
    · rw [hrest.byte j q hqend hqstop hj, hbytes, if_neg (by omega)]

theorem readLoop_stop {v : Visitor} {cur : ℤ}
    (hrun : s.readLoop fuel v buffer at' cur cur = some buffer') : buffer = buffer' := by
  cases fuel with
  | zero => cases hrun
  | succ fuel =>
    rw [readLoop, if_neg (lt_irrefl cur)] at hrun
    exact Option.some.inj hrun

section Loop

variable (h : L.Ordered) (hentry : L.entrySize = entrySize)
  (htable : s.table = L.tree nodeStorage entryStorage)

include h hentry htable

/-- Behind the last entry the loop breaks. -/
theorem readLoop_last (hi : i + 1 = L.entries.length) (hpos : (pos : ℤ) = L.bound (i + 1))
    (hlt : pos < stop) :
    s.readLoop (fuel + 1) (L.visitor nodeStorage entryStorage i) buffer at' pos stop =
      some buffer := by
  have hsize : toUsize (min ((stop : ℤ) - pos)
      (L.bound (i + 1) - (entryAt L i).offset - (pos - (entryAt L i).offset))) = 0 := by
    rw [show min ((stop : ℤ) - pos)
      (L.bound (i + 1) - (entryAt L i).offset - (pos - (entryAt L i).offset)) = (0 : ℕ) by omega,
      toUsize_eq (by decide)]
  rw [readLoop, if_pos (Int.ofNat_lt.mpr hlt), getEntry_visitor h hentry (by omega),
    nextEntryOffset_last h hi htable]
  dsimp only [bind, Option.bind]
  rw [hsize, if_pos rfl]

omit htable hentry in
theorem not_meets_end (hi : i + 1 = L.entries.length) (hpos : (pos : ℤ) = L.bound (i + 1)) :
    ¬Meets L j pos stop := by
  rintro ⟨q, hq, -, hj⟩
  have hle := Layout.bound_le h (show j + 1 ≤ i + 1 by have := hj.lt; omega)
  have hbelow := hj.below
  omega

variable (hstored : L.Stored badSet badNode nodeStorage entryStorage)
  (hdec : s.decryptor = some (softwareDecryptor aes)) (hstop : stop < 2 ^ 63)

include hstored hdec hstop

/-- What a loop that ends has made of the entries. -/
theorem readLoop_some (fuel : ℕ) {i pos : ℕ} {buffer : List UInt8} (hi : L.Covers i pos)
    (hset : ¬badSet (i / L.perSet)) (hstart : pos = pieceStart L i start) (hlt : pos < stop)
    (hrun : s.readLoop fuel (L.visitor nodeStorage entryStorage i) buffer (pos - start) pos stop =
      some buffer') : Decrypted aes s L badSet start pos stop buffer buffer' := by
  induction fuel generalizing i pos buffer with
  | zero => cases hrun
  | succ fuel ih =>
    have hle : start ≤ pos := hstart ▸ Nat.le_max_left _ _
    rcases Nat.lt_or_ge (i + 1) L.entries.length with hmore | hlast
    case inl =>
      by_cases hgood : badSet ((i + 1) / L.perSet)
      · rw [readLoop_none h hentry (Int.ofNat_lt.mpr hlt) hi.lt rfl
          (nextEntryOffset_bad h hstored hmore hset hgood)] at hrun
        cases hrun
      rw [readLoop_step h hentry hi hlt hstop hle
        (nextEntryOffset_next h hentry hstored hmore hgood)] at hrun
      obtain ⟨piece, hpiece, hrest⟩ := Option.bind_eq_some_iff.mp hrun
      refine .step h hdec hi hstart hlt (fun _ => hgood) hpiece ?_
      rcases (show pieceEnd L i stop ≤ stop from pieceEnd_le).lt_or_eq with hend | hend
      · have hbound := pieceEnd_eq h hi.lt hend
        have hend' := lt_pieceEnd hi hlt
        exact ih (covers_next h hmore hbound) hgood
          (pieceStart_next hmore hbound (by omega)).symm hend hrest
      · rw [hend] at hrest ⊢
        rw [← readLoop_stop hrest]
        exact .refl fun j ⟨q, hq, hqstop, _⟩ => absurd hqstop (not_lt.mpr hq)
    case inr =>
      have hlast : i + 1 = L.entries.length := by have := hi.lt; omega
      rw [readLoop_step h hentry hi hlt hstop hle (nextEntryOffset_last h hlast htable)] at hrun
      obtain ⟨piece, hpiece, hrest⟩ := Option.bind_eq_some_iff.mp hrun
      refine .step h hdec hi hstart hlt (fun hmore => absurd hmore (by omega)) hpiece ?_
      rcases (show pieceEnd L i stop ≤ stop from pieceEnd_le).lt_or_eq with hend | hend
      · have hbound := pieceEnd_eq h hi.lt hend
        cases fuel with
        | zero => cases hrest
        | succ fuel =>
          rw [readLoop_last h hentry htable hlast hbound hend] at hrest
          obtain rfl := Option.some.inj hrest
          exact .refl fun j => not_meets_end h hlast hbound
      · rw [hend] at hrest ⊢
        rw [← readLoop_stop hrest]
        exact .refl fun j ⟨q, hq, hqstop, _⟩ => absurd hqstop (not_lt.mpr hq)

/-- The loop ends when it gets past all entries of the range. -/
theorem readLoop_isSome (fuel : ℕ) {i pos : ℕ} {buffer : List UInt8} (hi : L.Covers i pos)
    (hstart : pos = pieceStart L i start) (hlt : pos < stop) (hfuel : stop - pos < fuel)
    (hlength : stop - start ≤ buffer.length)
    (hpass : ∀ j, Meets L j pos stop → Passable L badSet s.counterOffset start j) :
    ∃ buffer', s.readLoop fuel (L.visitor nodeStorage entryStorage i) buffer (pos - start) pos
      stop = some buffer' := by
  induction fuel generalizing i pos buffer with
  | zero => exact absurd hfuel (Nat.not_lt_zero _)
  | succ fuel ih =>
    obtain ⟨hnext, hcounter⟩ := hpass i ⟨pos, le_rfl, hlt, hi⟩
    have hle : start ≤ pos := hstart ▸ Nat.le_max_left _ _
    have hend' := lt_pieceEnd hi hlt
    have hendStop : pieceEnd L i stop ≤ stop := pieceEnd_le
    obtain ⟨piece, hpiece⟩ : ∃ piece, s.decryptPiece (entryAt L i) buffer (pos - start)
        (pieceEnd L i stop - pos) (pos - (entryAt L i).offset) = some piece :=
      decryptPiece_isSome hdec (hstart ▸ hcounter) (by omega)
    have hlength' := (decryptPiece_some hdec hpiece).2.1
    rcases Nat.lt_or_ge (i + 1) L.entries.length with hmore | hlast
    case inl =>
      rw [readLoop_step h hentry hi hlt hstop hle
        (nextEntryOffset_next h hentry hstored hmore (hnext hmore)), hpiece]
      rcases hendStop.lt_or_eq with hend | hend
      · have hbound := pieceEnd_eq h hi.lt hend
        exact ih (covers_next h hmore hbound) (pieceStart_next hmore hbound (by omega)).symm hend
          (by omega) (by omega) fun j ⟨q, hq, hqstop, hj⟩ => hpass j ⟨q, by omega, hqstop, hj⟩
      · obtain ⟨fuel, rfl⟩ := Nat.exists_eq_succ_of_ne_zero (show fuel ≠ 0 by omega)
        rw [hend]
        exact ⟨piece, if_neg (lt_irrefl _)⟩
    case inr =>
      have hlast : i + 1 = L.entries.length := by have := hi.lt; omega
      obtain ⟨fuel, rfl⟩ := Nat.exists_eq_succ_of_ne_zero (show fuel ≠ 0 by omega)
      rw [readLoop_step h hentry hi hlt hstop hle (nextEntryOffset_last h hlast htable), hpiece]
      rcases hendStop.lt_or_eq with hend | hend
      · exact ⟨piece, readLoop_last h hentry htable hlast (pieceEnd_eq h hi.lt hend) hend⟩
      · rw [hend]
        exact ⟨piece, if_neg (lt_irrefl _)⟩

end Loop

/-! ### The read -/

/-- The byte that an entry makes of the one at a position. -/
def plainByte (aes : Aes) (s : AesCtrCounterExtendedStorage) (entry : Entry) (pos : ℕ)
    (raw : UInt8) : UInt8 :=
  if entry.encryptionValue = encrypted then
    raw ^^^ streamByte aes s.key (s.upperIv entry) (s.counterOffset + pos).toNat
  else raw

/-- The read returns, and each byte that it reports and that an entry covers belongs to a part of
the table that can be decoded, and is decrypted with that entry. -/
def ReadsTable (aes : Aes) (s : AesCtrCounterExtendedStorage) (L : Layout)
    (badSet badNode : ℕ → Prop) (data : VfsFile) (buffer : List UInt8) (start : ℕ) : Prop :=
  ∃ n buffer', s.read buffer start = some (n, buffer') ∧
    ∀ k i, k < n → L.Covers i (start + k : ℕ) → L.Intact badSet badNode (i / L.perSet) ∧
      buffer'[k]? = data.data[start + k]?.map (plainByte aes s (entryAt L i) (start + k))

/-- The read gets to the entry through the table, past it, and begins its stream at a block. -/
structure Readable (L : Layout) (badSet badNode : ℕ → Prop) (counterOffset : ℤ) (start i : ℕ) :
    Prop where
  intact : L.Intact badSet badNode (i / L.perSet)
  next : L.virt 0 ≤ start → i + 1 < L.entries.length → ¬badSet ((i + 1) / L.perSet)
  counter : (entryAt L i).encryptionValue = encrypted → L.virt 0 ≤ start ∧
    CounterFits counterOffset (pieceStart L i start) ∧
      (counterOffset + pieceStart L i start) % blockSize = 0

section Read

variable {data : VfsFile} {code : ResultCode} {v : Visitor} {n : ℕ}

section Whole

variable (hstorage : s.dataStorage = some data) (hlt : data.data.length < 2 ^ 63)
  (hne : buffer ≠ []) (hrange : start + buffer.length ≤ data.data.length)

omit s in
theorem length_raw (hrange : start + buffer.length ≤ data.data.length) :
    (data.readInto buffer buffer.length start).length = buffer.length := by
  rw [VfsFile.readInto, VfsFile.read, List.length_append, List.length_drop, length_block hrange]
  omega

omit s in
theorem getElem?_raw (hrange : start + buffer.length ≤ data.data.length) {k : ℕ}
    (hk : k < buffer.length) :
    (data.readInto buffer buffer.length start)[k]? = data.data[start + k]? := by
  rw [VfsFile.readInto, VfsFile.read,
    List.getElem?_append_left (hk.trans_eq (length_block hrange).symm), List.getElem?_take_of_lt hk,
    List.getElem?_drop]

include hstorage hlt hne hrange

theorem read_unfound (hfind : s.table.find start = .error (.result code)) :
    s.read buffer start =
      some (buffer.length, data.readInto buffer buffer.length start) := by
  have hpos := List.length_pos_iff.mpr hne
  have hread : (data.read buffer.length start).length = buffer.length := length_block hrange
  rw [read, if_neg hpos.ne', hstorage]
  dsimp only
  rw [hread, if_neg hpos.ne', toI64_eq (by omega), hfind]

theorem read_found (hfind : s.table.find start = .ok v) :
    s.read buffer start =
      (s.readLoop (buffer.length + 1) v (data.readInto buffer buffer.length start) (start - start)
        start (start + buffer.length : ℕ)).map fun buffer' => (buffer.length, buffer') := by
  have hpos := List.length_pos_iff.mpr hne
  have hread : (data.read buffer.length start).length = buffer.length := length_block hrange
  rw [read, if_neg hpos.ne', hstorage]
  dsimp only
  rw [hread, if_neg hpos.ne', toI64_eq (by omega), toI64_eq (by omega), hfind, Nat.sub_self]

end Whole

theorem pad_aligned {c : ℕ} (hfits : CounterFits s.counterOffset c)
    (hzero : (s.counterOffset + c) % blockSize = 0) (hpos : c ≤ pos) (hlt : pos < 2 ^ 63)
    (raw : UInt8) (henc : entry.encryptionValue = encrypted) :
    raw ^^^ pad aes s entry c (pos - c) = plainByte aes s entry pos raw := by
  obtain ⟨hnonneg, hbelow⟩ := hfits
  have hmod : (s.counterOffset + c).toNat % blockSize = 0 := by
    rw [blockSize] at hzero ⊢
    omega
  rw [pad, plainByte, if_pos henc, if_pos henc, keystream_aligned hmod (by omega),
    show (s.counterOffset + c).toNat + (pos - c) = (s.counterOffset + pos).toNat by omega]

theorem pieceStart_eq (hi : L.Covers i start) : start = pieceStart L i start := by
  have hle := hi.le
  rw [pieceStart]
  omega

theorem start_zero (h : L.Ordered) : L.start 0 = L.virt 0 := by
  rw [Layout.start_eq_bound h, Nat.zero_mul, Layout.bound_entry h.nonempty]

theorem covers_bounds (h : L.Ordered) (hi : L.Covers i pos) :
    L.virt 0 ≤ pos ∧ (pos : ℤ) < L.endOffset := by
  have hzero := Layout.bound_le h (Nat.zero_le i)
  have hend := Layout.bound_le h (show i + 1 ≤ L.entries.length from hi.lt)
  rw [Layout.bound_entry hi.lt, Layout.bound_entry h.nonempty] at hzero
  rw [Layout.bound, Layout.bound, if_neg (lt_irrefl _)] at hend
  have hbelow := hi.below
  rw [Layout.bound] at hbelow
  exact ⟨hzero.trans hi.le, hbelow.trans_le hend⟩

section Table

variable (h : L.Ordered) (hentry : L.entrySize = entrySize)
  (hstored : L.Stored badSet badNode nodeStorage entryStorage)
  (htable : s.table = L.tree nodeStorage entryStorage)
  (hdec : s.decryptor = some (softwareDecryptor aes)) (hstorage : s.dataStorage = some data)
  (hlt : data.data.length < 2 ^ 63) (hne : buffer ≠ [])
  (hrange : start + buffer.length ≤ data.data.length)

include h hstored htable

theorem find_cases (start : ℕ) :
    (∃ i, L.Covers i start ∧ L.Intact badSet badNode (i / L.perSet) ∧
      s.table.find start = .ok (L.visitor nodeStorage entryStorage i)) ∨
    (∃ code, s.table.find start = .error (.result code)) ∧
      ∀ i, L.Covers i start → ¬L.Intact badSet badNode (i / L.perSet) := by
  rw [htable]
  by_cases hin : L.virt 0 ≤ start ∧ (start : ℤ) < L.endOffset
  case neg =>
    refine .inr ⟨Layout.find_outside h hstored ?_, fun i hi => absurd (covers_bounds h hi) hin⟩
    rw [start_zero h]
    omega
  obtain ⟨i, hi⟩ := Layout.exists_covers h ((start_zero h).trans_le hin.1) hin.2
  by_cases hintact : L.Intact badSet badNode (i / L.perSet)
  · exact .inl ⟨i, hi, hintact, Layout.find_eq h hstored hi hintact⟩
  · refine .inr ⟨Layout.find_damaged h hstored hi hintact, fun j hj => ?_⟩
    rwa [le_antisymm (covers_le h hj hi le_rfl) (covers_le h hi hj le_rfl)]

include hentry hdec hstorage hlt hne hrange

/-- The storage reports all bytes of the range when it returns. What it has made of them is either
what the loop has, or what the storage below holds. -/
theorem read_some (hrun : s.read buffer start = some (n, buffer')) :
    n = buffer.length ∧
      ((∃ i, L.Covers i start ∧ L.Intact badSet badNode (i / L.perSet)) ∧
        Decrypted aes s L badSet start start (start + buffer.length)
          (data.readInto buffer buffer.length start) buffer' ∨
      (∀ i, L.Covers i start → ¬L.Intact badSet badNode (i / L.perSet)) ∧
        buffer' = data.readInto buffer buffer.length start) := by
  have hpos := List.length_pos_iff.mpr hne
  obtain ⟨i, hi, hintact, hfind⟩ | ⟨⟨code, hfind⟩, hnone⟩ := find_cases h hstored htable start
  · rw [read_found hstorage hlt hne hrange hfind, Option.map_eq_some_iff] at hrun
    obtain ⟨bytes, hloop, hrun⟩ := hrun
    rw [Prod.mk.injEq] at hrun
    obtain ⟨rfl, rfl⟩ := hrun
    exact ⟨rfl, .inl ⟨⟨i, hi, hintact⟩, readLoop_some h hentry htable hstored hdec (by omega) _ hi
      hintact.set (pieceStart_eq hi) (by omega) hloop⟩⟩
  · rw [read_unfound hstorage hlt hne hrange hfind, Option.some_inj, Prod.mk.injEq] at hrun
    obtain ⟨rfl, rfl⟩ := hrun
    exact ⟨rfl, .inr ⟨hnone, rfl⟩⟩

theorem readsTable_of_readable (hreadable : ∀ i, Meets L i start (start + buffer.length) →
    Readable L badSet badNode s.counterOffset start i) :
    ReadsTable aes s L badSet badNode data buffer start := by
  have hpos := List.length_pos_iff.mpr hne
  obtain ⟨i, hi, hintact, hfind⟩ | ⟨⟨code, hfind⟩, hnone⟩ := find_cases h hstored htable start
  · have hin := (covers_bounds h hi).1
    obtain ⟨buffer', hloop⟩ : ∃ buffer', s.readLoop (buffer.length + 1)
        (L.visitor nodeStorage entryStorage i) (data.readInto buffer buffer.length start)
          (start - start) start (start + buffer.length : ℕ) = some buffer' :=
      readLoop_isSome h hentry htable hstored hdec (by omega) _ hi (pieceStart_eq hi) (by omega)
        (by omega) (by rw [length_raw hrange]; omega) fun j hj =>
          ⟨(hreadable j hj).next hin, fun henc => ((hreadable j hj).counter henc).2.1⟩
    have hdone := readLoop_some h hentry htable hstored hdec (by omega) _ hi hintact.set
      (pieceStart_eq hi) (by omega) hloop
    refine ⟨_, buffer', by rw [read_found hstorage hlt hne hrange hfind, hloop]; rfl,
      fun k j hk hj => ?_⟩
    have hread := hreadable j ⟨start + k, Nat.le_add_right _ _, by omega, hj⟩
    have hbyte := hdone.byte j (start + k) (Nat.le_add_right _ _) (by omega) hj
    rw [Nat.add_sub_cancel_left, getElem?_raw hrange hk] at hbyte
    refine ⟨hread.intact, hbyte.trans (congrArg (Option.map · _) (funext fun raw => ?_))⟩
    by_cases henc : (entryAt L j).encryptionValue = encrypted
    · obtain ⟨-, hfits, hzero⟩ := hread.counter henc
      have hle := hj.le
      exact pad_aligned hfits hzero (by rw [pieceStart]; omega) (by omega) raw henc
    · rw [pad, plainByte, if_neg henc, if_neg henc, UInt8.xor_zero]
  · refine ⟨_, _, read_unfound hstorage hlt hne hrange hfind, fun k j hk hj => ?_⟩
    have hread := hreadable j ⟨start + k, Nat.le_add_right _ _, by omega, hj⟩
    refine ⟨hread.intact, ?_⟩
    by_cases henc : (entryAt L j).encryptionValue = encrypted
    · have hin := (hread.counter henc).1
      have hend := (covers_bounds h hj).2
      obtain ⟨i, hi⟩ := Layout.exists_covers h ((start_zero h).trans_le hin) (by omega)
      exact absurd (hreadable i ⟨start, le_rfl, by omega, hi⟩).intact (hnone i hi)
    · have hplain : plainByte aes s (entryAt L j) (start + k) = id :=
        funext fun raw => if_neg henc
      rw [getElem?_raw hrange hk, hplain, Option.map_id, id]

theorem intact_of_reads (hreads : ReadsTable aes s L badSet badNode data buffer start)
    (hi : Meets L i start (start + buffer.length)) : L.Intact badSet badNode (i / L.perSet) := by
  obtain ⟨n, buffer', hrun, hbytes⟩ := hreads
  obtain ⟨pos, hle, hpos, hi⟩ := hi
  have hn := (read_some h hentry hstored htable hdec hstorage hlt hne hrange hrun).1
  exact (hbytes (pos - start) i (by omega) (by rwa [Nat.add_sub_cancel' hle])).1

theorem passable_of_reads (hreads : ReadsTable aes s L badSet badNode data buffer start)
    (hin : L.virt 0 ≤ start) (hi : Meets L i start (start + buffer.length)) :
    Passable L badSet s.counterOffset start i ∧
      ∀ pos, pos = pieceStart L i start → (entryAt L i).encryptionValue = encrypted →
        keystream aes s.key (ivBlock (s.upperIv (entryAt L i)).toNat
          ((s.counterOffset + pos).toNat / blockSize)) 0 =
            streamByte aes s.key (s.upperIv (entryAt L i)) (s.counterOffset + pos).toNat := by
  have hpos := List.length_pos_iff.mpr hne
  have hintact : ∀ {j}, L.Covers j start → L.Intact badSet badNode (j / L.perSet) := fun hj =>
    intact_of_reads h hentry hstored htable hdec hstorage hlt hne hrange hreads
      ⟨start, le_rfl, by omega, hj⟩
  obtain ⟨n, buffer', hrun, hbytes⟩ := hreads
  obtain ⟨rfl, ⟨-, hdone⟩ | ⟨hnone, -⟩⟩ :=
    read_some h hentry hstored htable hdec hstorage hlt hne hrange hrun
  case inr =>
    obtain ⟨q, hq, -, hi⟩ := hi
    have hend := (covers_bounds h hi).2
    obtain ⟨j, hj⟩ := Layout.exists_covers h ((start_zero h).trans_le hin) (by omega)
    exact absurd (hintact hj) (hnone j hj)
  refine ⟨hdone.passable i hi, ?_⟩
  rintro _ rfl henc
  obtain ⟨q, hq, hqlt, hi⟩ := hi
  have hle := hi.le
  have hbelow := hi.below
  have hstart : start ≤ pieceStart L i start := Nat.le_max_left _ _
  have hpiece : pieceStart L i start ≤ q := by
    rw [pieceStart]
    omega
  have hcovers : L.Covers i (pieceStart L i start) :=
    ⟨hi.lt, by rw [pieceStart]; omega, by omega⟩
  have hbyte := hdone.byte i _ hstart (by omega) hcovers
  have hplain := (hbytes (pieceStart L i start - start) i (by omega)
    (by rwa [Nat.add_sub_cancel' hstart])).2
  have hsome : pieceStart L i start < data.data.length := by omega
  rw [getElem?_raw hrange (by omega), Nat.add_sub_cancel' hstart, List.getElem?_eq_getElem hsome,
    Option.map_some] at hbyte
  rw [hbyte, Nat.add_sub_cancel' hstart, List.getElem?_eq_getElem hsome, Option.map_some,
    Option.some_inj, pad, plainByte, if_pos henc, if_pos henc, UInt8.xor_right_inj,
    Nat.sub_self] at hplain
  exact hplain

/-- In front of the table everything is returned as it is. -/
theorem streamByte_of_reads (hreads : ReadsTable aes s L badSet badNode data buffer start)
    (hout : start < L.virt 0) (hle : start ≤ pos) (hpos : pos < start + buffer.length)
    (hi : L.Covers i pos) (henc : (entryAt L i).encryptionValue = encrypted) :
    streamByte aes s.key (s.upperIv (entryAt L i)) (s.counterOffset + pos).toNat = 0 := by
  obtain ⟨n, buffer', hrun, hbytes⟩ := hreads
  obtain ⟨rfl, ⟨⟨j, hj, -⟩, -⟩ | ⟨-, rfl⟩⟩ :=
    read_some h hentry hstored htable hdec hstorage hlt hne hrange hrun
  case inl => exact absurd (covers_bounds h hj).1 (not_le.mpr hout)
  have hplain := (hbytes (pos - start) i (by omega) (by rwa [Nat.add_sub_cancel' hle])).2
  have hsome : pos < data.data.length := by omega
  rw [getElem?_raw hrange (by omega), Nat.add_sub_cancel' hle, List.getElem?_eq_getElem hsome,
    Option.map_some, Option.some_inj, plainByte, if_pos henc] at hplain
  have hxor : data.data[pos] ^^^ 0 = data.data[pos] ^^^
      streamByte aes s.key (s.upperIv (entryAt L i)) (s.counterOffset + pos).toNat := by
    rwa [UInt8.xor_zero]
  exact (UInt8.xor_right_inj _).mp hxor.symm

end Table

end Read

theorem initialize_fields {key : List UInt8} {secureValue : UInt32} {counterOffset : ℤ}
    {data : VfsFile} {decryptor : IDecryptor} (h : L.Ordered) (hfirst : L.HoldsFirst nodeStorage)
    (hnode : L.nodeSize = nodeSize) (hentry : L.entrySize = entrySize)
    (hinit : initializeFrom key secureValue counterOffset data nodeStorage entryStorage
      L.entries.length decryptor = .ok s) :
    s = ⟨L.tree nodeStorage entryStorage, some data,
      key.take keySize ++ List.replicate (keySize - key.length) 0, secureValue, counterOffset,
      some decryptor⟩ := by
  rw [initializeFrom, ← hnode, ← hentry] at hinit
  cases htable : BucketTree.initializeFrom nodeStorage entryStorage L.nodeSize L.entrySize
      L.entries.length with
  | error code =>
    rw [htable] at hinit
    cases hinit
  | ok table =>
    rw [htable] at hinit
    obtain rfl := Layout.initialize_tree h hfirst htable
    exact (Except.ok.inj hinit).symm

def tableEntry (offset encryptionValue generation : UInt8) : List UInt8 :=
  [offset, 0, 0, 0, 0, 0, 0, 0, encryptionValue, 0, 0, 0, generation, 0, 0, 0]

/-- A block that is encrypted, and one that is not. -/
def mixed : Layout where
  nodeSize := nodeSize
  entrySize := entrySize
  entries := [tableEntry 0 0 5, tableEntry 16 1 6]
  endOffset := 32
  nodeCount := 0

def mixedNode : VfsFile :=
  ⟨[], [0, 0, 0, 0, 1, 0, 0, 0, 32, 0, 0, 0, 0, 0, 0, 0] ++ List.replicate 16368 0⟩

def mixedSets : VfsFile :=
  ⟨[], [0, 0, 0, 0, 2, 0, 0, 0, 32, 0, 0, 0, 0, 0, 0, 0] ++ tableEntry 0 0 5 ++ tableEntry 16 1 6 ++
    List.replicate 16336 0⟩

def mixedData : VfsFile := ⟨[], List.replicate 32 5⟩

def mixedStorage (entryStorage : VfsFile) (aes : Aes) : AesCtrCounterExtendedStorage :=
  ⟨mixed.tree mixedNode entryStorage, some mixedData, List.replicate 16 3, 7, 0,
    some (softwareDecryptor aes)⟩

theorem mixedData_lt : mixedData.data.length < 2 ^ 63 := by
  rw [mixedData, List.length_replicate]
  omega

theorem mixed_ordered : mixed.Ordered where
  entrySize_ge := by decide
  nodeSize_ge := by decide
  nonempty := by decide
  length_eq := by decide
  nonneg := by decide
  ascending i j hij hj := by
    have hall : ∀ j, j < 2 → ∀ i, i < j → mixed.virt i < mixed.virt j := by decide
    exact hall j hj i hij
  below := by decide
  oneLevel _ := rfl
  twoLevels := by decide

theorem mixed_first : mixed.HoldsFirst mixedNode where
  fits := by
    simp only [mixed, mixedNode, List.length_append, List.length_replicate]
    decide
  oneLevel _ := ⟨by decide, by decide, by decide, by decide⟩
  twoLevels htwo := absurd htwo (Nat.lt_irrefl 0)
  tail := by decide

theorem mixed_holds : mixed.Holds mixedNode mixedSets where
  first := mixed_first
  setFits k hk _ := by
    have hk : k < 1 := hk
    simp only [mixed, mixedSets, List.length_append, List.length_replicate, tableEntry,
      List.length_cons, List.length_nil, nodeSize]
    omega
  sets k hk _ := by
    have hk : k < 1 := hk
    obtain rfl : k = 0 := by omega
    exact ⟨by decide, by decide, by decide, by decide +kernel⟩
  badSets _ _ := False.elim
  nodeFits := by decide
  nodes _ hi := absurd hi (Nat.not_lt_zero _)
  badNodes _ _ := False.elim

theorem mixed_made (entryStorage : VfsFile) (aes : Aes) :
    initializeFrom (List.replicate 16 3) 7 0 mixedData mixedNode entryStorage mixed.entries.length
      (softwareDecryptor aes) = .ok (mixedStorage entryStorage aes) := by
  have hsizes : SizesOk mixed.nodeSize mixed.entrySize := by decide +kernel
  have hcount : mixed.entries.length + mixed.perSet < 2 ^ 31 := by decide +kernel
  have htable : BucketTree.initializeFrom mixedNode entryStorage mixed.nodeSize mixed.entrySize
      mixed.entries.length = .ok (mixed.tree mixedNode entryStorage) :=
    Layout.initialize_eq mixed_ordered mixed_first hsizes hcount
  rw [initializeFrom, show nodeSize = mixed.nodeSize from rfl,
    show entrySize = mixed.entrySize from rfl, htable]
  rfl

def noSets : VfsFile := ⟨[], []⟩

/-- Bytes that are not there are read as zeros. -/
theorem noSets_header (n pos m : ℕ) :
    nodeHeader (noSets.readInto (List.replicate (16 + m) 0) n pos) = ⟨0, 0, 0⟩ := by
  have hread : noSets.readInto (List.replicate (16 + m) 0) n pos =
      List.replicate 16 0 ++ List.replicate m 0 := by
    rw [VfsFile.readInto, VfsFile.read, noSets, List.drop_nil, List.take_nil, List.length_nil,
      List.drop_zero, List.nil_append, List.replicate_add]
  have hindex : ((List.replicate 16 (0 : UInt8) ++ List.replicate m 0).drop 0).take 4 =
      [0, 0, 0, 0] := rfl
  have hcount : ((List.replicate 16 (0 : UInt8) ++ List.replicate m 0).drop 4).take 4 =
      [0, 0, 0, 0] := rfl
  have hoffset : ((List.replicate 16 (0 : UInt8) ++ List.replicate m 0).drop 8).take 8 =
      [0, 0, 0, 0, 0, 0, 0, 0] := rfl
  rw [hread, nodeHeader, i32At, i32At, i64At, hindex, hcount, hoffset]
  decide

theorem mixed_rejected :
    mixed.Stored (fun _ => True) (fun _ => False) mixedNode noSets where
  first := mixed_first
  setFits _ _ hgood := absurd trivial hgood
  sets _ _ hgood := absurd trivial hgood
  badSets k hk _ m hm := by
    have hk : k < 1 := hk
    obtain rfl : k = 0 := by omega
    obtain ⟨m, rfl⟩ := Nat.exists_eq_add_of_le hm
    rw [nodeHeaderSize, noSets_header]
    decide
  nodeFits := by decide
  nodes _ hi := absurd hi (Nat.not_lt_zero _)
  badNodes _ _ := False.elim

end AesCtrCounterExtendedStorage

end Ruzu.FileSys
