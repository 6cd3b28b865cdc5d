import Mathlib
import Ruzu.FileSys.AesUtil
import Ruzu.FileSys.BaseStorage

/-!
# Encrypted storages

`aes_ctr_storage.rs` and `aes_xts_storage.rs`: layers that decrypt what they
read from the storage below. A byte of the plain data depends on its position
alone, so a range can be read in any pieces.
-/

set_option autoImplicit false

namespace Ruzu.FileSys

/-! ### The counter mode -/

structure AesCtrStorage where
  baseStorage : BaseStorage
  key : List UInt8
  iv : List UInt8
  key_length : key.length = blockSize
  iv_length : iv.length = blockSize

namespace AesCtrStorage

/-- The size and the buffer; `none` for a range that is not of blocks. -/
def readAt (aes : Aes) (s : AesCtrStorage) (buffer : List UInt8) (offset : ℕ) :
    Option (ℕ × List UInt8) :=
  let size := buffer.length
  if size = 0 then some (0, buffer)
  else if offset % blockSize ≠ 0 ∨ size % blockSize ≠ 0 then none
  else
    let readLen := min size (s.baseStorage.size - offset)
    let (buffer, _) := s.baseStorage.read buffer size offset
    let ctr := addCounter s.iv (offset / blockSize)
    some (size, transcodeCtr aes s.key ctr (buffer.take readLen) ++ buffer.drop readLen)

def writeAt (aes : Aes) (s : AesCtrStorage) (buffer : List UInt8) (offset : ℕ) :
    Option (ℕ × AesCtrStorage) :=
  let size := buffer.length
  if size = 0 then some (0, s)
  else if offset % blockSize ≠ 0 ∨ size % blockSize ≠ 0 then none
  else
    let ctr := addCounter s.iv (offset / blockSize)
    let encrypted := transcodeCtr aes s.key ctr buffer
    some (size, { s with baseStorage := s.baseStorage.write encrypted size offset })

/-- A range that is not of blocks is read with the blocks around it. -/
def read (aes : Aes) (s : AesCtrStorage) (data : List UInt8) (length offset : ℕ) :
    Option (ℕ × List UInt8) :=
  let actualLen := min length data.length
  if actualLen = 0 then some (0, data)
  else if offset % blockSize = 0 ∧ actualLen % blockSize = 0 then
    (s.readAt aes (data.take actualLen) offset).map fun r => (r.1, r.2 ++ data.drop actualLen)
  else do
    let alignedOffset := offset / blockSize * blockSize
    let stop := offset + actualLen
    let alignedEnd := (stop + blockSize - 1) / blockSize * blockSize
    let (_, alignedBuf) ←
      s.readAt aes (List.replicate (alignedEnd - alignedOffset) 0) alignedOffset
    let data ← Image.copy data 0 alignedBuf (offset - alignedOffset) actualLen
    some (actualLen, data)

/-- The plain byte at a position. -/
def plain (aes : Aes) (s : AesCtrStorage) (p : ℕ) : Option UInt8 :=
  s.baseStorage.data[p]?.map (· ^^^ keystream aes s.key s.iv p)

variable {aes : Aes} {s : AesCtrStorage} {offset : ℕ}

theorem keystream_from (hoffset : offset % blockSize = 0) (i : ℕ) :
    keystream aes s.key (addCounter s.iv (offset / blockSize)) i =
      keystream aes s.key s.iv (offset + i) := by
  rw [addCounter_eq s.iv_length, keystream_add, Nat.mul_div_cancel' (Nat.dvd_of_mod_eq_zero hoffset)]

/-- What is there of a range of blocks is delivered as plain bytes. -/
theorem readAt_plain (aes : Aes) (s : AesCtrStorage) (buffer : List UInt8) (offset : ℕ)
    (hoffset : offset % blockSize = 0) (hsize : buffer.length % blockSize = 0) :
    ∃ buffer', s.readAt aes buffer offset = some (buffer.length, buffer') ∧
      buffer'.length = buffer.length ∧
        ∀ i < buffer.length, offset + i < s.baseStorage.size →
          buffer'[i]? = s.plain aes (offset + i) := by
  rw [readAt]
  dsimp only
  split
  case isTrue hzero =>
    exact ⟨buffer, by rw [hzero], rfl, fun i hi => absurd hi (by omega)⟩
  case isFalse hsome =>
    rw [if_neg (by omega)]
    have hread : (s.baseStorage.read buffer buffer.length offset).1.length = buffer.length :=
      BaseStorage.length_read le_rfl
    have htake : ((s.baseStorage.read buffer buffer.length offset).1.take
        (min buffer.length (s.baseStorage.size - offset))).length =
          min buffer.length (s.baseStorage.size - offset) := by
      rw [List.length_take, hread]
      omega
    refine ⟨_, rfl, ?_, fun i hi hin => ?_⟩
    · rw [List.length_append, length_transcodeCtr, htake, List.length_drop, hread]
      omega
    · have hlt : i < min buffer.length (s.baseStorage.size - offset) := by omega
      rw [List.getElem?_append_left (by rw [length_transcodeCtr, htake]; exact hlt),
        getElem?_transcodeCtr, List.getElem?_take_of_lt hlt, keystream_from hoffset, plain]
      refine congrArg _ ?_
      have hpiece : ((s.baseStorage.data.drop offset).take buffer.length).length =
          min buffer.length (s.baseStorage.size - offset) := by
        rw [List.length_take, List.length_drop, BaseStorage.size]
      rw [BaseStorage.read, List.getElem?_append_left (hlt.trans_eq hpiece.symm),
        List.getElem?_take_of_lt hi, List.getElem?_drop]

/-- A read of any range delivers its plain bytes. -/
theorem read_plain (aes : Aes) (s : AesCtrStorage) (data : List UInt8) (length offset : ℕ)
    (h : offset + min length data.length ≤ s.baseStorage.size) :
    ∃ data', s.read aes data length offset = some (min length data.length, data') ∧
      data'.length = data.length ∧
        ∀ i < min length data.length, data'[i]? = s.plain aes (offset + i) := by
  rw [read]
  dsimp only
  split
  case isTrue hzero =>
    exact ⟨data, by rw [hzero], rfl, fun i hi => absurd hi (by omega)⟩
  case isFalse hsome =>
    have htake : (data.take (min length data.length)).length = min length data.length := by
      rw [List.length_take]
      omega
    split
    case isTrue halign =>
      obtain ⟨buffer', hrun, hlength, hbytes⟩ :=
        readAt_plain aes s _ offset halign.1 (htake.symm ▸ halign.2)
      rw [htake] at hlength hbytes
      refine ⟨_, by rw [hrun, htake]; rfl, ?_, fun i hi => ?_⟩
      · rw [List.length_append, hlength, List.length_drop]
        omega
      exact (List.getElem?_append_left (hi.trans_eq hlength.symm)).trans
        (hbytes i hi (by omega))
    case isFalse =>
      simp only [blockSize]
      let first := offset / 16 * 16
      let stop := (offset + min length data.length + 16 - 1) / 16 * 16
      have hbuf : (List.replicate (stop - first) (0 : UInt8)).length = stop - first :=
        List.length_replicate
      have hmod : (List.replicate (stop - first) (0 : UInt8)).length % blockSize = 0 := by
        rw [hbuf, blockSize]
        omega
      obtain ⟨alignedBuf, hrun, hlength, hbytes⟩ :=
        readAt_plain aes s _ first (Nat.mul_mod_left _ _) hmod
      rw [hbuf] at hlength hbytes
      have hcopy : ∃ data', Image.copy data 0 alignedBuf (offset - first)
          (min length data.length) = some data' :=
        Image.copy_eq_some (by omega) (by omega)
      obtain ⟨data', hdata'⟩ := hcopy
      refine ⟨data', Option.bind_eq_some_iff.mpr ⟨_, hrun, Option.bind_eq_some_iff.mpr
        ⟨data', hdata', rfl⟩⟩, Image.length_copy hdata', fun i hi => ?_⟩
      rw [Image.getElem?_copy hdata', if_pos (by omega), hbytes _ (by omega) (by omega)]
      congr 1
      omega

/-- A write of blocks replaces their plain bytes and keeps the other ones. -/
theorem writeAt_plain (aes : Aes) (s : AesCtrStorage) (buffer : List UInt8) (offset : ℕ)
    (hoffset : offset % blockSize = 0) (hsize : buffer.length % blockSize = 0)
    (h : offset + buffer.length ≤ s.baseStorage.size) :
    ∃ s', s.writeAt aes buffer offset = some (buffer.length, s') ∧
      s'.baseStorage.size = s.baseStorage.size ∧
        ∀ p, s'.plain aes p =
          if offset ≤ p ∧ p < offset + buffer.length then buffer[p - offset]?
          else s.plain aes p := by
  rw [writeAt]
  dsimp only
  split
  case isTrue hzero =>
    exact ⟨s, by rw [hzero], rfl, fun p => by rw [if_neg (by omega)]⟩
  case isFalse hsome =>
    rw [if_neg (by omega)]
    have hlength := length_transcodeCtr aes s.key (addCounter s.iv (offset / blockSize)) buffer
    refine ⟨_, rfl, BaseStorage.size_write h hlength.ge, fun p => ?_⟩
    simp only [plain, BaseStorage.getElem?_write h hlength.ge]
    split
    case isTrue hin =>
      rw [getElem?_transcodeCtr, keystream_from hoffset, Option.map_map,
        Nat.add_sub_cancel' hin.1]
      cases buffer[p - offset]? with
      | none => rfl
      | some byte => simp only [Option.map_some, Function.comp_apply, UInt8.xor_assoc,
          UInt8.xor_self, UInt8.xor_zero]
    case isFalse => rfl

end AesCtrStorage

/-! ### The tweaked mode -/

theorem mod_add_of_dvd {m n i : ℕ} (h : m % n = 0) : (m + i) % n = i % n := by
  rw [Nat.add_mod, h, Nat.zero_add, Nat.mod_mod]

/-- `NcaHeader::XTS_BLOCK_SIZE`. -/
def xtsBlockSize : ℕ := 0x200

structure AesXtsStorage where
  baseStorage : BaseStorage
  key : List UInt8
  iv : List UInt8
  blockSize : ℕ
  key_length : key.length = 2 * FileSys.blockSize
  iv_length : iv.length = FileSys.blockSize
  blockSize_mod : blockSize % FileSys.blockSize = 0

namespace AesXtsStorage

/-- The part of a range that is in front of the first boundary of a sector goes through a sector
of its own. The buffer, the counter of the next sector and the size that is done. -/
def transcodeHead (aes : Aes) (s : AesXtsStorage) (buffer ctr : List UInt8) (offset : ℕ) :
    Option (List UInt8 × List UInt8 × ℕ) :=
  if offset % s.blockSize = 0 then some (buffer, ctr, 0)
  else if xtsBlockSize < s.blockSize then none
  else do
    let skipSize := offset - offset / s.blockSize * s.blockSize
    let dataSize := min buffer.length (s.blockSize - skipSize)
    let tmpBuf ← Image.copy (List.replicate s.blockSize 0) skipSize buffer 0 dataSize
    let tmpBuf := transcodeXts aes .decrypt s.key ctr tmpBuf
    let buffer ← Image.copy buffer 0 tmpBuf skipSize dataSize
    some (buffer, addCounter ctr 1, dataSize)

/-- The loop over the sectors. Each one starts with a tweak of its own. -/
def transcodeSectors (aes : Aes) (s : AesXtsStorage) :
    ℕ → List UInt8 → List UInt8 → List UInt8
  | 0, data, _ => data
  | fuel + 1, data, ctr =>
    if data = [] then []
    else transcodeXts aes .decrypt s.key ctr (data.take s.blockSize) ++
      transcodeSectors aes s fuel (data.drop s.blockSize) (addCounter ctr 1)

/-- The size and the buffer; `none` for a range that is not of blocks. -/
def readAt (aes : Aes) (s : AesXtsStorage) (buffer : List UInt8) (offset : ℕ) :
    Option (ℕ × List UInt8) :=
  let size := buffer.length
  if size = 0 then some (0, buffer)
  else if offset % FileSys.blockSize ≠ 0 ∨ size % FileSys.blockSize ≠ 0 then none
  else if s.blockSize = 0 then none
  else do
    let (buffer, _) := s.baseStorage.read buffer size offset
    let ctr := addCounter s.iv (offset / s.blockSize)
    let (buffer, ctr, processed) ← s.transcodeHead aes buffer ctr offset
    some (size, buffer.take processed ++
      s.transcodeSectors aes size (buffer.drop processed) ctr)

/-- The tweak of the block around a position. -/
def tweak (aes : Aes) (s : AesXtsStorage) (p : ℕ) : List UInt8 :=
  xtsMultiplyTweak^[p % s.blockSize / FileSys.blockSize]
    (aes.encrypt ((s.key.drop FileSys.blockSize).take FileSys.blockSize)
      (counterBlock s.iv (p / s.blockSize)))

/-- The byte at a position, from the block of encrypted bytes around it. -/
def decryptByte (aes : Aes) (s : AesXtsStorage) (p : ℕ) (block : List UInt8) : Option UInt8 :=
  (xtsBlock aes .decrypt (s.key.take FileSys.blockSize) (s.tweak aes p)
    block)[p % FileSys.blockSize]?

/-- The plain byte at a position. -/
def plain (aes : Aes) (s : AesXtsStorage) (p : ℕ) : Option UInt8 :=
  s.decryptByte aes p
    ((s.baseStorage.data.drop (p / FileSys.blockSize * FileSys.blockSize)).take FileSys.blockSize)

variable {aes : Aes} {s : AesXtsStorage} {buffer data : List UInt8} {offset : ℕ}

/-- The block around a position is in front of a boundary of blocks. -/
theorem block_le {n i : ℕ} (h : n % FileSys.blockSize = 0) (hi : i < n) :
    i / FileSys.blockSize * FileSys.blockSize + FileSys.blockSize ≤ n := by
  simp only [FileSys.blockSize] at h ⊢
  omega

theorem mod_blockSize (s : AesXtsStorage) {n : ℕ} (h : n % s.blockSize = 0) :
    n % FileSys.blockSize = 0 :=
  Nat.mod_eq_zero_of_dvd
    ((Nat.dvd_of_mod_eq_zero s.blockSize_mod).trans (Nat.dvd_of_mod_eq_zero h))

/-- A part of a sector from its front on. -/
theorem transcodeXts_sector {first : ℕ} (hfirst : first % s.blockSize = 0)
    (hdata : data.length % FileSys.blockSize = 0) (hle : data.length ≤ s.blockSize) {i : ℕ}
    (hi : i < data.length) :
    (transcodeXts aes .decrypt s.key (counterBlock s.iv (first / s.blockSize)) data)[i]? =
      s.decryptByte aes (first + i)
        ((data.drop (i / FileSys.blockSize * FileSys.blockSize)).take FileSys.blockSize) := by
  have hin : (first + i) % s.blockSize = i := by
    rw [mod_add_of_dvd hfirst, Nat.mod_eq_of_lt (hi.trans_le hle)]
  have hsector : (first + i) / s.blockSize = first / s.blockSize := by
    rw [Nat.add_div_of_dvd_right (Nat.dvd_of_mod_eq_zero hfirst),
      Nat.div_eq_of_lt (hi.trans_le hle), Nat.add_zero]
  rw [getElem?_transcodeXts (length_counterBlock ..) hdata hi, decryptByte, tweak, hin, hsector,
    mod_add_of_dvd (s.mod_blockSize hfirst)]

/-- Every sector from a boundary on is decrypted with its own counter. -/
theorem transcodeSectors_eq (aes : Aes) (fuel first : ℕ) (hpos : 0 < s.blockSize)
    (hfirst : first % s.blockSize = 0) (hdata : data.length % FileSys.blockSize = 0)
    (hfuel : data.length ≤ fuel) :
    (s.transcodeSectors aes fuel data (counterBlock s.iv (first / s.blockSize))).length =
        data.length ∧
      ∀ i < data.length,
        (s.transcodeSectors aes fuel data (counterBlock s.iv (first / s.blockSize)))[i]? =
          s.decryptByte aes (first + i)
            ((data.drop (i / FileSys.blockSize * FileSys.blockSize)).take FileSys.blockSize) := by
  induction fuel generalizing first data with
  | zero => exact ⟨rfl, fun i hi => absurd hi (by omega)⟩
  | succ fuel ih =>
    rw [transcodeSectors]
    split
    case isTrue hnil =>
      rw [hnil]
      exact ⟨rfl, fun i hi => absurd hi (Nat.not_lt_zero _)⟩
    case isFalse hne =>
      have hlen := List.length_pos_iff.mpr hne
      have htake : (data.take s.blockSize).length = min s.blockSize data.length :=
        List.length_take
      have hdrop : (data.drop s.blockSize).length = data.length - s.blockSize :=
        List.length_drop
      have htakemod : (data.take s.blockSize).length % FileSys.blockSize = 0 := by
        rw [htake]
        rcases Nat.le_total s.blockSize data.length with hle | hle
        · rw [Nat.min_eq_left hle, s.blockSize_mod]
        · rw [Nat.min_eq_right hle, hdata]
      have hdropmod : (data.drop s.blockSize).length % FileSys.blockSize = 0 := by
        rw [hdrop]
        exact Nat.mod_eq_zero_of_dvd (Nat.dvd_sub (Nat.dvd_of_mod_eq_zero hdata)
          (Nat.dvd_of_mod_eq_zero s.blockSize_mod))
      have hnext : (first + s.blockSize) % s.blockSize = 0 := by
        rw [Nat.add_mod_right, hfirst]
      have hctr : addCounter (counterBlock s.iv (first / s.blockSize)) 1 =
          counterBlock s.iv ((first + s.blockSize) / s.blockSize) := by
        rw [addCounter_eq (length_counterBlock ..), counterBlock_add, Nat.add_div_right _ hpos]
      obtain ⟨hlength, hbytes⟩ := ih (first + s.blockSize) hnext hdropmod (by omega)
      have hhead : (transcodeXts aes .decrypt s.key (counterBlock s.iv (first / s.blockSize))
          (data.take s.blockSize)).length = min s.blockSize data.length :=
        (length_transcodeXts (length_counterBlock ..)).trans htake
      rw [hctr]
      refine ⟨by rw [List.length_append, hhead, hlength, hdrop]; omega, fun i hi => ?_⟩
      rcases Nat.lt_or_ge i s.blockSize with hlt | hge
      · have hcut := block_le s.blockSize_mod hlt
        rw [List.getElem?_append_left (hhead.symm ▸ by omega),
          transcodeXts_sector hfirst htakemod (by omega) (by omega), List.drop_take,
          List.take_take, Nat.min_eq_left (by omega)]
      · obtain ⟨j, rfl⟩ := Nat.exists_eq_add_of_le hge
        have hfull : min s.blockSize data.length = s.blockSize := by omega
        rw [List.getElem?_append_right (by omega), hhead, hfull, Nat.add_sub_cancel_left,
          hbytes j (by omega), List.drop_drop, Nat.add_assoc,
          Nat.add_div_of_dvd_right (Nat.dvd_of_mod_eq_zero s.blockSize_mod), Nat.add_mul,
          Nat.div_mul_cancel (Nat.dvd_of_mod_eq_zero s.blockSize_mod)]

/-- The head of a range ends at a boundary or at the end of the range. -/
theorem transcodeHead_eq (hpos : 0 < s.blockSize) (hle : s.blockSize ≤ xtsBlockSize)
    (hoffset : offset % FileSys.blockSize = 0) (hsize : buffer.length % FileSys.blockSize = 0) :
    ∃ buffer' first processed,
      s.transcodeHead aes buffer (counterBlock s.iv (offset / s.blockSize)) offset =
        some (buffer', counterBlock s.iv (first / s.blockSize), processed) ∧
      buffer'.length = buffer.length ∧ processed ≤ buffer.length ∧
      processed % FileSys.blockSize = 0 ∧ first % s.blockSize = 0 ∧
      (processed < buffer.length → first = offset + processed) ∧
      (∀ i < processed, buffer'[i]? = s.decryptByte aes (offset + i)
        ((buffer.drop (i / FileSys.blockSize * FileSys.blockSize)).take FileSys.blockSize)) ∧
      ∀ i, processed ≤ i → buffer'[i]? = buffer[i]? := by
  rw [transcodeHead]
  split
  case isTrue halign =>
    exact ⟨buffer, offset, 0, rfl, rfl, Nat.zero_le _, rfl, halign, fun _ => rfl,
      fun i hi => absurd hi (Nat.not_lt_zero _), fun i _ => rfl⟩
  case isFalse hunaligned =>
    rw [if_neg (by omega)]
    obtain ⟨first, skip, hskip, hfirst, rfl⟩ :
        ∃ first skip, skip < s.blockSize ∧ first % s.blockSize = 0 ∧ first + skip = offset :=
      ⟨offset / s.blockSize * s.blockSize, offset % s.blockSize, Nat.mod_lt _ hpos,
        Nat.mul_mod_left _ _, Nat.div_add_mod' _ _⟩
    have hskipmod : skip % FileSys.blockSize = 0 := by
      rwa [mod_add_of_dvd (s.mod_blockSize hfirst)] at hoffset
    have hskipSize : first + skip - (first + skip) / s.blockSize * s.blockSize = skip := by
      rw [Nat.add_div_of_dvd_right (Nat.dvd_of_mod_eq_zero hfirst), Nat.div_eq_of_lt hskip,
        Nat.add_zero, Nat.div_mul_cancel (Nat.dvd_of_mod_eq_zero hfirst), Nat.add_sub_cancel_left]
    have hsector : (first + skip) / s.blockSize = first / s.blockSize := by
      rw [Nat.add_div_of_dvd_right (Nat.dvd_of_mod_eq_zero hfirst), Nat.div_eq_of_lt hskip,
        Nat.add_zero]
    have hctr : addCounter (counterBlock s.iv (first / s.blockSize)) 1 =
        counterBlock s.iv ((first + s.blockSize) / s.blockSize) := by
      rw [addCounter_eq (length_counterBlock ..), counterBlock_add, Nat.add_div_right _ hpos]
    rw [hskipSize, hsector, hctr]
    dsimp only
    have hsizemod : min buffer.length (s.blockSize - skip) % FileSys.blockSize = 0 := by
      rcases Nat.le_total buffer.length (s.blockSize - skip) with hmin | hmin
      · rwa [Nat.min_eq_left hmin]
      · rw [Nat.min_eq_right hmin]
        exact Nat.mod_eq_zero_of_dvd (Nat.dvd_sub (Nat.dvd_of_mod_eq_zero s.blockSize_mod)
          (Nat.dvd_of_mod_eq_zero hskipmod))
    generalize hdata : min buffer.length (s.blockSize - skip) = dataSize at hsizemod ⊢
    have hzeros : (List.replicate s.blockSize (0 : UInt8)).length = s.blockSize :=
      List.length_replicate
    have htmpcopy : ∃ tmpBuf, Image.copy (List.replicate s.blockSize 0) skip buffer 0 dataSize =
        some tmpBuf := Image.copy_eq_some (by omega) (by omega)
    obtain ⟨tmpBuf, htmp⟩ := htmpcopy
    have htmplen := (Image.length_copy htmp).trans hzeros
    have htmpmod : tmpBuf.length % FileSys.blockSize = 0 := by rw [htmplen, s.blockSize_mod]
    have hplainlen : (transcodeXts aes .decrypt s.key (counterBlock s.iv (first / s.blockSize))
        tmpBuf).length = s.blockSize :=
      (length_transcodeXts (length_counterBlock ..)).trans htmplen
    have hbuffercopy : ∃ buffer', Image.copy buffer 0
        (transcodeXts aes .decrypt s.key (counterBlock s.iv (first / s.blockSize)) tmpBuf)
        skip dataSize = some buffer' := Image.copy_eq_some (by omega) (by omega)
    obtain ⟨buffer', hbuffer⟩ := hbuffercopy
    refine ⟨buffer', first + s.blockSize, dataSize, Option.bind_eq_some_iff.mpr ⟨tmpBuf, htmp,
      Option.bind_eq_some_iff.mpr ⟨buffer', hbuffer, rfl⟩⟩, Image.length_copy hbuffer, by omega,
      hsizemod, by rw [Nat.add_mod_right, hfirst], by omega, fun i hi => ?_, fun i hi => ?_⟩
    · rw [Image.getElem?_copy hbuffer, if_pos (by omega), Nat.sub_zero,
        transcodeXts_sector hfirst htmpmod htmplen.le (by omega), Nat.add_assoc,
        Nat.add_div_of_dvd_right (Nat.dvd_of_mod_eq_zero hskipmod), Nat.add_mul,
        Nat.div_mul_cancel (Nat.dvd_of_mod_eq_zero hskipmod)]
      refine congrArg _ (List.ext_getElem? fun j => ?_)
      rcases Nat.lt_or_ge j FileSys.blockSize with hj | hj
      · have hcut := block_le hsizemod hi
        rw [List.getElem?_take_of_lt hj, List.getElem?_take_of_lt hj, List.getElem?_drop,
          List.getElem?_drop, Image.getElem?_copy htmp, if_pos (by omega)]
        congr 1
        omega
      · rw [List.getElem?_take_eq_none hj, List.getElem?_take_eq_none hj]
    · rw [Image.getElem?_copy hbuffer, if_neg (by omega)]

/-- A read of blocks delivers their plain bytes. -/
theorem readAt_plain (aes : Aes) (s : AesXtsStorage) (buffer : List UInt8) (offset : ℕ)
    (hpos : 0 < s.blockSize) (hle : s.blockSize ≤ xtsBlockSize)
    (hoffset : offset % FileSys.blockSize = 0) (hsize : buffer.length % FileSys.blockSize = 0)
    (h : offset + buffer.length ≤ s.baseStorage.size) :
    ∃ buffer', s.readAt aes buffer offset = some (buffer.length, buffer') ∧
      buffer'.length = buffer.length ∧
        ∀ i < buffer.length, buffer'[i]? = s.plain aes (offset + i) := by
  rw [readAt]
  dsimp only
  split
  case isTrue hzero =>
    exact ⟨buffer, by rw [hzero], rfl, fun i hi => absurd hi (by omega)⟩
  case isFalse hsome =>
    rw [if_neg (by omega), if_neg (by omega), addCounter_eq s.iv_length]
    have hread : (s.baseStorage.read buffer buffer.length offset).1.length = buffer.length :=
      BaseStorage.length_read le_rfl
    have hbytes (i : ℕ) (hi : i < buffer.length) :
        (s.baseStorage.read buffer buffer.length offset).1[i]? =
          s.baseStorage.data[offset + i]? := by
      rw [BaseStorage.getElem?_read h, if_pos hi]
    generalize (s.baseStorage.read buffer buffer.length offset).1 = cipher at hread hbytes ⊢
    rw [← hread] at hsize hsome h hbytes ⊢
    -- The encrypted block in the buffer is the one around the position in the storage.
    have hblock (i : ℕ) (hi : i < cipher.length) :
        (cipher.drop (i / FileSys.blockSize * FileSys.blockSize)).take FileSys.blockSize =
          (s.baseStorage.data.drop
            ((offset + i) / FileSys.blockSize * FileSys.blockSize)).take FileSys.blockSize := by
      have hcut := block_le hsize hi
      rw [Nat.add_div_of_dvd_right (Nat.dvd_of_mod_eq_zero hoffset), Nat.add_mul,
        Nat.div_mul_cancel (Nat.dvd_of_mod_eq_zero hoffset)]
      refine List.ext_getElem? fun j => ?_
      rcases Nat.lt_or_ge j FileSys.blockSize with hj | hj
      · rw [List.getElem?_take_of_lt hj, List.getElem?_take_of_lt hj, List.getElem?_drop,
          List.getElem?_drop, hbytes _ (by omega), Nat.add_assoc]
      · rw [List.getElem?_take_eq_none hj, List.getElem?_take_eq_none hj]
    obtain ⟨cipher', first, processed, hrun, hlength, hprocessed, hmod, hfirst, hnext, hhead,
      hrest⟩ := transcodeHead_eq hpos hle hoffset hsize
    have hdrop : (cipher'.drop processed).length = cipher.length - processed := by
      rw [List.length_drop, hlength]
    have htake : (cipher'.take processed).length = processed := by
      rw [List.length_take, hlength]
      omega
    have hdropmod : (cipher'.drop processed).length % FileSys.blockSize = 0 := by
      rw [hdrop]
      exact Nat.mod_eq_zero_of_dvd
        (Nat.dvd_sub (Nat.dvd_of_mod_eq_zero hsize) (Nat.dvd_of_mod_eq_zero hmod))
    obtain ⟨hsectorslen, hsectors⟩ := transcodeSectors_eq aes cipher.length first hpos hfirst
      hdropmod (by omega)
    refine ⟨_, Option.bind_eq_some_iff.mpr ⟨_, hrun, rfl⟩, ?_, fun i hi => ?_⟩
    · rw [List.length_append, htake, hsectorslen, hdrop]
      omega
    dsimp only
    rcases Nat.lt_or_ge i processed with hlt | hge
    · rw [List.getElem?_append_left (hlt.trans_eq htake.symm), List.getElem?_take_of_lt hlt,
        hhead i hlt, hblock i hi, plain]
    · obtain ⟨j, rfl⟩ := Nat.exists_eq_add_of_le hge
      rw [List.getElem?_append_right (by omega), htake, Nat.add_sub_cancel_left,
        hsectors j (by omega), hnext (by omega), plain, ← hblock _ hi, Nat.add_assoc]
      refine congrArg _ (List.ext_getElem? fun k => ?_)
      rcases Nat.lt_or_ge k FileSys.blockSize with hk | hk
      · rw [List.getElem?_take_of_lt hk, List.getElem?_take_of_lt hk, List.getElem?_drop,
          List.getElem?_drop, List.getElem?_drop, hrest _ (Nat.le_add_right _ _),
          Nat.add_div_of_dvd_right (Nat.dvd_of_mod_eq_zero hmod), Nat.add_mul,
          Nat.div_mul_cancel (Nat.dvd_of_mod_eq_zero hmod), Nat.add_assoc]
      · rw [List.getElem?_take_eq_none hk, List.getElem?_take_eq_none hk]

end AesXtsStorage

/-! ### Reads in pieces -/

/-- Adjacent buffers are filled one after the other. -/
def readPieces (read : List UInt8 → ℕ → Option (ℕ × List UInt8)) :
    List (List UInt8) → ℕ → Option (ℕ × List UInt8)
  | [], _ => some (0, [])
  | buffer :: buffers, offset => do
    let (size, buffer') ← read buffer offset
    let (rest, buffers') ← readPieces read buffers (offset + buffer.length)
    some (size + rest, buffer' ++ buffers')

/-- The storage delivers the bytes at their positions, in any range of its granularity. -/
def Delivers (read : List UInt8 → ℕ → Option (ℕ × List UInt8)) (plain : ℕ → Option UInt8)
    (size granularity : ℕ) : Prop :=
  ∀ buffer offset, offset % granularity = 0 → buffer.length % granularity = 0 →
    offset + buffer.length ≤ size →
      ∃ buffer', read buffer offset = some (buffer.length, buffer') ∧
        buffer'.length = buffer.length ∧
          ∀ i < buffer.length, buffer'[i]? = plain (offset + i)

variable {read : List UInt8 → ℕ → Option (ℕ × List UInt8)} {plain : ℕ → Option UInt8}
  {size granularity : ℕ}

theorem Delivers.readPieces (h : Delivers read plain size granularity)
    (buffers : List (List UInt8)) (offset : ℕ) (hoffset : offset % granularity = 0)
    (hbuffers : ∀ buffer ∈ buffers, buffer.length % granularity = 0)
    (hle : offset + buffers.flatten.length ≤ size) :
    ∃ buffer', readPieces read buffers offset = some (buffers.flatten.length, buffer') ∧
      buffer'.length = buffers.flatten.length ∧
        ∀ i < buffers.flatten.length, buffer'[i]? = plain (offset + i) := by
  induction buffers generalizing offset with
  | nil => exact ⟨[], rfl, rfl, fun i hi => absurd hi (Nat.not_lt_zero _)⟩
  | cons buffer buffers ih =>
    rw [List.flatten_cons, List.length_append] at hle ⊢
    have hbuffer := hbuffers buffer List.mem_cons_self
    have hnext : (offset + buffer.length) % granularity = 0 := by
      rw [mod_add_of_dvd hoffset, hbuffer]
    obtain ⟨first, hfirst, hlength, hbytes⟩ := h buffer offset hoffset hbuffer (by omega)
    obtain ⟨rest, hrest, hlength', hbytes'⟩ := ih (offset + buffer.length) hnext
      (fun b hb => hbuffers b (List.mem_cons_of_mem _ hb)) (by omega)
    refine ⟨first ++ rest, Option.bind_eq_some_iff.mpr ⟨_, hfirst,
      Option.bind_eq_some_iff.mpr ⟨_, hrest, rfl⟩⟩, ?_, fun i hi => ?_⟩
    · rw [List.length_append, hlength, hlength']
    · rcases Nat.lt_or_ge i buffer.length with hlt | hge
      · rw [List.getElem?_append_left (hlt.trans_eq hlength.symm), hbytes i hlt]
      · obtain ⟨j, rfl⟩ := Nat.exists_eq_add_of_le hge
        rw [List.getElem?_append_right (by omega), hlength, Nat.add_sub_cancel_left,
          hbytes' j (by omega), Nat.add_assoc]

theorem flatten_length_mod (buffers : List (List UInt8))
    (h : ∀ buffer ∈ buffers, buffer.length % granularity = 0) :
    buffers.flatten.length % granularity = 0 := by
  induction buffers with
  | nil => exact Nat.zero_mod _
  | cons buffer buffers ih =>
    rw [List.flatten_cons, List.length_append,
      mod_add_of_dvd (h buffer List.mem_cons_self),
      ih fun b hb => h b (List.mem_cons_of_mem _ hb)]

/-- A range read in pieces is the range read at once. -/
theorem Delivers.readPieces_eq (h : Delivers read plain size granularity)
    (buffers : List (List UInt8)) (offset : ℕ) (hoffset : offset % granularity = 0)
    (hbuffers : ∀ buffer ∈ buffers, buffer.length % granularity = 0)
    (hle : offset + buffers.flatten.length ≤ size) :
    FileSys.readPieces read buffers offset = read buffers.flatten offset := by
  obtain ⟨pieces, hpieces, hlength, hbytes⟩ := h.readPieces buffers offset hoffset hbuffers hle
  obtain ⟨whole, hwhole, hlength', hbytes'⟩ :=
    h buffers.flatten offset hoffset (flatten_length_mod buffers hbuffers) hle
  have hsame : pieces = whole := by
    refine List.ext_getElem? fun i => ?_
    rcases Nat.lt_or_ge i buffers.flatten.length with hlt | hge
    · rw [hbytes i hlt, hbytes' i hlt]
    · rw [List.getElem?_eq_none (by omega), List.getElem?_eq_none (by omega)]
  rw [hpieces, hwhole, hsame]

theorem AesCtrStorage.delivers (aes : Aes) (s : AesCtrStorage) :
    Delivers (fun buffer offset => s.read aes buffer buffer.length offset) (s.plain aes)
      s.baseStorage.size 1 := by
  intro buffer offset _ _ hle
  have h := read_plain aes s buffer buffer.length offset (by omega)
  rwa [Nat.min_self] at h

theorem AesXtsStorage.delivers (aes : Aes) (s : AesXtsStorage) (hpos : 0 < s.blockSize)
    (hle : s.blockSize ≤ xtsBlockSize) :
    Delivers (s.readAt aes) (s.plain aes) s.baseStorage.size FileSys.blockSize :=
  fun buffer offset hoffset hsize h => readAt_plain aes s buffer offset hpos hle hoffset hsize h

/-- Every byte of a read depends on its position alone: in the counter mode for any range, in the
tweaked mode for any range of blocks. Blocks that were written in the counter mode are read back
among the former bytes. -/
theorem reads_by_position (aes : Aes) :
    (∀ (s : AesCtrStorage) (data : List UInt8) (length offset : ℕ),
      offset + min length data.length ≤ s.baseStorage.size →
        ∃ data', s.read aes data length offset = some (min length data.length, data') ∧
          ∀ i < min length data.length, data'[i]? = s.plain aes (offset + i)) ∧
    (∀ (s : AesCtrStorage) (buffers : List (List UInt8)) (offset : ℕ),
      offset + buffers.flatten.length ≤ s.baseStorage.size →
        readPieces (fun buffer offset => s.read aes buffer buffer.length offset) buffers offset =
          s.read aes buffers.flatten buffers.flatten.length offset) ∧
    (∀ (s : AesCtrStorage) (buffer : List UInt8) (offset : ℕ), offset % blockSize = 0 →
      buffer.length % blockSize = 0 → offset + buffer.length ≤ s.baseStorage.size →
        ∃ s', s.writeAt aes buffer offset = some (buffer.length, s') ∧
          ∀ (data : List UInt8) (length start : ℕ),
            start + min length data.length ≤ s.baseStorage.size →
              ∃ data', s'.read aes data length start = some (min length data.length, data') ∧
                ∀ i < min length data.length, data'[i]? =
                  if offset ≤ start + i ∧ start + i < offset + buffer.length then
                    buffer[start + i - offset]?
                  else s.plain aes (start + i)) ∧
    (∀ (s : AesXtsStorage) (buffer : List UInt8) (offset : ℕ),
      0 < s.blockSize → s.blockSize ≤ xtsBlockSize → offset % blockSize = 0 →
        buffer.length % blockSize = 0 → offset + buffer.length ≤ s.baseStorage.size →
          ∃ buffer', s.readAt aes buffer offset = some (buffer.length, buffer') ∧
            ∀ i < buffer.length, buffer'[i]? = s.plain aes (offset + i)) ∧
    (∀ (s : AesXtsStorage) (buffers : List (List UInt8)) (offset : ℕ),
      0 < s.blockSize → s.blockSize ≤ xtsBlockSize → offset % blockSize = 0 →
        (∀ buffer ∈ buffers, buffer.length % blockSize = 0) →
          offset + buffers.flatten.length ≤ s.baseStorage.size →
            readPieces (s.readAt aes) buffers offset = s.readAt aes buffers.flatten offset) := by
  refine ⟨fun s data length offset h => ?_, fun s buffers offset h => ?_,
    fun s buffer offset hoffset hsize h => ?_, fun s buffer offset hpos hle hoffset hsize h => ?_,
    fun s buffers offset hpos hle hoffset hbuffers h => ?_⟩
  · obtain ⟨data', hrun, -, hbytes⟩ := s.read_plain aes data length offset h
    exact ⟨data', hrun, hbytes⟩
  · exact (s.delivers aes).readPieces_eq buffers offset (Nat.mod_one _)
      (fun _ _ => Nat.mod_one _) h
  · obtain ⟨s', hwrite, hsize', hplain⟩ := s.writeAt_plain aes buffer offset hoffset hsize h
    refine ⟨s', hwrite, fun data length start hstart => ?_⟩
    obtain ⟨data', hrun, -, hbytes⟩ := s'.read_plain aes data length start (hsize'.symm ▸ hstart)
    exact ⟨data', hrun, fun i hi => by rw [hbytes i hi, hplain]⟩
  · obtain ⟨buffer', hrun, -, hbytes⟩ := s.readAt_plain aes buffer offset hpos hle hoffset hsize h
    exact ⟨buffer', hrun, hbytes⟩
  · exact (s.delivers aes hpos hle).readPieces_eq buffers offset hoffset hbuffers h

/-- The bytes of the key are added to those of the block. -/
def addKey : Aes where
  encrypt key block := block.mapIdx fun i byte => byte + (key[i]?).getD 0
  decrypt key block := block.mapIdx fun i byte => byte - (key[i]?).getD 0
  length_encrypt _ _ := List.length_mapIdx
  length_decrypt _ _ := List.length_mapIdx
  decrypt_encrypt key block _ := List.ext_getElem? fun i => by
    cases h : block[i]? <;> simp [List.getElem?_mapIdx, h]
  encrypt_decrypt key block _ := List.ext_getElem? fun i => by
    cases h : block[i]? <;> simp [List.getElem?_mapIdx, h]

/-- A counter that carries through all of its bytes between the two blocks. -/
def carryingCtr : AesCtrStorage where
  baseStorage := ⟨List.replicate 37 5, []⟩
  key := List.replicate 16 3
  iv := List.replicate 16 255
  key_length := rfl
  iv_length := rfl

/-- Sectors of two blocks. -/
def pairedXts : AesXtsStorage where
  baseStorage := ⟨List.replicate 96 7, []⟩
  key := List.replicate 32 9
  iv := List.replicate 16 255
  blockSize := 32
  key_length := rfl
  iv_length := rfl
  blockSize_mod := rfl

theorem reads_by_position_carrying :
    (∃ data', carryingCtr.read addKey (List.replicate 20 0) 20 13 = some (20, data') ∧
      ∀ i < 20, data'[i]? = carryingCtr.plain addKey (13 + i)) ∧
    ∃ buffer', pairedXts.readAt addKey (List.replicate 64 0) 16 = some (64, buffer') ∧
      ∀ i < 64, buffer'[i]? = pairedXts.plain addKey (16 + i) :=
  ⟨(reads_by_position addKey).1 carryingCtr (List.replicate 20 0) 20 13 (by decide),
    (reads_by_position addKey).2.2.2.1 pairedXts (List.replicate 64 0) 16 (by decide) (by decide)
      (by decide) (by decide) (by decide)⟩

end Ruzu.FileSys
