import Mathlib
import Ruzu.FileSys.VfsConcat

/-!
# IPS patches

`ips_layer.rs`: a patch is a magic, records that replace bytes at an offset, and
an end marker that stands where a record would have its offset.
-/

set_option autoImplicit false

namespace Ruzu.FileSys

inductive IpsFileType
  | ips
  | ips32
  | error
  deriving DecidableEq

/-- "PATCH" and "IPS32". -/
def IpsFileType.magic : IpsFileType → List UInt8
  | ips => [80, 65, 84, 67, 72]
  | ips32 => [73, 80, 83, 51, 50]
  | error => []

/-- "EOF" and "EEOF". -/
def IpsFileType.marker : IpsFileType → List UInt8
  | ips => [69, 79, 70]
  | ips32 => [69, 69, 79, 70]
  | error => []

def IpsFileType.recordSize (fileType : IpsFileType) : ℕ := if fileType = .ips then 3 else 4

def identifyMagic (magic : List UInt8) : IpsFileType :=
  if IpsFileType.ips.magic.isPrefixOf magic then .ips
  else if IpsFileType.ips32.magic.isPrefixOf magic then .ips32
  else .error

def isEof (fileType : IpsFileType) (data : List UInt8) : Bool :=
  match fileType with
  | .error => false
  | fileType => fileType.marker.isPrefixOf data

/-- The number that `from_be_bytes` and the shifts make of the bytes. -/
def ofBigEndian (bytes : List UInt8) : ℕ := bytes.foldl (fun n b => 256 * n + b.toNat) 0

def overwriteAt (data : List UInt8) (offset : ℕ) (piece : List UInt8) : List UInt8 :=
  data.take offset ++ piece ++ data.drop (offset + piece.length)

/-- A record behind its offset: where the next one starts and the data with it applied. -/
def patchRecord (ips : VfsFile) (realOffset offset : ℕ) (inData : List UInt8) :
    Option (ℕ × List UInt8) :=
  if realOffset > inData.length then none
  else
    let sizeBuf := ips.read 2 offset
    if sizeBuf.length ≠ 2 then none
    else
      let dataSize := ofBigEndian sizeBuf
      let offset := offset + 2
      if dataSize = 0 then
        let rleSizeBuf := ips.read 2 offset
        if rleSizeBuf.length ≠ 2 then none
        else
          let rleSize := ofBigEndian rleSizeBuf
          let offset := offset + 2
          match ips.read 1 offset with
          | [] => none
          | data::_ =>
            let rleSize :=
              if realOffset + rleSize > inData.length then inData.length - realOffset else rleSize
            some (offset + 1, overwriteAt inData realOffset (List.replicate rleSize data))
      else
        -- the length is clipped here, and compared with the one that is not below
        let readSize :=
          if realOffset + dataSize > inData.length then inData.length - realOffset else dataSize
        let actual := ips.read readSize offset
        if actual.length ≠ dataSize then none
        else some (offset + dataSize, overwriteAt inData realOffset actual)

/-! ### Big-endian fields -/

def toBigEndian : ℕ → ℕ → List UInt8
  | 0, _ => []
  | w + 1, n => toBigEndian w (n / 256) ++ [UInt8.ofNat n]

theorem toBigEndian_length (w n : ℕ) : (toBigEndian w n).length = w := by
  induction w generalizing n with
  | zero => rfl
  | succ w ih => rw [toBigEndian, List.length_append, ih, List.length_singleton]

theorem ofBigEndian_concat (bytes : List UInt8) (b : UInt8) :
    ofBigEndian (bytes ++ [b]) = 256 * ofBigEndian bytes + b.toNat := by
  rw [ofBigEndian, ofBigEndian, List.foldl_append]
  rfl

theorem ofBigEndian_toBigEndian {w n : ℕ} (h : n < 256 ^ w) :
    ofBigEndian (toBigEndian w n) = n := by
  induction w generalizing n with
  | zero =>
    obtain rfl : n = 0 := by simpa using h
    rfl
  | succ w ih =>
    have hhigh : n / 256 < 256 ^ w := Nat.div_lt_of_lt_mul (by rwa [pow_succ, mul_comm] at h)
    rw [toBigEndian, ofBigEndian_concat, ih hhigh, UInt8.toNat_ofNat']
    omega

theorem ofBigEndian_lt {w : ℕ} {bytes : List UInt8} (h : bytes.length = w) :
    ofBigEndian bytes < 256 ^ w := by
  subst h
  induction bytes using List.reverseRecOn with
  | nil => decide
  | append_singleton bytes b ih =>
    have hb := b.toNat_lt
    rw [ofBigEndian_concat, List.length_append, List.length_singleton, pow_succ]
    omega

theorem toBigEndian_ofBigEndian {w : ℕ} {bytes : List UInt8} (h : bytes.length = w) :
    toBigEndian w (ofBigEndian bytes) = bytes := by
  subst h
  induction bytes using List.reverseRecOn with
  | nil => rfl
  | append_singleton bytes b ih =>
    have hb := b.toNat_lt
    have hhigh : (256 * ofBigEndian bytes + b.toNat) / 256 = ofBigEndian bytes := by omega
    have hlow : UInt8.ofNat (256 * ofBigEndian bytes + b.toNat) = b := by
      apply UInt8.toNat_inj.mp
      rw [UInt8.toNat_ofNat']
      omega
    rw [List.length_append, List.length_singleton, toBigEndian, ofBigEndian_concat, hhigh, ih, hlow]

/-! ### Records -/

inductive IpsRecord
  | plain (offset : ℕ) (bytes : List UInt8)
  | run (offset size : ℕ) (byte : UInt8)

namespace IpsRecord

def offset : IpsRecord → ℕ
  | plain offset _ => offset
  | run offset _ _ => offset

/-- The lengths fit their fields, and a plain record is not empty. -/
def Sized : IpsRecord → Prop
  | plain _ bytes => 0 < bytes.length ∧ bytes.length < 65536
  | run _ size _ => size < 65536

/-- What follows the offset. -/
def body : IpsRecord → List UInt8
  | plain _ bytes => toBigEndian 2 bytes.length ++ bytes
  | run _ size byte => toBigEndian 2 0 ++ (toBigEndian 2 size ++ [byte])

/-- The record on the data, clipped at its end. -/
def apply (data : List UInt8) : IpsRecord → List UInt8
  | plain offset bytes => overwriteAt data offset (bytes.take (data.length - offset))
  | run offset size byte =>
    overwriteAt data offset (List.replicate (min size (data.length - offset)) byte)

/-- Bytes of a plain record lie behind the end of the data. -/
def Crosses (length : ℕ) : IpsRecord → Prop
  | plain offset bytes => length < offset + bytes.length
  | run _ _ _ => False

theorem body_length_pos (r : IpsRecord) : 0 < r.body.length := by
  cases r <;> simp [body, toBigEndian_length]

theorem overwriteAt_length {data : List UInt8} {offset : ℕ} {piece : List UInt8}
    (h : offset + piece.length ≤ data.length) :
    (overwriteAt data offset piece).length = data.length := by
  rw [overwriteAt, List.length_append, List.length_append, List.length_take, List.length_drop]
  omega

theorem apply_length {data : List UInt8} {r : IpsRecord} (h : r.offset ≤ data.length) :
    (r.apply data).length = data.length := by
  cases r with
  | plain offset bytes =>
    change offset ≤ data.length at h
    refine overwriteAt_length ?_
    rw [List.length_take]
    omega
  | run offset size byte =>
    change offset ≤ data.length at h
    refine overwriteAt_length ?_
    rw [List.length_replicate]
    omega

end IpsRecord

theorem length_read (file : VfsFile) (length offset : ℕ) :
    (file.read length offset).length = min length (file.size - offset) := by
  rw [VfsFile.read, List.length_take, List.length_drop, VfsFile.size]

theorem drop_eq_read (file : VfsFile) (length offset : ℕ) :
    file.data.drop offset = file.read length offset ++ file.data.drop (offset + length) := by
  rw [VfsFile.read, ← List.drop_drop, List.take_append_drop]

theorem read_of_drop {file : VfsFile} {offset n : ℕ} {piece rest : List UInt8}
    (hn : piece.length = n) (h : file.data.drop offset = piece ++ rest) :
    file.read n offset = piece ∧ file.data.drop (offset + n) = rest := by
  subst hn
  rw [VfsFile.read, ← List.drop_drop, h]
  exact ⟨List.take_left, List.drop_left⟩

/-- The clipping of both kinds of record. -/
theorem clipped_eq (offset size length : ℕ) (h : offset ≤ length) :
    (if offset + size > length then length - offset else size) = min size (length - offset) := by
  split <;> omega

/-- A record is taken when it is there in full, and a plain one only inside the data. -/
theorem patchRecord_eq_some_iff {ips : VfsFile} {realOffset offset offset' : ℕ}
    {inData inData' : List UInt8} :
    patchRecord ips realOffset offset inData = some (offset', inData') ↔
      ∃ r : IpsRecord, r.offset = realOffset ∧ realOffset ≤ inData.length ∧ r.Sized ∧
        ¬r.Crosses inData.length ∧ r.body <+: ips.data.drop offset ∧
        offset' = offset + r.body.length ∧ inData' = r.apply inData := by
  rw [patchRecord, Option.ite_none_left_eq_some]
  dsimp only
  rw [Option.ite_none_left_eq_some]
  constructor
  · rintro ⟨hle, hsize, h⟩
    have hle := Nat.not_lt.mp hle
    have hsize := Decidable.not_not.mp hsize
    have hfield := toBigEndian_ofBigEndian hsize
    have hlt : ofBigEndian (ips.read 2 offset) < 65536 := ofBigEndian_lt hsize
    have hdrop := drop_eq_read ips 2 offset
    split at h
    case isTrue hrun =>
      rw [Option.ite_none_left_eq_some] at h
      obtain ⟨hrle, h⟩ := h
      have hrle := Decidable.not_not.mp hrle
      cases hone : ips.read 1 (offset + 2 + 2) with
      | nil =>
        rw [hone] at h
        cases h
      | cons data tail =>
        obtain rfl : tail = [] := by
          have hlength := length_read ips 1 (offset + 2 + 2)
          rw [hone, List.length_cons] at hlength
          exact List.eq_nil_of_length_eq_zero (by omega)
        rw [hone] at h
        obtain ⟨rfl, rfl⟩ := Prod.mk.inj (Option.some.inj h)
        have hrleField := toBigEndian_ofBigEndian hrle
        have hrleLt : ofBigEndian (ips.read 2 (offset + 2)) < 65536 := ofBigEndian_lt hrle
        refine ⟨.run realOffset (ofBigEndian (ips.read 2 (offset + 2))) data, rfl, hle, hrleLt,
          not_false, ⟨ips.data.drop (offset + 2 + 2 + 1), ?_⟩, ?_, ?_⟩
        · rw [IpsRecord.body, ← hrun, hfield, hrleField, hdrop, drop_eq_read ips 2 (offset + 2),
            drop_eq_read ips 1 (offset + 2 + 2), hone]
          simp only [List.append_assoc]
        · simp [IpsRecord.body, toBigEndian_length]
        · rw [IpsRecord.apply, clipped_eq _ _ _ hle]
    case isFalse hplain =>
      rw [Option.ite_none_left_eq_some] at h
      obtain ⟨hactual, h⟩ := h
      have hactual := Decidable.not_not.mp hactual
      obtain ⟨rfl, rfl⟩ := Prod.mk.inj (Option.some.inj h)
      have hwithin : ¬realOffset + ofBigEndian (ips.read 2 offset) > inData.length := by
        intro hover
        rw [if_pos hover, length_read] at hactual
        omega
      rw [if_neg hwithin] at hactual ⊢
      generalize hbytes : ips.read (ofBigEndian (ips.read 2 offset)) (offset + 2) = bytes
        at hactual
      refine ⟨.plain realOffset bytes, rfl, hle, ?_, ?_,
        ⟨ips.data.drop (offset + 2 + ofBigEndian (ips.read 2 offset)), ?_⟩, ?_, ?_⟩
      · exact ⟨by omega, by omega⟩
      · rw [IpsRecord.Crosses]
        omega
      · rw [IpsRecord.body, hactual, hfield, hdrop,
          drop_eq_read ips (ofBigEndian (ips.read 2 offset)) (offset + 2), hbytes]
        simp only [List.append_assoc]
      · rw [IpsRecord.body, List.length_append, toBigEndian_length]
        omega
      · rw [IpsRecord.apply, List.take_of_length_le (by omega)]
  · rintro ⟨r, hoffset, hle, hsized, hwithin, ⟨rest, hbody⟩, rfl, rfl⟩
    refine ⟨Nat.not_lt.mpr hle, ?_⟩
    cases r with
    | plain start bytes =>
      obtain rfl : start = realOffset := hoffset
      obtain ⟨hpos, hlt⟩ := hsized
      rw [IpsRecord.Crosses] at hwithin
      rw [IpsRecord.body, List.append_assoc] at hbody
      obtain ⟨hread, hrest⟩ := read_of_drop (toBigEndian_length 2 _) hbody.symm
      obtain ⟨hreadBytes, -⟩ := read_of_drop rfl hrest
      have hvalue : ofBigEndian (ips.read 2 offset) = bytes.length := by
        rw [hread, ofBigEndian_toBigEndian hlt]
      have hin : ¬start + bytes.length > inData.length := by omega
      refine ⟨by rw [hread, toBigEndian_length]; exact fun h => h rfl, ?_⟩
      rw [hvalue, if_neg (Nat.pos_iff_ne_zero.mp hpos), if_neg hin, hreadBytes,
        if_neg (fun h => h rfl), IpsRecord.apply, List.take_of_length_le (by omega),
        IpsRecord.body, List.length_append, toBigEndian_length, Nat.add_assoc]
    | run start size byte =>
      obtain rfl : start = realOffset := hoffset
      rw [IpsRecord.body, List.append_assoc, List.append_assoc] at hbody
      obtain ⟨hread, hrest⟩ := read_of_drop (toBigEndian_length 2 _) hbody.symm
      obtain ⟨hreadSize, hrest'⟩ := read_of_drop (toBigEndian_length 2 _) hrest
      obtain ⟨hreadByte, -⟩ := read_of_drop (List.length_singleton (a := byte)) hrest'
      have hvalue : ofBigEndian (ips.read 2 (offset + 2)) = size := by
        rw [hreadSize, ofBigEndian_toBigEndian hsized]
      have hsize : (ips.read 2 (offset + 2)).length = 2 := by
        rw [hreadSize, toBigEndian_length]
      refine ⟨by rw [hread, toBigEndian_length]; exact fun h => h rfl, ?_⟩
      rw [hread, if_pos (by decide), if_neg (fun h => h hsize), hreadByte, hvalue]
      simp only [IpsRecord.apply, IpsRecord.body, List.length_append,
        toBigEndian_length, List.length_singleton, clipped_eq _ _ _ hle]

theorem patchRecord_advances {ips : VfsFile} {realOffset offset offset' : ℕ}
    {inData inData' : List UInt8}
    (h : patchRecord ips realOffset offset inData = some (offset', inData')) :
    offset < offset' ∧ offset' ≤ ips.size := by
  obtain ⟨r, -, -, -, -, hbody, rfl, -⟩ := patchRecord_eq_some_iff.1 h
  have hlength := hbody.length_le
  have hpos := r.body_length_pos
  rw [List.length_drop] at hlength
  rw [VfsFile.size]
  omega

/-- The loop: the last bytes read as an offset, and the data. A broken record ends in `none`. -/
def patchLoop (fileType : IpsFileType) (ips : VfsFile) (temp : List UInt8) (offset : ℕ)
    (inData : List UInt8) : Option (List UInt8 × List UInt8) :=
  let piece := ips.read temp.length offset
  let temp' := ips.readInto temp temp.length offset
  if piece.length ≠ temp.length then some (temp', inData)
  else if isEof fileType temp' then some (temp', inData)
  else
    match _h : patchRecord ips (ofBigEndian temp') (offset + temp.length) inData with
    | none => none
    | some (offset', inData') => patchLoop fileType ips temp' offset' inData'
termination_by ips.size - offset
decreasing_by
  have := patchRecord_advances ‹_›
  omega

def patchIps (source ips : VfsFile) : Option VfsFile :=
  let fileType := identifyMagic (ips.read 5 0)
  if fileType = .error then none
  else
    let inData := source.read source.size 0
    if inData = [] then none
    else
      match patchLoop fileType ips (List.replicate fileType.recordSize 0) 5 inData with
      | none => none
      | some (temp, inData) => if ¬isEof fileType temp then none else some ⟨source.name, inData⟩

end Ruzu.FileSys
