import Ruzu.FileSys.IpsLayer

/-!
# What an IPS patch is

Records one behind the other up to the first field that reads as the end marker.
The loop takes a patch when it is one and applies its records in order.
-/

set_option autoImplicit false

namespace Ruzu.FileSys

namespace IpsRecord

def field (fileType : IpsFileType) (r : IpsRecord) : List UInt8 :=
  toBigEndian fileType.recordSize r.offset

def encode (fileType : IpsFileType) (r : IpsRecord) : List UInt8 := r.field fileType ++ r.body

/-- The offset is not behind the data, and its field is not taken for the marker. -/
structure WellFormed (fileType : IpsFileType) (length : ℕ) (r : IpsRecord) : Prop where
  offset_le : r.offset ≤ length
  offset_lt : r.offset < 256 ^ fileType.recordSize
  not_marker : r.field fileType ≠ fileType.marker
  sized : r.Sized

end IpsRecord

/-- The magic, the records, the marker, and whatever follows it. -/
structure IsPatch (fileType : IpsFileType) (length : ℕ) (patch : List UInt8)
    (records : List IpsRecord) (rest : List UInt8) : Prop where
  type_ne : fileType ≠ .error
  bytes_eq : patch = fileType.magic ++
    (records.flatMap (·.encode fileType) ++ (fileType.marker ++ rest))
  wellFormed : ∀ r ∈ records, r.WellFormed fileType length

/-- The offset field of the last record. -/
def lastField (fileType : IpsFileType) (temp : List UInt8) : List IpsRecord → List UInt8
  | [] => temp
  | r::records => lastField fileType (r.field fileType) records

/-- Less than a field is left behind the records, and the end of the field before it makes a
marker of it. -/
structure TornMarker (fileType : IpsFileType) (length : ℕ) (patch : List UInt8)
    (records : List IpsRecord) (rest : List UInt8) : Prop where
  type_ne : fileType ≠ .error
  bytes_eq : patch = fileType.magic ++ (records.flatMap (·.encode fileType) ++ rest)
  wellFormed : ∀ r ∈ records, r.WellFormed fileType length
  short : rest.length < fileType.recordSize
  torn : rest ++ (lastField fileType (List.replicate fileType.recordSize 0) records).drop
    rest.length = fileType.marker

variable {fileType : IpsFileType} {ips : VfsFile} {temp inData out : List UInt8} {offset : ℕ}

theorem marker_length (h : fileType ≠ .error) : fileType.marker.length = fileType.recordSize := by
  cases fileType with
  | ips => rfl
  | ips32 => rfl
  | error => exact absurd rfl h

theorem isEof_iff (h : fileType ≠ .error) (hlength : temp.length = fileType.recordSize) :
    isEof fileType temp = true ↔ temp = fileType.marker := by
  have hmarker := marker_length h
  have hfront : isEof fileType temp = fileType.marker.isPrefixOf temp := by
    cases fileType with
    | ips => rfl
    | ips32 => rfl
    | error => exact absurd rfl h
  rw [hfront, List.isPrefixOf_iff_prefix]
  constructor
  · intro hle
    exact (hle.eq_of_length (hmarker.trans hlength.symm)).symm
  · rintro rfl
    exact List.prefix_refl _

theorem readInto_full {file : VfsFile} {buffer piece : List UInt8} {length : ℕ}
    (hread : file.read length offset = piece) (hlength : piece.length = buffer.length) :
    file.readInto buffer length offset = piece := by
  rw [VfsFile.readInto, hread, List.drop_eq_nil_of_le hlength.ge, List.append_nil]

/-- The loop at a field that is there in full. -/
theorem patchLoop_field {field rest : List UInt8} (hlength : field.length = temp.length)
    (hdrop : ips.data.drop offset = field ++ rest) :
    patchLoop fileType ips temp offset inData =
      if isEof fileType field then some (field, inData)
      else (patchRecord ips (ofBigEndian field) (offset + temp.length) inData).bind fun next =>
        patchLoop fileType ips field next.1 next.2 := by
  have hread := (read_of_drop hlength hdrop).1
  rw [patchLoop, readInto_full hread hlength, if_neg (by rw [hread]; exact fun h => h hlength)]
  split
  · rfl
  · split <;> rename_i hrecord <;> rw [hrecord] <;> rfl

theorem field_length (fileType : IpsFileType) (r : IpsRecord) :
    (r.field fileType).length = fileType.recordSize := toBigEndian_length _ _

/-- The records of a patch are applied in order, up to the marker. -/
theorem patchLoop_records (htype : fileType ≠ .error) {records : List IpsRecord}
    {rest : List UInt8} (htemp : temp.length = fileType.recordSize)
    (hrecords : ∀ r ∈ records, r.WellFormed fileType inData.length ∧ ¬r.Crosses inData.length)
    (hdrop : ips.data.drop offset =
      records.flatMap (·.encode fileType) ++ (fileType.marker ++ rest)) :
    patchLoop fileType ips temp offset inData =
      some (fileType.marker, records.foldl IpsRecord.apply inData) := by
  induction records generalizing temp offset inData with
  | nil =>
    have hmarker := marker_length htype
    rw [patchLoop_field (hmarker.trans htemp.symm) hdrop,
      if_pos ((isEof_iff htype hmarker).mpr rfl)]
    rfl
  | cons r records ih =>
    obtain ⟨hwell, hwithin⟩ := hrecords r List.mem_cons_self
    have hlength := field_length fileType r
    rw [List.flatMap_cons, IpsRecord.encode, List.append_assoc, List.append_assoc] at hdrop
    have hbody := (read_of_drop (hlength.trans htemp.symm) hdrop).2
    have hrecord : patchRecord ips (ofBigEndian (r.field fileType)) (offset + temp.length) inData =
        some (offset + temp.length + r.body.length, r.apply inData) :=
      patchRecord_eq_some_iff.mpr ⟨r, (ofBigEndian_toBigEndian hwell.offset_lt).symm,
        (ofBigEndian_toBigEndian hwell.offset_lt).trans_le hwell.offset_le, hwell.sized, hwithin,
        ⟨_, hbody.symm⟩, rfl, rfl⟩
    have hsame := IpsRecord.apply_length hwell.offset_le
    rw [patchLoop_field (hlength.trans htemp.symm) hdrop,
      if_neg (fun h => hwell.not_marker ((isEof_iff htype hlength).mp h)), hrecord,
      Option.bind_some, ih hlength ?_ (read_of_drop rfl hbody).2]
    · rfl
    · intro r' hr'
      rw [hsame]
      exact hrecords r' (List.mem_cons_of_mem _ hr')

/-- What the loop has taken when it ends at a marker: its bytes are there, or the field before
them has completed it. -/
theorem patchLoop_taken (htype : fileType ≠ .error) (htemp : temp.length = fileType.recordSize)
    {last : List UInt8} (h : patchLoop fileType ips temp offset inData = some (last, out))
    (hlast : isEof fileType last) :
    ∃ records : List IpsRecord,
      (∀ r ∈ records, r.WellFormed fileType inData.length ∧ ¬r.Crosses inData.length) ∧
      out = records.foldl IpsRecord.apply inData ∧
      ∃ rest, ips.data.drop offset = records.flatMap (·.encode fileType) ++ rest ∧
        (fileType.marker <+: rest ∨ rest.length < fileType.recordSize ∧
          rest ++ (lastField fileType temp records).drop rest.length = fileType.marker) := by
  induction temp, offset, inData using patchLoop.induct fileType ips with
  | case1 temp offset inData piece hshort =>
    have hpiece : piece.length = min temp.length (ips.size - offset) := length_read _ _ _
    have hdrop : ips.data.drop offset = piece := by
      refine (List.take_of_length_le ?_).symm
      rw [List.length_drop, ← VfsFile.size]
      omega
    have hlength : (ips.readInto temp temp.length offset).length = fileType.recordSize := by
      change (piece ++ temp.drop piece.length).length = _
      rw [List.length_append, List.length_drop]
      omega
    rw [patchLoop, if_pos hshort] at h
    obtain ⟨rfl, rfl⟩ := Prod.mk.inj (Option.some.inj h)
    refine ⟨[], fun _ h => absurd h List.not_mem_nil, rfl, piece, hdrop, .inr ⟨by omega, ?_⟩⟩
    exact (isEof_iff htype hlength).mp hlast
  | case2 temp offset inData piece temp' hfull heof =>
    have hfull := Decidable.not_not.mp hfull
    have hdrop := drop_eq_read ips temp.length offset
    rw [patchLoop_field hfull hdrop] at h
    have htemp' : temp' = piece := readInto_full rfl hfull
    rw [htemp'] at heof
    rw [if_pos heof] at h
    have hmarker : ips.read temp.length offset = fileType.marker :=
      (isEof_iff htype (hfull.trans htemp)).mp heof
    exact ⟨[], fun _ h => absurd h List.not_mem_nil, (Prod.mk.inj (Option.some.inj h)).2.symm, _, hdrop,
      .inl ⟨_, congrArg (· ++ _) hmarker.symm⟩⟩
  | case3 temp offset inData piece temp' hfull heof hrecord =>
    have hfull := Decidable.not_not.mp hfull
    rw [patchLoop_field hfull (drop_eq_read ips temp.length offset)] at h
    have htemp' : temp' = piece := readInto_full rfl hfull
    rw [htemp'] at heof hrecord
    rw [if_neg heof, hrecord] at h
    cases h
  | case4 temp offset inData piece temp' hfull heof offset' inData' hrecord ih =>
    have hfull := Decidable.not_not.mp hfull
    have htemp' : temp' = piece := readInto_full rfl hfull
    have hdrop := drop_eq_read ips temp.length offset
    rw [patchLoop_field hfull hdrop] at h
    rw [htemp'] at heof hrecord ih
    rw [if_neg heof, hrecord] at h
    have hpiece := hfull.trans htemp
    obtain ⟨r, hoffset, hle, hsized, hwithin, hbody, rfl, rfl⟩ := patchRecord_eq_some_iff.mp hrecord
    have hfield : r.field fileType = piece := by
      rw [IpsRecord.field, hoffset, toBigEndian_ofBigEndian hpiece]
    have hwell : r.WellFormed fileType inData.length := {
      offset_le := hoffset.trans_le hle
      offset_lt := hoffset.trans_lt (ofBigEndian_lt hpiece)
      not_marker := fun hmarker =>
        heof ((isEof_iff htype hpiece).mpr (hfield.symm.trans hmarker))
      sized := hsized }
    have hsame := IpsRecord.apply_length hwell.offset_le
    obtain ⟨records, hrecords, hout, rest, hrest, hend⟩ := ih hpiece h
    rw [hsame] at hrecords
    refine ⟨r::records, ?_, hout, rest, ?_, ?_⟩
    · rintro r' hr'
      rcases List.mem_cons.mp hr' with rfl | hmem
      · exact ⟨hwell, hwithin⟩
      · exact hrecords r' hmem
    · obtain ⟨after, hafter⟩ := hbody
      have hnext := (read_of_drop rfl hafter.symm).2
      rw [List.flatMap_cons, IpsRecord.encode, hfield, List.append_assoc, List.append_assoc, hdrop,
        ← hafter, ← hnext, hrest]
    · rw [lastField, hfield]
      exact hend

theorem identifyMagic_iff (htype : fileType ≠ .error) (patch : List UInt8) :
    identifyMagic (patch.take 5) = fileType ↔ ∃ rest, patch = fileType.magic ++ rest := by
  have hfront : ∀ t : IpsFileType, t.magic.length = 5 →
      (t.magic.isPrefixOf (patch.take 5) = true ↔ ∃ rest, patch = t.magic ++ rest) := by
    intro t ht
    rw [List.isPrefixOf_iff_prefix, List.prefix_take_iff]
    constructor
    · rintro ⟨⟨rest, rfl⟩, -⟩
      exact ⟨rest, rfl⟩
    · rintro ⟨rest, rfl⟩
      exact ⟨List.prefix_append _ _, ht.le⟩
  have hips := hfront .ips rfl
  have hips32 := hfront .ips32 rfl
  rw [identifyMagic]
  cases fileType with
  | ips =>
    rw [← hips]
    split
    case isTrue h => exact iff_of_true rfl h
    case isFalse h =>
      refine iff_of_false ?_ h
      split <;> nofun
  | ips32 =>
    rw [← hips32]
    split
    case isTrue h =>
      refine iff_of_false nofun fun h32 => ?_
      obtain ⟨rest, rfl⟩ := hips.mp h
      obtain ⟨rest', hsame⟩ := hips32.mp h32
      simp [IpsFileType.magic] at hsame
    case isFalse h =>
      split
      case isTrue h32 => exact iff_of_true rfl h32
      case isFalse h32 => exact iff_of_false nofun h32
  | error => exact absurd rfl htype

theorem magic_length (htype : fileType ≠ .error) : fileType.magic.length = 5 := by
  cases fileType with
  | ips => rfl
  | ips32 => rfl
  | error => exact absurd rfl htype

theorem foldl_apply_length {data : List UInt8} {records : List IpsRecord}
    (h : ∀ r ∈ records, r.offset ≤ data.length) :
    (records.foldl IpsRecord.apply data).length = data.length := by
  induction records generalizing data with
  | nil => rfl
  | cons r records ih =>
    have hsame := IpsRecord.apply_length (h r List.mem_cons_self)
    rw [List.foldl_cons, ih fun r' hr' => by
      rw [hsame]
      exact h r' (List.mem_cons_of_mem _ hr'), hsame]

theorem read_all (file : VfsFile) : file.read file.size 0 = file.data := List.take_length

/-- A patch whose plain records lie inside the source is applied. -/
theorem patchIps_eq {source : VfsFile} (hsource : source.data ≠ []) {records : List IpsRecord}
    {rest : List UInt8} (h : IsPatch fileType source.size ips.data records rest)
    (hwithin : ∀ r ∈ records, ¬r.Crosses source.size) :
    patchIps source ips = some ⟨source.name, records.foldl IpsRecord.apply source.data⟩ := by
  have hmagic : identifyMagic (ips.read 5 0) = fileType :=
    (identifyMagic_iff h.type_ne ips.data).mpr ⟨_, h.bytes_eq⟩
  have hdrop : ips.data.drop 5 =
      records.flatMap (·.encode fileType) ++ (fileType.marker ++ rest) := by
    rw [h.bytes_eq, List.drop_left' (magic_length h.type_ne)]
  rw [patchIps, hmagic]
  dsimp only
  rw [if_neg h.type_ne, read_all, if_neg hsource,
    patchLoop_records h.type_ne List.length_replicate
      (fun r hr => ⟨h.wellFormed r hr, hwithin r hr⟩) hdrop]
  dsimp only
  rw [(isEof_iff h.type_ne (marker_length h.type_ne)).mpr rfl, if_neg (by decide)]

/-- What has been applied is a patch, or breaks off in a marker that its last field completes. -/
theorem patchIps_taken {source out : VfsFile} (h : patchIps source ips = some out) :
    ∃ fileType records rest,
      (IsPatch fileType source.size ips.data records rest ∨
        TornMarker fileType source.size ips.data records rest) ∧
      (∀ r ∈ records, ¬r.Crosses source.size) ∧
      out = ⟨source.name, records.foldl IpsRecord.apply source.data⟩ := by
  rw [patchIps, Option.ite_none_left_eq_some] at h
  obtain ⟨htype, h⟩ := h
  dsimp only at h
  rw [Option.ite_none_left_eq_some, read_all] at h
  obtain ⟨-, h⟩ := h
  obtain ⟨fileType, hmagic⟩ : ∃ fileType, identifyMagic (ips.read 5 0) = fileType := ⟨_, rfl⟩
  rw [hmagic] at h htype
  obtain ⟨bytes, hbytes⟩ := (identifyMagic_iff htype ips.data).mp hmagic
  cases hloop : patchLoop fileType ips (List.replicate fileType.recordSize 0) 5 source.data with
  | none =>
    rw [hloop] at h
    cases h
  | some result =>
    obtain ⟨last, data⟩ := result
    rw [hloop] at h
    dsimp only at h
    rw [Option.ite_none_left_eq_some, Bool.not_eq_true, Bool.not_eq_false] at h
    obtain ⟨hlast, h⟩ := h
    obtain rfl := Option.some.inj h
    obtain ⟨records, hrecords, rfl, rest, hrest, hend⟩ :=
      patchLoop_taken htype List.length_replicate hloop hlast
    rw [hbytes, List.drop_left' (magic_length htype)] at hrest
    have hwell : ∀ r ∈ records, r.WellFormed fileType source.size := fun r hr => (hrecords r hr).1
    have hwithin : ∀ r ∈ records, ¬r.Crosses source.size := fun r hr => (hrecords r hr).2
    rcases hend with ⟨rest', rfl⟩ | ⟨hshort, htorn⟩
    · exact ⟨fileType, records, rest', .inl ⟨htype, hbytes.trans (hrest ▸ rfl), hwell⟩,
        hwithin, rfl⟩
    · exact ⟨fileType, records, rest, .inr ⟨htype, hbytes.trans (hrest ▸ rfl), hwell, hshort,
        htorn⟩, hwithin, rfl⟩

/-! ### The format is not ambiguous -/

theorem IpsRecord.encode_inj {length : ℕ} {r r' : IpsRecord} {rest rest' : List UInt8}
    (h : r.WellFormed fileType length) (h' : r'.WellFormed fileType length)
    (heq : r.encode fileType ++ rest = r'.encode fileType ++ rest') : r = r' ∧ rest = rest' := by
  rw [encode, encode, List.append_assoc, List.append_assoc] at heq
  obtain ⟨hfield, hbody⟩ := List.append_inj heq
    ((field_length fileType r).trans (field_length fileType r').symm)
  have hoffset : r.offset = r'.offset := by
    have := congrArg ofBigEndian hfield
    rwa [field, field, ofBigEndian_toBigEndian h.offset_lt,
      ofBigEndian_toBigEndian h'.offset_lt] at this
  have hsize : ∀ {n n' : ℕ} {tail tail' : List UInt8}, n < 65536 → n' < 65536 →
      toBigEndian 2 n ++ tail = toBigEndian 2 n' ++ tail' → n = n' ∧ tail = tail' := by
    intro n n' tail tail' hn hn' heq
    obtain ⟨hnumber, htail⟩ := List.append_inj heq
      ((toBigEndian_length 2 n).trans (toBigEndian_length 2 n').symm)
    have := congrArg ofBigEndian hnumber
    rw [ofBigEndian_toBigEndian hn, ofBigEndian_toBigEndian hn'] at this
    exact ⟨this, htail⟩
  have hsized := h.sized
  have hsized' := h'.sized
  cases r with
  | plain start bytes =>
    cases r' with
    | plain start' bytes' =>
      obtain rfl : start = start' := hoffset
      rw [body, body, List.append_assoc, List.append_assoc] at hbody
      obtain ⟨hlength, hbytes⟩ := hsize hsized.2 hsized'.2 hbody
      obtain ⟨rfl, rfl⟩ := List.append_inj hbytes hlength
      exact ⟨rfl, rfl⟩
    | run start' size byte =>
      rw [body, body, List.append_assoc, List.append_assoc] at hbody
      exact absurd (hsize hsized.2 (by decide) hbody).1 hsized.1.ne'
  | run start size byte =>
    cases r' with
    | plain start' bytes' =>
      rw [body, body, List.append_assoc, List.append_assoc] at hbody
      exact absurd (hsize (by decide) hsized'.2 hbody).1.symm hsized'.1.ne'
    | run start' size' byte' =>
      obtain rfl : start = start' := hoffset
      rw [body, body, List.append_assoc, List.append_assoc, List.append_assoc,
        List.append_assoc] at hbody
      obtain ⟨rfl, hbytes⟩ := hsize hsized hsized' (List.append_cancel_left hbody)
      obtain ⟨rfl, rfl⟩ := List.cons.inj hbytes
      exact ⟨rfl, rfl⟩

/-- The records end where no whole field is left, or the marker stands. -/
def Ends (fileType : IpsFileType) (rest : List UInt8) : Prop :=
  rest.length < fileType.recordSize ∨ fileType.marker <+: rest

theorem Ends.not_record {rest tail : List UInt8} {length : ℕ} {r : IpsRecord}
    (hend : Ends fileType rest) (htype : fileType ≠ .error) (h : r.WellFormed fileType length) :
    rest ≠ r.encode fileType ++ tail := by
  rintro rfl
  rw [IpsRecord.encode, List.append_assoc] at hend
  have hlength := field_length fileType r
  rcases hend with hshort | ⟨after, hmarker⟩
  · rw [List.length_append, hlength] at hshort
    omega
  · exact h.not_marker
      (List.append_inj hmarker ((marker_length htype).trans hlength.symm)).1.symm

theorem records_unique {length : ℕ} {records records' : List IpsRecord} {rest rest' : List UInt8}
    (htype : fileType ≠ .error) (h : ∀ r ∈ records, r.WellFormed fileType length)
    (h' : ∀ r ∈ records', r.WellFormed fileType length)
    (hend : Ends fileType rest) (hend' : Ends fileType rest')
    (heq : records.flatMap (·.encode fileType) ++ rest =
      records'.flatMap (·.encode fileType) ++ rest') : records = records' ∧ rest = rest' := by
  induction records generalizing records' with
  | nil =>
    cases records' with
    | nil => exact ⟨rfl, heq⟩
    | cons r' records' =>
      rw [List.flatMap_cons, List.append_assoc] at heq
      exact absurd heq (hend.not_record htype (h' r' List.mem_cons_self))
  | cons r records ih =>
    rw [List.flatMap_cons, List.append_assoc] at heq
    cases records' with
    | nil => exact absurd heq.symm (hend'.not_record htype (h r List.mem_cons_self))
    | cons r' records' =>
      rw [List.flatMap_cons, List.append_assoc] at heq
      obtain ⟨rfl, hrest⟩ := IpsRecord.encode_inj (h r List.mem_cons_self)
        (h' r' List.mem_cons_self) heq
      obtain ⟨rfl, rfl⟩ := ih (fun r hr => h r (List.mem_cons_of_mem _ hr))
        (fun r hr => h' r (List.mem_cons_of_mem _ hr)) hrest
      exact ⟨rfl, rfl⟩

/-- A patch has one reading, and it does not break off. -/
theorem IsPatch.unique {fileType' : IpsFileType} {length : ℕ} {patch rest : List UInt8}
    {records : List IpsRecord} (h : IsPatch fileType length patch records rest) :
    (∀ records' rest', IsPatch fileType' length patch records' rest' → records' = records) ∧
      ∀ records' rest', ¬TornMarker fileType' length patch records' rest' := by
  have hsame : ∀ {tail}, fileType' ≠ .error → patch = fileType'.magic ++ tail →
      fileType' = fileType := fun hne hpatch =>
    ((identifyMagic_iff hne patch).mpr ⟨_, hpatch⟩).symm.trans
      ((identifyMagic_iff h.type_ne patch).mpr ⟨_, h.bytes_eq⟩)
  constructor
  · intro records' rest' h'
    obtain rfl := hsame h'.type_ne h'.bytes_eq
    exact (records_unique h'.type_ne h'.wellFormed h.wellFormed (.inr (List.prefix_append _ _))
      (.inr (List.prefix_append _ _))
      (List.append_cancel_left (h'.bytes_eq.symm.trans h.bytes_eq))).1
  · intro records' rest' h'
    obtain rfl := hsame h'.type_ne h'.bytes_eq
    obtain ⟨-, hrest⟩ := records_unique h'.type_ne h'.wellFormed h.wellFormed (.inl h'.short)
      (.inr (List.prefix_append _ _)) (List.append_cancel_left (h'.bytes_eq.symm.trans h.bytes_eq))
    have hshort := h'.short
    rw [hrest, List.length_append, marker_length h'.type_ne] at hshort
    omega

/-- `patch_ips` on a patch without a plain record across the end of the source, and without a
marker that the field before it completes. -/
theorem patchIps_accepts_iff (source ips : VfsFile) (hsource : source.data ≠ [])
    (hwithin : ∀ fileType records rest, IsPatch fileType source.size ips.data records rest →
      ∀ r ∈ records, ¬r.Crosses source.size)
    (htorn : ∀ fileType records rest, ¬TornMarker fileType source.size ips.data records rest)
    (out : VfsFile) :
    patchIps source ips = some out ↔ ∃ fileType records rest,
      IsPatch fileType source.size ips.data records rest ∧
      out = ⟨source.name, records.foldl IpsRecord.apply source.data⟩ ∧
      out.size = source.size := by
  constructor
  · intro h
    obtain ⟨fileType, records, rest, hpatch | htear, -, rfl⟩ := patchIps_taken h
    · exact ⟨fileType, records, rest, hpatch, rfl,
        foldl_apply_length fun r hr => (hpatch.wellFormed r hr).offset_le⟩
    · exact absurd htear (htorn fileType records rest)
  · rintro ⟨fileType, records, rest, hpatch, rfl, -⟩
    exact patchIps_eq hsource hpatch (hwithin fileType records rest hpatch)

/-- "PATCH", five bytes of nine from offset one on, "EOF" and a byte more. -/
theorem patchIps_accepts_iff_run :
    patchIps ⟨[], [1, 2, 3]⟩ ⟨[], [80, 65, 84, 67, 72, 0, 0, 1, 0, 0, 0, 5, 9, 69, 79, 70, 0]⟩ =
      some ⟨[], [1, 9, 9]⟩ := by
  have hpatch : IsPatch .ips 3 [80, 65, 84, 67, 72, 0, 0, 1, 0, 0, 0, 5, 9, 69, 79, 70, 0]
      [.run 1 5 9] [0] := {
    type_ne := nofun
    bytes_eq := by decide
    wellFormed := fun r hr => by
      obtain rfl := List.mem_singleton.mp hr
      exact ⟨by decide, by decide, by decide, by simp [IpsRecord.Sized]⟩ }
  refine (patchIps_accepts_iff ⟨[], [1, 2, 3]⟩ ⟨[], _⟩ (by simp) (fun fileType records rest h => ?_)
    (fun _ => hpatch.unique.2) _).mpr ⟨.ips, _, _, hpatch, by decide, by decide⟩
  rw [hpatch.unique.1 records rest h]
  exact fun r hr => List.mem_singleton.mp hr ▸ not_false

/-- A byte after the marker is no part of a patch, and is not looked at. -/
theorem patchIps_ignores_rest :
    (∃ out, patchIps ⟨[], [1]⟩ ⟨[], [80, 65, 84, 67, 72, 69, 79, 70, 0]⟩ = some out) ∧
      ¬∃ (fileType : IpsFileType) (records : List IpsRecord), fileType ≠ .error ∧
        [80, 65, 84, 67, 72, 69, 79, 70, 0] =
          fileType.magic ++ (records.flatMap (·.encode fileType) ++ fileType.marker) := by
  have hpatch : IsPatch .ips 1 [80, 65, 84, 67, 72, 69, 79, 70, 0] [] [0] :=
    ⟨nofun, rfl, nofun⟩
  refine ⟨⟨_, patchIps_eq (by simp) hpatch nofun⟩, ?_⟩
  rintro ⟨fileType, records, htype, heq⟩
  have hlength := congrArg List.length heq
  have hsize : 3 ≤ fileType.recordSize := by
    rw [IpsFileType.recordSize]
    split <;> decide
  rw [List.length_append, List.length_append, magic_length htype, marker_length htype] at hlength
  cases records with
  | nil =>
    have hmarker : 5 + fileType.recordSize = 9 := by simpa using hlength.symm
    cases fileType with
    | ips => exact absurd hmarker (by decide)
    | ips32 => simp [IpsFileType.magic] at heq
    | error => exact htype rfl
  | cons r records =>
    rw [List.flatMap_cons, List.length_append, IpsRecord.encode, List.length_append,
      field_length] at hlength
    simp only [List.length_cons, List.length_nil] at hlength
    omega

end Ruzu.FileSys
