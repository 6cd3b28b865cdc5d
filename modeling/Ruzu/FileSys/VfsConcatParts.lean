import Mathlib
import Ruzu.FileSys.VfsConcat

/-!
# What a concatenated file is made of

Files are glued one behind the other, or at given offsets with a filler between
them. What comes out is the virtual concatenation, byte for byte.
-/

set_option autoImplicit false

namespace Ruzu.FileSys

/-- The entries of a plain list, from `last_offset` on. -/
def joined : ℕ → List VfsFile → List ConcatenationEntry
  | _, [] => []
  | lastOffset, file::files => ⟨lastOffset, file⟩::joined (lastOffset + file.size) files

def makeConcatenatedFile (name : Name) (files : List VfsFile) : Option VirtualFile :=
  match files with
  | [] => none
  | [file] => some (.plain file)
  | files => some (.concatenated ⟨joined 0 files, name⟩)

/-- `sort_by_key`: a stable sort. -/
def sortByOffset (files : List (ℕ × VfsFile)) : List (ℕ × VfsFile) :=
  files.mergeSort fun a b => a.1 ≤ b.1

/-- No part starts before the one in front of it has ended. -/
def Apart : ℕ → List (ℕ × VfsFile) → Prop
  | _, [] => True
  | lastOffset, (offset, file)::files => lastOffset ≤ offset ∧ Apart (offset + file.size) files

/-- The end of the last part. -/
def lastEnd : ℕ → List (ℕ × VfsFile) → ℕ
  | lastOffset, [] => lastOffset
  | _, (offset, file)::files => lastEnd (offset + file.size) files

/-- The parts with the filler between them. -/
structure IsConcatenation (fillerByte : UInt8) (files : List (ℕ × VfsFile))
    (bytes : List UInt8) : Prop where
  le_length : ∀ part ∈ files, part.1 + part.2.size ≤ bytes.length
  length_eq : ∃ part ∈ files, part.1 + part.2.size = bytes.length
  part_bytes : ∀ part ∈ files, ∀ i, i < part.2.size → bytes[part.1 + i]? = part.2.data[i]?
  filler_bytes : ∀ p, p < bytes.length →
    (∀ part ∈ files, ¬(part.1 ≤ p ∧ p < part.1 + part.2.size)) → bytes[p]? = some fillerByte

namespace VirtualFile

/-- What a read can deliver, with any entry that its search may find. -/
def Reads : VirtualFile → (length offset : ℕ) → Option (List UInt8) → Prop
  | .plain file, length, offset, out => out = some (file.read length offset)
  | .concatenated file, length, offset, out => ∃ found : SearchResult,
      found.Valid file.concatenationMap offset ∧ out = file.readFrom found length offset

/-- The file has the bytes: as many as its size, and every read delivers its range of them. -/
structure Holds (file : VirtualFile) (bytes : List UInt8) : Prop where
  size_eq : file.getSize = bytes.length
  reads : ∀ length offset, ∃ out, file.Reads length offset out
  delivers : ∀ length offset out, file.Reads length offset out → ∃ delivered,
    out = some delivered ∧ delivered.length = min length (file.getSize - offset) ∧
      ∀ i, i < delivered.length → delivered[i]? = bytes[offset + i]?

theorem delivers_range (bytes : List UInt8) (length offset : ℕ) :
    ((bytes.drop offset).take length).length = min length (bytes.length - offset) ∧
      ∀ i, i < ((bytes.drop offset).take length).length →
        ((bytes.drop offset).take length)[i]? = bytes[offset + i]? := by
  have hlength : ((bytes.drop offset).take length).length = min length (bytes.length - offset) := by
    rw [List.length_take, List.length_drop]
  refine ⟨hlength, fun i hi => ?_⟩
  rw [List.getElem?_take_of_lt (by omega), List.getElem?_drop]

theorem plain_holds (file : VfsFile) : (plain file).Holds file.data where
  size_eq := rfl
  reads _ _ := ⟨_, rfl⟩
  delivers length offset _ hout := ⟨_, hout, delivers_range file.data length offset⟩

theorem concatenated_holds (c : ConcatenatedVfsFile) (h : Continuous 0 c.concatenationMap)
    (hsize : c.getSize = (content c.concatenationMap).length) :
    (concatenated c).Holds (content c.concatenationMap) where
  size_eq := hsize
  reads _ offset := ⟨_, .first c.concatenationMap offset, SearchResult.first_valid h, rfl⟩
  delivers length offset out hout := by
    obtain ⟨found, hvalid, rfl⟩ := hout
    refine ⟨_, readFrom_eq c h hvalid length, ?_⟩
    rw [show (concatenated c).getSize = (content c.concatenationMap).length from hsize]
    exact delivers_range _ length offset

end VirtualFile

/-! ### The entries -/

variable (fillerByte : UInt8) {lastOffset : ℕ}

theorem joined_continuous (lastOffset : ℕ) (files : List VfsFile) :
    Continuous lastOffset (joined lastOffset files) := by
  induction files generalizing lastOffset with
  | nil => trivial
  | cons file files ih => exact ⟨rfl, ih _⟩

theorem joined_content (lastOffset : ℕ) (files : List VfsFile) :
    content (joined lastOffset files) = files.flatMap VfsFile.data := by
  induction files generalizing lastOffset with
  | nil => rfl
  | cons file files ih =>
    rw [List.flatMap_cons, ← ih (lastOffset + file.size)]
    rfl

theorem fillGaps_continuous {files : List (ℕ × VfsFile)} (h : Apart lastOffset files) :
    Continuous lastOffset (ConcatenatedVfsFile.fillGaps fillerByte lastOffset files) := by
  induction files generalizing lastOffset with
  | nil => trivial
  | cons part files ih =>
    obtain ⟨offset, file⟩ := part
    obtain ⟨hle, hrest⟩ := h
    rw [ConcatenatedVfsFile.fillGaps]
    split
    case isTrue hgap =>
      refine ⟨rfl, ?_, ih hrest⟩
      simp only [ConcatenationEntry.stop, VfsFile.static, VfsFile.size, List.length_replicate]
      omega
    case isFalse hnone => exact ⟨by simp only; omega, ih hrest⟩

/-- The bytes of the first part stand behind its gap. -/
theorem fillGaps_content (offset : ℕ) (file : VfsFile) (files : List (ℕ × VfsFile)) :
    content (ConcatenatedVfsFile.fillGaps fillerByte lastOffset ((offset, file)::files)) =
      List.replicate (offset - lastOffset) fillerByte ++ (file.data ++
        content (ConcatenatedVfsFile.fillGaps fillerByte (offset + file.size) files)) := by
  rw [ConcatenatedVfsFile.fillGaps]
  split
  case isTrue hgap => rfl
  case isFalse hnone =>
    rw [Nat.sub_eq_zero_of_le (by omega), List.replicate_zero]
    rfl

theorem fillGaps_length {files : List (ℕ × VfsFile)} (h : Apart lastOffset files) :
    lastOffset + (content (ConcatenatedVfsFile.fillGaps fillerByte lastOffset files)).length =
      lastEnd lastOffset files := by
  induction files generalizing lastOffset with
  | nil => rfl
  | cons part files ih =>
    obtain ⟨offset, file⟩ := part
    have hrest := ih h.2
    have hle : lastOffset ≤ offset := h.1
    rw [fillGaps_content, lastEnd, List.length_append, List.length_replicate, List.length_append]
    rw [VfsFile.size] at hrest ⊢
    omega

theorem fillGaps_part {files : List (ℕ × VfsFile)} (h : Apart lastOffset files)
    {part : ℕ × VfsFile} (hpart : part ∈ files) {i : ℕ} (hi : i < part.2.size) :
    lastOffset ≤ part.1 ∧ (content (ConcatenatedVfsFile.fillGaps fillerByte lastOffset files))[
      part.1 + i - lastOffset]? = part.2.data[i]? := by
  induction files generalizing lastOffset with
  | nil => exact absurd hpart List.not_mem_nil
  | cons first files ih =>
    obtain ⟨offset, file⟩ := first
    have hle : lastOffset ≤ offset := h.1
    have hsize : file.data.length = file.size := rfl
    rw [fillGaps_content]
    rcases List.mem_cons.mp hpart with rfl | hrest
    · refine ⟨hle, ?_⟩
      rw [List.getElem?_append_right (by rw [List.length_replicate]; omega), List.length_replicate,
        List.getElem?_append_left (by rw [hsize]; dsimp only at hi ⊢; omega)]
      congr 1
      omega
    · obtain ⟨hbehind, hbyte⟩ := ih h.2 hrest
      refine ⟨by omega, ?_⟩
      rw [List.getElem?_append_right (by rw [List.length_replicate]; omega), List.length_replicate,
        List.getElem?_append_right (by rw [hsize]; omega), hsize, ← hbyte]
      congr 1
      omega

theorem fillGaps_filler {files : List (ℕ × VfsFile)} (h : Apart lastOffset files) {p : ℕ}
    (hp : lastOffset ≤ p) (hstop : p < lastEnd lastOffset files)
    (hnone : ∀ part ∈ files, ¬(part.1 ≤ p ∧ p < part.1 + part.2.size)) :
    (content (ConcatenatedVfsFile.fillGaps fillerByte lastOffset files))[p - lastOffset]? =
      some fillerByte := by
  induction files generalizing lastOffset with
  | nil => exact absurd hstop (Nat.not_lt.mpr hp)
  | cons first files ih =>
    obtain ⟨offset, file⟩ := first
    have hle : lastOffset ≤ offset := h.1
    have hsize : file.data.length = file.size := rfl
    rw [fillGaps_content]
    rcases Nat.lt_or_ge p offset with hgap | hbehind
    · rw [List.getElem?_append_left (by rw [List.length_replicate]; omega),
        List.getElem?_replicate, if_pos (by omega)]
    · have hover : offset + file.size ≤ p := by
        have := hnone _ List.mem_cons_self
        dsimp only at this
        omega
      have hbyte := ih h.2 hover hstop fun part hpart => hnone part (List.mem_cons_of_mem _ hpart)
      rw [List.getElem?_append_right (by rw [List.length_replicate]; omega), List.length_replicate,
        List.getElem?_append_right (by rw [hsize]; omega), hsize, ← hbyte]
      congr 1
      omega

theorem Apart.end_le_lastEnd {files : List (ℕ × VfsFile)} (h : Apart lastOffset files) :
    lastOffset ≤ lastEnd lastOffset files ∧
      ∀ part ∈ files, part.1 + part.2.size ≤ lastEnd lastOffset files := by
  induction files generalizing lastOffset with
  | nil => exact ⟨Nat.le_refl _, nofun⟩
  | cons first files ih =>
    obtain ⟨hle, hall⟩ := ih h.2
    have hoffset : lastOffset ≤ first.1 := h.1
    refine ⟨?_, fun part hpart => ?_⟩
    · rw [lastEnd]
      omega
    · rcases List.mem_cons.mp hpart with rfl | hrest
      · exact hle
      · exact hall part hrest

theorem lastEnd_mem (lastOffset : ℕ) {files : List (ℕ × VfsFile)} (hfiles : files ≠ []) :
    ∃ part ∈ files, part.1 + part.2.size = lastEnd lastOffset files := by
  induction files generalizing lastOffset with
  | nil => exact absurd rfl hfiles
  | cons first files ih =>
    rcases files.eq_nil_or_concat with rfl | ⟨_, _, hconcat⟩
    · exact ⟨first, List.mem_cons_self, rfl⟩
    · obtain ⟨part, hpart, hend⟩ := ih (first.1 + first.2.size) (by simp [hconcat])
      exact ⟨part, List.mem_cons_of_mem _ hpart, hend⟩

/-! ### The files built -/

theorem getSize_eq (c : ConcatenatedVfsFile) (h : Continuous 0 c.concatenationMap) :
    c.getSize = (content c.concatenationMap).length := by
  rw [ConcatenatedVfsFile.getSize]
  rcases c.concatenationMap.eq_nil_or_concat with hnil | ⟨front, last, hconcat⟩
  · rw [hnil]
    rfl
  · rw [List.concat_eq_append] at hconcat
    have hlast : c.concatenationMap.drop front.length = last::[] := by
      rw [hconcat, List.drop_left]
    have hoffset := (h.offset_eq hlast).1
    rw [hconcat, List.take_left] at hoffset
    rw [hconcat, List.getLast?_concat, content_append, List.length_append, ← hoffset]
    simp [content, ConcatenationEntry.stop, VfsFile.size]

theorem sortByOffset_mem {files : List (ℕ × VfsFile)} {part : ℕ × VfsFile} :
    part ∈ sortByOffset files ↔ part ∈ files := by
  rw [sortByOffset, List.mem_mergeSort]

theorem fillGaps_isConcatenation {files : List (ℕ × VfsFile)} (hfiles : files ≠ [])
    (h : Apart 0 (sortByOffset files)) : IsConcatenation fillerByte files
      (content (ConcatenatedVfsFile.fillGaps fillerByte 0 (sortByOffset files))) := by
  have hlength := fillGaps_length fillerByte h
  rw [Nat.zero_add] at hlength
  have hsorted : sortByOffset files ≠ [] := by
    obtain ⟨part, hpart⟩ := List.exists_mem_of_ne_nil files hfiles
    exact List.ne_nil_of_mem (sortByOffset_mem.2 hpart)
  exact {
    le_length := fun part hpart =>
      (h.end_le_lastEnd.2 part (sortByOffset_mem.2 hpart)).trans hlength.ge
    length_eq := by
      obtain ⟨part, hpart, hend⟩ := lastEnd_mem 0 hsorted
      exact ⟨part, sortByOffset_mem.1 hpart, hend.trans hlength.symm⟩
    part_bytes := fun part hpart i hi => by
      simpa using (fillGaps_part fillerByte h (sortByOffset_mem.2 hpart) hi).2
    filler_bytes := fun p hp hnone => by
      simpa using fillGaps_filler fillerByte h (Nat.zero_le p) (hp.trans_eq hlength) fun part hpart =>
        hnone part (sortByOffset_mem.1 hpart) }

/-- A plain list of files is their bytes one behind the other. -/
theorem makeConcatenatedFile_holds (name : Name) {files : List VfsFile} (hfiles : files ≠ []) :
    ∃ file, makeConcatenatedFile name files = some file ∧
      file.Holds (files.flatMap VfsFile.data) := by
  match files with
  | [file] =>
    refine ⟨_, rfl, ?_⟩
    rw [List.flatMap_singleton]
    exact VirtualFile.plain_holds file
  | first::second::files =>
    have hcont := joined_continuous 0 (first::second::files)
    refine ⟨_, rfl, ?_⟩
    rw [← joined_content 0]
    exact VirtualFile.concatenated_holds ⟨_, name⟩ hcont (getSize_eq ⟨_, name⟩ hcont)

/-- The parts at their offsets are glued, unless there is one part alone: it is handed out as it
is, and then a gap in front of it is missing. -/
theorem makeConcatenatedFileWithFiller_holds_iff (fillerByte : UInt8) (name : Name)
    {files : List (ℕ × VfsFile)} (hfiles : files ≠ []) (h : Apart 0 (sortByOffset files)) :
    (∃ file bytes, makeConcatenatedFileWithFiller fillerByte name files = some file ∧
        IsConcatenation fillerByte files bytes ∧ file.Holds bytes) ↔
      ¬∃ offset file, files = [(offset, file)] ∧ 0 < offset := by
  match files with
  | [(offset, file)] =>
    constructor
    · rintro ⟨_, bytes, hmake, hbytes, hholds⟩ ⟨offset, file, hone, hoffset⟩
      obtain ⟨rfl, rfl⟩ := Prod.mk.inj (List.cons.inj hone).1
      obtain rfl := Option.some.inj hmake
      have hsize : file.size = bytes.length := hholds.size_eq
      have hend : offset + file.size ≤ bytes.length := hbytes.le_length _ List.mem_cons_self
      omega
    · intro hzero
      obtain rfl : offset = 0 := Nat.eq_zero_of_not_pos fun hpos => hzero ⟨_, _, rfl, hpos⟩
      refine ⟨_, file.data, rfl, ⟨?_, ?_, ?_, ?_⟩, VirtualFile.plain_holds file⟩
      · rintro part hpart
        rw [List.mem_singleton.mp hpart, Nat.zero_add]
        exact Nat.le_refl _
      · exact ⟨_, List.mem_cons_self, Nat.zero_add _⟩
      · rintro part hpart i -
        rw [List.mem_singleton.mp hpart, Nat.zero_add]
      · intro p hp hnone
        refine absurd ⟨Nat.zero_le _, ?_⟩ (hnone _ List.mem_cons_self)
        rw [Nat.zero_add]
        exact hp
  | first::second::files =>
    refine iff_of_true ?_ (by rintro ⟨_, _, hone, -⟩; simp at hone)
    have hcont := fillGaps_continuous fillerByte h
    exact ⟨_, _, rfl, fillGaps_isConcatenation fillerByte hfiles h,
      VirtualFile.concatenated_holds ⟨_, name⟩ hcont (getSize_eq ⟨_, name⟩ hcont)⟩

end Ruzu.FileSys
