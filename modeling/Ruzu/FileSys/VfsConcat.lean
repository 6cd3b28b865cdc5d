import Mathlib

/-!
# Concatenated files

`vfs_concat.rs`: files at offsets are glued into one file, with a filler in the
gaps. A read starts at the entry around its offset and runs on through the
entries after it.
-/

set_option autoImplicit false

namespace Ruzu.FileSys

/-- The UTF-8 bytes of a name. -/
abbrev Name := List UInt8

/-- A file with its bytes. -/
structure VfsFile where
  name : Name
  data : List UInt8
  deriving DecidableEq

namespace VfsFile

def size (f : VfsFile) : ℕ := f.data.length

/-- What `read` delivers: as much of the range as there is. -/
def read (f : VfsFile) (length offset : ℕ) : List UInt8 := (f.data.drop offset).take length

/-- The buffer after a read: as much of it as there is in the file. -/
def readInto (file : VfsFile) (buffer : List UInt8) (length offset : ℕ) : List UInt8 :=
  let piece := file.read length offset
  piece ++ buffer.drop piece.length

/-- `StaticVfsFile::with_defaults`. -/
def static (value : UInt8) (size : ℕ) : VfsFile := ⟨[], List.replicate size value⟩

end VfsFile

structure ConcatenationEntry where
  offset : ℕ
  file : VfsFile

def ConcatenationEntry.stop (e : ConcatenationEntry) : ℕ := e.offset + e.file.size

structure ConcatenatedVfsFile where
  concatenationMap : List ConcatenationEntry
  name : Name

namespace ConcatenatedVfsFile

/-- The entries from `last_offset` on. -/
def fillGaps (fillerByte : UInt8) : ℕ → List (ℕ × VfsFile) → List ConcatenationEntry
  | _, [] => []
  | lastOffset, (offset, file)::files =>
    (if offset > lastOffset then
      [⟨lastOffset, .static fillerByte (offset - lastOffset)⟩] else []) ++
      ⟨offset, file⟩::fillGaps fillerByte (offset + file.size) files

variable (c : ConcatenatedVfsFile)

def getName : Name :=
  match c.concatenationMap with
  | [] => []
  | entry::_ => if c.name ≠ [] then c.name else entry.file.name

def getSize : ℕ := (c.concatenationMap.getLast?.map ConcatenationEntry.stop).getD 0

/-- `binary_search_by` on the offsets: the entry at the offset, or else the one in front of
where it would stand. -/
def startIdx (offset : ℕ) : ℕ :=
  let idx := c.concatenationMap.findIdx fun e => offset ≤ e.offset
  if (c.concatenationMap[idx]?.map ConcatenationEntry.offset) = some offset then idx else idx - 1

end ConcatenatedVfsFile

/-- What `binary_search_by` gives: an entry at the offset, or the place where one would stand. -/
inductive SearchResult
  | ok (idx : ℕ)
  | err (idx : ℕ)

namespace SearchResult

/-- Of several entries at the offset any may be the one that is found. -/
def Valid (map : List ConcatenationEntry) (offset : ℕ) : SearchResult → Prop
  | ok idx => map[idx]?.map ConcatenationEntry.offset = some offset
  | err idx => idx ≤ map.length ∧ (∀ entry ∈ map.take idx, entry.offset < offset) ∧
      ∀ entry ∈ map.drop idx, offset < entry.offset

def startIdx : SearchResult → ℕ
  | ok idx => idx
  | err idx => idx - 1

/-- The search that stops at the first entry. -/
def first (map : List ConcatenationEntry) (offset : ℕ) : SearchResult :=
  let idx := map.findIdx fun e => offset ≤ e.offset
  if (map[idx]?.map ConcatenationEntry.offset) = some offset then ok idx else err idx

end SearchResult

namespace ConcatenatedVfsFile

variable (c : ConcatenatedVfsFile)

/-- The loop of `read`. An offset below that of its entry is a fault. -/
def readLoop : List ConcatenationEntry → (curLength curOffset : ℕ) → Option (List UInt8)
  | [], _, _ => some []
  | entry::entries, curLength, curOffset =>
    if curLength = 0 then some []
    else if curOffset > entry.stop then some []
    else if curOffset < entry.offset then none
    else
      let fileSeek := curOffset - entry.offset
      let intendedReadSize := min curLength (entry.file.size - fileSeek)
      let piece := entry.file.read intendedReadSize fileSeek
      if piece.length < intendedReadSize then some piece
      else (readLoop entries (curLength - piece.length) (curOffset + piece.length)).map (piece ++ ·)

def read (length offset : ℕ) : Option (List UInt8) :=
  readLoop (c.concatenationMap.drop (c.startIdx offset)) length offset

/-- `read`, whichever entry the search has found. -/
def readFrom (found : SearchResult) (length offset : ℕ) : Option (List UInt8) :=
  readLoop (c.concatenationMap.drop found.startIdx) length offset

end ConcatenatedVfsFile

inductive VirtualFile
  | plain (file : VfsFile)
  | concatenated (file : ConcatenatedVfsFile)

namespace VirtualFile

def getName : VirtualFile → Name
  | .plain file => file.name
  | .concatenated file => file.getName

def getSize : VirtualFile → ℕ
  | .plain file => file.size
  | .concatenated file => file.getSize

def read : VirtualFile → (length offset : ℕ) → Option (List UInt8)
  | .plain file, length, offset => some (file.read length offset)
  | .concatenated file, length, offset => file.read length offset

end VirtualFile

def makeConcatenatedFileWithFiller (fillerByte : UInt8) (name : Name)
    (files : List (ℕ × VfsFile)) : Option VirtualFile :=
  match files with
  | [] => none
  | [(_, file)] => some (.plain file)
  | files =>
    let files := files.mergeSort fun a b => a.1 ≤ b.1
    some (.concatenated ⟨ConcatenatedVfsFile.fillGaps fillerByte 0 files, name⟩)

/-! ### What a concatenated file holds -/

/-- Each entry starts where the one before it stops. -/
def Continuous : ℕ → List ConcatenationEntry → Prop
  | _, [] => True
  | start, entry::entries => entry.offset = start ∧ Continuous entry.stop entries

def content (entries : List ConcatenationEntry) : List UInt8 :=
  entries.flatMap fun e => e.file.data

variable {entries entries' : List ConcatenationEntry} {start : ℕ}

theorem Continuous.drop (h : Continuous start entries) (i : ℕ) :
    Continuous (start + (content (entries.take i)).length) (entries.drop i) := by
  induction i generalizing start entries with
  | zero => exact h
  | succ i ih =>
    cases entries with
    | nil => trivial
    | cons entry entries =>
      have hrest := ih h.2
      rwa [ConcatenationEntry.stop, h.1, VfsFile.size, Nat.add_assoc,
        ← List.length_append] at hrest

theorem content_append : content (entries ++ entries') = content entries ++ content entries' :=
  List.flatMap_append

theorem readLoop_zero (entries : List ConcatenationEntry) (curOffset : ℕ) :
    ConcatenatedVfsFile.readLoop entries 0 curOffset = some [] := by
  cases entries with
  | nil => rfl
  | cons entry entries => rw [ConcatenatedVfsFile.readLoop, if_pos rfl]

/-- The loop of `read` delivers the range, when it starts in an entry around the offset. -/
theorem readLoop_eq (h : Continuous start entries) {curLength curOffset : ℕ}
    (hstart : start ≤ curOffset)
    (hfirst : ∀ entry rest, entries = entry::rest → curOffset ≤ entry.stop ∨ rest = []) :
    ConcatenatedVfsFile.readLoop entries curLength curOffset =
      some (((content entries).drop (curOffset - start)).take curLength) := by
  induction entries generalizing start curLength curOffset with
  | nil =>
    rw [ConcatenatedVfsFile.readLoop, content, List.flatMap_nil, List.drop_nil, List.take_nil]
  | cons entry entries ih =>
    obtain ⟨hoffset, hrest⟩ := h
    have hcontent : content (entry::entries) = entry.file.data ++ content entries := rfl
    have hsize : entry.file.data.length = entry.file.size := rfl
    rw [ConcatenatedVfsFile.readLoop]
    split
    case isTrue hzero => rw [hzero, List.take_zero]
    case isFalse hmore =>
      split
      case isTrue hbeyond =>
        rcases hfirst entry entries rfl with hle | rfl
        · exact absurd hbeyond (Nat.not_lt.mpr hle)
        · rw [ConcatenationEntry.stop] at hbeyond
          rw [hcontent, List.drop_eq_nil_of_le, List.take_nil]
          simp only [content, List.flatMap_nil, List.append_nil, hsize]
          omega
      case isFalse hwithin =>
        rw [ConcatenationEntry.stop] at hwithin
        rw [if_neg (by omega), hoffset]
        obtain ⟨seek, hseek⟩ := Nat.exists_eq_add_of_le hstart
        rw [hseek, Nat.add_sub_cancel_left]
        have hfit : seek ≤ entry.file.size := by omega
        have hlength : ∀ n ≤ entry.file.size - seek, (entry.file.read n seek).length = n := by
          intro n hn
          rw [VfsFile.read, List.length_take, List.length_drop, hsize]
          omega
        dsimp only
        rw [hlength _ (Nat.min_le_right _ _), if_neg (Nat.lt_irrefl _), hcontent,
          List.drop_append_of_le_length hfit]
        rcases Nat.le_total curLength (entry.file.size - seek) with hall | hpart
        · -- the range ends in this entry
          rw [Nat.min_eq_left hall, Nat.sub_self, readLoop_zero, Option.map_some, List.append_nil,
            List.take_append_of_le_length (by rw [List.length_drop, hsize]; exact hall)]
          rfl
        · rw [Nat.min_eq_right hpart]
          have hnext : start + seek + (entry.file.size - seek) = entry.stop := by
            rw [ConcatenationEntry.stop]
            omega
          rw [hnext, ih hrest (Nat.le_refl _) fun next rest hnext => by
            subst hnext
            rw [hrest.1.symm]
            exact .inl (Nat.le_add_right _ _)]
          have htake : (entry.file.data.drop seek).take curLength = entry.file.data.drop seek :=
            List.take_of_length_le (by rw [List.length_drop, hsize]; exact hpart)
          have hread : entry.file.read (entry.file.size - seek) seek =
              entry.file.data.drop seek :=
            List.take_of_length_le (by rw [List.length_drop, hsize])
          rw [Option.map_some, Nat.sub_self, List.drop_zero, List.take_append, List.length_drop,
            hsize, htake, hread]

/-- An entry stands behind the bytes of those in front of it. -/
theorem Continuous.offset_eq (h : Continuous 0 entries) {i : ℕ} {entry : ConcatenationEntry}
    {rest : List ConcatenationEntry} (hi : entries.drop i = entry::rest) :
    entry.offset = (content (entries.take i)).length ∧ Continuous entry.stop rest := by
  have hdrop := h.drop i
  rwa [hi, Nat.zero_add] at hdrop

theorem Continuous.le_offset (h : Continuous start entries) {entry : ConcatenationEntry}
    (hentry : entry ∈ entries) : start ≤ entry.offset := by
  induction entries generalizing start with
  | nil => exact absurd hentry List.not_mem_nil
  | cons first rest ih =>
    rcases List.mem_cons.mp hentry with rfl | hrest
    · exact h.1.ge
    · have hle := ih h.2 hrest
      rw [ConcatenationEntry.stop, h.1] at hle
      omega

namespace SearchResult

variable {map : List ConcatenationEntry} {offset : ℕ} {found : SearchResult}

theorem first_startIdx (c : ConcatenatedVfsFile) (offset : ℕ) :
    (first c.concatenationMap offset).startIdx = c.startIdx offset := by
  rw [first, ConcatenatedVfsFile.startIdx]
  split <;> rfl

theorem first_valid (h : Continuous 0 map) : (first map offset).Valid map offset := by
  rw [first]
  obtain ⟨idx, hidx⟩ : ∃ idx, idx = map.findIdx fun e : ConcatenationEntry =>
    offset ≤ e.offset := ⟨_, rfl⟩
  rw [← hidx]
  split
  case isTrue hexact => exact hexact
  case isFalse hother =>
    refine ⟨hidx ▸ List.findIdx_le_length, fun entry hentry => ?_, fun entry hentry => ?_⟩
    · obtain ⟨i, hi, rfl⟩ := List.mem_take_iff_getElem.mp hentry
      have hnot : decide (offset ≤ map[i].offset) = false := List.not_of_lt_findIdx
        (p := fun e : ConcatenationEntry => decide (offset ≤ e.offset)) (by omega)
      exact Nat.not_le.mp (of_decide_eq_false hnot)
    · have hlt : idx < map.length := by
        refine Nat.not_le.mp fun hge => ?_
        rw [List.drop_eq_nil_of_le hge] at hentry
        exact absurd hentry List.not_mem_nil
      have hdrop := List.drop_eq_getElem_cons hlt
      have hfound : offset ≤ map[idx].offset := by
        subst hidx
        exact of_decide_eq_true (List.findIdx_getElem (w := hlt))
      rw [List.getElem?_eq_getElem hlt, Option.map_some, Option.some_inj] at hother
      rw [hdrop] at hentry
      have hrest := h.drop idx
      rw [hdrop] at hrest
      rcases List.mem_cons.mp hentry with rfl | hmem
      · omega
      · have hle := hrest.2.le_offset hmem
        rw [ConcatenationEntry.stop] at hle
        omega

/-- The search finds an entry around the offset, or the last one. -/
theorem Valid.spec (hvalid : found.Valid map offset) (h : Continuous 0 map) :
    (content (map.take found.startIdx)).length ≤ offset ∧
      ∀ entry rest, map.drop found.startIdx = entry::rest →
        offset ≤ entry.stop ∨ rest = [] := by
  cases found with
  | ok idx =>
    obtain ⟨entry, hentry, hoffset⟩ := Option.map_eq_some_iff.mp hvalid
    obtain ⟨hlt, rfl⟩ := List.getElem?_eq_some_iff.mp hentry
    have hdrop := List.drop_eq_getElem_cons hlt
    refine ⟨?_, fun entry' rest' heq => .inl ?_⟩
    · exact (h.offset_eq hdrop).1.ge.trans hoffset.le
    · obtain ⟨rfl, -⟩ := List.cons.inj (hdrop.symm.trans heq)
      rw [ConcatenationEntry.stop, hoffset]
      exact Nat.le_add_right _ _
  | err idx =>
    obtain ⟨hle, hbelow, habove⟩ := hvalid
    cases idx with
    | zero =>
      cases map with
      | nil => exact ⟨Nat.zero_le _, nofun⟩
      | cons entry map =>
        have hbefore : offset < entry.offset := habove entry List.mem_cons_self
        rw [h.1] at hbefore
        exact absurd hbefore (Nat.not_lt_zero _)
    | succ i =>
      have hdrop := List.drop_eq_getElem_cons hle
      have hlast : map[i].offset < offset :=
        hbelow _ (List.mem_take_iff_getElem.mpr ⟨i, by omega, rfl⟩)
      change (content (map.take i)).length ≤ offset ∧
        ∀ entry rest, map.drop i = entry::rest → offset ≤ entry.stop ∨ rest = []
      refine ⟨(h.offset_eq hdrop).1.ge.trans hlast.le, fun entry rest heq => ?_⟩
      obtain ⟨rfl, rfl⟩ := List.cons.inj (hdrop.symm.trans heq)
      rcases Nat.lt_or_ge (i + 1) map.length with hlt | hge
      · refine .inl ?_
        have hnext := List.drop_eq_getElem_cons hlt
        have hcont := (h.offset_eq hdrop).2
        rw [hnext] at hcont
        rw [← hcont.1]
        exact (habove _ (hnext ▸ List.mem_cons_self)).le
      · exact .inr (List.drop_eq_nil_of_le hge)

end SearchResult

theorem readFrom_eq (c : ConcatenatedVfsFile) (h : Continuous 0 c.concatenationMap)
    {found : SearchResult} {offset : ℕ} (hvalid : found.Valid c.concatenationMap offset)
    (length : ℕ) : c.readFrom found length offset =
      some (((content c.concatenationMap).drop offset).take length) := by
  obtain ⟨hle, hfirst⟩ := hvalid.spec h
  have hrest := h.drop found.startIdx
  rw [Nat.zero_add] at hrest
  rw [ConcatenatedVfsFile.readFrom, readLoop_eq hrest hle hfirst]
  conv_rhs => rw [← List.take_append_drop found.startIdx c.concatenationMap]
  rw [content_append, List.drop_append, List.drop_eq_nil_of_le hle, List.nil_append]

theorem read_eq (c : ConcatenatedVfsFile) (h : Continuous 0 c.concatenationMap)
    (length offset : ℕ) : c.read length offset =
      some (((content c.concatenationMap).drop offset).take length) := by
  rw [ConcatenatedVfsFile.read, ← SearchResult.first_startIdx]
  exact readFrom_eq c h (SearchResult.first_valid h) length

end Ruzu.FileSys
