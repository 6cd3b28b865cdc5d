import Ruzu.FileSys.RomFs
import Ruzu.Lib.Walk

/-!
# Where reading a RomFS image ends

The reader keeps no account of the entries it has come to. It comes to an end
just when the links of the image lead to none of them twice on one way.
-/

set_option autoImplicit false

namespace Ruzu.FileSys
open Image Relation Walk

variable {overflowChecks : Bool} {ctx : RomFSTraversalContext}

/-- From the entry of a file to its sibling. -/
def FileLink (ctx : RomFSTraversalContext) (a b : ℕ) : Prop :=
  a ≠ romfsEntryEmpty ∧ ∃ entry name, getFileEntry ctx.fileMeta a = some (entry, name) ∧
    entry.sibling = b

/-- The place of the file's bytes is a number of 64 bits, where that is checked. -/
def FileInOrder (overflowChecks : Bool) (ctx : RomFSTraversalContext) (a : ℕ) : Prop :=
  a ≠ romfsEntryEmpty → ∀ entry name, getFileEntry ctx.fileMeta a = some (entry, name) →
    overflowChecks = true → entry.offset + ctx.header.dataOffset < 2 ^ 64

/-- From the entry of a directory to its first child and to its sibling. -/
def DirectoryLink (ctx : RomFSTraversalContext) (a b : ℕ) : Prop :=
  a ≠ romfsEntryEmpty ∧ ∃ entry name, getDirectoryEntry ctx.directoryMeta a = some (entry, name) ∧
    (entry.childDir = b ∨ entry.sibling = b)

/-- The files of a directory are in order, and none of them is met twice. -/
def FilesInOrder (overflowChecks : Bool) (ctx : RomFSTraversalContext) (a : ℕ) : Prop :=
  a ≠ romfsEntryEmpty → ∀ entry name,
    getDirectoryEntry ctx.directoryMeta a = some (entry, name) →
      ∀ f, ReflTransGen (FileLink ctx) entry.childFile f →
        FileInOrder overflowChecks ctx f ∧ ¬TransGen (FileLink ctx) f f

/-- The header and the tables of an image. -/
def tables (image : VfsFile) (header : RomFSHeader) : RomFSTraversalContext :=
  { header, file := .plain image
    directoryMeta := image.read header.directoryMeta.size header.directoryMeta.offset
    fileMeta := image.read header.fileMeta.size header.fileMeta.offset }

/-- The tables can be asked for, and no way along the links from the root directory meets an
entry twice. -/
structure ImageInOrder (overflowChecks : Bool) (image : VfsFile) (header : RomFSHeader) :
    Prop where
  directoryMeta_lt : header.directoryMeta.size < 2 ^ 63
  fileMeta_lt : header.fileMeta.size < 2 ^ 63
  files : ∀ a, ReflTransGen (DirectoryLink (tables image header)) 0 a →
    FilesInOrder overflowChecks (tables image header) a
  acyclic : ∀ a, ReflTransGen (DirectoryLink (tables image header)) 0 a →
    ¬TransGen (DirectoryLink (tables image header)) a a

/-! ### The walk along the files -/

theorem readLe_lt {k pos n : ℕ} {bytes : List UInt8} (hk : 0 < k)
    (h : readLe k bytes pos = some n) : pos < bytes.length := by
  rw [readLe, slice] at h
  split at h
  case isTrue hle => omega
  case isFalse => cases h

theorem getFileEntry_lt {table : List UInt8} {a : ℕ} {entry : FileEntry} {name : Name}
    (h : getFileEntry table a = some (entry, name)) : a < table.length := by
  rw [getFileEntry] at h
  obtain ⟨_, hparent, -⟩ := Option.bind_eq_some_iff.mp h
  exact readLe_lt (by decide) hparent

theorem getDirectoryEntry_lt {table : List UInt8} {a : ℕ} {entry : DirectoryEntry} {name : Name}
    (h : getDirectoryEntry table a = some (entry, name)) : a < table.length := by
  rw [getDirectoryEntry] at h
  obtain ⟨_, hparent, -⟩ := Option.bind_eq_some_iff.mp h
  exact readLe_lt (by decide) hparent

theorem fileLink_finite (ctx : RomFSTraversalContext) : {a | ∃ b, FileLink ctx a b}.Finite :=
  (Set.finite_Iio ctx.fileMeta.length).subset fun _ ⟨_, _, _, _, hentry, _⟩ =>
    getFileEntry_lt hentry

theorem directoryLink_finite (ctx : RomFSTraversalContext) :
    {a | ∃ b, DirectoryLink ctx a b}.Finite :=
  (Set.finite_Iio ctx.directoryMeta.length).subset fun _ ⟨_, _, _, _, hentry, _⟩ =>
    getDirectoryEntry_lt hentry

theorem addU64_isSome {a b : ℕ} :
    (∃ n, addU64 overflowChecks a b = some n) ↔ (overflowChecks = true → a + b < 2 ^ 64) := by
  rw [addU64]
  split
  case isTrue h => exact iff_of_false nofun fun hlt => absurd (hlt h.1) (Nat.not_lt.mpr h.2)
  case isFalse h =>
    exact iff_of_true ⟨_, rfl⟩ fun hchecks => Nat.not_le.mp fun hle => h ⟨hchecks, hle⟩

/-- One step of the walk: there are bytes for the file, and the walk goes on at its sibling. -/
theorem processFile_succ (hfile : ∃ image, ctx.file = .plain image) {fuel a : ℕ} :
    (∃ files, processFile overflowChecks ctx (fuel + 1) a = some files) ↔
      FileInOrder overflowChecks ctx a ∧
        ∀ b, FileLink ctx a b → ∃ files, processFile overflowChecks ctx fuel b = some files := by
  obtain ⟨image, hplain⟩ := hfile
  rw [processFile]
  split
  case isTrue hempty =>
    exact iff_of_true ⟨_, rfl⟩ ⟨fun h => absurd hempty h, fun b h => absurd hempty h.1⟩
  case isFalse hplace =>
    cases hentry : getFileEntry ctx.fileMeta a with
    | none =>
      refine iff_of_true ⟨_, rfl⟩ ⟨fun _ entry name h => ?_, fun b ⟨_, entry, name, h, _⟩ => ?_⟩ <;>
        · rw [hentry] at h
          cases h
    | some found =>
      obtain ⟨entry, name⟩ := found
      dsimp only
      constructor
      · rintro ⟨files, h⟩
        obtain ⟨offset, hoffset, h⟩ := Option.bind_eq_some_iff.mp h
        obtain ⟨file, -, h⟩ := Option.bind_eq_some_iff.mp h
        obtain ⟨rest, hrest, -⟩ := Option.bind_eq_some_iff.mp h
        refine ⟨fun _ entry' name' h' => ?_, fun b ⟨_, entry', name', h', hb⟩ => ?_⟩
        · obtain ⟨rfl, -⟩ := Prod.mk.inj (Option.some.inj (hentry.symm.trans h'))
          exact addU64_isSome.1 ⟨offset, hoffset⟩
        · obtain ⟨rfl, -⟩ := Prod.mk.inj (Option.some.inj (hentry.symm.trans h'))
          exact ⟨rest, hb ▸ hrest⟩
      · rintro ⟨horder, hlinks⟩
        obtain ⟨offset, hoffset⟩ := addU64_isSome.2 (horder hplace entry name hentry)
        obtain ⟨rest, hrest⟩ := hlinks _ ⟨hplace, entry, name, hentry, rfl⟩
        have hbytes : ∃ file, offsetVfsFile ctx.file entry.size offset name = some file := by
          rw [hplain]
          exact ⟨_, rfl⟩
        obtain ⟨file, hbytes⟩ := hbytes
        rw [hoffset, Option.bind_eq_bind, Option.bind_some, hbytes, Option.bind_eq_bind,
          Option.bind_some, hrest]
        exact ⟨_, rfl⟩

theorem processFile_fuelled (hfile : ∃ image, ctx.file = .plain image) :
    Fuelled (fun _ => FileInOrder overflowChecks ctx) (FileLink ctx)
      fun fuel a => ∃ files, processFile overflowChecks ctx fuel a = some files where
  zero a h := by
    obtain ⟨files, h⟩ := h
    rw [processFile] at h
    split at h
    case isTrue hempty => exact ⟨fun hplace => absurd hempty hplace, fun b hb => hb.1 hempty⟩
    case isFalse => cases h
  succ _ _ := processFile_succ hfile
  good_succ _ _ h := h
  branching a := by
    refine Set.Subsingleton.finite ?_
    rintro b ⟨_, entry, name, hentry, rfl⟩ c ⟨_, entry', name', hentry', rfl⟩
    obtain ⟨rfl, -⟩ := Prod.mk.inj (Option.some.inj (hentry.symm.trans hentry'))
    rfl

theorem processFile_ends_iff (hfile : ∃ image, ctx.file = .plain image) {a : ℕ} :
    (∃ fuel files, processFile overflowChecks ctx fuel a = some files) ↔
      ∀ f, ReflTransGen (FileLink ctx) a f →
        FileInOrder overflowChecks ctx f ∧ ¬TransGen (FileLink ctx) f f := by
  rw [(processFile_fuelled hfile).exists_iff, ends_iff (fileLink_finite ctx)]
  simp only [exists_const]

/-! ### The walk along the directories -/

/-- The fuel is enough for the files of a directory. -/
def FilesEnd (overflowChecks : Bool) (ctx : RomFSTraversalContext) (fuel a : ℕ) : Prop :=
  a ≠ romfsEntryEmpty → ∀ entry name,
    getDirectoryEntry ctx.directoryMeta a = some (entry, name) →
      ∃ files, processFile overflowChecks ctx fuel entry.childFile = some files

theorem processDirectory_succ {fuel a : ℕ} :
    (∃ dirs, processDirectory overflowChecks ctx (fuel + 1) a = some dirs) ↔
      FilesEnd overflowChecks ctx fuel a ∧ ∀ b, DirectoryLink ctx a b →
        ∃ dirs, processDirectory overflowChecks ctx fuel b = some dirs := by
  rw [processDirectory]
  split
  case isTrue hempty =>
    exact iff_of_true ⟨_, rfl⟩ ⟨fun h => absurd hempty h, fun b h => absurd hempty h.1⟩
  case isFalse hplace =>
    cases hentry : getDirectoryEntry ctx.directoryMeta a with
    | none =>
      refine iff_of_true ⟨_, rfl⟩ ⟨fun _ entry name h => ?_, fun b ⟨_, entry, name, h, _⟩ => ?_⟩ <;>
        · rw [hentry] at h
          cases h
    | some found =>
      obtain ⟨entry, name⟩ := found
      dsimp only
      constructor
      · rintro ⟨dirs, h⟩
        obtain ⟨files, hfiles, h⟩ := Option.bind_eq_some_iff.mp h
        obtain ⟨children, hchildren, h⟩ := Option.bind_eq_some_iff.mp h
        obtain ⟨rest, hrest, -⟩ := Option.bind_eq_some_iff.mp h
        refine ⟨fun _ entry' name' h' => ?_, fun b ⟨_, entry', name', h', hb⟩ => ?_⟩
        · obtain ⟨rfl, -⟩ := Prod.mk.inj (Option.some.inj (hentry.symm.trans h'))
          exact ⟨files, hfiles⟩
        · obtain ⟨rfl, -⟩ := Prod.mk.inj (Option.some.inj (hentry.symm.trans h'))
          rcases hb with rfl | rfl
          · exact ⟨children, hchildren⟩
          · exact ⟨rest, hrest⟩
      · rintro ⟨hfiles, hlinks⟩
        obtain ⟨files, hfiles⟩ := hfiles hplace entry name hentry
        obtain ⟨children, hchildren⟩ := hlinks _ ⟨hplace, entry, name, hentry, .inl rfl⟩
        obtain ⟨rest, hrest⟩ := hlinks _ ⟨hplace, entry, name, hentry, .inr rfl⟩
        rw [hfiles, Option.bind_eq_bind, Option.bind_some, hchildren, Option.bind_eq_bind,
          Option.bind_some, hrest]
        exact ⟨_, rfl⟩

theorem processDirectory_fuelled (hfile : ∃ image, ctx.file = .plain image) :
    Fuelled (FilesEnd overflowChecks ctx) (DirectoryLink ctx)
      fun fuel a => ∃ dirs, processDirectory overflowChecks ctx fuel a = some dirs where
  zero a h := by
    obtain ⟨dirs, h⟩ := h
    rw [processDirectory] at h
    split at h
    case isTrue hempty => exact ⟨fun hplace => absurd hempty hplace, fun b hb => hb.1 hempty⟩
    case isFalse => cases h
  succ _ _ := processDirectory_succ
  good_succ _ _ h hplace entry name hentry :=
    (processFile_fuelled hfile).walk_succ (h hplace entry name hentry)
  branching a := by
    cases hentry : getDirectoryEntry ctx.directoryMeta a with
    | none =>
      refine Set.Subsingleton.finite ?_
      rintro b ⟨_, entry, name, hsome, -⟩
      rw [hentry] at hsome
      cases hsome
    | some found =>
      refine (Set.toFinite {found.1.childDir, found.1.sibling}).subset ?_
      rintro b ⟨_, entry, name, hsome, hb⟩
      obtain rfl := Option.some.inj (hentry.symm.trans hsome)
      exact hb.imp Eq.symm Eq.symm

theorem filesEnd_iff (hfile : ∃ image, ctx.file = .plain image) {a : ℕ} :
    (∃ fuel, FilesEnd overflowChecks ctx fuel a) ↔ FilesInOrder overflowChecks ctx a := by
  constructor
  · rintro ⟨fuel, h⟩ hplace entry name hentry
    exact (processFile_ends_iff hfile).mp ⟨fuel, h hplace entry name hentry⟩
  · intro h
    cases hentry : getDirectoryEntry ctx.directoryMeta a with
    | none =>
      refine ⟨0, fun _ entry name hsome => ?_⟩
      rw [hentry] at hsome
      cases hsome
    | some found =>
      by_cases hplace : a = romfsEntryEmpty
      · exact ⟨0, fun h => absurd hplace h⟩
      · obtain ⟨fuel, hfuel⟩ := (processFile_ends_iff hfile).mpr (h hplace _ _ hentry)
        refine ⟨fuel, fun _ entry name hsome => ?_⟩
        obtain rfl := Option.some.inj (hentry.symm.trans hsome)
        exact hfuel

theorem processDirectory_ends_iff (hfile : ∃ image, ctx.file = .plain image) {a : ℕ} :
    (∃ fuel dirs, processDirectory overflowChecks ctx fuel a = some dirs) ↔
      ∀ dir, ReflTransGen (DirectoryLink ctx) a dir →
        FilesInOrder overflowChecks ctx dir ∧ ¬TransGen (DirectoryLink ctx) dir dir := by
  rw [(processDirectory_fuelled hfile).exists_iff, ends_iff (directoryLink_finite ctx)]
  simp only [filesEnd_iff hfile]

/-! ### The whole image -/

theorem open_eq_some_iff {image : VfsFile} {header : RomFSHeader} :
    RomFSTraversalContext.open (.plain image) header = some ctx ↔
      header.directoryMeta.size < 2 ^ 63 ∧ header.fileMeta.size < 2 ^ 63 ∧
        ctx = tables image header := by
  have hread : ∀ {size offset : ℕ} {bytes : List UInt8},
      readBytes (.plain image) size offset = some bytes ↔
        size < 2 ^ 63 ∧ bytes = image.read size offset := by
    intro size offset bytes
    rw [readBytes, Option.ite_none_left_eq_some, Nat.not_le]
    exact and_congr_right fun _ => ⟨fun h => (Option.some.inj h).symm, fun h => congrArg some h.symm⟩
  constructor
  · intro h
    obtain ⟨directoryMeta, hdirectory, h⟩ := Option.bind_eq_some_iff.mp h
    obtain ⟨fileMeta, hfile, h⟩ := Option.bind_eq_some_iff.mp h
    obtain ⟨hdirectorySize, rfl⟩ := hread.mp hdirectory
    obtain ⟨hfileSize, rfl⟩ := hread.mp hfile
    exact ⟨hdirectorySize, hfileSize, (Option.some.inj h).symm⟩
  · rintro ⟨hdirectory, hfile, rfl⟩
    exact Option.bind_eq_some_iff.mpr ⟨_, hread.mpr ⟨hdirectory, rfl⟩,
      Option.bind_eq_some_iff.mpr ⟨_, hread.mpr ⟨hfile, rfl⟩, rfl⟩⟩

theorem readHeader_isSome (image : VfsFile) : ∃ found, readHeader (.plain image) = some found := by
  simp only [readHeader, VirtualFile.read, Option.bind_eq_bind, Option.bind_some]
  split
  · exact ⟨_, rfl⟩
  · split
    · exact ⟨_, rfl⟩
    · split <;> exact ⟨_, rfl⟩

theorem extractRomfs_eq {image : VfsFile} {header : RomFSHeader}
    (hheader : readHeader (.plain image) = some (some header)) (fuel : ℕ) :
    extractRomfs overflowChecks fuel (some (.plain image)) =
      (RomFSTraversalContext.open (.plain image) header).bind fun ctx =>
        (processDirectory overflowChecks ctx fuel 0).bind fun root => some (root.find? []) := by
  rw [extractRomfs, hheader]
  rfl

/-- Reading an image comes to an end without a fault just when what its header leads to is in
order. -/
theorem extractRomfs_ends_iff (overflowChecks : Bool) (image : VfsFile) :
    (∃ fuel root, extractRomfs overflowChecks fuel (some (.plain image)) = some root) ↔
      ∀ header, readHeader (.plain image) = some (some header) →
        ImageInOrder overflowChecks image header := by
  obtain ⟨found, hfound⟩ := readHeader_isSome image
  cases found with
  | none =>
    refine iff_of_true ⟨0, none, ?_⟩ fun header h => ?_
    · rw [extractRomfs, hfound]
      rfl
    · rw [hfound] at h
      cases h
  | some header =>
    have hplain : ∃ image', (tables image header).file = .plain image' := ⟨image, rfl⟩
    simp only [extractRomfs_eq hfound, hfound, Option.some_inj, forall_eq']
    constructor
    · rintro ⟨fuel, root, h⟩
      obtain ⟨ctx, hopen, h⟩ := Option.bind_eq_some_iff.mp h
      obtain ⟨dirs, hdirs, -⟩ := Option.bind_eq_some_iff.mp h
      obtain ⟨hdirectory, hfile, rfl⟩ := open_eq_some_iff.1 hopen
      have hends := (processDirectory_ends_iff hplain).mp ⟨fuel, dirs, hdirs⟩
      exact ⟨hdirectory, hfile, fun a ha => (hends a ha).1, fun a ha => (hends a ha).2⟩
    · intro h
      obtain ⟨fuel, dirs, hdirs⟩ := (processDirectory_ends_iff hplain).mpr
        fun dir hdir => ⟨h.files dir hdir, h.acyclic dir hdir⟩
      exact ⟨fuel, _, Option.bind_eq_some_iff.mpr ⟨_,
        open_eq_some_iff.2 ⟨h.directoryMeta_lt, h.fileMeta_lt, rfl⟩,
        Option.bind_eq_some_iff.mpr ⟨dirs, hdirs, rfl⟩⟩⟩

/-- A header and the table of one directory that is its own sibling. -/
def siblingOfItself : VfsFile where
  name := []
  data := le 8 0x50 ++ le 8 0 ++ le 8 0 ++ le 8 0x50 ++ le 8 24 ++ le 8 0 ++ le 8 0 ++ le 8 0 ++
    le 8 0 ++ le 8 0 ++ (le 4 0 ++ le 4 0 ++ le 4 romfsEntryEmpty ++ le 4 romfsEntryEmpty ++
      le 4 0 ++ le 4 0)

/-- Reading it comes to no end. -/
theorem siblingOfItself_runs_on :
    ¬∃ overflowChecks fuel root,
      extractRomfs overflowChecks fuel (some (.plain siblingOfItself)) = some root := by
  have hheader : readHeader (.plain siblingOfItself) =
      some (some ⟨0x50, ⟨0, 0⟩, ⟨0x50, 24⟩, ⟨0, 0⟩, ⟨0, 0⟩, 0⟩) := rfl
  rintro ⟨overflowChecks, fuel, root, h⟩
  rw [extractRomfs_eq hheader] at h
  obtain ⟨ctx, hopen, h⟩ := Option.bind_eq_some_iff.mp h
  obtain ⟨dirs, hdirs, -⟩ := Option.bind_eq_some_iff.mp h
  obtain ⟨-, -, rfl⟩ := open_eq_some_iff.1 hopen
  refine ((processDirectory_ends_iff ⟨siblingOfItself, rfl⟩).mp ⟨fuel, dirs, hdirs⟩ 0 .refl).2 ?_
  exact .single ⟨by decide, ⟨0, 0, romfsEntryEmpty, romfsEntryEmpty, 0, 0⟩, [], rfl, .inr rfl⟩

end Ruzu.FileSys
