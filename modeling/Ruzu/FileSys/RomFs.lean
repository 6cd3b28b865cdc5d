import Ruzu.FileSys.RomFsBuild

/-!
# Reading a RomFS image

`romfs.rs`: the reader follows the links between the entries of the two tables
from the root directory on.
-/

set_option autoImplicit false

namespace Ruzu.FileSys

open Image

structure TableLocation where
  offset : ℕ
  size : ℕ

structure RomFSHeader where
  headerSize : ℕ
  directoryHash : TableLocation
  directoryMeta : TableLocation
  fileHash : TableLocation
  fileMeta : TableLocation
  dataOffset : ℕ

/-- `read_object_from_buf::<RomFSHeader>`. -/
def RomFSHeader.parse (buf : List UInt8) : Option RomFSHeader := do
  let word := fun i => readLe 8 buf (8 * i)
  return ⟨← word 0, ⟨← word 1, ← word 2⟩, ⟨← word 3, ← word 4⟩, ⟨← word 5, ← word 6⟩,
    ⟨← word 7, ← word 8⟩, ← word 9⟩

structure DirectoryEntry where
  parent : ℕ
  sibling : ℕ
  childDir : ℕ
  childFile : ℕ
  hash : ℕ
  nameLength : ℕ

structure FileEntry where
  parent : ℕ
  sibling : ℕ
  offset : ℕ
  size : ℕ
  hash : ℕ
  nameLength : ℕ

structure RomFSTraversalContext where
  header : RomFSHeader
  file : VirtualFile
  directoryMeta : List UInt8
  fileMeta : List UInt8

/-- The name after an entry, as far as the table goes. -/
def entryName (table : List UInt8) (entryEnd nameLength : ℕ) : Name :=
  (table.drop entryEnd).take (min nameLength (table.length - entryEnd))

def getDirectoryEntry (table : List UInt8) (offset : ℕ) : Option (DirectoryEntry × Name) := do
  let entry : DirectoryEntry := ⟨← readLe 4 table offset, ← readLe 4 table (offset + 4),
    ← readLe 4 table (offset + 8), ← readLe 4 table (offset + 12), ← readLe 4 table (offset + 16),
    ← readLe 4 table (offset + 20)⟩
  return (entry, entryName table (offset + directoryEntrySize) entry.nameLength)

def getFileEntry (table : List UInt8) (offset : ℕ) : Option (FileEntry × Name) := do
  let entry : FileEntry := ⟨← readLe 4 table offset, ← readLe 4 table (offset + 4),
    ← readLe 8 table (offset + 8), ← readLe 8 table (offset + 16), ← readLe 4 table (offset + 24),
    ← readLe 4 table (offset + 28)⟩
  return (entry, entryName table (offset + fileEntrySize) entry.nameLength)

/-- `OffsetVfsFile::new`, with the bytes that it delivers. A file without a name has the name of
the file it is cut from. -/
def offsetVfsFile (file : VirtualFile) (size offset : ℕ) (name : Name) : Option VfsFile := do
  return ⟨if name = [] then file.getName else name, ← file.read size offset⟩

/-- The addition of two `u64`. Past the end it is a fault in a build that checks for overflow, and
wraps in one that does not. -/
def addU64 (overflowChecks : Bool) (a b : ℕ) : Option ℕ :=
  if overflowChecks ∧ 2 ^ 64 ≤ a + b then none else some ((a + b) % 2 ^ 64)

/-- The walk along the siblings of a file. Without fuel it has not come to an end. -/
def processFile (overflowChecks : Bool) (ctx : RomFSTraversalContext) :
    (fuel thisFileOffset : ℕ) → Option (List VfsFile)
  | fuel, thisFileOffset =>
    if thisFileOffset = romfsEntryEmpty then some [] else
      match fuel with
      | 0 => none
      | fuel + 1 =>
        match getFileEntry ctx.fileMeta thisFileOffset with
        | none => some []
        | some (entry, name) => do
          let offset ← addU64 overflowChecks entry.offset ctx.header.dataOffset
          let file ← offsetVfsFile ctx.file entry.size offset name
          return file::(← processFile overflowChecks ctx fuel entry.sibling)

/-- The walk along the siblings of a directory and down to their children. -/
def processDirectory (overflowChecks : Bool) (ctx : RomFSTraversalContext) :
    (fuel thisDirOffset : ℕ) → Option VfsDirs
  | fuel, thisDirOffset =>
    if thisDirOffset = romfsEntryEmpty then some .nil else
      match fuel with
      | 0 => none
      | fuel + 1 =>
        match getDirectoryEntry ctx.directoryMeta thisDirOffset with
        | none => some .nil
        | some (entry, name) => do
          let files ← processFile overflowChecks ctx fuel entry.childFile
          let subdirectories ← processDirectory overflowChecks ctx fuel entry.childDir
          return .cons name files subdirectories
            (← processDirectory overflowChecks ctx fuel entry.sibling)

/-- The header, if the image has one. -/
def readHeader (file : VirtualFile) : Option (Option RomFSHeader) := do
  let headerBuf ← file.read 0x50 0
  if headerBuf.length ≠ 0x50 then return none
  match RomFSHeader.parse headerBuf with
  | none => return none
  | some header => if header.headerSize ≠ 0x50 then return none else return some header

/-- `read_bytes`. No vector has more bytes than an `isize` counts: to ask for one is a fault. -/
def readBytes (file : VirtualFile) (size offset : ℕ) : Option (List UInt8) :=
  if 2 ^ 63 ≤ size then none else file.read size offset

/-- The two tables that the header gives. -/
def RomFSTraversalContext.open (file : VirtualFile) (header : RomFSHeader) :
    Option RomFSTraversalContext := do
  return { header, file
           directoryMeta := ← readBytes file header.directoryMeta.size header.directoryMeta.offset
           fileMeta := ← readBytes file header.fileMeta.size header.fileMeta.offset }

/-- `extract_romfs`. The outer option is a fault, or a walk that the fuel has not brought to its
end. -/
def extractRomfs (overflowChecks : Bool) (fuel : ℕ) (file : Option VirtualFile) :
    Option (Option VfsDir) :=
  match file with
  | none => some (some ⟨[], [], .nil⟩)
  | some file => do
    match ← readHeader file with
    | none => return none
    | some header => do
      let ctx ← RomFSTraversalContext.open file header
      let rootContainer ← processDirectory overflowChecks ctx fuel 0
      return rootContainer.find? []

end Ruzu.FileSys
