import Mathlib
import Ruzu.FileSys.VfsConcat
import Ruzu.Lib.Image

/-!
# Building a RomFS image

`fsmitm_romfsbuild.rs`: a directory tree is flattened into two vectors, both
are sorted by path, offsets and links are assigned, and the tables are written
into a block of metadata that follows the files.
-/

set_option autoImplicit false

namespace Ruzu.FileSys

open Image

/-- The subdirectories of a directory, one after the other. -/
inductive VfsDirs
  | nil
  | cons (name : Name) (files : List VfsFile) (subdirectories rest : VfsDirs)

structure VfsDir where
  name : Name
  files : List VfsFile
  subdirectories : VfsDirs

/-- The first subdirectory of a name. -/
def VfsDirs.find? (name : Name) : VfsDirs → Option VfsDir
  | .nil => none
  | .cons name' files subdirectories rest =>
    if name' = name then some ⟨name', files, subdirectories⟩ else rest.find? name

namespace VfsDir

def getFile (dir : VfsDir) (name : Name) : Option VfsFile := dir.files.find? (·.name = name)
def getSubdirectory (dir : VfsDir) (name : Name) : Option VfsDir := dir.subdirectories.find? name

end VfsDir

def utf8 (s : String) : Name := s.toUTF8.data.toList

def fsMaxPath : ℕ := 0x301
def romfsEntryEmpty : ℕ := 0xFFFFFFFF
def romfsFilepartitionOfs : ℕ := 0x200

structure RomFSBuildDirectoryContext where
  path : Name
  curPathOfs : ℕ
  pathLen : ℕ
  parent : Option ℕ

structure RomFSBuildFileContext where
  path : Name
  curPathOfs : ℕ
  pathLen : ℕ
  size : ℕ
  parent : Option ℕ
  source : VfsFile

/-- The bytes of the path from `start` on are hashed. -/
def romfsCalcPathHash (parent : ℕ) (path : Name) (start pathLen : ℕ) : BitVec 32 :=
  (List.range pathLen).foldl
    (fun hash i => hash.rotateRight 5 ^^^ BitVec.ofNat 32 (path.getD (start + i) 0).toNat)
    (BitVec.ofNat 32 parent ^^^ 123456789)

/-- No small prime divides the count. -/
def HashTableCount (count : ℕ) : Prop := ∀ p ∈ [2, 3, 5, 7, 11, 13, 17], count % p ≠ 0

instance (count : ℕ) : Decidable (HashTableCount count) :=
  inferInstanceAs (Decidable (∀ p ∈ [2, 3, 5, 7, 11, 13, 17], count % p ≠ 0))

/-- The search for a count ends within the product of the primes. -/
theorem hashTableCount_exists (n : ℕ) :
    ∃ count, n ≤ count ∧ count ≤ n + 510511 ∧ HashTableCount count := by
  refine ⟨510510 * (n / 510510 + 1) + 1, ?_, ?_, fun p hp => ?_⟩
  · have := Nat.lt_mul_div_succ n (show 0 < 510510 by decide)
    omega
  · have := Nat.mul_div_le n 510510
    rw [Nat.mul_succ]
    omega
  · have hdvd : p ∣ 510510 := by
      revert p
      decide
    have hlt : 1 < p := by
      revert p
      decide
    rw [Nat.add_mod, Nat.mod_eq_zero_of_dvd (Nat.dvd_mul_right_of_dvd hdvd _), Nat.zero_add,
      Nat.mod_mod, Nat.mod_eq_of_lt hlt]
    decide

def romfsGetHashTableCount (numEntries : ℕ) : ℕ :=
  if numEntries < 3 then 3
  else if numEntries < 19 then numEntries ||| 1
  else Nat.find (p := fun count => numEntries ≤ count ∧ HashTableCount count)
    (let ⟨count, hle, _, h⟩ := hashTableCount_exists numEntries; ⟨count, hle, h⟩)

def alignUp (value alignment : ℕ) : ℕ := (value + (alignment - 1)) / alignment * alignment

def directoryEntrySize : ℕ := 0x18
def fileEntrySize : ℕ := 0x20

/-- `RomFSDirectoryEntry`. -/
def directoryEntryBytes (parent sibling child file hash nameSize : ℕ) : List UInt8 :=
  le 4 parent ++ le 4 sibling ++ le 4 child ++ le 4 file ++ le 4 hash ++ le 4 nameSize

/-- `RomFSFileEntry`. -/
def fileEntryBytes (parent sibling offset size hash nameSize : ℕ) : List UInt8 :=
  le 4 parent ++ le 4 sibling ++ le 8 offset ++ le 8 size ++ le 4 hash ++ le 4 nameSize

/-- The order of strings: byte by byte. -/
def pathLe : Name → Name → Bool
  | [], _ => true
  | _::_, [] => false
  | a::as, b::bs => if a = b then pathLe as bs else a < b

/-- Where a loop over some items has put them, and where it stopped. -/
structure Places where
  stop : ℕ
  position : ℕ → ℕ

def place (align width : ℕ → ℕ) (order : List ℕ) : Places :=
  order.foldl (fun s i => ⟨align s.stop + width i, Function.update s.position i (align s.stop)⟩)
    ⟨0, fun _ => 0⟩

/-- The first child of each parent and the sibling after each child. -/
structure Links where
  first : ℕ → Option ℕ
  sibling : ℕ → Option ℕ

/-- The loop from the last child to the first, each going in front of the children linked
already. -/
def link (parent : ℕ → Option ℕ) (parents : ℕ) (order : List ℕ) : Option Links :=
  order.reverse.foldlM (fun links i => do
    let parentIdx ← parent i
    if parentIdx < parents then
      return { first := Function.update links.first parentIdx (some i)
               sibling := Function.update links.sibling i (links.first parentIdx) }
    else none) ⟨fun _ => none, fun _ => none⟩

/-- An entry goes into its table and to the front of its hash bucket: the bucket gets its
offset, the entry what the bucket held. The bytes up to the end of the name are cleared. -/
def writeEntry (hashTable hashTableCount table : ℕ) (hash entryOffset : ℕ)
    (entry : ℕ → List UInt8) (name : Name) (metadata : List UInt8) : Option (List UInt8) := do
  let htOffset := hashTable + hash % hashTableCount * 4
  let oldHashVal ← readLe 4 metadata htOffset
  let metadata ← write metadata htOffset (le 4 entryOffset)
  let entryStart := table + entryOffset
  let metadata ← write metadata entryStart (entry oldHashVal)
  let nameStart := entryStart + (entry oldHashVal).length
  let metadata ← write metadata nameStart (List.replicate (alignUp name.length 4) 0)
  write metadata nameStart name

structure RomFSBuildContext where
  directories : List RomFSBuildDirectoryContext
  files : List RomFSBuildFileContext
  numDirs : ℕ
  numFiles : ℕ
  dirTableSize : ℕ
  fileTableSize : ℕ

namespace RomFSBuildContext

def addDirectory (c : RomFSBuildContext) (parentIdx : ℕ) (dirCtx : RomFSBuildDirectoryContext) :
    RomFSBuildContext :=
  { c with
    numDirs := c.numDirs + 1
    dirTableSize :=
      c.dirTableSize + (directoryEntrySize + alignUp (dirCtx.pathLen - dirCtx.curPathOfs) 4)
    directories := c.directories ++ [{ dirCtx with parent := some parentIdx }] }

def addFile (c : RomFSBuildContext) (parentIdx : ℕ) (fileCtx : RomFSBuildFileContext) :
    RomFSBuildContext :=
  { c with
    numFiles := c.numFiles + 1
    fileTableSize :=
      c.fileTableSize + (fileEntrySize + alignUp (fileCtx.pathLen - fileCtx.curPathOfs) 4)
    files := c.files ++ [{ fileCtx with parent := some parentIdx }] }

/-- `"{name}.stub"` and `"{name}.ips"`. -/
def stubName (name : Name) : Name := name ++ utf8 ".stub"
def ipsName (name : Name) : Name := name ++ utf8 ".ips"

def isStub (extDir : Option VfsDir) (name : Name) : Bool :=
  extDir.any fun ext => (ext.getFile (stubName name)).isSome

/-- The file with the patch of the extension directory, if there is one that applies. -/
def patched (patchIps : VfsFile → VfsFile → Option VfsFile) (extDir : Option VfsDir)
    (file : VfsFile) : VfsFile :=
  match extDir.bind fun ext => ext.getFile (ipsName file.name) with
  | some ips => (patchIps file ips).getD file
  | none => file

/-- The path of a child and where its name starts. -/
def childPath (c : RomFSBuildContext) (parentIdx : ℕ) (name : Name) :
    Option (Name × ℕ × ℕ) := do
  let parent ← c.directories[parentIdx]?
  let curPathOfs := parent.pathLen + 1
  let pathLen := curPathOfs + name.length
  if pathLen < fsMaxPath then
    return (parent.path ++ utf8 "/" ++ name, curPathOfs, pathLen)
  else none

/-- The files of a directory. A path that is too long is an assertion that fails. -/
def visitFiles (patchIps : VfsFile → VfsFile → Option VfsFile) (extDir : Option VfsDir)
    (parentIdx : ℕ) : List VfsFile → RomFSBuildContext → Option RomFSBuildContext
  | [], c => some c
  | file::files, c =>
    if isStub extDir file.name then visitFiles patchIps extDir parentIdx files c
    else do
      let (path, curPathOfs, pathLen) ← c.childPath parentIdx file.name
      let source := patched patchIps extDir file
      visitFiles patchIps extDir parentIdx files
        (c.addFile parentIdx ⟨path, curPathOfs, pathLen, source.size, none, source⟩)

/-- The subdirectories of a directory, each with its files and then its subdirectories. -/
def visitSubdirectories (patchIps : VfsFile → VfsFile → Option VfsFile) :
    (extDir : Option VfsDir) → (parentIdx : ℕ) → VfsDirs → RomFSBuildContext →
      Option RomFSBuildContext
  | _, _, .nil, c => some c
  | extDir, parentIdx, .cons name files subdirectories rest, c =>
    if isStub extDir name then visitSubdirectories patchIps extDir parentIdx rest c
    else do
      let (path, curPathOfs, pathLen) ← c.childPath parentIdx name
      let childIdx := c.directories.length
      let c := c.addDirectory parentIdx ⟨path, curPathOfs, pathLen, none⟩
      let childExtDir := extDir.bind fun ext => ext.getSubdirectory name
      let c ← visitFiles patchIps childExtDir childIdx files c
      let c ← visitSubdirectories patchIps childExtDir childIdx subdirectories c
      visitSubdirectories patchIps extDir parentIdx rest c

def new (patchIps : VfsFile → VfsFile → Option VfsFile) (base : VfsDir) (ext : Option VfsDir) :
    Option RomFSBuildContext := do
  let c : RomFSBuildContext := ⟨[⟨[], 0, 0, none⟩], [], 1, 0, 0x18, 0⟩
  let c ← visitFiles patchIps ext 0 base.files c
  visitSubdirectories patchIps ext 0 base.subdirectories c

section

variable (c : RomFSBuildContext)

def file (i : ℕ) : RomFSBuildFileContext := c.files.getD i ⟨[], 0, 0, 0, none, ⟨[], []⟩⟩
def directory (i : ℕ) : RomFSBuildDirectoryContext := c.directories.getD i ⟨[], 0, 0, none⟩

def fileName (i : ℕ) : Name := (c.file i).path.drop (c.file i).curPathOfs
def directoryName (i : ℕ) : Name := (c.directory i).path.drop (c.directory i).curPathOfs

def fileNameSize (i : ℕ) : ℕ := (c.file i).pathLen - (c.file i).curPathOfs
def directoryNameSize (i : ℕ) : ℕ := (c.directory i).pathLen - (c.directory i).curPathOfs

def fileOrder : List ℕ :=
  (List.range c.files.length).mergeSort fun a b => pathLe (c.file a).path (c.file b).path

def directoryOrder : List ℕ :=
  (List.range c.directories.length).mergeSort
    fun a b => pathLe (c.directory a).path (c.directory b).path

/-- The files in the partition. -/
def fileData : Places := place (alignUp · 16) (fun i => (c.file i).size) c.fileOrder

def fileEntries : Places :=
  place id (fun i => fileEntrySize + alignUp (c.fileNameSize i) 4) c.fileOrder

def directoryEntries : Places :=
  place id (fun i => directoryEntrySize + alignUp (c.directoryNameSize i) 4) c.directoryOrder

def fileLinks : Option Links :=
  link (fun i => (c.file i).parent) c.directories.length c.fileOrder

def directoryLinks : Option Links :=
  link (fun i => (c.directory i).parent) c.directories.length (c.directoryOrder.filter (· ≠ 0))

def dirHashTableEntryCount : ℕ := romfsGetHashTableCount c.numDirs
def fileHashTableEntryCount : ℕ := romfsGetHashTableCount c.numFiles
def dirHashTableSize : ℕ := 4 * c.dirHashTableEntryCount
def fileHashTableSize : ℕ := 4 * c.fileHashTableEntryCount

/-- Where the tables start in the metadata. -/
def fileHashTableStart : ℕ := c.dirHashTableSize + c.dirTableSize
def fileTableStart : ℕ := c.fileHashTableStart + c.fileHashTableSize

def emptyMetadata : List UInt8 :=
  List.replicate c.dirHashTableSize 0xFF ++ List.replicate c.dirTableSize 0 ++
    List.replicate c.fileHashTableSize 0xFF ++ List.replicate c.fileTableSize 0

/-- The entry offset of a linked node. -/
def offsetOf (entries : Places) (i : Option ℕ) : ℕ := (i.map entries.position).getD romfsEntryEmpty

def parentOffset (parent : Option ℕ) : ℕ := (parent.map c.directoryEntries.position).getD 0

def fileHash (i : ℕ) : ℕ :=
  (romfsCalcPathHash (c.parentOffset (c.file i).parent) (c.file i).path (c.file i).curPathOfs
    (c.fileNameSize i)).toNat

def directoryHash (i : ℕ) : ℕ :=
  (romfsCalcPathHash (c.parentOffset (c.directory i).parent) (c.directory i).path
    (c.directory i).curPathOfs (c.directoryNameSize i)).toNat

def writeFile (links : Links) (i : ℕ) (metadata : List UInt8) : Option (List UInt8) :=
  writeEntry c.fileHashTableStart c.fileHashTableEntryCount c.fileTableStart (c.fileHash i)
    (c.fileEntries.position i)
    (fun hash => fileEntryBytes (c.parentOffset (c.file i).parent)
      (offsetOf c.fileEntries (links.sibling i)) (c.fileData.position i) (c.file i).size hash
      (c.fileNameSize i))
    ((c.fileName i).take (c.fileNameSize i)) metadata

def writeDirectory (files directories : Links) (i : ℕ) (metadata : List UInt8) :
    Option (List UInt8) :=
  writeEntry 0 c.dirHashTableEntryCount c.dirHashTableSize (c.directoryHash i)
    (c.directoryEntries.position i)
    (fun hash => directoryEntryBytes (c.parentOffset (c.directory i).parent)
      (offsetOf c.directoryEntries (directories.sibling i))
      (offsetOf c.directoryEntries (directories.first i))
      (offsetOf c.fileEntries (files.first i)) hash (c.directoryNameSize i))
    ((c.directoryName i).take (c.directoryNameSize i)) metadata

def metadata : Option (List UInt8) := do
  let files ← c.fileLinks
  let directories ← c.directoryLinks
  let m ← c.fileOrder.foldlM (fun m i => c.writeFile files i m) c.emptyMetadata
  c.directoryOrder.foldlM (fun m i => c.writeDirectory files directories i m) m

def dirHashTableOfs : ℕ := alignUp (romfsFilepartitionOfs + c.fileData.stop) 4

/-- `RomFSHeader`. -/
def header : List UInt8 :=
  let dirTableOfs := c.dirHashTableOfs + c.dirHashTableSize
  let fileHashTableOfs := dirTableOfs + c.dirTableSize
  let fileTableOfs := fileHashTableOfs + c.fileHashTableSize
  le 8 0x50 ++ le 8 c.dirHashTableOfs ++ le 8 c.dirHashTableSize ++ le 8 dirTableOfs ++
    le 8 c.dirTableSize ++ le 8 fileHashTableOfs ++ le 8 c.fileHashTableSize ++
    le 8 fileTableOfs ++ le 8 c.fileTableSize ++ le 8 romfsFilepartitionOfs

def build : Option (List (ℕ × VfsFile)) := do
  let metadata ← c.metadata
  let out := (0, ⟨[], c.header⟩)::
    (c.fileOrder.map fun i => (c.fileData.position i + romfsFilepartitionOfs, (c.file i).source)) ++
    [(c.dirHashTableOfs, ⟨[], metadata⟩)]
  return out.mergeSort fun a b => a.1 ≤ b.1

end

end RomFSBuildContext

/-- `create_romfs`. The outer option is a fault. -/
def createRomfs (patchIps : VfsFile → VfsFile → Option VfsFile) (dir ext : Option VfsDir) :
    Option (Option VirtualFile) :=
  match dir with
  | none => some none
  | some dir => do
    let c ← RomFSBuildContext.new patchIps dir ext
    let parts ← c.build
    return makeConcatenatedFileWithFiller 0 dir.name parts

end Ruzu.FileSys
