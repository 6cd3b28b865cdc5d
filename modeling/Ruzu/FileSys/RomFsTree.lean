import Mathlib
import Ruzu.FileSys.RomFsBuild

/-!
# Trees over index vectors

The builder keeps its tree as parent indices in two vectors. A directory tree
is read back from such indices in any order of the children, and two orders
give trees that differ only in the order of their entries.
-/

set_option autoImplicit false

namespace Ruzu.FileSys

/-- The same directories, each with the same files and subdirectories, in any order. -/
inductive SameDirs : VfsDirs → VfsDirs → Prop
  | nil : SameDirs .nil .nil
  | cons {name : Name} {files files' : List VfsFile} {subs subs' rest rest' : VfsDirs} :
      files.Perm files' → SameDirs subs subs' → SameDirs rest rest' →
        SameDirs (.cons name files subs rest) (.cons name files' subs' rest')
  | swap {name name' : Name} {files files' : List VfsFile} {subs subs' rest : VfsDirs} :
      SameDirs (.cons name files subs (.cons name' files' subs' rest))
        (.cons name' files' subs' (.cons name files subs rest))
  | trans {a b c : VfsDirs} : SameDirs a b → SameDirs b c → SameDirs a c

namespace VfsDirs

/-- A sum over all directories and files. -/
def total (ofDir : Name → ℕ) (ofFile : VfsFile → ℕ) : VfsDirs → ℕ
  | .nil => 0
  | .cons name files subs rest =>
    ofDir name + (files.map ofFile).sum + total ofDir ofFile subs + total ofDir ofFile rest

def count : VfsDirs → ℕ := total (fun _ => 1) (fun _ => 0)

/-- No name is empty. -/
def Named : VfsDirs → Prop
  | .nil => True
  | .cons name files subs rest =>
    name ≠ [] ∧ (∀ f ∈ files, f.name ≠ []) ∧ subs.Named ∧ rest.Named

/-- Under a directory with a path of a length, all paths are below the limit. -/
def PathsFit (pathLen : ℕ) : VfsDirs → Prop
  | .nil => True
  | .cons name files subs rest =>
    pathLen + 1 + name.length < fsMaxPath ∧
      (∀ f ∈ files, pathLen + 1 + name.length + 1 + f.name.length < fsMaxPath) ∧
      subs.PathsFit (pathLen + 1 + name.length) ∧ rest.PathsFit pathLen

@[simp] theorem count_nil : count .nil = 0 := rfl

@[simp] theorem count_cons (name : Name) (files : List VfsFile) (subs rest : VfsDirs) :
    count (.cons name files subs rest) = 1 + count subs + count rest := by
  simp [count, total]

end VfsDirs

theorem SameDirs.refl (d : VfsDirs) : SameDirs d d := by
  induction d with
  | nil => exact .nil
  | cons name files subs rest hsubs hrest => exact .cons (List.Perm.refl _) hsubs hrest

theorem SameDirs.count_eq {d d' : VfsDirs} (h : SameDirs d d') : d.count = d'.count := by
  induction h with
  | nil => rfl
  | cons _ _ _ hsubs hrest => rw [VfsDirs.count_cons, VfsDirs.count_cons, hsubs, hrest]
  | swap => simp only [VfsDirs.count_cons]; omega
  | trans _ _ h h' => rw [h, h']

/-! ### Trees of indices -/

/-- The directories of some indices, given the name, the files and the children of each. -/
inductive Tree (name : ℕ → Name) (files : ℕ → List VfsFile) (children : ℕ → List ℕ) :
    List ℕ → VfsDirs → Prop
  | nil : Tree name files children [] .nil
  | cons {i : ℕ} {is : List ℕ} {subs rest : VfsDirs} :
      Tree name files children (children i) subs → Tree name files children is rest →
        Tree name files children (i::is) (.cons (name i) (files i) subs rest)

variable {name : ℕ → Name} {files files' : ℕ → List VfsFile} {children children' : ℕ → List ℕ}
  {is is' : List ℕ} {d : VfsDirs}

/-- Indices in another order are the directories in another order. -/
theorem Tree.perm (h : Tree name files children is d) (hperm : is.Perm is') :
    ∃ d', Tree name files children is' d' ∧ SameDirs d d' := by
  induction hperm generalizing d with
  | nil => exact ⟨d, h, .refl d⟩
  | cons i _ ih =>
    cases h with
    | cons hsubs hrest =>
      obtain ⟨rest', hrest', hsame⟩ := ih hrest
      exact ⟨_, .cons hsubs hrest', .cons (List.Perm.refl _) (.refl _) hsame⟩
  | swap i j is =>
    cases h with
    | cons hsubs hrest =>
      cases hrest with
      | cons hsubs' hrest' => exact ⟨_, .cons hsubs' (.cons hsubs hrest'), .swap⟩
  | trans _ _ ih ih' =>
    obtain ⟨d', h', hsame⟩ := ih h
    obtain ⟨d'', h'', hsame'⟩ := ih' h'
    exact ⟨d'', h'', .trans hsame hsame'⟩

/-- Files and children in another order give the same directories. -/
theorem Tree.reorder (h : Tree name files children is d) (hfiles : ∀ i, (files i).Perm (files' i))
    (hchildren : ∀ i, (children i).Perm (children' i)) :
    ∃ d', Tree name files' children' is d' ∧ SameDirs d d' := by
  induction h with
  | nil => exact ⟨_, .nil, .nil⟩
  | @cons i _ _ _ _ _ ihsubs ihrest =>
    obtain ⟨subs', hsubs', hsame⟩ := ihsubs
    obtain ⟨subs'', hsubs'', hsame'⟩ := hsubs'.perm (hchildren i)
    obtain ⟨rest', hrest', hsame''⟩ := ihrest
    exact ⟨_, .cons hsubs'' hrest', .cons (hfiles i) (.trans hsame hsame') hsame''⟩

/-! ### The vectors that a visit leaves -/

/-- The indices of the children of `q` among directories that stand from `n` on. -/
def childrenIn (q n : ℕ) (dirs : List RomFSBuildDirectoryContext) : List ℕ :=
  ((dirs.zipIdx n).filter fun d => d.1.parent = some q).map Prod.snd

/-- The files of `q`. -/
def filesIn (q : ℕ) (files : List RomFSBuildFileContext) : List VfsFile :=
  (files.filter fun f => f.parent = some q).map RomFSBuildFileContext.source

theorem childrenIn_append (q n : ℕ) (a b : List RomFSBuildDirectoryContext) :
    childrenIn q n (a ++ b) = childrenIn q n a ++ childrenIn q (n + a.length) b := by
  simp only [childrenIn, List.zipIdx_append, List.filter_append, List.map_append]

theorem childrenIn_cons_self {q n : ℕ} {x : RomFSBuildDirectoryContext}
    (hx : x.parent = some q) (dirs : List RomFSBuildDirectoryContext) :
    childrenIn q n (x::dirs) = n::childrenIn q (n + 1) dirs := by
  simp only [childrenIn, List.zipIdx_cons]
  rw [List.filter_cons_of_pos (by simp [hx]), List.map_cons]

theorem childrenIn_cons_other {q n : ℕ} {x : RomFSBuildDirectoryContext}
    (hx : x.parent ≠ some q) (dirs : List RomFSBuildDirectoryContext) :
    childrenIn q n (x::dirs) = childrenIn q (n + 1) dirs := by
  simp only [childrenIn, List.zipIdx_cons]
  rw [List.filter_cons_of_neg (by simpa using hx)]

theorem childrenIn_none {q n : ℕ} {dirs : List RomFSBuildDirectoryContext}
    (h : ∀ x ∈ dirs, x.parent ≠ some q) : childrenIn q n dirs = [] := by
  rw [childrenIn, List.filter_eq_nil_iff.mpr, List.map_nil]
  intro x hx
  simpa using h x.1 (List.fst_mem_of_mem_zipIdx hx)

theorem filesIn_append (q : ℕ) (a b : List RomFSBuildFileContext) :
    filesIn q (a ++ b) = filesIn q a ++ filesIn q b := by
  simp only [filesIn, List.filter_append, List.map_append]

theorem filesIn_none {q : ℕ} {fs : List RomFSBuildFileContext}
    (h : ∀ x ∈ fs, x.parent ≠ some q) : filesIn q fs = [] := by
  rw [filesIn, List.filter_eq_nil_iff.mpr, List.map_nil]
  intro x hx
  simpa using h x hx

/-- What a visit makes of a file and of a directory in the directory `p`. -/
def fileContext (parent : RomFSBuildDirectoryContext) (p : ℕ) (file : VfsFile) :
    RomFSBuildFileContext :=
  ⟨parent.path ++ utf8 "/" ++ file.name, parent.pathLen + 1,
    parent.pathLen + 1 + file.name.length, file.size, some p, file⟩

def directoryContext (parent : RomFSBuildDirectoryContext) (p : ℕ) (name : Name) :
    RomFSBuildDirectoryContext :=
  ⟨parent.path ++ utf8 "/" ++ name, parent.pathLen + 1, parent.pathLen + 1 + name.length, some p⟩

/-- The directories of a visit that finds `n` directories. -/
def flatDirs (parent : RomFSBuildDirectoryContext) (p n : ℕ) :
    VfsDirs → List RomFSBuildDirectoryContext
  | .nil => []
  | .cons name _ subs rest =>
    directoryContext parent p name::(flatDirs (directoryContext parent p name) n (n + 1) subs ++
      flatDirs parent p (n + 1 + subs.count) rest)

def flatFiles (parent : RomFSBuildDirectoryContext) (p n : ℕ) :
    VfsDirs → List RomFSBuildFileContext
  | .nil => []
  | .cons name files subs rest =>
    files.map (fileContext (directoryContext parent p name) n) ++
      flatFiles (directoryContext parent p name) n (n + 1) subs ++
      flatFiles parent p (n + 1 + subs.count) rest

section

variable (parent : RomFSBuildDirectoryContext) (p n : ℕ) (d : VfsDirs)

@[simp] theorem length_flatDirs : (flatDirs parent p n d).length = d.count := by
  induction d generalizing parent p n with
  | nil => rfl
  | cons name files subs rest hsubs hrest =>
    rw [flatDirs, List.length_cons, List.length_append, hsubs, hrest, VfsDirs.count_cons]
    omega

/-- The parents of the directories of a visit. -/
theorem parent_flatDirs : ∀ x ∈ flatDirs parent p n d, ∃ q, x.parent = some q ∧
    (q = p ∨ n ≤ q ∧ q < n + d.count) := by
  induction d generalizing parent p n with
  | nil => exact nofun
  | cons name files subs rest hsubs hrest =>
    intro x hx
    rw [VfsDirs.count_cons]
    rw [flatDirs, List.mem_cons, List.mem_append] at hx
    rcases hx with rfl | hx | hx
    · exact ⟨p, rfl, .inl rfl⟩
    · obtain ⟨q, hq, hin⟩ := hsubs _ _ _ x hx
      exact ⟨q, hq, by omega⟩
    · obtain ⟨q, hq, hin⟩ := hrest _ _ _ x hx
      exact ⟨q, hq, by omega⟩

theorem parent_flatFiles : ∀ x ∈ flatFiles parent p n d, ∃ q, x.parent = some q ∧
    n ≤ q ∧ q < n + d.count := by
  induction d generalizing parent p n with
  | nil => exact nofun
  | cons name files subs rest hsubs hrest =>
    intro x hx
    rw [VfsDirs.count_cons]
    rw [flatFiles, List.mem_append, List.mem_append] at hx
    rcases hx with (hx | hx) | hx
    · obtain ⟨f, -, rfl⟩ := List.mem_map.mp hx
      exact ⟨n, rfl, by omega⟩
    · obtain ⟨q, hq, hin⟩ := hsubs _ _ _ x hx
      exact ⟨q, hq, by omega⟩
    · obtain ⟨q, hq, hin⟩ := hrest _ _ _ x hx
      exact ⟨q, hq, by omega⟩

variable {parent p n d}

theorem childrenIn_flatDirs_none {q : ℕ} (hq : q ≠ p) (hout : q < n ∨ n + d.count ≤ q) (m : ℕ) :
    childrenIn q m (flatDirs parent p n d) = [] := by
  refine childrenIn_none fun x hx => ?_
  obtain ⟨q', hparent, hin⟩ := parent_flatDirs parent p n d x hx
  rw [hparent]
  intro heq
  have := Option.some.inj heq
  omega

theorem filesIn_flatFiles_none {q : ℕ} (hout : q < n ∨ n + d.count ≤ q) :
    filesIn q (flatFiles parent p n d) = [] := by
  refine filesIn_none fun x hx => ?_
  obtain ⟨q', hparent, hin⟩ := parent_flatFiles parent p n d x hx
  rw [hparent]
  intro heq
  have := Option.some.inj heq
  omega

end

/-- The path of a child ends in its name. -/
theorem drop_childPath {path name : Name} {pathLen : ℕ} (h : path.length = pathLen) :
    (path ++ utf8 "/" ++ name).drop (pathLen + 1) = name := by
  have hlen : (path ++ utf8 "/").length = pathLen + 1 := by
    rw [List.length_append, h]
    rfl
  rw [← hlen, List.drop_left]

theorem length_directoryContext {parent : RomFSBuildDirectoryContext} (p : ℕ) (name : Name)
    (h : parent.path.length = parent.pathLen) :
    (directoryContext parent p name).path.length = (directoryContext parent p name).pathLen := by
  simp only [directoryContext, List.length_append, h]
  rfl

/-- The parent indices of a visit give back the directories. -/
theorem tree_flat {parent : RomFSBuildDirectoryContext} {p n : ℕ} (hp : p < n)
    (hpath : parent.path.length = parent.pathLen)
    (hname : ∀ x ∈ (flatDirs parent p n d).zipIdx n, name x.2 = x.1.path.drop x.1.curPathOfs)
    (hchildren : ∀ q, n ≤ q → q < n + d.count →
      children q = childrenIn q n (flatDirs parent p n d))
    (hfiles : ∀ q, n ≤ q → q < n + d.count → files q = filesIn q (flatFiles parent p n d)) :
    Tree name files children (childrenIn p n (flatDirs parent p n d)) d := by
  induction d generalizing parent p n with
  | nil => exact .nil
  | cons dirName dirFiles subs rest ihsubs ihrest =>
    simp only [flatDirs, flatFiles, VfsDirs.count_cons, List.zipIdx_cons, List.zipIdx_append,
      length_flatDirs, List.forall_mem_cons, List.forall_mem_append] at hname hchildren hfiles
    obtain ⟨hname, hnameSubs, hnameRest⟩ := hname
    obtain ⟨dir, hdir⟩ : ∃ dir, dir = directoryContext parent p dirName := ⟨_, rfl⟩
    have hdirPath := length_directoryContext p dirName hpath
    have hdirParent : dir.parent = some p := by rw [hdir]; rfl
    rw [← hdir] at hname hnameSubs hdirPath
    simp only [← hdir] at hchildren hfiles
    -- among the indices from `n` on, those of `p` are `n` and some behind the subdirectories
    have htop : childrenIn p n (flatDirs parent p n (.cons dirName dirFiles subs rest)) =
        n::childrenIn p (n + 1 + subs.count) (flatDirs parent p (n + 1 + subs.count) rest) := by
      rw [flatDirs, ← hdir, childrenIn_cons_self hdirParent, childrenIn_append, length_flatDirs,
        childrenIn_flatDirs_none (by omega) (by omega), List.nil_append]
    have hchildrenBelow : ∀ q, n ≤ q → q < n + (1 + subs.count + rest.count) →
        children q = childrenIn q (n + 1) (flatDirs dir n (n + 1) subs) ++
          childrenIn q (n + 1 + subs.count) (flatDirs parent p (n + 1 + subs.count) rest) := by
      intro q hle hlt
      rw [hchildren q hle hlt, childrenIn_cons_other (by rw [hdirParent]; simp; omega),
        childrenIn_append, length_flatDirs]
    have hown : filesIn n (dirFiles.map (fileContext dir n)) = dirFiles := by
      rw [filesIn, List.filter_eq_self.mpr, List.map_map]
      · exact List.map_id _
      · intro x hx
        obtain ⟨f, -, rfl⟩ := List.mem_map.mp hx
        simp [fileContext]
    have hother : ∀ q, q ≠ n → filesIn q (dirFiles.map (fileContext dir n)) = [] := by
      intro q hq
      refine filesIn_none fun x hx => ?_
      obtain ⟨f, -, rfl⟩ := List.mem_map.mp hx
      simpa [fileContext] using Ne.symm hq
    simp only [filesIn_append] at hfiles
    have hsubs := @ihsubs dir n (n + 1) (by omega) hdirPath hnameSubs
      (fun q hle hlt => by
        rw [hchildrenBelow q (by omega) (by omega),
          childrenIn_flatDirs_none (n := n + 1 + subs.count) (by omega) (by omega),
          List.append_nil])
      (fun q hle hlt => by
        rw [hfiles q (by omega) (by omega), hother q (by omega),
          filesIn_flatFiles_none (n := n + 1 + subs.count) (by omega), List.nil_append,
          List.append_nil])
    have hrest := @ihrest parent p (n + 1 + subs.count) (by omega) hpath
      hnameRest
      (fun q hle hlt => by
        rw [hchildrenBelow q (by omega) (by omega),
          childrenIn_flatDirs_none (n := n + 1) (by omega) (by omega), List.nil_append])
      (fun q hle hlt => by
        rw [hfiles q (by omega) (by omega), hother q (by omega),
          filesIn_flatFiles_none (n := n + 1) (by omega), List.nil_append, List.nil_append])
    have hchildrenOwn : children n = childrenIn n (n + 1) (flatDirs dir n (n + 1) subs) := by
      rw [hchildrenBelow n (by omega) (by omega),
        childrenIn_flatDirs_none (n := n + 1 + subs.count) (by omega) (by omega), List.append_nil]
    have hfilesOwn : files n = dirFiles := by
      rw [hfiles n (by omega) (by omega), hown, filesIn_flatFiles_none (n := n + 1) (by omega),
        filesIn_flatFiles_none (n := n + 1 + subs.count) (by omega), List.append_nil,
        List.append_nil]
    have hnameOwn : name n = dirName := by
      rw [hname, hdir]
      exact drop_childPath hpath
    rw [htop, ← hfilesOwn, ← hnameOwn]
    rw [← hchildrenOwn] at hsubs
    exact .cons hsubs hrest

/-! ### Visits -/

def RomFSBuildDirectoryContext.width (d : RomFSBuildDirectoryContext) : ℕ :=
  directoryEntrySize + alignUp (d.pathLen - d.curPathOfs) 4

def RomFSBuildFileContext.width (f : RomFSBuildFileContext) : ℕ :=
  fileEntrySize + alignUp (f.pathLen - f.curPathOfs) 4

namespace RomFSBuildContext

variable {patchIps : VfsFile → VfsFile → Option VfsFile} {c : RomFSBuildContext} {p : ℕ}
  {parent : RomFSBuildDirectoryContext}

/-- A context with more directories and files. -/
def append (c : RomFSBuildContext) (directories : List RomFSBuildDirectoryContext)
    (files : List RomFSBuildFileContext) : RomFSBuildContext where
  directories := c.directories ++ directories
  files := c.files ++ files
  numDirs := c.numDirs + directories.length
  numFiles := c.numFiles + files.length
  dirTableSize := c.dirTableSize + (directories.map RomFSBuildDirectoryContext.width).sum
  fileTableSize := c.fileTableSize + (files.map RomFSBuildFileContext.width).sum

theorem append_append (ds ds' : List RomFSBuildDirectoryContext)
    (fs fs' : List RomFSBuildFileContext) :
    (c.append ds fs).append ds' fs' = c.append (ds ++ ds') (fs ++ fs') := by
  simp only [append, List.append_assoc, List.length_append, List.map_append, List.sum_append,
    Nat.add_assoc]

theorem length_append (ds : List RomFSBuildDirectoryContext) (fs : List RomFSBuildFileContext) :
    (c.append ds fs).directories.length = c.directories.length + ds.length :=
  List.length_append

theorem childPath_eq (h : c.directories[p]? = some parent) {name : Name}
    (hfit : parent.pathLen + 1 + name.length < fsMaxPath) :
    c.childPath p name = some (parent.path ++ utf8 "/" ++ name, parent.pathLen + 1,
      parent.pathLen + 1 + name.length) := by
  rw [childPath, h]
  exact if_pos hfit

/-- A visit without extensions appends the files of the directory. -/
theorem visitFiles_eq (h : c.directories[p]? = some parent) {files : List VfsFile}
    (hfit : ∀ f ∈ files, parent.pathLen + 1 + f.name.length < fsMaxPath) :
    visitFiles patchIps none p files c = some (c.append [] (files.map (fileContext parent p))) := by
  induction files generalizing c with
  | nil => simp [visitFiles, append]
  | cons file files ih =>
    have hone : c.addFile p (fileContext parent p file) = c.append [] [fileContext parent p file] := by
      simp [addFile, append, fileContext, RomFSBuildFileContext.width]
    have hrest := ih (c := c.append [] [fileContext parent p file]) (by simp [append, h])
      fun f hf => hfit f (List.mem_cons_of_mem _ hf)
    rw [append_append] at hrest
    rw [visitFiles, if_neg (by simp [isStub]), childPath_eq h (hfit file List.mem_cons_self)]
    rw [← hone] at hrest
    exact hrest

theorem visitSubdirectories_eq (h : c.directories[p]? = some parent) {d : VfsDirs}
    (hfit : d.PathsFit parent.pathLen) :
    visitSubdirectories patchIps none p d c =
      some (c.append (flatDirs parent p c.directories.length d)
        (flatFiles parent p c.directories.length d)) := by
  induction d generalizing c p parent with
  | nil => simp [visitSubdirectories, append, flatDirs, flatFiles]
  | cons name files subs rest ihsubs ihrest =>
    obtain ⟨hname, hfiles, hsubs, hrest⟩ := hfit
    obtain ⟨dir, hdir⟩ : ∃ dir, dir = directoryContext parent p name := ⟨_, rfl⟩
    have hone : c.addDirectory p ⟨parent.path ++ utf8 "/" ++ name, parent.pathLen + 1,
        parent.pathLen + 1 + name.length, none⟩ = c.append [dir] [] := by
      simp [addDirectory, append, hdir, directoryContext, RomFSBuildDirectoryContext.width]
    have hpathLen : dir.pathLen = parent.pathLen + 1 + name.length := by rw [hdir]; rfl
    have hself : (c.append [dir] []).directories[c.directories.length]? = some dir := by
      simp [append]
    have hkeep : ∀ ds fs, (c.append ds fs).directories[p]? = some parent := by
      intro ds fs
      rw [append, List.getElem?_append_left (List.getElem?_eq_some_iff.mp h).1, h]
    have hvisitFiles : visitFiles patchIps none c.directories.length files (c.append [dir] []) =
        some (c.append [dir] (files.map (fileContext dir c.directories.length))) := by
      rw [visitFiles_eq hself (by rw [hpathLen]; exact hfiles), append_append, List.append_nil,
        List.nil_append]
    have hvisitSubs := ihsubs
      (c := c.append [dir] (files.map (fileContext dir c.directories.length)))
      (p := c.directories.length) hself (by rw [hpathLen]; exact hsubs)
    rw [append_append, length_append, List.length_singleton, List.singleton_append] at hvisitSubs
    have hvisitRest := ihrest
      (c := c.append (dir::flatDirs dir c.directories.length (c.directories.length + 1) subs)
        (files.map (fileContext dir c.directories.length) ++
          flatFiles dir c.directories.length (c.directories.length + 1) subs))
      (hkeep _ _) hrest
    rw [append_append, length_append, List.length_cons, length_flatDirs,
      Nat.add_comm subs.count 1, ← Nat.add_assoc] at hvisitRest
    rw [visitSubdirectories, if_neg (by simp [isStub]), childPath_eq h hname]
    simp only [Option.bind_eq_bind, Option.bind_some, Option.bind_none, hone, hvisitFiles,
      hvisitSubs, hvisitRest]
    rw [flatDirs, flatFiles, ← hdir, List.cons_append]

end RomFSBuildContext

end Ruzu.FileSys
