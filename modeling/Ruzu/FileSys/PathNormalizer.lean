import Ruzu.Lib.PathComponents

/-!
# The path normalizer

`fs_path_utility.rs`: a path is bytes up to a null terminator. The checker runs
a small automaton over them, and the normalizer writes component after component
into an output buffer, backing up over its own output for a parent. Backslashes
around a parent are replaced in a copy of the path first.
-/

set_option autoImplicit false

namespace Ruzu.FsPath

abbrev Bytes := List UInt8

def directorySeparator : UInt8 := 0x2f
def driveSeparator : UInt8 := 0x3a
def dot : UInt8 := 0x2e
def nullTerminator : UInt8 := 0
def alternateDirectorySeparator : UInt8 := 0x5c

def entryNameLengthMax : ℕ := 0x300

/-- `: * ? < > |` -/
def invalidCharacters : Bytes := [0x3a, 0x2a, 0x3f, 0x3c, 0x3e, 0x7c]

def makeInvalidCharacterMask (chars : Bytes) (n : ℕ) : BitVec 64 :=
  chars.foldl (fun mask c =>
    if c.toNat >>> 6 = n then mask ||| (1#64 <<< (c.toNat &&& 0x3f)) else mask) 0

def isInvalidCharacterImpl (c : UInt8) (chars : Bytes) : Bool :=
  makeInvalidCharacterMask chars (c.toNat >>> 6) &&& (1#64 <<< (c.toNat &&& 0x3f)) ≠ 0

def isInvalidCharacter (c : UInt8) : Bool := isInvalidCharacterImpl c invalidCharacters

inductive ResultCode
  | invalidPathFormat
  | invalidCharacter
  | tooLongPath
  | directoryUnobtainable
  deriving DecidableEq

/-- A fault is an index outside a buffer or a failed assertion. -/
inductive Failure
  | fault
  | result (code : ResultCode)
  deriving DecidableEq

/-- The path ends here: at its terminator or at the end of the slice. -/
def atEnd : Bytes → Bool
  | [] => true
  | c :: _ => c == nullTerminator

def isCurrentDirectory : Bytes → Bool
  | [c] => c == dot
  | c :: d :: _ => c == dot && (d == nullTerminator || d == directorySeparator)
  | [] => false

def isParentDirectory : Bytes → Bool
  | [c, d] => c == dot && d == dot
  | c :: d :: e :: _ => c == dot && d == dot && (e == nullTerminator || e == directorySeparator)
  | _ => false

/-- A write at an index that is not checked. -/
def write (dst : Bytes) (i : ℕ) (c : UInt8) : Except Failure Bytes :=
  if i < dst.length then .ok (dst.set i c) else .error .fault

def require (holds : Bool) : Except Failure Unit :=
  if holds then .ok () else .error .fault

namespace PathNormalizer

/-! ### Parents between backslashes -/

def isSeparator (c : Option UInt8) : Bool :=
  c == some directorySeparator || c == some alternateDirectorySeparator

/-- A parent at `i` behind a separator and in front of another one. -/
def isEnclosedParent (src : Bytes) (i : ℕ) : Bool :=
  isSeparator src[i - 1]? && src[i]? == some dot && src[i + 1]? == some dot &&
    isSeparator src[i + 2]?

/-- A parent at `i` behind a backslash, at the end of the path. -/
def isLastParent (src : Bytes) (i : ℕ) : Bool :=
  src[i - 1]? == some alternateDirectorySeparator && src[i]? == some dot &&
    src[i + 1]? == some dot && src[i + 2]? == some nullTerminator

def replaceLoop (src : Bytes) : ℕ → ℕ → Bytes → Except Failure (ℕ × Bytes)
  | 0, _, _ => .error .fault
  | fuel + 1, i, dst =>
    if atEnd (src.drop i) then .ok (i, dst)
    else if isEnclosedParent src i then do
      let dst ← write dst (i - 1) directorySeparator
      let dst ← write dst i dot
      let dst ← write dst (i + 1) dot
      let dst ← write dst (i + 2) directorySeparator
      replaceLoop src fuel (i + 3) dst
    else if isLastParent src i then do
      let dst ← write dst (i - 1) directorySeparator
      let dst ← write dst i dot
      let dst ← write dst (i + 1) dot
      .ok (i + 2, dst)
    else do
      let dst ← write dst i (src.getD i 0)
      replaceLoop src fuel (i + 1) dst

def replaceParentDirectoryPath (dst src : Bytes) : Except Failure Bytes := do
  let dst ← write dst 0 directorySeparator
  let (i, dst) ← replaceLoop src (src.length + 1) 1 dst
  .ok (dst.set i nullTerminator)

/-- The test of the three bytes before `p + 3`, and of that one. -/
def isReplacementNeededAt (path : Bytes) (p : ℕ) : Bool :=
  path[p + 1]? == some dot && path[p + 2]? == some dot &&
    ((path[p]? == some alternateDirectorySeparator &&
        (isSeparator path[p + 3]? || path[p + 3]? == some nullTerminator)) ||
      (path[p + 3]? == some alternateDirectorySeparator && isSeparator path[p]?))

def replacementNeededLoop (path : Bytes) : ℕ → ℕ → Bool
  | 0, _ => false
  | fuel + 1, p =>
    if atEnd (path.drop (p + 3)) then
      path[p]? == some alternateDirectorySeparator && path[p + 1]? == some dot &&
        path[p + 2]? == some dot
    else isReplacementNeededAt path p || replacementNeededLoop path fuel (p + 1)

def isParentDirectoryPathReplacementNeeded (path : Bytes) : Bool :=
  isSeparator path[0]? && path.length ≥ 4 && replacementNeededLoop path path.length 0

/-! ### The checker -/

inductive PathState
  | start
  | normal
  | firstSeparator
  | separator
  | currentDir
  | parentDir
  deriving DecidableEq

/-- `none` when the byte shows that the path is not normalized. -/
def PathState.step (c : UInt8) : PathState → Except Failure (Option PathState)
  | .start =>
    if c ≠ directorySeparator then .error (.result .invalidPathFormat)
    else .ok (some .firstSeparator)
  | .normal => .ok (some (if c = directorySeparator then .separator else .normal))
  | .firstSeparator | .separator =>
    .ok (if c = directorySeparator then none
      else some (if c = dot then .currentDir else .normal))
  | .currentDir =>
    .ok (if c = directorySeparator then none
      else some (if c = dot then .parentDir else .normal))
  | .parentDir => .ok (if c = directorySeparator then none else some .normal)

def PathState.finish (len : ℕ) : PathState → Except Failure (Bool × ℕ)
  | .start => .error (.result .invalidPathFormat)
  | .normal | .firstSeparator => .ok (true, len)
  | .separator | .currentDir | .parentDir => .ok (false, len)

def check (allowAllCharacters : Bool) : PathState → ℕ → Bytes → Except Failure (Bool × ℕ)
  | state, len, [] => state.finish len
  | state, len, c :: rest =>
    if c = nullTerminator then state.finish len
    else if !allowAllCharacters && state ≠ .start && isInvalidCharacter c then
      .error (.result .invalidCharacter)
    else do
      match ← state.step c with
      | none => .ok (false, len + 1)
      | some state => check allowAllCharacters state (len + 1) rest

def isNormalized (path : Bytes) (allowAllCharacters : Bool) : Except Failure (Bool × ℕ) :=
  check allowAllCharacters .start 0 path

/-! ### The normalizer -/

/-- The output so far, and whether the separator in front of the next component is there. -/
structure Output where
  dst : Bytes
  totalLen : ℕ
  skipNextSep : Bool

/-- Back to the separator at `totalLen` or before. -/
def walkUp (dst : Bytes) : ℕ → Except Failure ℕ
  | 0 => if 0 < dst.length then .ok 0 else .error .fault
  | totalLen + 1 =>
    match dst[totalLen + 1]? with
    | none => .error .fault
    | some c => if c = directorySeparator then .ok (totalLen + 1) else walkUp dst totalLen

/-- Back over the component that was written last. -/
def removeComponent (isWindowsPath : Bool) (dst : Bytes) (totalLen : ℕ) : Except Failure ℕ :=
  if totalLen = 1 then
    if isWindowsPath then .ok 0 else .error (.result .directoryUnobtainable)
  else walkUp dst (totalLen - 2)

def parentStep (maxOutSize : ℕ) (isWindowsPath : Bool) (out : Output) : Except Failure Output := do
  require (0 < out.totalLen && out.dst[out.totalLen - 1]? == some directorySeparator)
  require (isWindowsPath || out.dst[0]? == some directorySeparator)
  let totalLen ← removeComponent isWindowsPath out.dst out.totalLen
  require (isWindowsPath || out.dst[totalLen]? == some directorySeparator)
  require (totalLen < maxOutSize)
  .ok { out with totalLen := totalLen }

/-- What does not fit in the buffer is dropped. -/
def copyAt (dst : Bytes) (totalLen : ℕ) : Bytes → Bytes
  | [] => dst
  | c :: rest => copyAt (dst.set totalLen c) (totalLen + 1) rest

/-- The bytes of the component that `path` starts with. -/
def component (path : Bytes) : Bytes :=
  path.takeWhile fun c => c ≠ directorySeparator && c ≠ nullTerminator

/-- One component, at the start of `path`. -/
def componentStep (maxOutSize : ℕ) (isWindowsPath allowAllCharacters : Bool) (path : Bytes)
    (out : Output) : Except Failure Output :=
  let name := component path
  if !allowAllCharacters && name.any isInvalidCharacter then .error (.result .invalidCharacter)
  else if isCurrentDirectory path then .ok { out with skipNextSep := true }
  else if isParentDirectory path then parentStep maxOutSize isWindowsPath out
  else if out.totalLen + name.length + 1 > maxOutSize then .error (.result .tooLongPath)
  else .ok { out with
    dst := copyAt out.dst out.totalLen name
    totalLen := out.totalLen + name.length }

/-- The separator in front of a component, if it is not there yet. -/
def separatorStep (maxOutSize : ℕ) (out : Output) : Except Failure Output :=
  if out.skipNextSep then .ok { out with skipNextSep := false }
  else if out.totalLen + 1 = maxOutSize then .error (.result .tooLongPath)
  else .ok { out with
    dst := out.dst.set out.totalLen directorySeparator
    totalLen := out.totalLen + 1 }

def normalizeLoop (maxOutSize : ℕ) (isWindowsPath allowAllCharacters : Bool) :
    ℕ → Bytes → Output → Except Failure Output
  | 0, _, _ => .error .fault
  | fuel + 1, path, out =>
    if atEnd path then .ok out
    else if path.head? = some directorySeparator then
      let path := path.dropWhile (· = directorySeparator)
      if atEnd path then .ok out
      else do
        let out ← separatorStep maxOutSize out
        let out ← componentStep maxOutSize isWindowsPath allowAllCharacters path out
        normalizeLoop maxOutSize isWindowsPath allowAllCharacters fuel
          (path.drop (component path).length) out
    else do
      let out ← componentStep maxOutSize isWindowsPath allowAllCharacters path out
      normalizeLoop maxOutSize isWindowsPath allowAllCharacters fuel
        (path.drop (component path).length) out

/-- A path that starts with no separator gets one if it is relative to a drive. -/
def startOutput (dst path : Bytes) (maxOutSize : ℕ) (isDriveRelativePath : Bool) :
    Except Failure Output :=
  if path.head? = some directorySeparator then .ok ⟨dst, 0, false⟩
  else if !isDriveRelativePath then .error (.result .invalidPathFormat)
  else if 0 < maxOutSize then do
    let dst ← write dst 0 directorySeparator
    .ok ⟨dst, 1, false⟩
  else .ok ⟨dst, 1, false⟩

def replacedPath (path : Bytes) : Except Failure Bytes :=
  if isParentDirectoryPathReplacementNeeded path then
    replaceParentDirectoryPath (List.replicate (entryNameLengthMax + 1) 0) path
  else .ok path

/-- The length of the output without a separator behind the last component, and of the root. -/
def finishOutput (maxOutSize : ℕ) (out : Output) : Except Failure Output := do
  let totalLen := if out.skipNextSep && 0 < out.totalLen then out.totalLen - 1 else out.totalLen
  if totalLen = 0 && maxOutSize ≠ 0 then do
    let dst ← write out.dst 0 directorySeparator
    .ok ⟨dst, 1, false⟩
  else .ok ⟨out.dst, totalLen, false⟩

def normalize (dst path : Bytes) (maxOutSize : ℕ)
    (isWindowsPath isDriveRelativePath allowAllCharacters : Bool) :
    Except Failure (ℕ × Bytes) := do
  let out ← startOutput dst path maxOutSize isDriveRelativePath
  let path ← replacedPath path
  let out ← normalizeLoop maxOutSize isWindowsPath allowAllCharacters (path.length + 1) path out
  let out ← finishOutput maxOutSize out
  if maxOutSize < out.totalLen - 1 then .error (.result .tooLongPath)
  else do
    let dst := out.dst.set out.totalLen nullTerminator
    let (isNorm, _) ← isNormalized dst allowAllCharacters
    require isNorm
    .ok (out.totalLen, dst)

end PathNormalizer

end Ruzu.FsPath
