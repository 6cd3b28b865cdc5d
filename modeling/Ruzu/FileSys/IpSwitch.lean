import Mathlib
import Ruzu.FileSys.VfsConcat
import Ruzu.Lib.Image
import Ruzu.Lib.Text

/-!
# IPSwitch text patches

`ips_layer.rs`: a text patch is read line by line, by an outer loop, and by an
inner one in a patch. Slices that cut a character are faults.
-/

set_option autoImplicit false

namespace Ruzu.FileSys
open Text

structure IpSwitchPatch where
  enabled : Bool
  /-- Ascending in the offsets. -/
  records : List (ℕ × List UInt8)

structure IpSwitchCompiler where
  valid : Bool
  patches : List IpSwitchPatch
  nsoBuildId : List UInt8
  isLittleEndian : Bool
  offsetShift : ℤ
  printValues : Bool
  lastComment : List Char

def startsWith (base : List Char) (check : String) : Bool := check.toList.isPrefixOf base

def stripPrefix (base : List Char) (check : String) : Option (List Char) :=
  if startsWith base check then some (base.drop check.length) else none

/-! ### Numbers and strings -/

/-- The `White_Space` characters. -/
def isWhitespace (c : Char) : Bool :=
  let n := c.toNat
  (9 ≤ n && n ≤ 13) || n == 0x20 || n == 0x85 || n == 0xA0 || n == 0x1680 ||
    (0x2000 ≤ n && n ≤ 0x200A) || n == 0x2028 || n == 0x2029 || n == 0x202F || n == 0x205F ||
    n == 0x3000

def trimStart (s : List Char) : List Char := s.dropWhile isWhitespace

def trim (s : List Char) : List Char := (trimStart (trimStart s).reverse).reverse

def toDigit (radix : ℕ) (c : Char) : Option ℕ :=
  let n := c.toNat
  let value :=
    if 48 ≤ n ∧ n ≤ 57 then n - 48
    else if 97 ≤ n ∧ n ≤ 122 then n - 97 + 10
    else if 65 ≤ n ∧ n ≤ 90 then n - 65 + 10
    else radix
  if value < radix then some value else none

def parseDigits (radix : ℕ) (s : List Char) : Option ℕ :=
  if s = [] then none
  else s.foldlM (fun n c => (toDigit radix c).map (n * radix + ·)) 0

/-- `from_str_radix` of an unsigned type. -/
def fromStrRadix (bits radix : ℕ) (s : List Char) : Option ℕ :=
  (parseDigits radix ((stripPrefix s "+").getD s)).filter (· < 2 ^ bits)

/-- `i64::from_str_radix`. -/
def i64FromStrRadix (radix : ℕ) (s : List Char) : Option ℤ :=
  match stripPrefix s "-" with
  | some digits => ((parseDigits radix digits).filter (· ≤ 2 ^ 63)).map fun n => -(n : ℤ)
  | none => ((parseDigits radix ((stripPrefix s "+").getD s)).filter (· < 2 ^ 63)).map Int.ofNat

def parseIntegerAuto (input : List Char) : ℤ :=
  let input := trim input
  let (negative, digits) := match stripPrefix input "-" with
    | some digits => (true, digits)
    | none => (false, input)
  let digits := (stripPrefix digits "+").getD digits
  let (radix, digits) := match (stripPrefix digits "0x").orElse fun _ => stripPrefix digits "0X" with
    | some digits => (16, digits)
    | none =>
      if len digits > 1 ∧ startsWith digits "0" then (8, digits.drop 1) else (10, digits)
  match i64FromStrRadix radix digits with
  | none => 0
  | some value =>
    -- `checked_neg`
    if negative then (if value = -2 ^ 63 then 0 else -value) else value

def hexPairs : List Char → List UInt8
  | a::b::rest => ((fromStrRadix 8 16 [a, b]).map UInt8.ofNat).toList ++ hexPairs rest
  | _ => []

def hexStringToVec (hex : List Char) (littleEndian : Bool) : List UInt8 :=
  let bytes := hexPairs (trim hex)
  if littleEndian then bytes.reverse else bytes

/-- `format!("{:0<64}")`. -/
def padded (hex : List Char) : List Char := hex ++ List.replicate (64 - hex.length) '0'

def hexStringToArray20 (hex : List Char) : Option (List UInt8) :=
  (List.range 0x20).mapM fun i => do
    let rest ← sliceFrom (padded hex) (i * 2)
    return UInt8.ofNat ((fromStrRadix 8 16 (← sliceTo rest 2)).getD 0)

def escapeStringSequences : List Char → List Char
  | '\\'::c::rest =>
    (match c with
      | 'a' => Char.ofNat 0x07
      | 'b' => Char.ofNat 0x08
      | 'e' => Char.ofNat 0x1b
      | 'f' => Char.ofNat 0x0c
      | 'n' => '\n'
      | 'r' => '\r'
      | 't' => '\t'
      | 'v' => Char.ofNat 0x0b
      | other => other)::escapeStringSequences rest
  | c::rest => c::escapeStringSequences rest
  | [] => []

/-! ### Lines -/

/-- `str::lines`. -/
def textLines (text : List Char) : List (List Char) :=
  let parts := text.splitOn '\n'
  let whole := parts.dropLast.map fun l => if l.getLast? = some '\r' then l.dropLast else l
  match parts.getLast? with
  | none | some [] => whole
  | some last => whole ++ [last]

def patchLines (text : List Char) : List (List Char) :=
  (textLines text).map fun l => if l.getLast? = some '\r' then l.dropLast else l

/-- The first two backslashes. Whether they stand in a string makes no difference. -/
def commentIndex : List UInt8 → Option ℕ
  | a::b::rest => if a = 92 ∧ b = 92 then some 0 else (commentIndex (b::rest)).map (· + 1)
  | _ => none

namespace IpSwitchCompiler

def parseFlag (c : IpSwitchCompiler) (line : List Char) : IpSwitchCompiler :=
  match stripPrefix line "@flag offset_shift " with
  | some rest => { c with offsetShift := parseIntegerAuto rest }
  | none =>
    if startsWith line "@little-endian" then { c with isLittleEndian := true }
    else if startsWith line "@big-endian" then { c with isLittleEndian := false }
    else if startsWith line "@flag print_values" then { c with printValues := true }
    else c

def removeComment (c : IpSwitchCompiler) (line : List Char) :
    Option (List Char × IpSwitchCompiler) :=
  if startsWith line "//" then some (line, c)
  else
    match commentIndex (bytes line) with
    | none => some (line, c)
    | some ci => do
      let comment ← sliceFrom line (ci + 2)
      return (← sliceTo line ci, { c with lastComment := comment })

/-- How the outer loop goes on behind a line. -/
inductive Line
  | stop (c : IpSwitchCompiler)
  | next (c : IpSwitchCompiler)
  | patch (c : IpSwitchCompiler) (enabled : Bool)

def parseLine (c : IpSwitchCompiler) (line : List Char) : Option Line := do
  let (line, c) ← c.removeComment line
  if startsWith line "@stop" then return .stop c
  else if startsWith line "@nsobid-" then
    return .next { c with nsoBuildId := ← hexStringToArray20 (← sliceFrom line 8) }
  else if startsWith line "#" then
    let _ ← sliceFrom line 1
    return .next c
  else if startsWith line "//" then
    return .next { c with lastComment := trimStart (← sliceFrom line 2) }
  else if startsWith line "@enabled" || startsWith line "@disabled" then
    let _ ← sliceFrom line 1
    return .patch c (startsWith line "@enabled")
  else if startsWith line "@" then return .next (c.parseFlag line)
  else return .next c

/-- The first quote without a backslash in front of it, if there is one. -/
def closingQuote (rest : List Char) : (fuel searchFrom : ℕ) → Option (Option ℕ)
  | 0, _ => none
  | fuel + 1, searchFrom => do
    match find (· = '"') (← sliceFrom rest searchFrom) with
    | none => return none
    | some pos =>
      let actual := searchFrom + pos
      if actual > 0 ∧ (bytes rest)[actual - 1]? = some 92 then closingQuote rest fuel (actual + 1)
      else return some actual

/-- How the inner loop goes on behind a line. -/
inductive PatchLine
  | skip (c : IpSwitchCompiler)
  | back
  | stop
  | abort
  | record (offset : ℕ) (replace : List UInt8)

def parsePatchLine (c : IpSwitchCompiler) (line : List Char) : Option PatchLine := do
  if startsWith line "//" || startsWith line "#" then return .skip c
  else if startsWith line "@enabled" || startsWith line "@disabled" then return .back
  else if startsWith line "@" then return .skip (c.parseFlag line)
  else if len line < 11 then return .stop
  else
    let offsetStr ← sliceTo line 8
    let offset := ((fromStrRadix 64 16 offsetStr).getD 0 + (c.offsetShift % 2 ^ 64).toNat) % 2 ^ 64
    if len line > 9 ∧ (bytes line)[9]? = some 34 then
      let rest ← sliceFrom line 10
      match ← closingQuote rest (len rest + 1) 0 with
      | none => return .abort
      | some stop =>
        let value ← sliceTo rest stop
        return .record (offset % 2 ^ 32) (bytes (escapeStringSequences value))
    else
      let rest ← sliceFrom line 9
      let stop := (find (fun x => x = ' ' || x = '/' || x = '\r' || x = '\n') rest).getD (len rest)
      let value ← sliceTo rest stop
      return .record (offset % 2 ^ 32) (hexStringToVec value c.isLittleEndian)

end IpSwitchCompiler

/-- `BTreeMap::insert`. -/
def insertRecord (offset : ℕ) (replace : List UInt8) :
    List (ℕ × List UInt8) → List (ℕ × List UInt8)
  | [] => [(offset, replace)]
  | (offset', replace')::records =>
    if offset < offset' then (offset, replace)::(offset', replace')::records
    else if offset = offset' then (offset, replace)::records
    else (offset', replace')::insertRecord offset replace records

namespace IpSwitchCompiler

/-- How the inner loop is left: by `return`, or with the line it stands at. -/
inductive PatchEnd
  | abort (c : IpSwitchCompiler)
  | done (i : ℕ) (c : IpSwitchCompiler) (patch : IpSwitchPatch)

/-- The inner loop, with the lines that it looks at. -/
def parsePatch (lines : List (List Char)) (i : ℕ) (c : IpSwitchCompiler) (patch : IpSwitchPatch) :
    List ℕ × Option PatchEnd :=
  if i + 1 ≥ lines.length then ([], some (.done i c patch))
  else
    let i' := i + 1
    match c.parsePatchLine (lines.getD i' []) with
    | none => ([i'], none)
    | some (.skip c) =>
      let r := parsePatch lines i' c patch
      (i'::r.1, r.2)
    | some .back => ([i'], some (.done (i' - 1) c patch))
    | some .stop => ([i'], some (.done i' c patch))
    | some .abort => ([i'], some (.abort c))
    | some (.record offset replace) =>
      let r := parsePatch lines i' c
        { patch with records := insertRecord offset replace patch.records }
      (i'::r.1, r.2)
termination_by lines.length - i

theorem parsePatch_le {lines : List (List Char)} {i i' : ℕ} {c c' : IpSwitchCompiler}
    {patch patch' : IpSwitchPatch}
    (h : (parsePatch lines i c patch).2 = some (.done i' c' patch')) : i ≤ i' := by
  induction i, c, patch using parsePatch.induct lines with
  | case1 i c patch hend =>
    rw [parsePatch, if_pos hend] at h
    rw [Option.some_inj, PatchEnd.done.injEq] at h
    exact h.1.le
  | case2 i c patch hmore j hline =>
    rw [parsePatch, if_neg hmore] at h
    dsimp only at h
    rw [hline] at h
    cases h
  | case3 i c patch hmore j c₁ hline ih =>
    rw [parsePatch, if_neg hmore] at h
    dsimp only at h
    rw [hline] at h
    exact (Nat.le_succ i).trans (ih h)
  | case4 i c patch hmore j hline =>
    rw [parsePatch, if_neg hmore] at h
    dsimp only at h
    rw [hline] at h
    rw [Option.some_inj, PatchEnd.done.injEq] at h
    exact h.1.le
  | case5 i c patch hmore j hline =>
    rw [parsePatch, if_neg hmore] at h
    dsimp only at h
    rw [hline] at h
    rw [Option.some_inj, PatchEnd.done.injEq] at h
    exact (Nat.le_succ i).trans h.1.le
  | case6 i c patch hmore j hline =>
    rw [parsePatch, if_neg hmore] at h
    dsimp only at h
    rw [hline] at h
    cases h
  | case7 i c patch hmore j offset replace hline ih =>
    rw [parsePatch, if_neg hmore] at h
    dsimp only at h
    rw [hline] at h
    exact (Nat.le_succ i).trans (ih h)

/-- The outer loop, with the lines that it and the inner one look at. -/
def parseLines (lines : List (List Char)) (i : ℕ) (c : IpSwitchCompiler) :
    List ℕ × Option IpSwitchCompiler :=
  if i < lines.length then
    match c.parseLine (lines.getD i []) with
    | none => ([i], none)
    | some (.stop c) => ([i], some { c with valid := true })
    | some (.next c) =>
      let r := parseLines lines (i + 1) c
      (i::r.1, r.2)
    | some (.patch c enabled) =>
      let visits := (parsePatch lines i c ⟨enabled, []⟩).1
      match _h : (parsePatch lines i c ⟨enabled, []⟩).2 with
      | none => (i::visits, none)
      | some (.abort c) => (i::visits, some c)
      | some (.done i' c patch) =>
        let r := parseLines lines (i' + 1) { c with patches := c.patches ++ [patch] }
        (i::(visits ++ r.1), r.2)
  else ([], some { c with valid := true })
termination_by lines.length - i
decreasing_by
  · omega
  · have := parsePatch_le ‹_›
    omega

def empty : IpSwitchCompiler := ⟨false, [], List.replicate 0x20 0, false, 0, false, []⟩

/-- `new`: the text is what `from_utf8_lossy` makes of the bytes of the file, and any text is made
of its own bytes. -/
def new (text : List Char) : List ℕ × Option IpSwitchCompiler :=
  parseLines (patchLines text) 0 empty

/-- One record on the data. -/
def applyRecord (inData : List UInt8) (record : ℕ × List UInt8) : Option (List UInt8) :=
  let (offset, replace) := record
  if offset ≥ inData.length then some inData
  else do
    let replaceSize :=
      if offset + replace.length > inData.length then inData.length - offset else replace.length
    let piece ← Image.slice replace 0 replaceSize
    Image.write inData offset piece

/-- `apply`: the outer option is a fault. -/
def apply (c : IpSwitchCompiler) (source : VfsFile) : Option (Option VfsFile) :=
  if ¬c.valid then some none
  else do
    let data ← c.patches.foldlM (fun inData patch =>
      if ¬patch.enabled then some inData else patch.records.foldlM applyRecord inData)
        (source.read source.size 0)
    return some ⟨source.name, data⟩

end IpSwitchCompiler

end Ruzu.FileSys
