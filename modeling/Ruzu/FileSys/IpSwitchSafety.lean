import Mathlib
import Ruzu.FileSys.IpSwitch

/-!
# Text patches that are read without a fault

A fault is a slice inside a character: in a build id, or at the fixed columns of
a record. Every line is looked at twice at most, and applying never faults.
-/

set_option autoImplicit false

namespace Ruzu.FileSys
open Text

variable {line : List Char} {c : IpSwitchCompiler}

/-! ### Slices -/

theorem startsWith_iff {check : String} :
    startsWith line check = true ↔ ∃ rest, line = check.toList ++ rest := by
  rw [startsWith, List.isPrefixOf_iff_prefix]
  exact ⟨fun ⟨rest, h⟩ => ⟨rest, h.symm⟩, fun ⟨rest, h⟩ => ⟨rest, h.symm⟩⟩

/-- A line starts with one of two words that differ. -/
theorem startsWith_ne {a b : String} (ha : startsWith line a = true)
    (hb : ¬a.toList <+: b.toList) (hb' : ¬b.toList <+: a.toList) : startsWith line b = false := by
  rw [startsWith, List.isPrefixOf_iff_prefix] at ha
  refine Bool.eq_false_iff.mpr fun h => ?_
  rw [startsWith, List.isPrefixOf_iff_prefix] at h
  rcases Nat.le_total a.toList.length b.toList.length with hle | hle
  · exact hb (List.prefix_of_prefix_length_le ha h hle)
  · exact hb' (List.prefix_of_prefix_length_le h ha hle)

theorem startsWith_of_prefix {a b : String} (h : startsWith line b = true)
    (hab : a.toList <+: b.toList) : startsWith line a = true := by
  rw [startsWith, List.isPrefixOf_iff_prefix] at h ⊢
  exact hab.trans h

theorem sliceFrom_startsWith {check : String} (h : startsWith line check = true) :
    sliceFrom line (len check.toList) = some (line.drop check.toList.length) := by
  obtain ⟨rest, rfl⟩ := startsWith_iff.1 h
  rw [sliceFrom_append, List.drop_left]

theorem mapM_isSome {α β : Type*} {f : α → Option β} {l : List α} :
    (∃ out, l.mapM f = some out) ↔ ∀ x ∈ l, ∃ y, f x = some y := by
  induction l with
  | nil => exact iff_of_true ⟨[], rfl⟩ nofun
  | cons x l ih =>
    rw [List.forall_mem_cons, ← ih, List.mapM_cons]
    constructor
    · rintro ⟨out, h⟩
      obtain ⟨y, hy, h⟩ := Option.bind_eq_some_iff.mp h
      obtain ⟨ys, hys, -⟩ := Option.bind_eq_some_iff.mp h
      exact ⟨⟨y, hy⟩, ys, hys⟩
    · rintro ⟨⟨y, hy⟩, ys, hys⟩
      exact ⟨y::ys, Option.bind_eq_some_iff.mpr ⟨y, hy, Option.bind_eq_some_iff.mpr ⟨ys, hys, rfl⟩⟩⟩

theorem hexStringToArray20_isSome {hex : List Char} :
    (∃ id, hexStringToArray20 hex = some id) ↔
      ∀ i ≤ 0x20, IsCharBoundary (padded hex) (i * 2) := by
  have hpair : ∀ i : ℕ, (∃ y, (do
      let rest ← sliceFrom (padded hex) (i * 2)
      return UInt8.ofNat ((fromStrRadix 8 16 (← sliceTo rest 2)).getD 0) : Option UInt8) = some y) ↔
        IsCharBoundary (padded hex) (i * 2) ∧ IsCharBoundary (padded hex) (i * 2 + 2) := by
    intro i
    rw [← range_isSome]
    constructor
    · rintro ⟨y, h⟩
      obtain ⟨rest, hrest, h⟩ := Option.bind_eq_some_iff.mp h
      obtain ⟨piece, hpiece, -⟩ := Option.bind_eq_some_iff.mp h
      exact ⟨piece, Option.bind_eq_some_iff.mpr ⟨rest, hrest, hpiece⟩⟩
    · rintro ⟨piece, h⟩
      obtain ⟨rest, hrest, hpiece⟩ := Option.bind_eq_some_iff.mp h
      exact ⟨_, Option.bind_eq_some_iff.mpr ⟨rest, hrest,
        Option.bind_eq_some_iff.mpr ⟨piece, hpiece, rfl⟩⟩⟩
  rw [hexStringToArray20, mapM_isSome]
  simp only [hpair, List.mem_range]
  constructor
  · intro h i hi
    cases i with
    | zero => exact (h 0 (by omega)).1
    | succ i => exact Nat.succ_mul i 2 ▸ (h i (by omega)).2
  · intro h i hi
    exact ⟨h i (by omega), Nat.succ_mul i 2 ▸ h (i + 1) (by omega)⟩

/-! ### The lines of the outer loop -/

theorem commentIndex_spec {text : List UInt8} {ci : ℕ} (h : commentIndex text = some ci) :
    text[ci]? = some 92 ∧ text[ci + 1]? = some 92 := by
  induction text using commentIndex.induct generalizing ci with
  | case1 a b rest hpair =>
    rw [commentIndex, if_pos hpair] at h
    obtain rfl := Option.some.inj h
    obtain ⟨rfl, rfl⟩ := hpair
    exact ⟨rfl, rfl⟩
  | case2 a b rest hother ih =>
    rw [commentIndex, if_neg hother] at h
    obtain ⟨i, hi, rfl⟩ := Option.map_eq_some_iff.mp h
    exact ih hi
  | case3 bytes hshort =>
    rw [commentIndex] at h
    · cases h
    · exact hshort

/-- The line without its comment. -/
def frontOf (line : List Char) : List Char :=
  if startsWith line "//" then line
  else
    match commentIndex (bytes line) with
    | none => line
    | some ci => (sliceTo line ci).getD line

/-- A comment never cuts a character: it starts at a byte of its own. -/
theorem removeComment_eq (c : IpSwitchCompiler) (line : List Char) :
    ∃ c', c.removeComment line = some (frontOf line, c') := by
  rw [IpSwitchCompiler.removeComment, frontOf]
  split
  case isTrue => exact ⟨c, rfl⟩
  case isFalse =>
    cases hci : commentIndex (bytes line) with
    | none => exact ⟨c, rfl⟩
    | some ci =>
      obtain ⟨hfirst, hsecond⟩ := commentIndex_spec hci
      obtain ⟨comment, hcomment⟩ :=
        sliceFrom_isSome.mpr (isCharBoundary_of_ascii (by decide) hsecond).2
      obtain ⟨front, hfront⟩ := sliceTo_isSome.mpr (isCharBoundary_of_ascii (by decide) hfirst).1
      refine ⟨{ c with lastComment := comment }, Option.bind_eq_some_iff.mpr ⟨comment, hcomment, ?_⟩⟩
      dsimp only
      rw [hfront]
      rfl

/-- The build id of a line has its characters in pairs of bytes. -/
def LineInOrder (line : List Char) : Prop :=
  startsWith (frontOf line) "@nsobid-" = true →
    ∀ i ≤ 0x20, IsCharBoundary (padded ((frontOf line).drop 8)) (i * 2)

/-- Where the lines after a line stand: in a patch or not. There are none after `@stop`. -/
def lineMode (line : List Char) : Option Bool :=
  if startsWith (frontOf line) "@stop" then none
  else some (startsWith (frontOf line) "@enabled" || startsWith (frontOf line) "@disabled")

def IpSwitchCompiler.Line.mode : IpSwitchCompiler.Line → Option Bool
  | stop _ => none
  | next _ => some false
  | patch _ _ => some true

theorem parseLine_spec (c : IpSwitchCompiler) (line : List Char) :
    ((∃ next, c.parseLine line = some next) ↔ LineInOrder line) ∧
      ∀ next, c.parseLine line = some next → next.mode = lineMode line := by
  obtain ⟨c', hremove⟩ := removeComment_eq c line
  rw [IpSwitchCompiler.parseLine, hremove, LineInOrder, lineMode]
  generalize frontOf line = front
  simp only [Option.bind_eq_bind, Option.bind_some]
  -- what a line starts with decides all the tests
  have hother : ∀ {word : String}, startsWith front word = true →
      ¬word.toList <+: "@enabled".toList → ¬"@enabled".toList <+: word.toList →
      ¬word.toList <+: "@disabled".toList → ¬"@disabled".toList <+: word.toList →
      (startsWith front "@enabled" || startsWith front "@disabled") = false := by
    intro word h h₁ h₂ h₃ h₄
    rw [startsWith_ne h h₁ h₂, startsWith_ne h h₃ h₄]
    rfl
  split
  case isTrue hstop =>
    have hid := startsWith_ne (b := "@nsobid-") hstop (by decide) (by decide)
    refine ⟨iff_of_true ⟨_, rfl⟩ fun h => absurd h (by rw [hid]; decide), fun next h => ?_⟩
    rw [← Option.some.inj h]
    rfl
  case isFalse hstop =>
    split
    case isTrue hid =>
      have hslice : sliceFrom front 8 = some (front.drop 8) := sliceFrom_startsWith hid
      rw [hslice, Option.bind_some]
      constructor
      · rw [← hexStringToArray20_isSome]
        constructor
        · rintro ⟨next, h⟩ -
          obtain ⟨id, hid, -⟩ := Option.bind_eq_some_iff.mp h
          exact ⟨id, hid⟩
        · intro h
          obtain ⟨id, hid⟩ := h hid
          exact ⟨_, Option.bind_eq_some_iff.mpr ⟨id, hid, rfl⟩⟩
      · intro next h
        obtain ⟨id, -, h⟩ := Option.bind_eq_some_iff.mp h
        rw [← Option.some.inj h, hother hid (by decide) (by decide) (by decide) (by decide)]
        rfl
    case isFalse hid =>
      have horder : ∀ {p : Prop}, startsWith front "@nsobid-" = true → p := fun h => absurd h hid
      split
      case isTrue hhash =>
        have hslice : sliceFrom front 1 = some (front.drop 1) := sliceFrom_startsWith hhash
        rw [hslice, Option.bind_some]
        refine ⟨iff_of_true ⟨_, rfl⟩ fun h => horder h, fun next h => ?_⟩
        rw [← Option.some.inj h, hother hhash (by decide) (by decide) (by decide) (by decide)]
        rfl
      case isFalse =>
        split
        case isTrue hcomment =>
          have hslice : sliceFrom front 2 = some (front.drop 2) := sliceFrom_startsWith hcomment
          rw [hslice, Option.bind_some]
          refine ⟨iff_of_true ⟨_, rfl⟩ fun h => horder h, fun next h => ?_⟩
          rw [← Option.some.inj h, hother hcomment (by decide) (by decide) (by decide) (by decide)]
          rfl
        case isFalse =>
          split
          case isTrue hhead =>
            have hat : startsWith front "@" = true := by
              rcases Bool.or_eq_true_iff.mp hhead with h | h
              · exact startsWith_of_prefix h (by decide)
              · exact startsWith_of_prefix h (by decide)
            have hslice : sliceFrom front 1 = some (front.drop 1) := sliceFrom_startsWith hat
            rw [hslice, Option.bind_some, hhead]
            refine ⟨iff_of_true ⟨_, rfl⟩ fun h => horder h, fun next h => ?_⟩
            rw [← Option.some.inj h]
            rfl
          case isFalse hhead =>
            rw [Bool.not_eq_true] at hhead
            rw [hhead]
            split <;>
              · refine ⟨iff_of_true ⟨_, rfl⟩ fun h => horder h, fun next h => ?_⟩
                rw [← Option.some.inj h]
                rfl

/-! ### The lines of a patch -/

def isPatchHead (line : List Char) : Bool :=
  startsWith line "@enabled" || startsWith line "@disabled"

def isSkipped (line : List Char) : Bool :=
  startsWith line "//" || startsWith line "#" || startsWith line "@"

/-- A record has no character across its columns. -/
def PatchLineInOrder (line : List Char) : Prop :=
  isSkipped line = false → 11 ≤ len line → IsCharBoundary line 8 ∧ IsCharBoundary line 9

/-- A quote opens behind the offset and does not close. -/
def unterminated (line : List Char) : Bool :=
  (bytes line)[9]? == some 34 &&
    ((sliceFrom line 10).bind fun rest =>
      IpSwitchCompiler.closingQuote rest (len rest + 1) 0) == some none

/-- Where the lines after a line of a patch stand. An unterminated string ends it all. -/
def patchMode (line : List Char) : Option Bool :=
  if isSkipped line then some true
  else if len line < 11 then some false
  else if unterminated line then none
  else some true

def IpSwitchCompiler.PatchLine.mode : IpSwitchCompiler.PatchLine → Option Bool
  | skip _ | record _ _ => some true
  | back | stop => some false
  | abort => none

/-- The search for the closing quote ends, between two characters. -/
theorem closingQuote_spec {rest : List Char} {fuel searchFrom : ℕ}
    (hstart : IsCharBoundary rest searchFrom) (hfuel : len rest < fuel + searchFrom) :
    ∃ found, IpSwitchCompiler.closingQuote rest fuel searchFrom = some found ∧
      ∀ stop, found = some stop → IsCharBoundary rest stop := by
  induction fuel generalizing searchFrom with
  | zero =>
    obtain ⟨a, b, rfl, rfl⟩ := isCharBoundary_iff.mp hstart
    rw [len_append] at hfuel
    omega
  | succ fuel ih =>
    obtain ⟨tail, htail⟩ := sliceFrom_isSome.mpr hstart
    obtain ⟨a, rfl, rfl⟩ := sliceFrom_eq_some_iff.mp htail
    rw [IpSwitchCompiler.closingQuote, htail]
    simp only [Option.bind_eq_bind, Option.bind_some]
    cases hfind : find (· = '"') tail with
    | none => exact ⟨none, rfl, nofun⟩
    | some pos =>
      obtain ⟨front, quote, after, rfl, rfl, hquote⟩ := find_eq_some hfind
      obtain rfl := of_decide_eq_true hquote
      have hhere : IsCharBoundary (front ++ '"'::after) (len front) :=
        isCharBoundary_iff.mpr ⟨front, _, rfl, rfl⟩
      have hnext : IsCharBoundary (front ++ '"'::after) (len front + 1) :=
        isCharBoundary_append.mpr (isCharBoundary_iff.mpr ⟨['"'], after, rfl, rfl⟩)
      dsimp only
      split
      case isTrue =>
        rw [Nat.add_assoc]
        exact ih (isCharBoundary_append.mpr hnext) (by omega)
      case isFalse =>
        refine ⟨_, rfl, fun stop h => ?_⟩
        rw [← Option.some.inj h]
        exact isCharBoundary_append.mpr hhere

theorem parsePatchLine_head (c : IpSwitchCompiler) (hhead : isPatchHead line = true) :
    c.parsePatchLine line = some .back := by
  rw [isPatchHead] at hhead
  have hcomment : (startsWith line "//" || startsWith line "#") = false := by
    rcases Bool.or_eq_true_iff.mp hhead with h | h <;>
      rw [startsWith_ne (b := "//") h (by decide) (by decide),
        startsWith_ne (b := "#") h (by decide) (by decide)] <;> rfl
  rw [IpSwitchCompiler.parsePatchLine, hcomment, if_neg Bool.false_ne_true, if_pos hhead]
  rfl

theorem slice_eq_none {s : List Char} {n : ℕ} (h : ¬IsCharBoundary s n) :
    sliceTo s n = none ∧ sliceFrom s n = none :=
  ⟨Option.eq_none_iff_forall_ne_some.mpr fun piece hp => h (sliceTo_isSome.mp ⟨piece, hp⟩),
    Option.eq_none_iff_forall_ne_some.mpr fun piece hp => h (sliceFrom_isSome.mp ⟨piece, hp⟩)⟩

/-- The text up to the first of some characters, or all of it, is a slice. -/
theorem sliceTo_find (rest : List Char) (p : Char → Bool) :
    ∃ value, sliceTo rest ((find p rest).getD (len rest)) = some value := by
  cases hfind : find p rest with
  | none => exact ⟨rest, by simpa using sliceTo_append (a := rest) (b := [])⟩
  | some pos =>
    obtain ⟨front, x, after, rfl, rfl, -⟩ := find_eq_some hfind
    exact ⟨front, sliceTo_append⟩

theorem parsePatchLine_spec (c : IpSwitchCompiler) (hhead : isPatchHead line = false) :
    ((∃ next, c.parsePatchLine line = some next) ↔ PatchLineInOrder line) ∧
      ∀ next, c.parsePatchLine line = some next → next.mode = patchMode line ∧ next ≠ .back := by
  rw [isPatchHead] at hhead
  rw [IpSwitchCompiler.parsePatchLine, hhead, PatchLineInOrder, patchMode, isSkipped]
  split
  case isTrue hskip =>
    rw [hskip, Bool.true_or]
    refine ⟨iff_of_true ⟨_, rfl⟩ nofun, fun next h => ?_⟩
    rw [← Option.some.inj h]
    exact ⟨rfl, nofun⟩
  case isFalse hskip =>
    rw [Bool.not_eq_true] at hskip
    rw [hskip, Bool.false_or, if_neg Bool.false_ne_true]
    split
    case isTrue hat =>
      rw [hat]
      refine ⟨iff_of_true ⟨_, rfl⟩ nofun, fun next h => ?_⟩
      rw [← Option.some.inj h]
      exact ⟨rfl, nofun⟩
    case isFalse hat =>
      rw [Bool.not_eq_true] at hat
      rw [hat]
      split
      case isTrue hshort =>
        refine ⟨iff_of_true ⟨_, rfl⟩ fun _ hlong => absurd hshort (Nat.not_lt.mpr hlong),
          fun next h => ?_⟩
        rw [← Option.some.inj h]
        exact ⟨rfl, nofun⟩
      case isFalse hlong =>
        have hlong := Nat.not_lt.mp hlong
        have hcolumns : (false = false → 11 ≤ len line →
            IsCharBoundary line 8 ∧ IsCharBoundary line 9) ↔
              IsCharBoundary line 8 ∧ IsCharBoundary line 9 :=
          ⟨fun h => h rfl hlong, fun h _ _ => h⟩
        rw [hcolumns]
        by_cases hoffset : IsCharBoundary line 8
        · obtain ⟨offsetStr, hoffsetStr⟩ := sliceTo_isSome.mpr hoffset
          rw [hoffsetStr, Option.bind_eq_bind, Option.bind_some]
          dsimp only
          split
          case isTrue hquote =>
            -- a quote is a byte of its own
            obtain ⟨hnine, hten⟩ := isCharBoundary_of_ascii (by decide) hquote.2
            obtain ⟨rest, hrest⟩ := sliceFrom_isSome.mpr hten
            obtain ⟨found, hfound, hstop⟩ := closingQuote_spec (isCharBoundary_zero rest)
              (show len rest < len rest + 1 + 0 by omega)
            have hopen : unterminated line = (some found == some none) := by
              rw [unterminated, hquote.2, hrest, Option.bind_some, hfound, beq_self_eq_true,
                Bool.true_and]
            rw [hrest, Option.bind_eq_bind, Option.bind_some, hfound, Option.bind_some, hopen]
            cases found with
            | none =>
              refine ⟨iff_of_true ⟨_, rfl⟩ ⟨hoffset, hnine⟩, fun next h => ?_⟩
              rw [← Option.some.inj h]
              exact ⟨rfl, nofun⟩
            | some stop =>
              obtain ⟨value, hvalue⟩ := sliceTo_isSome.mpr (hstop stop rfl)
              dsimp only
              rw [hvalue, Option.bind_some]
              refine ⟨iff_of_true ⟨_, rfl⟩ ⟨hoffset, hnine⟩, fun next h => ?_⟩
              rw [← Option.some.inj h]
              exact ⟨rfl, nofun⟩
          case isFalse hquote =>
            have hplain : ((bytes line)[9]? == some 34) = false := by
              refine Bool.eq_false_iff.mpr fun h => hquote ⟨by omega, eq_of_beq h⟩
            rw [unterminated, hplain, Bool.false_and, if_neg Bool.false_ne_true]
            by_cases hnine : IsCharBoundary line 9
            · obtain ⟨rest, hrest⟩ := sliceFrom_isSome.mpr hnine
              obtain ⟨value, hvalue⟩ := sliceTo_find rest
                fun x => x = ' ' || x = '/' || x = '\r' || x = '\n'
              rw [hrest, Option.bind_some, hvalue, Option.bind_some]
              refine ⟨iff_of_true ⟨_, rfl⟩ ⟨hoffset, hnine⟩, fun next h => ?_⟩
              rw [← Option.some.inj h]
              exact ⟨rfl, nofun⟩
            · rw [(slice_eq_none hnine).2, Option.bind_none]
              exact ⟨iff_of_false nofun fun h => hnine h.2, nofun⟩
        · rw [(slice_eq_none hoffset).1, Option.bind_eq_bind, Option.bind_none]
          exact ⟨iff_of_false nofun fun h => hoffset h.1, nofun⟩

/-! ### All lines -/

/-- The lines in order from one on, in a patch or not. -/
def LinesInOrder : Bool → List (List Char) → Prop
  | _, [] => True
  | inPatch, line::lines =>
    if inPatch && !isPatchHead line then
      PatchLineInOrder line ∧ ∀ mode, patchMode line = some mode → LinesInOrder mode lines
    else LineInOrder line ∧ ∀ mode, lineMode line = some mode → LinesInOrder mode lines

theorem drop_eq_line {lines : List (List Char)} {i : ℕ} (h : i < lines.length) :
    lines.drop i = lines.getD i []::lines.drop (i + 1) := by
  rw [List.drop_eq_getElem_cons h, List.getD_eq_getElem?_getD, List.getElem?_eq_getElem h]
  rfl

/-- What the inner loop has made of the lines behind `i`. -/
def PatchRead (lines : List (List Char)) (i : ℕ) : Option IpSwitchCompiler.PatchEnd → Prop
  | none => ¬LinesInOrder true (lines.drop (i + 1))
  | some (.abort _) => LinesInOrder true (lines.drop (i + 1))
  | some (.done i' _ _) =>
    LinesInOrder true (lines.drop (i + 1)) ↔ LinesInOrder false (lines.drop (i' + 1))

theorem linesInOrder_patch {lines : List (List Char)} {i : ℕ} (hi : i < lines.length)
    (hhead : isPatchHead (lines.getD i []) = false) :
    LinesInOrder true (lines.drop i) ↔ PatchLineInOrder (lines.getD i []) ∧
      ∀ mode, patchMode (lines.getD i []) = some mode → LinesInOrder mode (lines.drop (i + 1)) := by
  rw [drop_eq_line hi, LinesInOrder, hhead]
  exact Iff.rfl

theorem linesInOrder_outside {lines : List (List Char)} {i : ℕ} (hi : i < lines.length) :
    LinesInOrder false (lines.drop i) ↔ LineInOrder (lines.getD i []) ∧
      ∀ mode, lineMode (lines.getD i []) = some mode → LinesInOrder mode (lines.drop (i + 1)) := by
  rw [drop_eq_line hi]
  exact Iff.rfl

/-- The head of the next patch is read by the outer loop. -/
theorem linesInOrder_head {lines : List (List Char)} {i : ℕ} (hi : i < lines.length)
    (hhead : isPatchHead (lines.getD i []) = true) :
    LinesInOrder true (lines.drop i) ↔ LinesInOrder false (lines.drop i) := by
  rw [linesInOrder_outside hi, drop_eq_line hi, LinesInOrder, hhead]
  exact Iff.rfl

/-- A line of a patch that the inner loop goes on behind. -/
theorem PatchRead.next {lines : List (List Char)} {i : ℕ} {c : IpSwitchCompiler}
    {next : IpSwitchCompiler.PatchLine} {result : Option IpSwitchCompiler.PatchEnd}
    (hi : i + 1 < lines.length)
    (hline : c.parsePatchLine (lines.getD (i + 1) []) = some next)
    (hnext : next ≠ .back) (hmode : next.mode = some true)
    (h : PatchRead lines (i + 1) result) : PatchRead lines i result := by
  have hhead : isPatchHead (lines.getD (i + 1) []) = false :=
    Bool.eq_false_iff.mpr fun hhead =>
      hnext (Option.some.inj (hline.symm.trans (parsePatchLine_head c hhead)))
  obtain ⟨horder, hread⟩ := parsePatchLine_spec c hhead
  have hlines : LinesInOrder true (lines.drop (i + 1)) ↔
      LinesInOrder true (lines.drop (i + 1 + 1)) := by
    rw [linesInOrder_patch hi hhead, ← (hread next hline).1, hmode]
    exact ⟨fun h => h.2 true rfl,
      fun h => ⟨horder.mp ⟨next, hline⟩, fun mode hm => Option.some.inj hm ▸ h⟩⟩
  cases result with
  | none => exact fun h' => h (hlines.mp h')
  | some stop =>
    cases stop with
    | abort c => exact hlines.mpr h
    | done i' c patch => exact hlines.trans h

theorem parsePatch_read (lines : List (List Char)) (i : ℕ) (c : IpSwitchCompiler)
    (patch : IpSwitchPatch) :
    PatchRead lines i (IpSwitchCompiler.parsePatch lines i c patch).2 := by
  induction i, c, patch using IpSwitchCompiler.parsePatch.induct lines with
  | case1 i c patch hend =>
    rw [IpSwitchCompiler.parsePatch, if_pos hend]
    change LinesInOrder true (lines.drop (i + 1)) ↔ LinesInOrder false (lines.drop (i + 1))
    rw [List.drop_eq_nil_of_le hend]
    exact Iff.rfl
  | case2 i c patch hmore j hline =>
    rw [IpSwitchCompiler.parsePatch, if_neg hmore]
    dsimp only
    rw [hline]
    have hhead : isPatchHead (lines.getD (i + 1) []) = false :=
      Bool.eq_false_iff.mpr fun hhead => by
        rw [parsePatchLine_head c hhead] at hline
        cases hline
    intro h
    obtain ⟨next, hnext⟩ := (parsePatchLine_spec c hhead).1.mpr
      ((linesInOrder_patch (Nat.not_le.mp hmore) hhead).mp h).1
    rw [hline] at hnext
    cases hnext
  | case3 i c patch hmore j c₁ hline ih =>
    rw [IpSwitchCompiler.parsePatch, if_neg hmore]
    dsimp only
    rw [hline]
    exact PatchRead.next (Nat.not_le.mp hmore) hline (fun h => by cases h) rfl ih
  | case4 i c patch hmore j hline =>
    rw [IpSwitchCompiler.parsePatch, if_neg hmore]
    dsimp only
    rw [hline]
    have hhead : isPatchHead (lines.getD (i + 1) []) = true :=
      Bool.not_eq_false _ ▸ fun hhead => ((parsePatchLine_spec c hhead).2 _ hline).2 rfl
    exact linesInOrder_head (Nat.not_le.mp hmore) hhead
  | case5 i c patch hmore j hline =>
    rw [IpSwitchCompiler.parsePatch, if_neg hmore]
    dsimp only
    rw [hline]
    have hhead : isPatchHead (lines.getD (i + 1) []) = false :=
      Bool.eq_false_iff.mpr fun hhead => by
        rw [parsePatchLine_head c hhead] at hline
        cases hline
    obtain ⟨horder, hread⟩ := parsePatchLine_spec c hhead
    change LinesInOrder true (lines.drop (i + 1)) ↔ LinesInOrder false (lines.drop (i + 1 + 1))
    rw [linesInOrder_patch (Nat.not_le.mp hmore) hhead, ← (hread _ hline).1]
    exact ⟨fun h => h.2 false rfl,
      fun h => ⟨horder.mp ⟨_, hline⟩, fun mode hm => Option.some.inj hm ▸ h⟩⟩
  | case6 i c patch hmore j hline =>
    rw [IpSwitchCompiler.parsePatch, if_neg hmore]
    dsimp only
    rw [hline]
    have hhead : isPatchHead (lines.getD (i + 1) []) = false :=
      Bool.eq_false_iff.mpr fun hhead => by
        rw [parsePatchLine_head c hhead] at hline
        cases hline
    obtain ⟨horder, hread⟩ := parsePatchLine_spec c hhead
    refine (linesInOrder_patch (Nat.not_le.mp hmore) hhead).mpr ⟨horder.mp ⟨_, hline⟩, ?_⟩
    rw [← (hread _ hline).1]
    intro mode hm
    cases hm
  | case7 i c patch hmore j offset replace hline ih =>
    rw [IpSwitchCompiler.parsePatch, if_neg hmore]
    dsimp only
    rw [hline]
    exact PatchRead.next (Nat.not_le.mp hmore) hline (fun h => by cases h) rfl ih

/-- A line that the outer loop goes on behind. -/
theorem linesInOrder_next {lines : List (List Char)} {i : ℕ} {c : IpSwitchCompiler}
    {next : IpSwitchCompiler.Line} {mode : Bool} (hi : i < lines.length)
    (hline : c.parseLine (lines.getD i []) = some next) (hmode : next.mode = some mode) :
    LinesInOrder false (lines.drop i) ↔ LinesInOrder mode (lines.drop (i + 1)) := by
  obtain ⟨horder, hread⟩ := parseLine_spec c (lines.getD i [])
  rw [linesInOrder_outside hi, ← hread _ hline, hmode]
  exact ⟨fun h => h.2 mode rfl,
    fun h => ⟨horder.mp ⟨_, hline⟩, fun mode' hm => Option.some.inj hm ▸ h⟩⟩

/-- The outer loop comes through just when the lines are in order. -/
theorem parseLines_isSome (lines : List (List Char)) (i : ℕ) (c : IpSwitchCompiler) :
    (∃ c', (IpSwitchCompiler.parseLines lines i c).2 = some c') ↔
      LinesInOrder false (lines.drop i) := by
  induction i, c using IpSwitchCompiler.parseLines.induct lines with
  | case1 i c hi hline =>
    rw [IpSwitchCompiler.parseLines, if_pos hi, hline]
    refine iff_of_false nofun fun h => ?_
    obtain ⟨next, hnext⟩ := (parseLine_spec c _).1.mpr ((linesInOrder_outside hi).mp h).1
    rw [hline] at hnext
    cases hnext
  | case2 i c hi c₁ hline =>
    obtain ⟨horder, hread⟩ := parseLine_spec c (lines.getD i [])
    rw [IpSwitchCompiler.parseLines, if_pos hi, hline]
    refine iff_of_true ⟨_, rfl⟩
      ((linesInOrder_outside hi).mpr ⟨horder.mp ⟨_, hline⟩, ?_⟩)
    rw [← hread _ hline]
    nofun
  | case3 i c hi c₁ hline ih =>
    rw [IpSwitchCompiler.parseLines, if_pos hi, hline, linesInOrder_next hi hline rfl]
    exact ih
  | case4 i c hi c₁ enabled hline hpatch =>
    have hread := parsePatch_read lines i c₁ ⟨enabled, []⟩
    rw [hpatch] at hread
    rw [IpSwitchCompiler.parseLines, if_pos hi, hline, linesInOrder_next hi hline rfl]
    dsimp only
    rw [hpatch]
    exact iff_of_false nofun hread
  | case5 i c hi c₁ enabled hline c₂ hpatch =>
    have hread := parsePatch_read lines i c₁ ⟨enabled, []⟩
    rw [hpatch] at hread
    rw [IpSwitchCompiler.parseLines, if_pos hi, hline, linesInOrder_next hi hline rfl]
    dsimp only
    rw [hpatch]
    exact iff_of_true ⟨_, rfl⟩ hread
  | case6 i c hi c₁ enabled hline i' c₂ patch hpatch ih =>
    have hread := parsePatch_read lines i c₁ ⟨enabled, []⟩
    rw [hpatch] at hread
    rw [IpSwitchCompiler.parseLines, if_pos hi, hline, linesInOrder_next hi hline rfl]
    dsimp only
    rw [hpatch]
    exact ih.trans hread.symm
  | case7 i c hi =>
    rw [IpSwitchCompiler.parseLines, if_neg hi, List.drop_eq_nil_of_le (Nat.not_lt.mp hi)]
    exact iff_of_true ⟨_, rfl⟩ trivial

/-! ### How often a line is looked at -/

/-- The inner loop looks at lines behind `i` once each, and at one behind the line it ends at. -/
structure PatchVisits (i : ℕ) (result : List ℕ × Option IpSwitchCompiler.PatchEnd) : Prop where
  nodup : result.1.Nodup
  behind : ∀ v ∈ result.1, i < v
  before : ∀ i' c patch, result.2 = some (.done i' c patch) → ∀ v ∈ result.1, v ≤ i' + 1

theorem PatchVisits.cons {i : ℕ} {result : List ℕ × Option IpSwitchCompiler.PatchEnd}
    (h : PatchVisits (i + 1) result)
    (hle : ∀ i' c patch, result.2 = some (.done i' c patch) → i + 1 ≤ i') :
    PatchVisits i ((i + 1)::result.1, result.2) where
  nodup := List.nodup_cons.mpr
    ⟨fun hmem => absurd (h.behind _ hmem) (Nat.lt_irrefl _), h.nodup⟩
  behind v hv := by
    rcases List.mem_cons.mp hv with rfl | hmem
    · exact Nat.lt_succ_self i
    · exact (Nat.lt_succ_self i).trans (h.behind v hmem)
  before i' c patch hdone v hv := by
    rcases List.mem_cons.mp hv with rfl | hmem
    · exact (hle i' c patch hdone).trans (Nat.le_succ i')
    · exact h.before i' c patch hdone v hmem

theorem PatchVisits.single {i : ℕ} {result : Option IpSwitchCompiler.PatchEnd}
    (hle : ∀ i' c patch, result = some (.done i' c patch) → i ≤ i') :
    PatchVisits i ([i + 1], result) where
  nodup := List.nodup_cons.mpr ⟨List.not_mem_nil, List.nodup_nil⟩
  behind v hv := List.mem_singleton.mp hv ▸ Nat.lt_succ_self i
  before i' c patch hdone v hv := by
    rw [List.mem_singleton.mp hv]
    exact Nat.succ_le_succ (hle i' c patch hdone)

theorem parsePatch_visits (lines : List (List Char)) (i : ℕ) (c : IpSwitchCompiler)
    (patch : IpSwitchPatch) : PatchVisits i (IpSwitchCompiler.parsePatch lines i c patch) := by
  induction i, c, patch using IpSwitchCompiler.parsePatch.induct lines with
  | case1 i c patch hend =>
    rw [IpSwitchCompiler.parsePatch, if_pos hend]
    exact ⟨List.nodup_nil, fun _ h => absurd h List.not_mem_nil,
      fun _ _ _ _ _ h => absurd h List.not_mem_nil⟩
  | case2 i c patch hmore j hline =>
    rw [IpSwitchCompiler.parsePatch, if_neg hmore]
    dsimp only
    rw [hline]
    exact .single fun _ _ _ h => by cases h
  | case3 i c patch hmore j c₁ hline ih =>
    rw [IpSwitchCompiler.parsePatch, if_neg hmore]
    dsimp only
    rw [hline]
    exact ih.cons fun i' c' patch' h => IpSwitchCompiler.parsePatch_le h
  | case4 i c patch hmore j hline =>
    rw [IpSwitchCompiler.parsePatch, if_neg hmore]
    dsimp only
    rw [hline]
    refine .single fun i' c' patch' h => ?_
    rw [Option.some_inj, IpSwitchCompiler.PatchEnd.done.injEq] at h
    exact h.1.le
  | case5 i c patch hmore j hline =>
    rw [IpSwitchCompiler.parsePatch, if_neg hmore]
    dsimp only
    rw [hline]
    refine .single fun i' c' patch' h => ?_
    rw [Option.some_inj, IpSwitchCompiler.PatchEnd.done.injEq] at h
    exact (Nat.le_succ i).trans h.1.le
  | case6 i c patch hmore j hline =>
    rw [IpSwitchCompiler.parsePatch, if_neg hmore]
    dsimp only
    rw [hline]
    exact .single fun _ _ _ h => by cases h
  | case7 i c patch hmore j offset replace hline ih =>
    rw [IpSwitchCompiler.parsePatch, if_neg hmore]
    dsimp only
    rw [hline]
    exact ih.cons fun i' c' patch' h => IpSwitchCompiler.parsePatch_le h

/-- The lines that the outer loop looks at from one on: that one once, none more than twice. -/
structure LineVisits (i : ℕ) (visits : List ℕ) : Prop where
  from_here : ∀ v ∈ visits, i ≤ v
  here_once : visits.count i ≤ 1
  twice : ∀ v, visits.count v ≤ 2

theorem LineVisits.cons {i : ℕ} {visits : List ℕ} (hbehind : ∀ v ∈ visits, i < v)
    (htwice : ∀ v, visits.count v ≤ 2) : LineVisits i (i::visits) where
  from_here v hv := by
    rcases List.mem_cons.mp hv with rfl | hmem
    · exact Nat.le_refl v
    · exact (hbehind v hmem).le
  here_once := by
    have hnone : visits.count i = 0 :=
      List.count_eq_zero_of_not_mem fun hmem => Nat.lt_irrefl i (hbehind i hmem)
    rw [List.count_cons_self, hnone]
  twice v := by
    rcases Nat.lt_or_ge i v with hlt | hle
    · rw [List.count_cons_of_ne hlt.ne]
      exact htwice v
    · have hnone : visits.count v = 0 :=
        List.count_eq_zero_of_not_mem fun hmem => absurd (hbehind v hmem) (Nat.not_lt.mpr hle)
      have hcons := List.count_cons (b := i) (a := v) (l := visits)
      split at hcons <;> omega

theorem parseLines_visits (lines : List (List Char)) (i : ℕ) (c : IpSwitchCompiler) :
    LineVisits i (IpSwitchCompiler.parseLines lines i c).1 := by
  have honce : ∀ i c patch v, (IpSwitchCompiler.parsePatch lines i c patch).1.count v ≤ 1 :=
    fun i c patch => List.nodup_iff_count_le_one.mp (parsePatch_visits lines i c patch).nodup
  induction i, c using IpSwitchCompiler.parseLines.induct lines with
  | case1 i c hi hline =>
    rw [IpSwitchCompiler.parseLines, if_pos hi, hline]
    exact .cons nofun fun v => Nat.zero_le 2
  | case2 i c hi c₁ hline =>
    rw [IpSwitchCompiler.parseLines, if_pos hi, hline]
    exact .cons nofun fun v => Nat.zero_le 2
  | case3 i c hi c₁ hline ih =>
    rw [IpSwitchCompiler.parseLines, if_pos hi, hline]
    exact .cons (fun v hv => ih.from_here v hv) ih.twice
  | case4 i c hi c₁ enabled hline hpatch =>
    rw [IpSwitchCompiler.parseLines, if_pos hi, hline]
    dsimp only
    rw [hpatch]
    exact .cons (parsePatch_visits lines i c₁ _).behind fun v =>
      (honce i c₁ _ v).trans (by decide)
  | case5 i c hi c₁ enabled hline c₂ hpatch =>
    rw [IpSwitchCompiler.parseLines, if_pos hi, hline]
    dsimp only
    rw [hpatch]
    exact .cons (parsePatch_visits lines i c₁ _).behind fun v =>
      (honce i c₁ _ v).trans (by decide)
  | case6 i c hi c₁ enabled hline i' c₂ patch hpatch ih =>
    rw [IpSwitchCompiler.parseLines, if_pos hi, hline]
    dsimp only
    rw [hpatch]
    have hvisits := parsePatch_visits lines i c₁ ⟨enabled, []⟩
    refine .cons (fun v hv => ?_) fun v => ?_
    · rcases List.mem_append.mp hv with hmem | hmem
      · exact hvisits.behind v hmem
      · exact (Nat.lt_succ_of_le (IpSwitchCompiler.parsePatch_le hpatch)).trans_le
          (ih.from_here v hmem)
    · have hinner := honce i c₁ ⟨enabled, []⟩ v
      rw [List.count_append]
      -- the inner loop may have looked at the line that the outer one goes on with, no further
      rcases Nat.lt_trichotomy v (i' + 1) with hlt | rfl | hgt
      · have hnone := List.count_eq_zero_of_not_mem
          (l := (IpSwitchCompiler.parseLines lines (i' + 1) _).1) fun hmem =>
            absurd (ih.from_here v hmem) (Nat.not_le.mpr hlt)
        rw [hnone]
        exact hinner.trans (by decide)
      · exact Nat.add_le_add hinner ih.here_once
      · have hnone := List.count_eq_zero_of_not_mem
          (l := (IpSwitchCompiler.parsePatch lines i c₁ ⟨enabled, []⟩).1) fun hmem =>
            absurd (hvisits.before i' c₂ patch hpatch v hmem) (Nat.not_le.mpr hgt)
        rw [hnone, Nat.zero_add]
        exact ih.twice v
  | case7 i c hi =>
    rw [IpSwitchCompiler.parseLines, if_neg hi]
    exact ⟨nofun, Nat.zero_le 1, fun v => Nat.zero_le 2⟩

/-! ### Applying -/

theorem foldlM_isSome {α β : Type*} {f : β → α → Option β} (h : ∀ b a, ∃ b', f b a = some b')
    (l : List α) (b : β) : ∃ b', l.foldlM f b = some b' := by
  induction l generalizing b with
  | nil => exact ⟨b, rfl⟩
  | cons a l ih =>
    obtain ⟨b', hb'⟩ := h b a
    obtain ⟨last, hlast⟩ := ih b'
    refine ⟨last, ?_⟩
    rw [List.foldlM_cons, hb']
    exact hlast

theorem applyRecord_isSome (inData : List UInt8) (record : ℕ × List UInt8) :
    ∃ out, IpSwitchCompiler.applyRecord inData record = some out := by
  obtain ⟨offset, replace⟩ := record
  rw [IpSwitchCompiler.applyRecord]
  dsimp only
  split
  case isTrue => exact ⟨_, rfl⟩
  case isFalse hin =>
    have hclip : ∀ n, n ≤ replace.length → offset + n ≤ inData.length →
        ∃ out, ((Image.slice replace 0 n).bind fun piece =>
          Image.write inData offset piece) = some out := by
      intro n hn hfit
      have hslice : Image.slice replace 0 n = some (replace.take n) := by
        rw [Image.slice, if_pos (by omega), List.drop_zero]
      have hlength : offset + (replace.take n).length ≤ inData.length := by
        rw [List.length_take]
        omega
      rw [hslice, Option.bind_some, Image.write, if_pos hlength]
      exact ⟨_, rfl⟩
    split
    · exact hclip _ (by omega) (by omega)
    · exact hclip _ (by omega) (by omega)

theorem apply_isSome (c : IpSwitchCompiler) (source : VfsFile) :
    ∃ out, c.apply source = some out := by
  rw [IpSwitchCompiler.apply]
  split
  case isTrue => exact ⟨_, rfl⟩
  case isFalse =>
    obtain ⟨data, hdata⟩ := foldlM_isSome (f := fun inData (patch : IpSwitchPatch) =>
      if ¬patch.enabled then some inData
      else patch.records.foldlM IpSwitchCompiler.applyRecord inData) (fun inData patch => by
        split
        · exact ⟨_, rfl⟩
        · exact foldlM_isSome applyRecord_isSome _ _) c.patches (source.read source.size 0)
    exact ⟨_, Option.bind_eq_some_iff.mpr ⟨data, hdata, rfl⟩⟩

/-- A text patch is read and applied without a fault just when its lines are in order. No line is
looked at more than twice, whatever they are. -/
theorem ipSwitch_safe_iff (text : List Char) (source : VfsFile) :
    ((∃ c out, (IpSwitchCompiler.new text).2 = some c ∧ c.apply source = some out) ∧
        ∀ i, (IpSwitchCompiler.new text).1.count i ≤ 2) ↔
      LinesInOrder false (patchLines text) := by
  have hread : (∃ c, (IpSwitchCompiler.new text).2 = some c) ↔
      LinesInOrder false (patchLines text) := parseLines_isSome (patchLines text) 0 _
  rw [← hread]
  constructor
  · rintro ⟨⟨c, _, hc, _⟩, -⟩
    exact ⟨c, hc⟩
  · rintro ⟨c, hc⟩
    obtain ⟨out, hout⟩ := apply_isSome c source
    exact ⟨⟨c, out, hc, hout⟩, (parseLines_visits (patchLines text) 0 _).twice⟩

/-- A build id with a character of two bytes at an odd place. -/
theorem nsobid_splits_character :
    ¬∃ c, (IpSwitchCompiler.new "@nsobid-aé".toList).2 = some c := by
  have hlines : patchLines "@nsobid-aé".toList = ["@nsobid-aé".toList] := rfl
  rw [IpSwitchCompiler.new, hlines]
  rintro ⟨c, h⟩
  have hline := ((parseLines_isSome _ 0 _).mp ⟨c, h⟩).1 rfl 1 (by decide)
  exact absurd hline (by decide)

end Ruzu.FileSys
