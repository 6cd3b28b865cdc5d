import Mathlib
import Ruzu.Lib.Segments

/-!
# Overlap counts of address ranges

`range_sets.rs`, the set with counts: sorted disjoint entries, each with the
number of ranges over it. A delta cuts the entries at the ends of its range,
fills the holes of the range and adds to what is there; a subtraction then
drops what is not positive.
-/

set_option autoImplicit false

namespace Ruzu

open Segment

/-- Start, end and count. -/
abbrev OverlapRangeSet.Entry := Segment ℤ

structure OverlapRangeSet where
  entries : List OverlapRangeSet.Entry
  deriving DecidableEq

namespace OverlapRangeSet

def i32Max : ℤ := 2 ^ 31 - 1

/-- A sum of `i32`; there is none when it overflows. -/
def addI32 (a b : ℤ) : Option ℤ :=
  if -2 ^ 31 ≤ a + b ∧ a + b ≤ i32Max then some (a + b) else none

/-- `base_address + size as u64`; there is none when it overflows. -/
def rangeEnd (baseAddress size : ℕ) : Option ℕ :=
  if baseAddress + size < 2 ^ 64 then some (baseAddress + size) else none

def new : OverlapRangeSet := ⟨[]⟩

section Delta

variable (addStart addEnd : ℕ) (delta : ℤ)

/-- One turn of the loop over the entries that reach into the range: what it pushes and the
position behind that. -/
def overlapEntry (pos : ℕ) (e : Entry) : Option (List Entry × ℕ) := do
  let gapEnd := min e.lower addEnd
  let gap : List Entry := fill pos gapEnd delta
  let pos := if pos < gapEnd then gapEnd else pos
  let count ← addI32 e.value delta
  let overlapEnd := min e.upper addEnd
  let suffix : List Entry := if e.upper > addEnd then [⟨addEnd, e.upper, e.value⟩] else []
  let next := if e.upper > addEnd then addEnd else overlapEnd
  if e.lower < addStart then
    some (gap ++ ⟨e.lower, addStart, e.value⟩ :: ⟨addStart, overlapEnd, count⟩ :: suffix, next)
  else
    let overlapStart := max e.lower pos
    some (gap ++ fill pos overlapStart delta ++ ⟨overlapStart, overlapEnd, count⟩ :: suffix, next)

/-- What the loop pushes, the position after it and the entries it has not reached. -/
def overlapLoop (pos : ℕ) : List Entry → Option (List Entry × ℕ × List Entry)
  | [] => some ([], pos, [])
  | e :: rest =>
    if e.lower < addEnd then do
      let (pieces, pos) ← overlapEntry addStart addEnd delta pos e
      let (more, pos, rest) ← overlapLoop pos rest
      some (pieces ++ more, pos, rest)
    else some ([], pos, e :: rest)

end Delta

def applyDelta (s : OverlapRangeSet) (addStart addEnd : ℕ) (delta : ℤ) :
    Option OverlapRangeSet :=
  if addStart ≥ addEnd then some s
  else do
    let before := s.entries.takeWhile fun e => e.upper ≤ addStart
    let affected := s.entries.dropWhile fun e => e.upper ≤ addStart
    let (pieces, pos, after) ← overlapLoop addStart addEnd delta addStart affected
    some ⟨before ++ pieces ++ fill pos addEnd delta ++ after⟩

def add (s : OverlapRangeSet) (baseAddress size : ℕ) : Option OverlapRangeSet :=
  if size = 0 then some s
  else do
    let addEnd ← rangeEnd baseAddress size
    s.applyDelta baseAddress addEnd 1

/-- The set afterwards and the ranges that `on_delete` is called for, in order. -/
def subtractWithCallback (s : OverlapRangeSet) (baseAddress size : ℕ) (amount : ℤ) :
    Option (OverlapRangeSet × List (ℕ × ℕ)) :=
  if size = 0 ∨ s.entries.isEmpty then some (s, [])
  else do
    let subEnd ← rangeEnd baseAddress size
    let applied ← s.applyDelta baseAddress subEnd (-amount)
    let deleted := applied.entries.filter fun e => e.value = 0
    some (⟨applied.entries.filter fun e => 0 < e.value⟩, deleted.map fun e => (e.lower, e.upper))

def subtractWithOnDelete (s : OverlapRangeSet) (baseAddress size : ℕ) :
    Option (OverlapRangeSet × List (ℕ × ℕ)) :=
  s.subtractWithCallback baseAddress size 1

def subtract (s : OverlapRangeSet) (baseAddress size : ℕ) : Option OverlapRangeSet :=
  (s.subtractWithCallback baseAddress size 1).map Prod.fst

def deleteAll (s : OverlapRangeSet) (baseAddress size : ℕ) : Option OverlapRangeSet :=
  (s.subtractWithCallback baseAddress size i32Max).map Prod.fst

/-- The loop of `for_each_in_range`: the ranges and counts that the callback gets. -/
def clampLoop (startAddress endAddress : ℕ) : List Entry → List Entry
  | [] => []
  | e :: rest =>
    if e.upper ≤ startAddress then clampLoop startAddress endAddress rest
    else if e.lower ≥ endAddress then []
    else
      ⟨max e.lower startAddress, min e.upper endAddress, e.value⟩ ::
        clampLoop startAddress endAddress rest

def forEachInRange (s : OverlapRangeSet) (deviceAddr size : ℕ) : Option (List Entry) :=
  if s.entries.isEmpty then some []
  else do
    let endAddress ← rangeEnd deviceAddr size
    some (clampLoop deviceAddr endAddress s.entries)

/-- The count that the entries give an address. -/
def count (s : OverlapRangeSet) (x : ℕ) : ℤ := (lookup s.entries x).getD 0

/-! ### A delta on a range -/

section Delta

variable {addStart addEnd : ℕ} {delta : ℤ} {f : ℕ → Option ℤ} {pos lo hi : ℕ} {l : List Entry}
  {e : Entry}

/-- The counts after the delta: an address of the range always has one. -/
def shifted (addStart addEnd : ℕ) (delta : ℤ) (f : ℕ → Option ℤ) (x : ℕ) : Option ℤ :=
  if addStart ≤ x ∧ x < addEnd then some ((f x).getD 0 + delta) else f x

theorem shifted_in {x : ℕ} (hx : addStart ≤ x) (hxe : x < addEnd) :
    shifted addStart addEnd delta f x = some ((f x).getD 0 + delta) :=
  if_pos ⟨hx, hxe⟩

theorem shifted_out {x : ℕ} (hx : x < addStart ∨ addEnd ≤ x) :
    shifted addStart addEnd delta f x = f x :=
  if_neg (by omega)

theorem addI32_eq_some {a b c : ℤ} (h : addI32 a b = some c) : c = a + b ∧ c ≤ i32Max := by
  rw [addI32] at h
  split at h
  case isTrue hin =>
    cases h
    exact ⟨rfl, hin.2⟩
  case isFalse => cases h

/-- An entry in the range: a hole in front of it, the part in the range and the part behind. -/
theorem overlapEntry_inside (hpos : pos ≤ e.lower) (ha : addStart ≤ pos) (he : e.lower < addEnd) :
    overlapEntry addStart addEnd delta pos e = (addI32 e.value delta).map fun count =>
      (fill pos e.lower delta ++ ⟨e.lower, min e.upper addEnd, count⟩ ::
        fill addEnd e.upper e.value, min e.upper addEnd) := by
  have hmin : min e.lower addEnd = e.lower := min_eq_left he.le
  have hnext : (if pos < e.lower then e.lower else pos) = e.lower := by
    split <;> omega
  have hend : (if e.upper > addEnd then addEnd else min e.upper addEnd) = min e.upper addEnd := by
    split <;> omega
  have hfill : fill e.lower e.lower delta = [] := if_neg (lt_irrefl _)
  simp only [overlapEntry, hmin, hnext, hend, max_self, hfill, List.append_nil,
    if_neg (show ¬e.lower < addStart by omega)]
  cases addI32 e.value delta <;> rfl

/-- An entry over the start of the range is cut there first. -/
theorem overlapEntry_start (ha : e.lower < addStart) (hlt : addStart < addEnd) :
    overlapEntry addStart addEnd delta addStart e =
      (overlapEntry addStart addEnd delta addStart ⟨addStart, e.upper, e.value⟩).map fun r =>
        (⟨e.lower, addStart, e.value⟩ :: r.1, r.2) := by
  rw [overlapEntry_inside (e := ⟨addStart, e.upper, e.value⟩) le_rfl le_rfl hlt]
  have hmin : min e.lower addEnd = e.lower := min_eq_left (by omega)
  have hgap : fill addStart e.lower delta = [] := if_neg (by omega)
  have hgap' : fill addStart addStart delta = [] := if_neg (lt_irrefl _)
  have hend : (if e.upper > addEnd then addEnd else min e.upper addEnd) = min e.upper addEnd := by
    split <;> omega
  simp only [overlapEntry, hmin, hgap, hgap', hend, if_pos ha, List.nil_append]
  cases addI32 e.value delta <;> rfl

/-- The loop stops at an entry behind the range. -/
theorem overlapLoop_beyond (h : Shows f lo hi l) (hlo : addEnd ≤ lo) :
    overlapLoop addStart addEnd delta pos l = some ([], pos, l) := by
  cases l with
  | nil => rfl
  | cons e rest =>
    have hle : lo ≤ e.lower := h.1
    rw [overlapLoop, if_neg (by omega)]

/-- From a position on, the loop and the last fill show the shifted counts. -/
theorem overlapLoop_shows (h : Shows f pos hi l) (ha : addStart ≤ pos) (hpos : pos ≤ addEnd)
    (hhi : addEnd ≤ hi) {pieces after : List Entry} {next : ℕ}
    (hrun : overlapLoop addStart addEnd delta pos l = some (pieces, next, after)) :
    Shows (shifted addStart addEnd delta f) pos hi (pieces ++ fill next addEnd delta ++ after) := by
  induction l generalizing pos pieces next after with
  | nil =>
    cases hrun
    rw [List.nil_append]
    refine Shows.fill hpos (fun x hx hxe => ?_) ⟨hhi, fun x hx hxhi => ?_⟩
    · rw [shifted_in (by omega) hxe, h.2 x hx (by omega), Option.getD_none, zero_add]
    · rw [shifted_out (.inr hx), h.2 x (by omega) hxhi]
  | cons e rest ih =>
    obtain ⟨hle, hlt, hgap, hval, hrest⟩ := h
    rw [overlapLoop] at hrun
    split at hrun
    case isFalse hge =>
      cases hrun
      rw [List.nil_append]
      refine Shows.fill hpos (fun x hx hxe => ?_) ⟨not_lt.mp hge, hlt, fun x hx hxs => ?_,
        fun x hx => ?_, hrest.congr fun x hx _ => shifted_out (.inr (by omega))⟩
      · rw [shifted_in (by omega) hxe, hgap x hx (by omega), Option.getD_none, zero_add]
      · rw [shifted_out (.inr hx), hgap x (by omega) hxs]
      · rw [shifted_out (.inr ((not_lt.mp hge).trans hx.1)), hval x hx]
    case isTrue hin =>
      rw [overlapEntry_inside hle ha hin] at hrun
      simp only [Option.bind_eq_bind, Option.bind_eq_some_iff, Option.map_eq_some_iff] at hrun
      obtain ⟨-, ⟨count, hcount, rfl⟩, ⟨more, next', after'⟩, hmore, heq⟩ := hrun
      cases heq
      obtain ⟨rfl, -⟩ := addI32_eq_some hcount
      -- the hole and the part in the range
      have hhole : ∀ x, pos ≤ x → x < e.lower →
          shifted addStart addEnd delta f x = some delta := fun x hx hxe => by
        rw [shifted_in (by omega) (by omega), hgap x hx hxe, Option.getD_none, zero_add]
      have hover : ∀ x, e.lower ≤ x → x < min e.upper addEnd →
          shifted addStart addEnd delta f x = some (e.value + delta) := fun x hx hxe => by
        rw [shifted_in (by omega) (by omega), hval x ⟨hx, by omega⟩, Option.getD_some]
      rw [List.append_assoc, List.append_assoc, List.append_assoc, List.cons_append]
      refine Shows.fill hle hhole (Shows.cons (s := ⟨e.lower, min e.upper addEnd, e.value + delta⟩)
        (lt_min hlt hin) (fun x hx => hover x hx.1 hx.2) ?_)
      dsimp only
      rcases Nat.lt_or_ge addEnd e.upper with hup | hup
      · -- the entry reaches behind the range, so the loop is over
        rw [min_eq_right hup.le] at hmore ⊢
        rw [overlapLoop_beyond hrest hup.le] at hmore
        cases hmore
        rw [List.nil_append, show fill addEnd addEnd delta = [] from if_neg (lt_irrefl _),
          List.nil_append]
        refine Shows.fill hup.le (fun x hx hxe => ?_)
          (hrest.congr fun x hx _ => shifted_out (.inr (by omega)))
        rw [shifted_out (.inr hx), hval x ⟨by omega, hxe⟩]
      · rw [min_eq_left hup] at hmore ⊢
        rw [show fill addEnd e.upper e.value = [] from if_neg (by omega), List.nil_append,
          ← List.append_assoc]
        exact ih hrest (by omega) hup hmore

/-- The loop over the entries that end behind the start of the range. -/
theorem affected_shows (h : Shows f lo hi l) (hlo : lo ≤ addStart) (hlt : addStart < addEnd)
    (hhi : addEnd ≤ hi) (hfirst : ∀ e ∈ l.head?, addStart < e.upper)
    {pieces after : List Entry} {next : ℕ}
    (hrun : overlapLoop addStart addEnd delta addStart l = some (pieces, next, after)) :
    Shows (shifted addStart addEnd delta f) lo hi
      (pieces ++ fill next addEnd delta ++ after) := by
  have hbelow : ∀ x < addStart, shifted addStart addEnd delta f x = f x := fun x hx =>
    shifted_out (.inl hx)
  cases l with
  | nil =>
    have htail : Shows f addStart hi [] := ⟨by omega, fun x hx => h.2 x (by omega)⟩
    refine (overlapLoop_shows htail le_rfl hlt.le hhi hrun).lower_bound hlo fun x hx hxa => ?_
    rw [hbelow x hxa, h.2 x hx (by omega)]
  | cons e rest =>
    obtain ⟨hle, hlt', hgap, hval, hrest⟩ := h
    have hup : addStart < e.upper := hfirst e rfl
    rcases Nat.lt_or_ge e.lower addStart with hcut | hge
    · -- the front of the entry stays, the loop goes on as if the entry started with the range
      have htail : Shows f addStart hi (⟨addStart, e.upper, e.value⟩ :: rest) :=
        Shows.cons (s := ⟨addStart, e.upper, e.value⟩) hup
          (fun x hx => hval x ⟨hcut.le.trans hx.1, hx.2⟩) hrest
      rw [overlapLoop, if_pos (by omega), overlapEntry_start hcut hlt] at hrun
      simp only [Option.bind_eq_bind, Option.bind_eq_some_iff, Option.map_eq_some_iff] at hrun
      obtain ⟨-, ⟨⟨first, pos⟩, hentry, rfl⟩, ⟨more, next', after'⟩, hmore, heq⟩ := hrun
      cases heq
      have hloop : overlapLoop addStart addEnd delta addStart
          (⟨addStart, e.upper, e.value⟩ :: rest) = some (first ++ more, next', after') := by
        rw [overlapLoop, if_pos hlt, hentry]
        simp only [Option.bind_eq_bind, Option.bind_some, hmore]
      refine ⟨hle, hcut, fun x hx hxe => ?_, fun x hx => ?_,
        overlapLoop_shows htail le_rfl hlt.le hhi hloop⟩
      · rw [hbelow x (hxe.trans hcut), hgap x hx hxe]
      · rw [hbelow x hx.2, hval x ⟨hx.1, hx.2.trans hup⟩]
    · have htail : Shows f addStart hi (e :: rest) :=
        ⟨hge, hlt', fun x hx => hgap x (by omega), hval, hrest⟩
      refine (overlapLoop_shows htail le_rfl hlt.le hhi hrun).lower_bound hlo fun x hx hxa => ?_
      rw [hbelow x hxa, hgap x hx (by omega)]

theorem applyDelta_shows {s s' : OverlapRangeSet} (h : Shows f lo hi s.entries)
    (hlo : lo ≤ addStart) (hlt : addStart < addEnd) (hhi : addEnd ≤ hi)
    (hrun : s.applyDelta addStart addEnd delta = some s') :
    Shows (shifted addStart addEnd delta f) lo hi s'.entries := by
  rw [applyDelta, if_neg (by omega)] at hrun
  simp only [Option.bind_eq_bind, Option.bind_eq_some_iff] at hrun
  obtain ⟨⟨pieces, next, after⟩, hloop, heq⟩ := hrun
  cases heq
  rw [← List.takeWhile_append_dropWhile (p := fun e : Entry => decide (e.upper ≤ addStart))
    (l := s.entries)] at h
  obtain ⟨m, hm, htail, hback⟩ := h.replace
    (fun e he => by simpa using List.mem_takeWhile_imp he) hlo
  rw [List.append_assoc, List.append_assoc, ← List.append_assoc pieces]
  refine hback _ _ (fun x hx => shifted_out (.inl hx))
    (affected_shows htail hm hlt hhi (fun e he => ?_) hloop)
  have hnot := List.head?_dropWhile_not (fun e : Entry => decide (e.upper ≤ addStart)) s.entries
  rw [Option.mem_def.mp he] at hnot
  simpa using hnot

end Delta

end OverlapRangeSet

end Ruzu
