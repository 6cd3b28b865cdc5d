import Mathlib
import Ruzu.Common.OverlapRangeSet
import Ruzu.Lib.BTreeMap
import Ruzu.Lib.Intervals

/-!
# Sets of address ranges

`range_sets.rs`, the set without counts: a map from the start of each range to
its end. An addition absorbs the ranges that it touches, a subtraction cuts
the ranges that it meets, and both work on keys they have collected before.
-/

set_option autoImplicit false

namespace Ruzu

open Intervals
open OverlapRangeSet (rangeEnd)

structure RangeSet where
  ranges : BTreeMap ℕ ℕ

namespace RangeSet

def new : RangeSet := ⟨BTreeMap.empty⟩

/-- The loop of `add` over the collected keys; a key that is not there faults. -/
def absorbLoop : List ℕ → BTreeMap ℕ ℕ → ℕ → ℕ → Option (BTreeMap ℕ ℕ × ℕ × ℕ)
  | [], ranges, start, stop => some (ranges, start, stop)
  | k::keys, ranges, start, stop => do
    let e ← ranges.get k
    absorbLoop keys (ranges.remove k) (if k < start then k else start)
      (if e > stop then e else stop)

def add (s : RangeSet) (baseAddress size : ℕ) : Option RangeSet :=
  if size = 0 then some s
  else do
    let stop ← rangeEnd baseAddress size
    let below := s.ranges.entries.filter fun e => e.1 ≤ stop
    let keysToRemove := (below.filter fun e => e.1 ≤ stop ∧ e.2 ≥ baseAddress).map Prod.fst
    let (ranges, start, stop) ← absorbLoop keysToRemove s.ranges baseAddress stop
    some ⟨ranges.insert start stop⟩

/-- One turn of the loop of `subtract`. -/
def cutRange (subStart subEnd k e : ℕ) (ranges : BTreeMap ℕ ℕ) : BTreeMap ℕ ℕ :=
  let ranges := ranges.remove k
  let ranges := if k < subStart then ranges.insert k subStart else ranges
  if e > subEnd then ranges.insert subEnd e else ranges

def cutLoop (subStart subEnd : ℕ) : List ℕ → BTreeMap ℕ ℕ → Option (BTreeMap ℕ ℕ)
  | [], ranges => some ranges
  | k::keys, ranges => do
    let e ← ranges.get k
    cutLoop subStart subEnd keys (cutRange subStart subEnd k e ranges)

def subtract (s : RangeSet) (baseAddress size : ℕ) : Option RangeSet :=
  if size = 0 then some s
  else do
    let subEnd ← rangeEnd baseAddress size
    let below := s.ranges.entries.filter fun e => e.1 < subEnd
    let keysToProcess := (below.filter fun e => e.1 < subEnd ∧ e.2 > baseAddress).map Prod.fst
    let ranges ← cutLoop baseAddress subEnd keysToProcess s.ranges
    some ⟨ranges⟩

def clear (_ : RangeSet) : RangeSet := ⟨BTreeMap.empty⟩

/-- The ranges that the callback of `for_each_in_range` gets, in order. -/
def clampLoop (startAddress endAddress : ℕ) : List (ℕ × ℕ) → List (ℕ × ℕ)
  | [] => []
  | (s, e)::rest =>
    if e ≤ startAddress then clampLoop startAddress endAddress rest
    else (max s startAddress, min e endAddress) :: clampLoop startAddress endAddress rest

def forEachInRange (s : RangeSet) (deviceAddr size : ℕ) : Option (List (ℕ × ℕ)) :=
  if s.ranges.isEmpty then some []
  else do
    let endAddress ← rangeEnd deviceAddr size
    some (clampLoop deviceAddr endAddress (s.ranges.entries.filter fun e => e.1 < endAddress))

/-- The stored ranges. -/
abbrev list (s : RangeSet) : List (ℕ × ℕ) := s.ranges.entries

/-! ### Adding -/

section Add

variable {m m' : BTreeMap ℕ ℕ} {start stop : ℕ} {x : ℕ}

theorem separated_of_members (hne : ∀ e ∈ m.entries, e.1 < e.2)
    (hap : ∀ e ∈ m.entries, ∀ f ∈ m.entries, e.1 < f.1 → e.2 < f.1) : Separated m.entries := by
  refine ⟨hne, ?_⟩
  exact m.sorted.imp_of_mem fun he hf hlt => hap _ he _ hf hlt

/-- The range in hand with the rest of the map: what touches it is in `keys`. -/
structure Absorbing (m : BTreeMap ℕ ℕ) (keys : List ℕ) (start stop : ℕ) : Prop where
  separated : Separated m.entries
  lt : start < stop
  nodup : keys.Nodup
  present : ∀ k ∈ keys, ∃ e, (k, e) ∈ m.entries ∧ k ≤ stop ∧ start ≤ e
  apart : ∀ e ∈ m.entries, e.1 ∉ keys → e.2 < start ∨ stop < e.1

theorem Absorbing.step {k e : ℕ} {keys : List ℕ} (h : Absorbing m (k :: keys) start stop)
    (hk : m.get k = some e) :
    Absorbing (m.remove k) keys (min k start) (max e stop) := by
  obtain ⟨hsep, hlt, hnodup, hpresent, hapart⟩ := h
  have hmem := BTreeMap.get_eq_some_iff.mp hk
  obtain ⟨e', he', hle, hge⟩ := hpresent k List.mem_cons_self
  obtain rfl := BTreeMap.key_injective hmem he'
  have hke := hsep.nonempty _ hmem
  refine ⟨?_, by omega, hnodup.of_cons, ?_, ?_⟩
  · exact separated_of_members (fun f hf => hsep.nonempty f (BTreeMap.mem_remove.mp hf).1)
      fun f hf g hg hfg => hsep.before (BTreeMap.mem_remove.mp hf).1 (BTreeMap.mem_remove.mp hg).1 hfg
  · intro j hj
    obtain ⟨f, hf, hjstop, hstartf⟩ := hpresent j (List.mem_cons_of_mem k hj)
    have hne : j ≠ k := fun heq => (List.nodup_cons.mp hnodup).1 (heq ▸ hj)
    exact ⟨f, BTreeMap.mem_remove.mpr ⟨hf, hne⟩, by omega, by omega⟩
  · intro f hf hout
    obtain ⟨hf, hne⟩ := BTreeMap.mem_remove.mp hf
    have hfar := hapart f hf (by simp [hne, hout])
    have hff := hsep.nonempty f hf
    rcases lt_or_gt_of_ne hne with hfk | hkf
    · have hgap := hsep.before hf hmem hfk
      dsimp only at hgap
      omega
    · have hgap := hsep.before hmem hf hkf
      dsimp only at hgap
      omega

theorem covers_remove {k e : ℕ} (hk : (k, e) ∈ m.entries) :
    Covers m.entries x ↔ (k ≤ x ∧ x < e) ∨ Covers (m.remove k).entries x := by
  constructor
  · rintro ⟨f, hf, hx⟩
    by_cases hne : f.1 = k
    · obtain rfl : f = (k, e) := Prod.ext hne (BTreeMap.key_injective (hne ▸ hf) hk)
      exact .inl hx
    · exact .inr ⟨f, BTreeMap.mem_remove.mpr ⟨hf, hne⟩, hx⟩
  · rintro (hx | ⟨f, hf, hx⟩)
    · exact ⟨(k, e), hk, hx⟩
    · exact ⟨f, (BTreeMap.mem_remove.mp hf).1, hx⟩

theorem absorbLoop_spec {keys : List ℕ} :
    ∀ {m : BTreeMap ℕ ℕ} {start stop : ℕ}, Absorbing m keys start stop →
      ∃ m' start' stop', absorbLoop keys m start stop = some (m', start', stop') ∧
        Absorbing m' [] start' stop' ∧
        ∀ x, (Covers m'.entries x ∨ start' ≤ x ∧ x < stop') ↔
          (Covers m.entries x ∨ start ≤ x ∧ x < stop) := by
  induction keys with
  | nil =>
    intro m start stop h
    exact ⟨m, start, stop, rfl, h, fun x => Iff.rfl⟩
  | cons k keys ih =>
    intro m start stop h
    obtain ⟨e, hmem, hle, hge⟩ := h.present k List.mem_cons_self
    have hk := BTreeMap.get_eq_some_iff.mpr hmem
    have hke := h.separated.nonempty _ hmem
    have hlow : (if k < start then k else start) = min k start := by
      split <;> omega
    have hhigh : (if e > stop then e else stop) = max e stop := by
      split <;> omega
    obtain ⟨m', start', stop', hrun, hdone, hcov⟩ := ih (h.step hk)
    refine ⟨m', start', stop', ?_, hdone, fun x => ?_⟩
    · rw [absorbLoop, hk]
      simp only [Option.bind_eq_bind, Option.bind_some]
      rw [hlow, hhigh, hrun]
    · have hlt := h.lt
      dsimp only at hke
      rw [hcov x, covers_remove hmem, or_right_comm, or_comm (b := Covers _ x)]
      exact or_congr_right (by omega)

theorem Absorbing.insert (h : Absorbing m [] start stop) :
    Separated (m.insert start stop).entries ∧
      ∀ x, Covers (m.insert start stop).entries x ↔
        Covers m.entries x ∨ start ≤ x ∧ x < stop := by
  have hne : ∀ e ∈ m.entries, e.1 ≠ start := by
    intro e he heq
    have hlt := h.separated.nonempty e he
    have hlt' := h.lt
    rcases h.apart e he (List.not_mem_nil) with hfar | hfar <;> omega
  have hmem : ∀ e, e ∈ (m.insert start stop).entries ↔ e = (start, stop) ∨ e ∈ m.entries := by
    intro e
    rw [BTreeMap.mem_insert]
    exact or_congr_right ⟨And.right, fun he => ⟨hne e he, he⟩⟩
  constructor
  · refine separated_of_members (fun e he => ?_) fun e he f hf hlt => ?_
    · rcases (hmem e).mp he with rfl | he
      · exact h.lt
      · exact h.separated.nonempty e he
    · rcases (hmem e).mp he with rfl | he
      · rcases (hmem f).mp hf with rfl | hf
        · exact absurd hlt (lt_irrefl _)
        · have hff := h.separated.nonempty f hf
          rcases h.apart f hf List.not_mem_nil with hfar | hfar
          · dsimp only at hlt
            omega
          · exact hfar
      · rcases (hmem f).mp hf with rfl | hf
        · have hstop := h.lt
          rcases h.apart e he List.not_mem_nil with hfar | hfar
          · exact hfar
          · dsimp only at hlt
            omega
        · exact h.separated.before he hf hlt
  · intro x
    constructor
    · rintro ⟨e, he, hx⟩
      rcases (hmem e).mp he with rfl | he
      · exact .inr hx
      · exact .inl ⟨e, he, hx⟩
    · rintro (⟨e, he, hx⟩ | hx)
      · exact ⟨e, (hmem e).mpr (.inr he), hx⟩
      · exact ⟨_, (hmem _).mpr (.inl rfl), hx⟩

theorem keys_nodup (p : ℕ × ℕ → Bool) (q : ℕ × ℕ → Bool) :
    (((m.entries.filter q).filter p).map Prod.fst).Nodup := by
  refine List.pairwise_map.mpr (((m.sorted.filter _).filter _).imp fun {e f} hlt => ?_)
  exact hlt.ne

theorem add_spec {s : RangeSet} {baseAddress size : ℕ} (h : Separated s.list)
    (hfit : baseAddress + size < 2 ^ 64) :
    ∃ s', s.add baseAddress size = some s' ∧ Separated s'.list ∧
      ∀ x, Covers s'.list x ↔
        Covers s.list x ∨ baseAddress ≤ x ∧ x < baseAddress + size := by
  by_cases hsize : size = 0
  · refine ⟨s, if_pos hsize, h, fun x => ?_⟩
    rw [or_iff_left (by omega)]
  · have habs : Absorbing s.ranges (((s.ranges.entries.filter fun e =>
        e.1 ≤ baseAddress + size).filter fun e =>
          e.1 ≤ baseAddress + size ∧ e.2 ≥ baseAddress).map Prod.fst)
        baseAddress (baseAddress + size) := by
      refine ⟨h, by omega, keys_nodup _ _, fun k hk => ?_, fun e he hout => ?_⟩
      · obtain ⟨e, he, rfl⟩ := List.mem_map.mp hk
        obtain ⟨he, hin⟩ := List.mem_filter.mp he
        obtain ⟨hle, hge⟩ := of_decide_eq_true hin
        exact ⟨e.2, List.mem_of_mem_filter he, hle, hge⟩
      · by_contra hnear
        rw [not_or, not_lt, not_lt] at hnear
        exact hout (List.mem_map_of_mem (List.mem_filter.mpr ⟨List.mem_filter.mpr
          ⟨he, decide_eq_true hnear.2⟩, decide_eq_true ⟨hnear.2, hnear.1⟩⟩))
    obtain ⟨m', start', stop', hrun, hdone, hcov⟩ := absorbLoop_spec habs
    obtain ⟨hsep, hins⟩ := hdone.insert
    refine ⟨⟨m'.insert start' stop'⟩, ?_, hsep, fun x => (hins x).trans (hcov x)⟩
    rw [add, if_neg hsize, rangeEnd, if_pos hfit]
    simp only [Option.bind_eq_bind, Option.bind_some]
    rw [hrun]
    rfl

end Add

/-! ### Subtracting -/

section Subtract

variable {m : BTreeMap ℕ ℕ} {subStart subEnd k e : ℕ}

/-- A range that the subtraction meets is replaced by what is left of it at both sides. -/
theorem mem_cutRange (subStart : ℕ) (hsep : Separated m.entries) (hk : (k, e) ∈ m.entries) (hlow : k < subEnd)
    (f : ℕ × ℕ) :
    f ∈ (cutRange subStart subEnd k e m).entries ↔
      (f ∈ m.entries ∧ f.1 ≠ k) ∨ (k < subStart ∧ f = (k, subStart)) ∨
        (subEnd < e ∧ f = (subEnd, e)) := by
  have hleft : ∀ f, f ∈ (if k < subStart then (m.remove k).insert k subStart
        else m.remove k).entries ↔
      (f ∈ m.entries ∧ f.1 ≠ k) ∨ (k < subStart ∧ f = (k, subStart)) := by
    intro f
    split
    case isTrue hlt =>
      rw [BTreeMap.mem_insert, BTreeMap.mem_remove, or_comm, and_iff_right hlt]
      exact or_congr_left ⟨And.right, fun hf => ⟨hf.2, hf⟩⟩
    case isFalse hge =>
      rw [BTreeMap.mem_remove, or_iff_left (fun hf : k < subStart ∧ _ => hge hf.1)]
  rw [cutRange]
  split
  case isTrue hgt =>
    rw [BTreeMap.mem_insert, hleft, and_iff_right (show subEnd < e from hgt), or_comm, ← or_assoc]
    refine or_congr_left ⟨And.right, fun hf => ⟨?_, hf⟩⟩
    rcases hf with ⟨hf, hne⟩ | ⟨-, rfl⟩
    · intro heq
      have hgap := hsep.before hk hf (by dsimp only; omega)
      dsimp only at hgap
      omega
    · exact hlow.ne
  case isFalse hle =>
    rw [hleft, ← or_assoc, or_iff_left (fun hf : subEnd < e ∧ _ => hle hf.1)]

theorem cutRange_separated (hsep : Separated m.entries) (hk : (k, e) ∈ m.entries)
    (hlow : k < subEnd) (hhigh : subStart < e) (hlt : subStart < subEnd) :
    Separated (cutRange subStart subEnd k e m).entries := by
  have hmem := mem_cutRange subStart hsep hk hlow
  refine separated_of_members (fun f hf => ?_) fun f hf g hg hfg => ?_
  · rcases (hmem f).mp hf with ⟨hf, -⟩ | ⟨hleft, rfl⟩ | ⟨hright, rfl⟩
    · exact hsep.nonempty f hf
    · exact hleft
    · exact hright
  · -- a range other than the cut one lies on one side of it
    have hside : ∀ r ∈ m.entries, r.1 ≠ k → r.1 < r.2 ∧ (r.2 < k ∨ e < r.1) := fun r hr hne => by
      refine ⟨hsep.nonempty r hr, ?_⟩
      rcases lt_or_gt_of_ne hne with hrk | hkr
      · exact .inl (hsep.before hr hk hrk)
      · exact .inr (hsep.before hk hr hkr)
    rcases (hmem f).mp hf with ⟨hf, hfk⟩ | ⟨hleft, rfl⟩ | ⟨hright, rfl⟩
    · rcases (hmem g).mp hg with ⟨hg, -⟩ | ⟨hleft, rfl⟩ | ⟨hright, rfl⟩
      · exact hsep.before hf hg hfg
      · have hf' := hside f hf hfk
        dsimp only at hfg ⊢
        omega
      · have hf' := hside f hf hfk
        dsimp only at hfg ⊢
        omega
    · rcases (hmem g).mp hg with ⟨hg, hgk⟩ | ⟨-, rfl⟩ | ⟨hright, rfl⟩
      · have hg' := hside g hg hgk
        dsimp only at hfg ⊢
        omega
      · exact absurd hfg (lt_irrefl _)
      · exact hlt
    · rcases (hmem g).mp hg with ⟨hg, hgk⟩ | ⟨hleft, rfl⟩ | ⟨-, rfl⟩
      · have hg' := hside g hg hgk
        dsimp only at hfg ⊢
        omega
      · exact absurd hfg (by dsimp only; omega)
      · exact absurd hfg (lt_irrefl _)

theorem covers_cutRange (hsep : Separated m.entries) (hk : (k, e) ∈ m.entries)
    (hlow : k < subEnd) (hhigh : subStart < e) (x : ℕ) :
    Covers (cutRange subStart subEnd k e m).entries x ↔
      Covers m.entries x ∧ ¬ ((k ≤ x ∧ x < e) ∧ subStart ≤ x ∧ x < subEnd) := by
  have hmem := mem_cutRange subStart hsep hk hlow
  have hke := hsep.nonempty _ hk
  dsimp only at hke
  constructor
  · rintro ⟨f, hf, hx⟩
    rcases (hmem f).mp hf with ⟨hf, hne⟩ | ⟨hleft, rfl⟩ | ⟨hright, rfl⟩
    · refine ⟨⟨f, hf, hx⟩, ?_⟩
      rcases lt_or_gt_of_ne hne with hfk | hkf
      · have hgap := hsep.before hf hk hfk
        dsimp only at hgap
        omega
      · have hgap := hsep.before hk hf hkf
        dsimp only at hgap
        omega
    · dsimp only at hx
      exact ⟨⟨(k, e), hk, by dsimp only; omega⟩, by omega⟩
    · dsimp only at hx
      exact ⟨⟨(k, e), hk, by dsimp only; omega⟩, by omega⟩
  · rintro ⟨⟨f, hf, hx⟩, hout⟩
    by_cases hne : f.1 = k
    · obtain rfl : f = (k, e) := Prod.ext hne (BTreeMap.key_injective (hne ▸ hf) hk)
      dsimp only at hx
      rcases Nat.lt_or_ge x subStart with hxs | hxs
      · exact ⟨(k, subStart), (hmem _).mpr (.inr (.inl ⟨by omega, rfl⟩)), hx.1, hxs⟩
      · exact ⟨(subEnd, e), (hmem _).mpr (.inr (.inr ⟨by omega, rfl⟩)), by dsimp only; omega⟩
    · exact ⟨f, (hmem f).mpr (.inl ⟨hf, hne⟩), hx⟩

theorem cutLoop_spec (hlt : subStart < subEnd) {keys : List ℕ} :
    ∀ {m : BTreeMap ℕ ℕ}, Separated m.entries → keys.Nodup →
      (∀ k ∈ keys, ∃ e, (k, e) ∈ m.entries ∧ k < subEnd ∧ subStart < e) →
      ∃ m', cutLoop subStart subEnd keys m = some m' ∧ Separated m'.entries ∧
        ∀ x, Covers m'.entries x ↔ Covers m.entries x ∧
          ¬ ((subStart ≤ x ∧ x < subEnd) ∧ ∃ k ∈ keys, ∃ e, (k, e) ∈ m.entries ∧ k ≤ x ∧ x < e) := by
  induction keys with
  | nil =>
    intro m hsep _ _
    refine ⟨m, rfl, hsep, fun x => ?_⟩
    rw [and_iff_left]
    rintro ⟨-, k, hk, -⟩
    cases hk
  | cons k keys ih =>
    intro m hsep hnodup hpresent
    obtain ⟨hnot, hnodup⟩ := List.nodup_cons.mp hnodup
    obtain ⟨e, hk, hlow, hhigh⟩ := hpresent k List.mem_cons_self
    have hmem := mem_cutRange subStart hsep hk hlow
    -- the ranges of the other keys are still there, as they were
    have hsame : ∀ j ∈ keys, ∀ f, (j, f) ∈ m.entries →
        (j, f) ∈ (cutRange subStart subEnd k e m).entries := fun j hj f hf =>
      (hmem _).mpr (.inl ⟨hf, fun heq => hnot (heq ▸ hj)⟩)
    obtain ⟨m', hrun, hsep', hcov⟩ := ih (cutRange_separated hsep hk hlow hhigh hlt) hnodup
      fun j hj => by
        obtain ⟨f, hf, hjlow, hjhigh⟩ := hpresent j (List.mem_cons_of_mem k hj)
        exact ⟨f, hsame j hj f hf, hjlow, hjhigh⟩
    refine ⟨m', ?_, hsep', fun x => ?_⟩
    · rw [cutLoop, BTreeMap.get_eq_some_iff.mpr hk]
      exact hrun
    · rw [hcov x, covers_cutRange hsep hk hlow hhigh]
      constructor
      · rintro ⟨⟨hx, hfirst⟩, hrest⟩
        refine ⟨hx, ?_⟩
        rintro ⟨hin, j, hj, f, hf, hjx⟩
        rcases List.mem_cons.mp hj with rfl | hj
        · obtain rfl := BTreeMap.key_injective hf hk
          exact hfirst ⟨hjx, hin⟩
        · exact hrest ⟨hin, j, hj, f, hsame j hj f hf, hjx⟩
      · rintro ⟨hx, hnone⟩
        refine ⟨⟨hx, fun hfirst => hnone ⟨hfirst.2, k, List.mem_cons_self, e, hk, hfirst.1⟩⟩, ?_⟩
        rintro ⟨hin, j, hj, f, hf, hjx⟩
        obtain ⟨f', hf', -⟩ := hpresent j (List.mem_cons_of_mem k hj)
        obtain rfl := BTreeMap.key_injective (hsame j hj f' hf') hf
        exact hnone ⟨hin, j, List.mem_cons_of_mem k hj, f', hf', hjx⟩

theorem subtract_spec {s : RangeSet} {baseAddress size : ℕ} (h : Separated s.list)
    (hfit : baseAddress + size < 2 ^ 64) :
    ∃ s', s.subtract baseAddress size = some s' ∧ Separated s'.list ∧
      ∀ x, Covers s'.list x ↔
        Covers s.list x ∧ ¬ (baseAddress ≤ x ∧ x < baseAddress + size) := by
  by_cases hsize : size = 0
  · refine ⟨s, if_pos hsize, h, fun x => ?_⟩
    rw [and_iff_left (by omega)]
  · obtain ⟨m', hrun, hsep, hcov⟩ := cutLoop_spec
      (show baseAddress < baseAddress + size by omega) h
      (keys_nodup (fun e => e.1 < baseAddress + size ∧ e.2 > baseAddress)
        (fun e => e.1 < baseAddress + size)) fun k hk => by
        obtain ⟨e, he, rfl⟩ := List.mem_map.mp hk
        obtain ⟨he, hin⟩ := List.mem_filter.mp he
        exact ⟨e.2, List.mem_of_mem_filter he, of_decide_eq_true hin⟩
    refine ⟨⟨m'⟩, ?_, hsep, fun x => ?_⟩
    · rw [subtract, if_neg hsize, rangeEnd, if_pos hfit]
      simp only [Option.bind_eq_bind, Option.bind_some]
      rw [hrun]
      rfl
    · rw [hcov x]
      refine and_congr_right fun hx => not_congr ⟨And.left, fun hin => ⟨hin, ?_⟩⟩
      obtain ⟨e, he, hlow, hhigh⟩ := hx
      refine ⟨e.1, List.mem_map_of_mem (List.mem_filter.mpr ⟨List.mem_filter.mpr
        ⟨he, decide_eq_true (by omega)⟩, decide_eq_true (by omega)⟩), e.2, he, hlow, hhigh⟩

end Subtract

/-! ### A window -/

section Window

variable {startAddress endAddress : ℕ}

theorem clampLoop_eq (l : List (ℕ × ℕ)) :
    clampLoop startAddress endAddress (l.filter fun e => e.1 < endAddress) =
      (l.filter fun e => e.1 < endAddress ∧ startAddress < e.2).map
        (clamp startAddress endAddress) := by
  induction l with
  | nil => rfl
  | cons e l ih =>
    by_cases hlow : e.1 < endAddress
    · rw [List.filter_cons_of_pos (by simpa using hlow), clampLoop, ih]
      by_cases hhigh : startAddress < e.2
      · rw [if_neg (not_le.mpr hhigh), List.filter_cons_of_pos (by simpa using ⟨hlow, hhigh⟩)]
        rfl
      · rw [if_pos (not_lt.mp hhigh), List.filter_cons_of_neg (by simpa using fun _ => by omega)]
    · rw [List.filter_cons_of_neg (by simpa using hlow),
        List.filter_cons_of_neg (by simpa using fun hlt => absurd hlt hlow), ih]

end Window

/-- The ranges are not empty, ascend without overlap and cover what the set has of the window. -/
structure Intersects (s : RangeSet) (deviceAddr size : ℕ) (pieces : List (ℕ × ℕ)) : Prop where
  nonempty : ∀ p ∈ pieces, p.1 < p.2
  ascending : pieces.Pairwise fun p q => p.2 ≤ q.1
  covers : ∀ x, Covers pieces x ↔ Covers s.list x ∧ deviceAddr ≤ x ∧ x < deviceAddr + size

/-- The address has a stored range around it. -/
def Inside (s : RangeSet) (deviceAddr : ℕ) : Prop :=
  ∃ e ∈ s.list, e.1 < deviceAddr ∧ deviceAddr < e.2

theorem forEachInRange_spec {s : RangeSet} (h : Separated s.list) (deviceAddr size : ℕ)
    (hfit : deviceAddr + size < 2 ^ 64) :
    ∃ pieces, s.forEachInRange deviceAddr size = some pieces ∧
      (s.Intersects deviceAddr size pieces ↔ 0 < size ∨ ¬ s.Inside deviceAddr) := by
  by_cases hempty : s.list = []
  · have hnone : s.ranges.isEmpty = true := List.isEmpty_iff.mpr hempty
    refine ⟨[], by rw [forEachInRange, if_pos hnone], fun _ => .inr ?_, fun _ => ?_⟩
    · rintro ⟨e, he, -⟩
      rw [hempty] at he
      cases he
    · refine ⟨nofun, List.Pairwise.nil, fun x => ?_⟩
      rw [hempty]
      exact ⟨fun hx => absurd hx (not_covers_nil x), And.left⟩
  · have hsome : ¬ s.ranges.isEmpty = true := mt List.isEmpty_iff.mp hempty
    have hrun : s.forEachInRange deviceAddr size = some
        ((s.list.filter fun e => e.1 < deviceAddr + size ∧ deviceAddr < e.2).map
          (clamp deviceAddr (deviceAddr + size))) := by
      rw [forEachInRange, if_neg hsome, rangeEnd, if_pos hfit]
      simp only [Option.bind_eq_bind, Option.bind_some]
      rw [clampLoop_eq]
    refine ⟨_, hrun, ?_⟩
    rcases Nat.eq_zero_or_pos size with rfl | hpos
    · -- only a range around the address is left, and its piece is empty
      rw [or_iff_right (lt_irrefl 0)]
      constructor
      · rintro hall ⟨e, he, hin⟩
        have hlt := hall.nonempty _ (List.mem_map_of_mem (List.mem_filter.mpr
          ⟨he, decide_eq_true hin⟩))
        rw [clamp] at hlt
        dsimp only at hlt
        omega
      · intro hout
        have hnil : (s.list.filter fun e => e.1 < deviceAddr + 0 ∧ deviceAddr < e.2) = [] :=
          List.filter_eq_nil_iff.mpr fun e he hin => hout ⟨e, he, of_decide_eq_true hin⟩
        rw [hnil]
        refine ⟨nofun, List.Pairwise.nil, fun x => ?_⟩
        exact ⟨fun hx => absurd hx (not_covers_nil x), fun hx => by omega⟩
    · have hlt : deviceAddr < deviceAddr + size := by omega
      have hsep := h.clamp hlt
      refine ⟨fun _ => .inl hpos, fun _ => ⟨hsep.nonempty, ?_, fun x => clamp_covers _ _ _ x⟩⟩
      exact hsep.apart.imp fun hpq => hpq.le

/-! ### Runs -/

inductive Call
  | add (baseAddress size : ℕ)
  | subtract (baseAddress size : ℕ)
  | clear

namespace Call

def apply (s : RangeSet) : Call → Option RangeSet
  | .add baseAddress size => s.add baseAddress size
  | .subtract baseAddress size => s.subtract baseAddress size
  | .clear => some s.clear

/-- The set of addresses after the call. -/
def effect (S : Set ℕ) : Call → Set ℕ
  | .add baseAddress size => S ∪ Set.Ico baseAddress (baseAddress + size)
  | .subtract baseAddress size => S \ Set.Ico baseAddress (baseAddress + size)
  | .clear => ∅

/-- The end of the range is an address. -/
def Fits : Call → Prop
  | .add baseAddress size | .subtract baseAddress size => baseAddress + size < 2 ^ 64
  | .clear => True

end Call

def run (s : RangeSet) (calls : List Call) : Option RangeSet :=
  calls.foldlM Call.apply s

def addresses (calls : List Call) : Set ℕ := calls.foldl Call.effect ∅

/-- The stored ranges are the set, in its only representation. -/
structure Holds (s : RangeSet) (S : Set ℕ) : Prop where
  separated : Separated s.list
  covers : ∀ x, Covers s.list x ↔ x ∈ S

theorem Holds.apply {s : RangeSet} {S : Set ℕ} (h : s.Holds S) {c : Call} (hfit : c.Fits) :
    ∃ s', c.apply s = some s' ∧ s'.Holds (c.effect S) := by
  cases c with
  | add baseAddress size =>
    obtain ⟨s', hrun, hsep, hcov⟩ := add_spec h.separated hfit
    exact ⟨s', hrun, hsep, fun x => (hcov x).trans (or_congr_left (h.covers x))⟩
  | subtract baseAddress size =>
    obtain ⟨s', hrun, hsep, hcov⟩ := subtract_spec h.separated hfit
    exact ⟨s', hrun, hsep, fun x => (hcov x).trans (and_congr_left' (h.covers x))⟩
  | clear =>
    refine ⟨s.clear, rfl, ⟨nofun, List.Pairwise.nil⟩, fun x => ?_⟩
    exact ⟨fun hx => absurd hx (not_covers_nil x), fun hx => by cases hx⟩

theorem Holds.run {calls : List Call} (hfit : ∀ c ∈ calls, c.Fits) :
    ∀ {s : RangeSet} {S : Set ℕ}, s.Holds S →
      ∃ s', s.run calls = some s' ∧ s'.Holds (calls.foldl Call.effect S) := by
  induction calls with
  | nil =>
    intro s S h
    exact ⟨s, rfl, h⟩
  | cons c calls ih =>
    intro s S h
    obtain ⟨s₁, hfirst, h₁⟩ := h.apply (hfit c List.mem_cons_self)
    obtain ⟨s', hrest, h'⟩ := ih (fun d hd => hfit d (List.mem_cons_of_mem c hd)) h₁
    refine ⟨s', ?_, h'⟩
    rw [RangeSet.run, List.foldlM_cons, hfirst]
    exact hrest

theorem holds_new : new.Holds ∅ := by
  refine ⟨⟨nofun, List.Pairwise.nil⟩, fun x => ?_⟩
  exact ⟨fun hx => absurd hx (not_covers_nil x), fun hx => by cases hx⟩

/-- After every run the ranges are the only list of ranges for the addresses that the calls leave,
and a window shows its part of them unless it is empty and inside a range. -/
theorem run_ranges (calls : List Call) (hfit : ∀ c ∈ calls, c.Fits) :
    ∃ s, new.run calls = some s ∧ (∀ x, Covers s.list x ↔ x ∈ addresses calls) ∧
      Separated s.list ∧
      (∀ calls', (∀ c ∈ calls', c.Fits) → addresses calls' = addresses calls →
        ∀ s', new.run calls' = some s' → s'.list = s.list) ∧
      ∀ deviceAddr size, deviceAddr + size < 2 ^ 64 →
        ∃ pieces, s.forEachInRange deviceAddr size = some pieces ∧
          (s.Intersects deviceAddr size pieces ↔ 0 < size ∨ ¬ s.Inside deviceAddr) := by
  obtain ⟨s, hrun, h⟩ := holds_new.run hfit
  refine ⟨s, hrun, h.covers, h.separated, fun calls' hfit' heq s' hrun' => ?_, fun a n hwin =>
    forEachInRange_spec h.separated a n hwin⟩
  obtain ⟨t, ht, h'⟩ := holds_new.run hfit'
  obtain rfl : t = s' := Option.some.inj (ht.symm.trans hrun')
  refine h'.separated.unique h.separated fun x => ?_
  rw [h'.covers x, h.covers x]
  exact Set.ext_iff.mp heq x

theorem run_ranges_touching :
    ∃ s, new.run [.add 10 10, .add 20 10, .subtract 14 2] = some s ∧ Separated s.list ∧
      Covers s.list 20 := by
  obtain ⟨s, hrun, hcov, hsep, -⟩ := run_ranges [.add 10 10, .add 20 10, .subtract 14 2]
    fun c hc => by
      simp only [List.mem_cons, List.not_mem_nil, or_false] at hc
      rcases hc with rfl | rfl | rfl <;> norm_num [Call.Fits]
  refine ⟨s, hrun, hsep, (hcov 20).mpr ⟨.inr ⟨by decide, by decide⟩, fun hin => ?_⟩⟩
  exact absurd hin.2 (by decide)

/-- An empty window inside a range shows an empty range. -/
theorem empty_window_reported :
    ∃ s, new.run [.add 0 10] = some s ∧ s.forEachInRange 5 0 = some [(5, 5)] ∧
      ¬ s.Intersects 5 0 [(5, 5)] := by
  refine ⟨_, rfl, rfl, fun h => ?_⟩
  exact absurd (h.nonempty (5, 5) List.mem_cons_self) (lt_irrefl 5)

end RangeSet

end Ruzu
