import Mathlib
import Ruzu.Common.OverlapRangeSet

/-!
# Runs of the set with counts

After any calls the entries show the count that the calls give each address,
one address at a time. `on_delete` gets the addresses whose count falls to
zero, and a window gets the entries cut to it.
-/

set_option autoImplicit false

namespace Ruzu.OverlapRangeSet

open Segment

/-! ### Overflow -/

section Overflow

variable {addStart addEnd : ℕ} {delta : ℤ} {pos : ℕ} {l : List Entry} {e : Entry}

theorem mem_fill {lo k : ℕ} {v : ℤ} (h : e ∈ fill lo k v) : e.value = v := by
  rw [fill] at h
  split at h
  case isTrue => rw [List.mem_singleton.mp h]
  case isFalse => cases h

theorem overlapEntry_bounded (hdelta : delta ≤ i32Max) (he : e.value ≤ i32Max)
    {pieces : List Entry} {next : ℕ}
    (hrun : overlapEntry addStart addEnd delta pos e = some (pieces, next)) :
    ∀ p ∈ pieces, p.value ≤ i32Max := by
  simp only [overlapEntry, Option.bind_eq_bind, Option.bind_eq_some_iff] at hrun
  obtain ⟨count, hcount, hpieces⟩ := hrun
  have hbound := (addI32_eq_some hcount).2
  have hsuffix : ∀ p ∈ (if e.upper > addEnd then [(⟨addEnd, e.upper, e.value⟩ : Entry)] else []),
      p.value ≤ i32Max := by
    intro p hp
    split at hp
    · rw [List.mem_singleton.mp hp]
      exact he
    · cases hp
  have hfill : ∀ {lo k : ℕ} {p : Entry}, p ∈ fill lo k delta → p.value ≤ i32Max := fun hp =>
    (mem_fill hp).trans_le hdelta
  intro p hp
  split at hpieces
  · cases hpieces
    rcases List.mem_append.mp hp with hgap | hrest
    · exact hfill hgap
    · rcases List.mem_cons.mp hrest with rfl | hrest
      · exact he
      · rcases List.mem_cons.mp hrest with rfl | hrest
        · exact hbound
        · exact hsuffix p hrest
  · cases hpieces
    rcases List.mem_append.mp hp with hgap | hrest
    · rcases List.mem_append.mp hgap with hgap | hgap
      · exact hfill hgap
      · exact hfill hgap
    · rcases List.mem_cons.mp hrest with rfl | hrest
      · exact hbound
      · exact hsuffix p hrest

theorem overlapLoop_bounded (hdelta : delta ≤ i32Max) (hl : ∀ e ∈ l, e.value ≤ i32Max)
    {pieces after : List Entry} {next : ℕ}
    (hrun : overlapLoop addStart addEnd delta pos l = some (pieces, next, after)) :
    (∀ p ∈ pieces, p.value ≤ i32Max) ∧ ∀ p ∈ after, p.value ≤ i32Max := by
  induction l generalizing pos pieces next after with
  | nil =>
    cases hrun
    exact ⟨by simp, by simp⟩
  | cons e rest ih =>
    rw [overlapLoop] at hrun
    split at hrun
    case isFalse =>
      cases hrun
      exact ⟨by simp, hl⟩
    case isTrue =>
      simp only [Option.bind_eq_bind, Option.bind_eq_some_iff] at hrun
      obtain ⟨⟨first, pos'⟩, hentry, ⟨more, next', after'⟩, hmore, heq⟩ := hrun
      cases heq
      obtain ⟨hpieces, hafter⟩ := ih (fun p hp => hl p (List.mem_cons_of_mem _ hp)) hmore
      refine ⟨fun p hp => ?_, hafter⟩
      rcases List.mem_append.mp hp with hp | hp
      · exact overlapEntry_bounded hdelta (hl e (List.mem_cons_self ..)) hentry p hp
      · exact hpieces p hp

theorem applyDelta_bounded {s s' : OverlapRangeSet} (hdelta : delta ≤ i32Max)
    (hs : ∀ e ∈ s.entries, e.value ≤ i32Max)
    (hrun : s.applyDelta addStart addEnd delta = some s') :
    ∀ e ∈ s'.entries, e.value ≤ i32Max := by
  rw [applyDelta] at hrun
  split at hrun
  case isTrue =>
    cases hrun
    exact hs
  case isFalse =>
    simp only [Option.bind_eq_bind, Option.bind_eq_some_iff] at hrun
    obtain ⟨⟨pieces, next, after⟩, hloop, heq⟩ := hrun
    cases heq
    obtain ⟨hpieces, hafter⟩ := overlapLoop_bounded hdelta
      (fun e he => hs e ((List.dropWhile_sublist _).subset he)) hloop
    intro p hp
    simp only [List.mem_append] at hp
    rcases hp with ((hp | hp) | hp) | hp
    · exact hs p ((List.takeWhile_sublist _).subset hp)
    · exact hpieces p hp
    · exact (mem_fill hp).trans_le hdelta
    · exact hafter p hp

/-- Only the sum of an entry's count can fail. -/
theorem overlapLoop_isSome (hl : ∀ e ∈ l, e.lower < addEnd → (addI32 e.value delta).isSome) :
    (overlapLoop addStart addEnd delta pos l).isSome := by
  induction l generalizing pos with
  | nil => rfl
  | cons e rest ih =>
    rw [overlapLoop]
    split
    case isFalse => rfl
    case isTrue hin =>
      obtain ⟨count, hcount⟩ := Option.isSome_iff_exists.mp (hl e (List.mem_cons_self ..) hin)
      obtain ⟨⟨first, pos'⟩, hentry⟩ :
          ∃ r, overlapEntry addStart addEnd delta pos e = some r := by
        simp only [overlapEntry, hcount, Option.bind_eq_bind, Option.bind_some]
        split <;> exact ⟨_, rfl⟩
      have hsome : (overlapLoop addStart addEnd delta pos' rest).isSome :=
        ih fun p hp => hl p (List.mem_cons_of_mem _ hp)
      obtain ⟨⟨more, next, after⟩, hmore⟩ := Option.isSome_iff_exists.mp hsome
      rw [hentry, Option.bind_eq_bind, Option.bind_some]
      simp only [hmore, Option.bind_eq_bind, Option.bind_some, Option.isSome_some]

/-- A delta that no address of the range overflows with. -/
theorem applyDelta_isSome {s : OverlapRangeSet} {f : ℕ → Option ℤ} {hi : ℕ}
    (h : Shows f 0 hi s.entries)
    (hfits : ∀ x c, addStart ≤ x → x < addEnd → f x = some c → (addI32 c delta).isSome) :
    (s.applyDelta addStart addEnd delta).isSome := by
  rw [applyDelta]
  split
  case isTrue => rfl
  case isFalse hlt =>
    have hreach : ∀ e ∈ s.entries.dropWhile fun e => decide (e.upper ≤ addStart),
        addStart < e.upper := by
      have hhead := List.head?_dropWhile_not (fun e : Entry => decide (e.upper ≤ addStart)) s.entries
      have hordered : Ordered (s.entries.dropWhile fun e => decide (e.upper ≤ addStart)) :=
        h.ordered.sublist (List.dropWhile_sublist _)
      have hmem : ∀ e ∈ s.entries.dropWhile fun e => decide (e.upper ≤ addStart),
          e.lower < e.upper := fun e he =>
        (h.mem ((List.dropWhile_sublist _).subset he)).2.1
      generalize s.entries.dropWhile (fun e => decide (e.upper ≤ addStart)) = l at *
      cases l with
      | nil => simp
      | cons d rest =>
        have hd : addStart < d.upper := by simpa using hhead
        intro e he
        rcases List.mem_cons.mp he with rfl | hin
        · exact hd
        · have hle := (List.pairwise_cons.mp hordered).1 e hin
          have hlt := hmem e he
          omega
    have hsome : (overlapLoop addStart addEnd delta addStart
        (s.entries.dropWhile fun e => decide (e.upper ≤ addStart))).isSome := by
      refine overlapLoop_isSome fun e he hin => ?_
      have hup := hreach e he
      obtain ⟨-, hne, -, hval⟩ := h.mem ((List.dropWhile_sublist _).subset he)
      exact hfits (max e.lower addStart) e.value (le_max_right _ _) (by omega)
        (hval _ ⟨le_max_left _ _, by omega⟩)
    obtain ⟨⟨pieces, next, after⟩, hloop⟩ := Option.isSome_iff_exists.mp hsome
    simp only [hloop, Option.bind_eq_bind, Option.bind_some, Option.isSome_some]

end Overflow

/-! ### The counts of the addresses -/

section Counts

variable {s s' : OverlapRangeSet} {k k' : ℕ → ℤ} {baseAddress size : ℕ} {amount : ℤ}
  {deleted : List (ℕ × ℕ)}

def positive (k : ℕ → ℤ) (x : ℕ) : Option ℤ := if 0 < k x then some (k x) else none

/-- The entries are where the counts `k` are positive, and they are `i32`. -/
structure Counts (s : OverlapRangeSet) (k : ℕ → ℤ) : Prop where
  nonneg : ∀ x, 0 ≤ k x
  shows : Shows (positive k) 0 (2 ^ 64) s.entries
  bounded : ∀ e ∈ s.entries, e.value ≤ i32Max

theorem positive_getD {x : ℕ} (h : 0 ≤ k x) : (positive k x).getD 0 = k x := by
  rw [positive]
  split
  · rfl
  · rw [Option.getD_none]
    omega

theorem Counts.congr (h : s.Counts k) (hk : ∀ x, 0 ≤ k' x) (heq : ∀ x < 2 ^ 64, k' x = k x) :
    s.Counts k' :=
  ⟨hk, h.shows.congr fun x _ hx => by rw [positive, positive, heq x hx], h.bounded⟩

theorem counts_new : new.Counts fun _ => 0 :=
  ⟨fun _ => le_rfl, ⟨Nat.zero_le _, fun _ _ _ => rfl⟩, fun _ he => by cases he⟩

theorem Counts.count (h : s.Counts k) {x : ℕ} (hx : x < 2 ^ 64) : s.count x = k x := by
  rw [OverlapRangeSet.count, h.shows.lookup (Nat.zero_le _) hx, positive_getD (h.nonneg x)]

theorem Counts.le_max (h : s.Counts k) {x : ℕ} (hx : x < 2 ^ 64) : k x ≤ i32Max := by
  by_cases hpos : 0 < k x
  · obtain ⟨e, he, -, hval⟩ := h.shows.covered (Nat.zero_le _) hx (if_pos hpos)
    rw [← hval]
    exact h.bounded e he
  · exact (not_lt.mp hpos).trans (by decide)

theorem Counts.entry (h : s.Counts k) {e : Entry} (he : e ∈ s.entries) :
    e.lower < e.upper ∧ 0 < e.value := by
  obtain ⟨-, hlt, -, hval⟩ := h.shows.mem he
  refine ⟨hlt, ?_⟩
  have hlow := hval e.lower ⟨le_rfl, hlt⟩
  rw [positive] at hlow
  split at hlow
  case isTrue hpos => rwa [Option.some.inj hlow] at hpos
  case isFalse => cases hlow

theorem Counts.empty (h : s.Counts k) (hs : s.entries = []) {x : ℕ} (hx : x < 2 ^ 64) :
    k x = 0 := by
  have hnone := (hs ▸ h.shows : Shows (positive k) 0 (2 ^ 64) []).2 x (Nat.zero_le _) hx
  by_contra hne
  have hnonneg := h.nonneg x
  rw [positive, if_pos (by omega)] at hnone
  cases hnone

theorem rangeEnd_eq_some {stop : ℕ} (h : rangeEnd baseAddress size = some stop) :
    stop = baseAddress + size ∧ baseAddress + size < 2 ^ 64 := by
  rw [rangeEnd] at h
  split at h
  case isTrue hlt =>
    cases h
    exact ⟨rfl, hlt⟩
  case isFalse => cases h

theorem Counts.shifted (h : s.Counts k) {x : ℕ} :
    OverlapRangeSet.shifted baseAddress (baseAddress + size) amount (positive k) x =
      if baseAddress ≤ x ∧ x < baseAddress + size then some (k x + amount) else positive k x := by
  rw [OverlapRangeSet.shifted, positive_getD (h.nonneg x)]

theorem Counts.add (h : s.Counts k) (hrun : s.add baseAddress size = some s') :
    s'.Counts fun x => if baseAddress ≤ x ∧ x < baseAddress + size then k x + 1 else k x := by
  have hnonneg : ∀ x, 0 ≤ if baseAddress ≤ x ∧ x < baseAddress + size then k x + 1 else k x := by
    intro x
    have := h.nonneg x
    split <;> omega
  rw [OverlapRangeSet.add] at hrun
  split at hrun
  case isTrue hzero =>
    cases hrun
    exact h.congr hnonneg fun x _ => if_neg (by omega)
  case isFalse hsize =>
    simp only [Option.bind_eq_bind, Option.bind_eq_some_iff] at hrun
    obtain ⟨stop, hstop, hdelta⟩ := hrun
    obtain ⟨rfl, hend⟩ := rangeEnd_eq_some hstop
    refine ⟨hnonneg, ?_, applyDelta_bounded (by decide) h.bounded hdelta⟩
    refine (applyDelta_shows h.shows (Nat.zero_le _) (by omega) hend.le hdelta).congr
      fun x _ _ => ?_
    have := h.nonneg x
    rw [h.shifted, positive]
    split
    · rw [if_pos (by omega)]
    · rfl

/-- A subtraction takes the amount off and reports the addresses that had exactly it. -/
theorem Counts.subtractWithCallback (h : s.Counts k) (hone : 1 ≤ amount)
    (hrun : s.subtractWithCallback baseAddress size amount = some (s', deleted)) :
    (s'.Counts fun x =>
      if baseAddress ≤ x ∧ x < baseAddress + size then max 0 (k x - amount) else k x) ∧
    ∀ x < 2 ^ 64, (deleted.filter fun r => r.1 ≤ x ∧ x < r.2).length =
      if (baseAddress ≤ x ∧ x < baseAddress + size) ∧ k x = amount then 1 else 0 := by
  have hnonneg : ∀ x, 0 ≤
      if baseAddress ≤ x ∧ x < baseAddress + size then max 0 (k x - amount) else k x := by
    intro x
    have := h.nonneg x
    split <;> omega
  rw [OverlapRangeSet.subtractWithCallback] at hrun
  split at hrun
  case isTrue hnone =>
    cases hrun
    have hcovered : ∀ x < 2 ^ 64, baseAddress ≤ x ∧ x < baseAddress + size → k x = 0 := by
      intro x hx hin
      rcases hnone with hzero | hempty
      · omega
      · exact h.empty (List.isEmpty_iff.mp hempty) hx
    refine ⟨h.congr hnonneg fun x hx => ?_, fun x hx => ?_⟩
    · split
      case isTrue hin => rw [hcovered x hx hin]; omega
      case isFalse => rfl
    · rw [if_neg fun hin => by have := hcovered x hx hin.1; omega]
      rfl
  case isFalse hsome =>
    simp only [Option.bind_eq_bind, Option.bind_eq_some_iff] at hrun
    obtain ⟨stop, hstop, applied, hdelta, heq⟩ := hrun
    obtain ⟨rfl, hend⟩ := rangeEnd_eq_some hstop
    cases heq
    have hlt : baseAddress < baseAddress + size := by
      have : size ≠ 0 := fun hzero => hsome (.inl hzero)
      omega
    have hshows := applyDelta_shows h.shows (Nat.zero_le _) hlt hend.le hdelta
    have hmax : (0 : ℤ) ≤ i32Max := by decide
    have hbound := applyDelta_bounded (by omega) h.bounded hdelta
    refine ⟨⟨hnonneg, ?_, fun e he => hbound e (List.mem_filter.mp he).1⟩, fun x hx => ?_⟩
    · refine (hshows.filter fun c => decide (0 < c)).congr fun x _ _ => ?_
      rw [h.shifted, positive]
      split
      · rw [Option.filter_some]
        by_cases hpos : amount < k x
        · rw [if_pos (by omega), if_pos (by rw [decide_eq_true_eq]; omega),
            max_eq_right (by omega), sub_eq_add_neg]
        · rw [if_neg (by omega), if_neg (by rw [decide_eq_true_eq]; omega)]
      · rw [positive]
        split
        case isTrue hpos => rw [Option.filter_some, if_pos (decide_eq_true hpos)]
        case isFalse => rfl
    · have hzero := (hshows.filter fun c => decide (c = 0)).filter_covers (Nat.zero_le x) hx
      have hlen := congrArg List.length hzero
      rw [List.length_map] at hlen
      have hranges : ∀ l : List Entry,
          ((l.map fun e => (e.lower, e.upper)).filter fun r => decide (r.1 ≤ x ∧ x < r.2)).length =
            (l.filter fun e => decide (e.Covers x)).length := fun l => by
        rw [List.filter_map, List.length_map]
        rfl
      rw [hranges, hlen, h.shifted]
      have := h.nonneg x
      by_cases hin : baseAddress ≤ x ∧ x < baseAddress + size
      · rw [if_pos hin, Option.filter_some]
        by_cases hk : k x = amount
        · rw [if_pos (by rw [decide_eq_true_eq]; omega), if_pos ⟨hin, hk⟩]
          rfl
        · rw [if_neg (by rw [decide_eq_true_eq]; omega), if_neg fun hboth => hk hboth.2]
          rfl
      · rw [if_neg hin, if_neg fun hboth => hin hboth.1, positive]
        split
        case isTrue hpos => rw [Option.filter_some, if_neg (by rw [decide_eq_true_eq]; omega)]; rfl
        case isFalse => rfl

theorem Counts.add_isSome (h : s.Counts k) (hend : baseAddress + size < 2 ^ 64)
    (hfits : ∀ x, baseAddress ≤ x → x < baseAddress + size → k x + 1 ≤ i32Max) :
    (s.add baseAddress size).isSome := by
  rw [OverlapRangeSet.add]
  split
  case isTrue => rfl
  case isFalse =>
    rw [rangeEnd, if_pos hend, Option.bind_eq_bind, Option.bind_some]
    refine applyDelta_isSome h.shows fun x c hx hxe hc => ?_
    have hcount : (positive k x).getD 0 = c := by rw [hc]; rfl
    rw [positive_getD (h.nonneg x)] at hcount
    have hle := hfits x hx hxe
    have hnonneg := h.nonneg x
    rw [addI32, if_pos ⟨by omega, by omega⟩]
    rfl

theorem Counts.subtract_isSome (h : s.Counts k) (hend : baseAddress + size < 2 ^ 64)
    (hone : 0 ≤ amount) (hmax : amount ≤ i32Max) :
    (s.subtractWithCallback baseAddress size amount).isSome := by
  rw [OverlapRangeSet.subtractWithCallback]
  split
  case isTrue => rfl
  case isFalse =>
    rw [rangeEnd, if_pos hend, Option.bind_eq_bind, Option.bind_some]
    have hsome : (s.applyDelta baseAddress (baseAddress + size) (-amount)).isSome := by
      refine applyDelta_isSome h.shows fun x c hx hxe hc => ?_
      have hcount : (positive k x).getD 0 = c := by rw [hc]; rfl
      rw [positive_getD (h.nonneg x)] at hcount
      have hle := h.le_max (x := x) (by omega)
      have hnonneg := h.nonneg x
      rw [i32Max] at hmax hle
      rw [addI32, i32Max, if_pos ⟨by omega, by omega⟩]
      rfl
    obtain ⟨applied, happlied⟩ := Option.isSome_iff_exists.mp hsome
    rw [happlied, Option.bind_eq_bind, Option.bind_some]
    rfl

end Counts

/-! ### A window -/

section Window

variable {f : ℕ → Option ℤ} {lo hi startAddress endAddress : ℕ} {l : List Entry}

def clamp (startAddress endAddress : ℕ) (e : Entry) : Entry :=
  ⟨max e.lower startAddress, min e.upper endAddress, e.value⟩

/-- The loop leaves out the entries in front of the window and stops behind it. -/
theorem clampLoop_eq (h : Shows f lo hi l) :
    clampLoop startAddress endAddress l =
      (l.filter fun e => startAddress < e.upper ∧ e.lower < endAddress).map
        (clamp startAddress endAddress) := by
  induction l generalizing lo with
  | nil => rfl
  | cons e rest ih =>
    have hrest := h.2.2.2.2
    rw [clampLoop]
    split
    case isTrue hfront => rw [ih hrest, List.filter_cons_of_neg (by simpa using fun _ => by omega)]
    case isFalse hfront =>
      split
      case isTrue hbehind =>
        have hall : ∀ p ∈ e :: rest, endAddress ≤ p.lower := by
          intro p hp
          rcases List.mem_cons.mp hp with rfl | hp
          · exact hbehind
          · have hle := (hrest.mem hp).1
            have hlt := h.2.1
            omega
        rw [List.filter_eq_nil_iff.mpr fun p hp => by have := hall p hp; simpa using fun _ => this]
        rfl
      case isFalse hin =>
        rw [List.filter_cons_of_pos (by rw [decide_eq_true_eq]; omega), List.map_cons, ih hrest]
        rfl

theorem clampLoop_ordered (h : Shows f lo hi l) :
    Ordered (clampLoop startAddress endAddress l) := by
  rw [clampLoop_eq h]
  refine List.pairwise_map.mpr ((h.ordered.filter _).imp fun {p q} hle => ?_)
  exact (min_le_left _ _).trans (hle.trans (le_max_left _ _))

theorem clampLoop_mem (h : Shows f lo hi l) {p : Entry}
    (hp : p ∈ clampLoop startAddress endAddress l) :
    startAddress ≤ p.lower ∧ p.upper ≤ endAddress ∧
      (startAddress < endAddress → p.lower < p.upper) ∧ ∃ e ∈ l, p.value = e.value := by
  rw [clampLoop_eq h] at hp
  obtain ⟨e, he, rfl⟩ := List.mem_map.mp hp
  obtain ⟨he, hin⟩ := List.mem_filter.mp he
  have hlt := (h.mem he).2.1
  rw [decide_eq_true_eq] at hin
  refine ⟨le_max_right _ _, min_le_right _ _, fun hwin => ?_, e, he, rfl⟩
  exact max_lt (lt_min hlt hin.2) (lt_min hin.1 hwin)

theorem clampLoop_lookup (h : Shows f lo hi l) (x : ℕ) :
    lookup (clampLoop startAddress endAddress l) x =
      if startAddress ≤ x ∧ x < endAddress then lookup l x else none := by
  have hcovers : ∀ e : Entry, (startAddress < e.upper ∧ e.lower < endAddress) ∧
      (clamp startAddress endAddress e).Covers x ↔
        (startAddress ≤ x ∧ x < endAddress) ∧ e.Covers x := by
    intro e
    simp only [Segment.Covers, clamp]
    omega
  rw [clampLoop_eq h, lookup, List.find?_map, List.find?_filter, Option.map_map]
  simp only [Function.comp_def, decide_eq_true_eq, hcovers]
  split
  case isTrue hin =>
    simp only [hin, true_and]
    rfl
  case isFalse hout => simp [hout]

end Window

/-! ### Runs -/

inductive Call
  | add (baseAddress size : ℕ)
  | subtract (baseAddress size : ℕ)
  | subtractWithOnDelete (baseAddress size : ℕ)
  | deleteAll (baseAddress size : ℕ)

namespace Call

def baseAddress : Call → ℕ
  | .add baseAddress _ | .subtract baseAddress _ => baseAddress
  | .subtractWithOnDelete baseAddress _ | .deleteAll baseAddress _ => baseAddress

def size : Call → ℕ
  | .add _ size | .subtract _ size | .subtractWithOnDelete _ size | .deleteAll _ size => size

def apply (s : OverlapRangeSet) : Call → Option OverlapRangeSet
  | .add baseAddress size => s.add baseAddress size
  | .subtract baseAddress size => s.subtract baseAddress size
  | .subtractWithOnDelete baseAddress size =>
    (s.subtractWithOnDelete baseAddress size).map Prod.fst
  | .deleteAll baseAddress size => s.deleteAll baseAddress size

def Covers (c : Call) (x : ℕ) : Prop := c.baseAddress ≤ x ∧ x < c.baseAddress + c.size

instance (c : Call) (x : ℕ) : Decidable (c.Covers x) := inferInstanceAs (Decidable (_ ∧ _))

/-- What the call makes of a count that it covers. -/
def effect (n : ℤ) : Call → ℤ
  | .add .. => n + 1
  | .subtract .. | .subtractWithOnDelete .. => max 0 (n - 1)
  | .deleteAll .. => 0

end Call

def run (s : OverlapRangeSet) (calls : List Call) : Option OverlapRangeSet :=
  calls.foldlM Call.apply s

/-- The count of an address, call by call. -/
def tally (calls : List Call) (x : ℕ) : ℤ :=
  calls.foldl (fun n c => if c.Covers x then c.effect n else n) 0

/-- No range ends behind the addresses and no count exceeds an `i32`. -/
def Fits (calls : List Call) : Prop :=
  (∀ c ∈ calls, c.baseAddress + c.size < 2 ^ 64) ∧
    ∀ front, front <+: calls → ∀ x, tally front x ≤ i32Max

section Runs

variable {s s' : OverlapRangeSet} {calls : List Call} {c : Call}

theorem tally_append (calls : List Call) (c : Call) (x : ℕ) :
    tally (calls ++ [c]) x = if c.Covers x then c.effect (tally calls x) else tally calls x := by
  rw [tally, List.foldl_append, List.foldl_cons, List.foldl_nil]
  rfl

theorem tally_nonneg (calls : List Call) (x : ℕ) : 0 ≤ tally calls x := by
  induction calls using List.reverseRecOn with
  | nil => exact le_rfl
  | append_singleton calls c ih =>
    rw [tally_append]
    split
    case isTrue =>
      cases c with
      | add => exact ih.trans (Int.le_add_one le_rfl)
      | subtract => exact le_max_left _ _
      | subtractWithOnDelete => exact le_max_left _ _
      | deleteAll => exact le_rfl
    case isFalse => exact ih

theorem run_append (s : OverlapRangeSet) (calls : List Call) (c : Call) :
    s.run (calls ++ [c]) = (s.run calls).bind (Call.apply · c) := by
  simp only [run, List.foldlM_append, List.foldlM_cons, List.foldlM_nil, bind_pure]
  rfl

theorem Fits.init (h : Fits (calls ++ [c])) : Fits calls :=
  ⟨fun d hd => h.1 d (List.mem_append_left _ hd),
    fun front hfront => h.2 front (hfront.trans (List.prefix_append _ _))⟩

theorem Counts.apply (h : s.Counts (tally calls)) (hrun : c.apply s = some s') :
    s'.Counts (tally (calls ++ [c])) := by
  have hone : (1 : ℤ) ≤ i32Max := by decide
  have hnonneg := tally_nonneg (calls ++ [c])
  cases c with
  | add baseAddress size =>
    exact (h.add hrun).congr hnonneg fun x _ => tally_append calls (.add baseAddress size) x
  | subtract baseAddress size =>
    obtain ⟨⟨t, deleted⟩, hcall, rfl⟩ := Option.map_eq_some_iff.mp hrun
    exact (h.subtractWithCallback le_rfl hcall).1.congr hnonneg
      fun x _ => tally_append calls (.subtract baseAddress size) x
  | subtractWithOnDelete baseAddress size =>
    obtain ⟨⟨t, deleted⟩, hcall, rfl⟩ := Option.map_eq_some_iff.mp hrun
    exact (h.subtractWithCallback le_rfl hcall).1.congr hnonneg
      fun x _ => tally_append calls (.subtractWithOnDelete baseAddress size) x
  | deleteAll baseAddress size =>
    obtain ⟨⟨t, deleted⟩, hcall, rfl⟩ := Option.map_eq_some_iff.mp hrun
    -- the amount is the greatest count, so nothing is left
    refine (h.subtractWithCallback hone hcall).1.congr hnonneg fun x hx => ?_
    have hle := h.le_max hx
    refine (tally_append calls (.deleteAll baseAddress size) x).trans (if_congr Iff.rfl ?_ rfl)
    rw [Call.effect, max_eq_left (by omega)]

theorem counts_run (calls : List Call) {s : OverlapRangeSet} (hrun : new.run calls = some s) :
    s.Counts (tally calls) := by
  induction calls using List.reverseRecOn generalizing s with
  | nil =>
    cases hrun
    exact counts_new
  | append_singleton calls c ih =>
    rw [run_append, Option.bind_eq_some_iff] at hrun
    obtain ⟨t, hinit, hlast⟩ := hrun
    exact (ih hinit).apply hlast

theorem Counts.apply_isSome (h : s.Counts (tally calls)) (hfits : Fits (calls ++ [c])) :
    (c.apply s).isSome := by
  have hend := hfits.1 c (List.mem_append_right _ (List.mem_singleton_self c))
  have hsub := fun {amount : ℤ} (hone : 0 ≤ amount) (hmax : amount ≤ i32Max) =>
    h.subtract_isSome hend hone hmax
  have hone : (1 : ℤ) ≤ i32Max := by decide
  cases c with
  | add baseAddress size =>
    refine h.add_isSome hend fun x hx hxe => ?_
    have hle := hfits.2 _ List.prefix_rfl x
    rw [tally_append, if_pos ⟨hx, hxe⟩] at hle
    exact hle
  | subtract baseAddress size =>
    rw [Call.apply, subtract, Option.isSome_map]
    exact hsub (by decide) hone
  | subtractWithOnDelete baseAddress size =>
    rw [Call.apply, subtractWithOnDelete, Option.isSome_map]
    exact hsub (by decide) hone
  | deleteAll baseAddress size =>
    rw [Call.apply, deleteAll, Option.isSome_map]
    exact hsub (by decide) le_rfl

theorem run_isSome (calls : List Call) (hfits : Fits calls) : (new.run calls).isSome := by
  induction calls using List.reverseRecOn with
  | nil => rfl
  | append_singleton calls c ih =>
    obtain ⟨t, ht⟩ := Option.isSome_iff_exists.mp (ih hfits.init)
    rw [run_append, ht, Option.bind_some]
    exact (counts_run calls ht).apply_isSome hfits

/-- A run without overflow gives every address the count that its calls give it. The ranges of
`on_delete` are the addresses that fall from one to zero, once each, and a window shows the
counts of its addresses. -/
theorem run_counts (calls : List Call) :
    (Fits calls → (new.run calls).isSome) ∧
    ∀ s, new.run calls = some s →
      (Ordered s.entries ∧ ∀ e ∈ s.entries, e.lower < e.upper ∧ 0 < e.value) ∧
      (∀ x < 2 ^ 64, s.count x = tally calls x) ∧
      (∀ baseAddress size s' deleted,
        s.subtractWithOnDelete baseAddress size = some (s', deleted) → ∀ x < 2 ^ 64,
          (deleted.filter fun r => r.1 ≤ x ∧ x < r.2).length =
            if tally calls x = 1 ∧
              tally (calls ++ [.subtractWithOnDelete baseAddress size]) x = 0 then 1 else 0) ∧
      ∀ deviceAddr size,
        (deviceAddr + size < 2 ^ 64 → (s.forEachInRange deviceAddr size).isSome) ∧
        ∀ pieces, s.forEachInRange deviceAddr size = some pieces →
          (Ordered pieces ∧ ∀ p ∈ pieces, deviceAddr ≤ p.lower ∧ p.upper ≤ deviceAddr + size ∧
            (0 < size → p.lower < p.upper) ∧ 0 < p.value) ∧
          ∀ x < 2 ^ 64, (lookup pieces x).getD 0 =
            if deviceAddr ≤ x ∧ x < deviceAddr + size then tally calls x else 0 := by
  refine ⟨run_isSome calls, fun s hrun => ?_⟩
  have h := counts_run calls hrun
  refine ⟨⟨h.shows.ordered, fun e he => h.entry he⟩, fun x hx => h.count hx, ?_, ?_⟩
  · intro baseAddress size s' deleted hcall x hx
    rw [(h.subtractWithCallback le_rfl hcall).2 x hx, tally_append]
    refine if_congr ?_ rfl rfl
    by_cases hin : (Call.subtractWithOnDelete baseAddress size).Covers x
    · rw [if_pos hin, and_iff_right (show baseAddress ≤ x ∧ x < baseAddress + size from hin)]
      refine ⟨fun heq => ⟨heq, ?_⟩, And.left⟩
      rw [heq]
      rfl
    · rw [if_neg hin]
      refine ⟨fun hboth => absurd hboth.1 hin, fun hboth => ?_⟩
      have hone := hboth.1
      have hzero := hboth.2
      omega
  · intro deviceAddr size
    rw [forEachInRange]
    split
    case isTrue hempty =>
      refine ⟨fun _ => rfl, fun pieces hpieces => ?_⟩
      cases hpieces
      refine ⟨⟨List.Pairwise.nil, fun p hp => by cases hp⟩, fun x hx => ?_⟩
      rw [h.empty (List.isEmpty_iff.mp hempty) hx, ite_self]
      rfl
    case isFalse =>
      refine ⟨fun hend => by rw [rangeEnd, if_pos hend]; rfl, fun pieces hpieces => ?_⟩
      simp only [Option.bind_eq_bind, Option.bind_eq_some_iff] at hpieces
      obtain ⟨stop, hstop, heq⟩ := hpieces
      obtain ⟨rfl, -⟩ := rangeEnd_eq_some hstop
      cases heq
      refine ⟨⟨clampLoop_ordered h.shows, fun p hp => ?_⟩, fun x hx => ?_⟩
      · obtain ⟨hlow, hup, hlt, e, he, hval⟩ := clampLoop_mem h.shows hp
        exact ⟨hlow, hup, fun hsize => hlt (by omega), hval ▸ (h.entry he).2⟩
      · rw [clampLoop_lookup h.shows]
        split
        · exact h.count hx
        · rfl

theorem run_counts_cut :
    (∃ s, new.run [.add 0 100, .add 50 100, .subtract 40 20] = some s ∧ s.count 55 = 1 ∧
      s.count 45 = 0 ∧ s.count 70 = 2) ∧
      ∀ x < 2 ^ 64, ∀ s, new.run [.add 0 100, .add 50 100, .subtract 40 20] = some s →
        s.count x = tally [.add 0 100, .add 50 100, .subtract 40 20] x := by
  refine ⟨⟨⟨[⟨0, 40, 1⟩, ⟨50, 60, 1⟩, ⟨60, 100, 2⟩, ⟨100, 150, 1⟩]⟩, by decide, by decide,
    by decide, by decide⟩, fun x hx s hrun => ?_⟩
  exact ((run_counts [.add 0 100, .add 50 100, .subtract 40 20]).2 s hrun).2.1 x hx

end Runs

end Ruzu.OverlapRangeSet
