import Mathlib

/-!
# Sets as lists of intervals

A list of half-open intervals covers a set. When the intervals are not empty,
ascend and leave a hole between any two of them, the list is determined by
the set.
-/

set_option autoImplicit false

namespace Ruzu.Intervals

variable {α : Type*} [LinearOrder α]

def Covers (l : List (α × α)) (x : α) : Prop := ∃ e ∈ l, e.1 ≤ x ∧ x < e.2

structure Separated (l : List (α × α)) : Prop where
  nonempty : ∀ e ∈ l, e.1 < e.2
  apart : l.Pairwise fun e f => e.2 < f.1

variable {l l' : List (α × α)} {e e' : α × α} {x : α}

theorem not_covers_nil (x : α) : ¬ Covers [] x := by
  rintro ⟨e, he, -⟩
  cases he

theorem covers_cons : Covers (e :: l) x ↔ (e.1 ≤ x ∧ x < e.2) ∨ Covers l x := by
  constructor
  · rintro ⟨f, hf, hx⟩
    rcases List.mem_cons.mp hf with rfl | hf
    · exact .inl hx
    · exact .inr ⟨f, hf, hx⟩
  · rintro (hx | ⟨f, hf, hx⟩)
    · exact ⟨e, List.mem_cons_self, hx⟩
    · exact ⟨f, List.mem_cons_of_mem e hf, hx⟩

theorem Separated.tail (h : Separated (e :: l)) : Separated l :=
  ⟨fun f hf => h.nonempty f (List.mem_cons_of_mem e hf), h.apart.of_cons⟩

theorem Separated.head_lt (h : Separated (e :: l)) : e.1 < e.2 := h.nonempty e List.mem_cons_self

/-- What the later intervals cover lies above the hole behind the first. -/
theorem Separated.tail_above (h : Separated (e :: l)) (hx : Covers l x) : e.2 < x := by
  obtain ⟨f, hf, hfx, -⟩ := hx
  exact ((List.pairwise_cons.mp h.apart).1 f hf).trans_le hfx

theorem Separated.above (h : Separated (e :: l)) (hx : Covers (e :: l) x) : e.1 ≤ x := by
  rcases covers_cons.1 hx with hin | hin
  · exact hin.1
  · exact h.head_lt.le.trans (h.tail_above hin).le

theorem Separated.start_le (h : Separated (e :: l)) (h' : Separated (e' :: l'))
    (heq : ∀ x, Covers (e :: l) x ↔ Covers (e' :: l') x) : e.1 ≤ e'.1 :=
  h.above ((heq e'.1).mpr (covers_cons.2 (.inl ⟨le_rfl, h'.head_lt⟩)))

theorem Separated.stop_le (h : Separated (e :: l)) (h' : Separated (e' :: l'))
    (heq : ∀ x, Covers (e :: l) x ↔ Covers (e' :: l') x) : e'.2 ≤ e.2 := by
  by_contra hlt
  have hstart := h'.start_le h fun x => (heq x).symm
  have hin : Covers (e' :: l') e.2 :=
    covers_cons.2 (.inl ⟨hstart.trans h.head_lt.le, not_le.mp hlt⟩)
  -- the first interval ends at a hole
  rcases covers_cons.1 ((heq e.2).mpr hin) with hself | htail
  · exact lt_irrefl _ hself.2
  · exact lt_irrefl _ (h.tail_above htail)

theorem Separated.tail_iff (h : Separated (e :: l)) : Covers l x ↔ Covers (e :: l) x ∧ e.2 ≤ x := by
  constructor
  · intro hx
    exact ⟨covers_cons.2 (.inr hx), (h.tail_above hx).le⟩
  · rintro ⟨hx, hle⟩
    rcases covers_cons.1 hx with hin | hin
    · exact absurd hin.2 (not_lt.mpr hle)
    · exact hin

theorem Separated.unique (h : Separated l) (h' : Separated l')
    (heq : ∀ x, Covers l x ↔ Covers l' x) : l = l' := by
  induction l generalizing l' with
  | nil =>
    cases l' with
    | nil => rfl
    | cons e' l' =>
      have hin := (heq e'.1).mpr (covers_cons.2 (.inl ⟨le_rfl, h'.head_lt⟩))
      exact absurd hin (not_covers_nil _)
  | cons e l ih =>
    cases l' with
    | nil =>
      have hin := (heq e.1).mp (covers_cons.2 (.inl ⟨le_rfl, h.head_lt⟩))
      exact absurd hin (not_covers_nil _)
    | cons e' l' =>
      have hsymm := fun x => (heq x).symm
      have hstart : e.1 = e'.1 := le_antisymm (h.start_le h' heq) (h'.start_le h hsymm)
      have hstop : e.2 = e'.2 := le_antisymm (h'.stop_le h hsymm) (h.stop_le h' heq)
      have hhead : e = e' := Prod.ext hstart hstop
      subst hhead
      have htail : l = l' := ih h.tail h'.tail fun x => by
        rw [h.tail_iff, h'.tail_iff, heq x]
      rw [htail]

/-- Of two intervals the one that starts first ends in front of the other. -/
theorem Separated.before (h : Separated l) (he : e ∈ l) (he' : e' ∈ l) (hlt : e.1 < e'.1) :
    e.2 < e'.1 := by
  induction l with
  | nil => cases he
  | cons f l ih =>
    have hfirst := (List.pairwise_cons.mp h.apart).1
    rcases List.mem_cons.mp he with rfl | hel
    · rcases List.mem_cons.mp he' with rfl | hel'
      · exact absurd hlt (lt_irrefl _)
      · exact hfirst e' hel'
    · rcases List.mem_cons.mp he' with rfl | hel'
      · have hgap := hfirst e hel
        exact absurd (hlt.trans h.head_lt) (not_lt.mpr hgap.le)
      · exact ih h.tail hel hel'

/-- The intervals inside a window. -/
def clamp (start stop : α) (e : α × α) : α × α := (max e.1 start, min e.2 stop)

theorem clamp_covers (start stop : α) (l : List (α × α)) (x : α) :
    Covers ((l.filter fun e => e.1 < stop ∧ start < e.2).map (clamp start stop)) x ↔
      Covers l x ∧ start ≤ x ∧ x < stop := by
  constructor
  · rintro ⟨p, hp, hlow, hhigh⟩
    obtain ⟨e, he, rfl⟩ := List.mem_map.mp hp
    obtain ⟨h1, h2⟩ := max_le_iff.mp hlow
    obtain ⟨h3, h4⟩ := lt_min_iff.mp hhigh
    exact ⟨⟨e, List.mem_of_mem_filter he, h1, h3⟩, h2, h4⟩
  · rintro ⟨⟨e, he, h1, h3⟩, h2, h4⟩
    refine ⟨clamp start stop e, List.mem_map_of_mem (List.mem_filter.mpr ⟨he, ?_⟩), max_le h1 h2,
      lt_min h3 h4⟩
    exact decide_eq_true ⟨h1.trans_lt h4, h2.trans_lt h3⟩

theorem Separated.clamp (h : Separated l) {start stop : α} (hlt : start < stop) :
    Separated ((l.filter fun e => e.1 < stop ∧ start < e.2).map (clamp start stop)) := by
  constructor
  · intro p hp
    obtain ⟨e, he, rfl⟩ := List.mem_map.mp hp
    obtain ⟨hel, hin⟩ := List.mem_filter.mp he
    obtain ⟨hstop, hstart⟩ := of_decide_eq_true hin
    exact max_lt (lt_min (h.nonempty e hel) hstop) (lt_min hstart hlt)
  · refine List.pairwise_map.mpr ((h.apart.filter _).imp fun {e f} hef => ?_)
    exact (min_le_left _ _).trans_lt (hef.trans_le (le_max_left _ _))

end Ruzu.Intervals
