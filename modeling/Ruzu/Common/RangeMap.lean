import Mathlib
import Ruzu.Lib.BTreeMap

/-!
# Values over ranges

`range_map.rs`: an ordered map whose entry at a key gives the value from that
key on, up to the next key. Mapping a range changes the values in the range
and no others.
-/

set_option autoImplicit false

namespace Ruzu

variable {V : Type}

structure RangeMap (V : Type) where
  nullValue : V
  container : BTreeMap ℤ V

namespace RangeMap

def i64Min : ℤ := -2 ^ 63

def new (nullValue : V) : RangeMap V := ⟨nullValue, BTreeMap.empty.insert i64Min nullValue⟩

/-- `address as i64`. -/
def asI64 (address : ℕ) : ℤ :=
  if address % 2 ^ 64 < 2 ^ 63 then (address % 2 ^ 64 : ℕ) else (address % 2 ^ 64 : ℕ) - 2 ^ 64

variable (m : RangeMap V)

def firstValue : V := (m.container.entries.head?.map Prod.snd).getD m.nullValue

def getValueInternal (address : ℤ) : V :=
  match m.container.floor address with
  | none => m.nullValue
  | some e => e.2

def getFirstValueWithin (address : ℤ) : V :=
  match m.container.pred address with
  | some e => e.2
  | none => m.firstValue

def getLastValueWithin (address : ℤ) : V :=
  match m.container.floor address with
  | some e => e.2
  | none => m.firstValue

def keysToRemove (address addressEnd : ℤ) : List ℤ :=
  (m.container.entries.filter fun e => address ≤ e.1 ∧ e.1 ≤ addressEnd).map Prod.fst

def internalMap [DecidableEq V] (address addressEnd : ℤ) (value : V) : RangeMap V :=
  let mustAddStart := m.getFirstValueWithin address ≠ value
  let lastValue := m.getLastValueWithin addressEnd
  let mustAddEnd := lastValue ≠ value
  let container := (m.keysToRemove address addressEnd).foldl BTreeMap.remove m.container
  let container := if mustAddStart then container.insert address value else container
  let container := if mustAddEnd then container.insert addressEnd lastValue else container
  { m with container }

def map [DecidableEq V] (address addressEnd : ℕ) (value : V) : RangeMap V :=
  m.internalMap (max (asI64 address) 0) (max (asI64 addressEnd) 0) value

def getValueAt (address : ℕ) : V :=
  if asI64 address < 0 then m.nullValue else m.getValueInternal (asI64 address)

/-! ### The value at a key -/

variable {m} {a e x : ℤ} {v w : V}

/-- The last entry up to `x` holds `v`. -/
def Holds (m : RangeMap V) (x : ℤ) (v : V) : Prop :=
  ∃ k, (k, v) ∈ m.container.entries ∧ k ≤ x ∧ ∀ f ∈ m.container.entries, f.1 ≤ x → f.1 ≤ k

theorem floor_of_holds (h : m.Holds x v) : ∃ k, m.container.floor x = some (k, v) := by
  obtain ⟨k, hk, hle, hlast⟩ := h
  cases hf : m.container.floor x with
  | none => exact absurd (BTreeMap.floor_eq_none hf _ hk) (not_lt.mpr hle)
  | some f =>
    obtain ⟨hmem, hfle⟩ := BTreeMap.floor_eq_some hf
    have hkey : f.1 = k := le_antisymm (hlast f hmem hfle) (BTreeMap.floor_last hf hk hle)
    obtain ⟨k', w⟩ := f
    obtain rfl : k' = k := hkey
    exact ⟨k', by rw [BTreeMap.key_injective hmem hk]⟩

theorem getValueInternal_of_holds (h : m.Holds x v) : m.getValueInternal x = v := by
  obtain ⟨k, hf⟩ := floor_of_holds h
  rw [getValueInternal, hf]

theorem getLastValueWithin_of_holds (h : m.Holds x v) : m.getLastValueWithin x = v := by
  obtain ⟨k, hf⟩ := floor_of_holds h
  rw [getLastValueWithin, hf]

theorem Holds.unique (h : m.Holds x v) (h' : m.Holds x w) : v = w := by
  rw [← getValueInternal_of_holds h, getValueInternal_of_holds h']

/-- Every map starts below all addresses. -/
def Started (m : RangeMap V) : Prop := ∃ v, (i64Min, v) ∈ m.container.entries

theorem Started.holds (h : m.Started) (hx : i64Min ≤ x) : ∃ v, m.Holds x v := by
  obtain ⟨v, hv⟩ := h
  cases hf : m.container.floor x with
  | none => exact absurd (BTreeMap.floor_eq_none hf _ hv) (not_lt.mpr hx)
  | some f =>
    obtain ⟨hmem, hle⟩ := BTreeMap.floor_eq_some hf
    exact ⟨f.2, f.1, hmem, hle, fun g hg hgle => BTreeMap.floor_last hf hg hgle⟩

/-- The value in front of an address. -/
theorem Started.pred (h : m.Started) (ha : i64Min < a) :
    ∃ k, (k, m.getFirstValueWithin a) ∈ m.container.entries ∧ k < a ∧
      ∀ f ∈ m.container.entries, f.1 < a → f.1 ≤ k := by
  obtain ⟨v, hv⟩ := h
  have hbelow : (i64Min, v) ∈ m.container.below a := List.mem_filter.mpr ⟨hv, by simpa using ha⟩
  cases hp : m.container.pred a with
  | none => exact absurd (List.getLast?_eq_none_iff.mp hp) (List.ne_nil_of_mem hbelow)
  | some f =>
    obtain ⟨init, hinit⟩ := List.getLast?_eq_some_iff.mp hp
    have hmem : f ∈ m.container.below a := by
      rw [hinit]
      exact List.mem_append_right _ (List.mem_singleton_self f)
    obtain ⟨hf, hlt⟩ := List.mem_filter.mp hmem
    refine ⟨f.1, ?_, by simpa using hlt, fun g hg hga => ?_⟩
    · rw [getFirstValueWithin, hp]
      exact hf
    · have hgb : g ∈ init ++ [f] := by
        rw [← hinit]
        exact List.mem_filter.mpr ⟨hg, by simpa using hga⟩
      have hsorted := m.container.sorted.filter (fun e => decide (e.1 < a))
      rw [show m.container.entries.filter (fun e => decide (e.1 < a)) = init ++ [f] from hinit,
        List.pairwise_append] at hsorted
      rcases List.mem_append.mp hgb with hin | hin
      · exact (hsorted.2.2 g hin f (List.mem_singleton_self f)).le
      · rw [List.mem_singleton.mp hin]

/-! ### Mapping a range -/

theorem mem_foldl_remove (c : BTreeMap ℤ V) (ks : List ℤ) (f : ℤ × V) :
    f ∈ (ks.foldl BTreeMap.remove c).entries ↔ f ∈ c.entries ∧ f.1 ∉ ks := by
  induction ks generalizing c with
  | nil => simp
  | cons k ks ih =>
    rw [List.foldl_cons, ih, BTreeMap.mem_remove, List.mem_cons, not_or, and_assoc]

variable [DecidableEq V]

/-- The entries after mapping: those outside, the start and the end. -/
theorem mem_internalMap (f : ℤ × V) :
    f ∈ (m.internalMap a e v).container.entries ↔
      (m.getLastValueWithin e ≠ v ∧ f = (e, m.getLastValueWithin e)) ∨
      (m.getLastValueWithin e ≠ v → f.1 ≠ e) ∧
        ((m.getFirstValueWithin a ≠ v ∧ f = (a, v)) ∨
          (m.getFirstValueWithin a ≠ v → f.1 ≠ a) ∧ f ∈ m.container.entries ∧
            ¬(a ≤ f.1 ∧ f.1 ≤ e)) := by
  have hremoved : ∀ f, f ∈ ((m.keysToRemove a e).foldl BTreeMap.remove m.container).entries ↔
      f ∈ m.container.entries ∧ ¬(a ≤ f.1 ∧ f.1 ≤ e) := by
    intro f
    rw [mem_foldl_remove]
    refine and_congr_right fun hf => not_congr ?_
    rw [keysToRemove, List.mem_map]
    constructor
    · rintro ⟨g, hg, hgf⟩
      rw [← hgf]
      simpa using (List.mem_filter.mp hg).2
    · exact fun hle => ⟨f, List.mem_filter.mpr ⟨hf, by simpa using hle⟩, rfl⟩
  simp only [internalMap]
  by_cases hend : m.getLastValueWithin e = v <;> by_cases hstart : m.getFirstValueWithin a = v <;>
    simp [hend, hstart, BTreeMap.mem_insert, hremoved]

theorem internalMap_outside {f : ℤ × V} (hout : f.1 < a ∨ e < f.1) (hae : a ≤ e) :
    f ∈ (m.internalMap a e v).container.entries ↔ f ∈ m.container.entries := by
  rw [mem_internalMap]
  constructor
  · rintro (⟨-, rfl⟩ | ⟨-, ⟨-, rfl⟩ | ⟨-, hf, -⟩⟩)
    · rcases hout with hlt | hlt
      · exact absurd hae (not_le.mpr hlt)
      · exact absurd hlt (lt_irrefl _)
    · rcases hout with hlt | hlt
      · exact absurd hlt (lt_irrefl _)
      · exact absurd hae (not_le.mpr hlt)
    · exact hf
  · intro hf
    refine .inr ⟨fun _ he => ?_, .inr ⟨fun _ ha => ?_, hf, fun hin => ?_⟩⟩
    · rcases hout with hlt | hlt
      · exact absurd hae (not_le.mpr (he ▸ hlt))
      · exact absurd hlt (by rw [he]; exact lt_irrefl _)
    · rcases hout with hlt | hlt
      · exact absurd hlt (by rw [ha]; exact lt_irrefl _)
      · exact absurd hae (not_le.mpr (ha ▸ hlt))
    · rcases hout with hlt | hlt
      · exact absurd hin.1 (not_le.mpr hlt)
      · exact absurd hin.2 (not_le.mpr hlt)

/-- An entry of the mapped range holds the new value, an entry at its end the old one. -/
theorem internalMap_inside {f : ℤ × V} (hf : f ∈ (m.internalMap a e v).container.entries)
    (ha : a ≤ f.1) (he : f.1 ≤ e) :
    f.1 = e ∧ f.2 = m.getLastValueWithin e ∧ m.getLastValueWithin e ≠ v ∨
      f = (a, v) ∧ m.getFirstValueWithin a ≠ v ∧ (m.getLastValueWithin e ≠ v → a ≠ e) := by
  rcases mem_internalMap f |>.mp hf with ⟨hne, rfl⟩ | ⟨hend, ⟨hstart, rfl⟩ | ⟨-, -, hout⟩⟩
  · exact .inl ⟨rfl, rfl, hne⟩
  · exact .inr ⟨rfl, hstart, hend⟩
  · exact absurd ⟨ha, he⟩ hout

theorem Started.internalMap (h : m.Started) (ha : i64Min < a) (hae : a ≤ e) (v : V) :
    (m.internalMap a e v).Started := by
  obtain ⟨w, hw⟩ := h
  exact ⟨w, (internalMap_outside (.inl ha) hae).mpr hw⟩

theorem internalMap_before (hae : a ≤ e) (hx : x < a) (h : m.Holds x w) :
    (m.internalMap a e v).Holds x w := by
  obtain ⟨k, hk, hkx, hlast⟩ := h
  refine ⟨k, (internalMap_outside (.inl (hkx.trans_lt hx)) hae).mpr hk, hkx, fun f hf hfx => ?_⟩
  exact hlast f ((internalMap_outside (.inl (hfx.trans_lt hx)) hae).mp hf) hfx

theorem internalMap_within (h : m.Started) (ha : i64Min < a) (hax : a ≤ x) (hxe : x < e) :
    (m.internalMap a e v).Holds x v := by
  have hae : a ≤ e := hax.trans hxe.le
  by_cases hstart : m.getFirstValueWithin a = v
  · -- the entry in front of the range already holds the value
    obtain ⟨k, hk, hka, hlast⟩ := h.pred ha
    rw [hstart] at hk
    refine ⟨k, (internalMap_outside (.inl hka) hae).mpr hk, hka.le.trans hax, fun f hf hfx => ?_⟩
    rcases lt_or_ge f.1 a with hlt | hge
    · exact hlast f ((internalMap_outside (.inl hlt) hae).mp hf) hlt
    · rcases internalMap_inside hf hge (hfx.trans hxe.le) with ⟨he, -⟩ | ⟨-, hne, -⟩
      · exact absurd hfx (not_le.mpr (he ▸ hxe))
      · exact absurd hstart hne
  · refine ⟨a, mem_internalMap _ |>.mpr (.inr ⟨fun _ => (hax.trans_lt hxe).ne, .inl ⟨hstart, rfl⟩⟩),
      hax, fun f hf hfx => ?_⟩
    rcases lt_or_ge f.1 a with hlt | hge
    · exact hlt.le
    · rcases internalMap_inside hf hge (hfx.trans hxe.le) with ⟨he, -⟩ | ⟨rfl, -⟩
      · exact absurd hfx (not_le.mpr (he ▸ hxe))
      · exact le_rfl

theorem internalMap_after (h : m.Started) (ha : i64Min < a) (hae : a ≤ e) (hx : e ≤ x)
    (hw : m.Holds x w) : (m.internalMap a e v).Holds x w := by
  obtain ⟨k, hk, hkx, hlast⟩ := hw
  rcases lt_or_ge e k with hek | hke
  · refine ⟨k, (internalMap_outside (.inr hek) hae).mpr hk, hkx, fun f hf hfx => ?_⟩
    rcases lt_or_ge e f.1 with hlt | hge
    · exact hlast f ((internalMap_outside (.inr hlt) hae).mp hf) hfx
    · exact hge.trans hek.le
  · -- no entry between the end and `x`: the value at the end is the value at `x`
    have hvalue : m.getLastValueWithin e = w := getLastValueWithin_of_holds
      ⟨k, hk, hke, fun f hf hfe => hlast f hf (hfe.trans hx)⟩
    have hgap : ∀ f ∈ (m.internalMap a e v).container.entries, f.1 ≤ x → f.1 ≤ e := by
      intro f hf hfx
      by_contra hlt
      have hold := (internalMap_outside (.inr (not_le.mp hlt)) hae).mp hf
      exact hlt ((hlast f hold hfx).trans hke)
    by_cases hend : m.getLastValueWithin e = v
    · -- the new value reaches beyond the end
      have hwv : w = v := hvalue.symm.trans hend
      subst hwv
      rcases eq_or_lt_of_le hae with rfl | hlt
      · by_cases hstart : m.getFirstValueWithin a = w
        · obtain ⟨p, hp, hpa, hplast⟩ := h.pred ha
          rw [hstart] at hp
          refine ⟨p, (internalMap_outside (.inl hpa) hae).mpr hp, hpa.le.trans hx,
            fun f hf hfx => ?_⟩
          rcases lt_or_ge f.1 a with hlt | hge
          · exact hplast f ((internalMap_outside (.inl hlt) hae).mp hf) hlt
          · rcases internalMap_inside hf hge (hgap f hf hfx) with ⟨-, -, hne⟩ | ⟨-, hne, -⟩
            · exact absurd hend hne
            · exact absurd hstart hne
        · exact ⟨a, mem_internalMap _ |>.mpr (.inr ⟨fun hne => absurd hend hne,
            .inl ⟨hstart, rfl⟩⟩), hx, hgap⟩
      · obtain ⟨p, hp, hpe, hplast⟩ : (m.internalMap a e w).Holds (e - 1) w :=
          internalMap_within h ha (Int.le_sub_one_of_lt hlt) (Int.sub_one_lt_of_le le_rfl)
        refine ⟨p, hp, hpe.trans ((Int.sub_one_lt_of_le le_rfl).le.trans hx), fun f hf hfx => ?_⟩
        rcases eq_or_lt_of_le (hgap f hf hfx) with hfe | hfe
        · rcases internalMap_inside hf (hae.trans hfe.ge) hfe.le with ⟨-, -, hne⟩ | ⟨rfl, -⟩
          · exact absurd hend hne
          · exact absurd hfe hlt.ne
        · exact hplast f hf (Int.le_sub_one_of_lt hfe)
    · refine ⟨e, mem_internalMap _ |>.mpr (.inl ⟨hend, ?_⟩), hx, hgap⟩
      rw [hvalue]

/-! ### Addresses -/

theorem asI64_eq {n : ℕ} (h : n < 2 ^ 63) : asI64 n = n := by
  rw [asI64, Nat.mod_eq_of_lt (by omega), if_pos h]

omit [DecidableEq V] in
theorem new_started (nullValue : V) : (new nullValue).Started :=
  ⟨nullValue, BTreeMap.mem_insert.mpr (.inl rfl)⟩

omit [DecidableEq V] in
theorem new_getValueAt (nullValue : V) {n : ℕ} (h : n < 2 ^ 63) :
    (new nullValue).getValueAt n = nullValue := by
  rw [getValueAt, asI64_eq h, if_neg (by omega)]
  refine getValueInternal_of_holds ⟨i64Min, BTreeMap.mem_insert.mpr (.inl rfl), ?_, ?_⟩
  · rw [i64Min]
    omega
  · intro f hf _
    rcases BTreeMap.mem_insert.mp hf with rfl | ⟨-, hmem⟩
    · exact le_rfl
    · cases hmem

theorem map_nullValue (start stop : ℕ) (v : V) :
    (m.map start stop v).nullValue = m.nullValue := rfl

omit [DecidableEq V] in
/-- Addresses from `2 ^ 63` on are negative. -/
theorem getValueAt_high {n : ℕ} (h : 2 ^ 63 ≤ n) (hn : n < 2 ^ 64) :
    m.getValueAt n = m.nullValue := by
  have hneg : asI64 n < 0 := by
    rw [asI64, Nat.mod_eq_of_lt hn, if_neg (Nat.not_lt.mpr h)]
    omega
  rw [getValueAt, if_pos hneg]

theorem Started.map (h : m.Started) {start stop : ℕ} (hle : start ≤ stop) (hstop : stop < 2 ^ 63)
    (v : V) : (m.map start stop v).Started := by
  rw [RangeMap.map, asI64_eq (by omega), asI64_eq hstop]
  exact h.internalMap (by rw [i64Min]; omega) (by omega) v

theorem getValueAt_map (h : m.Started) {start stop n : ℕ} (hle : start ≤ stop)
    (hstop : stop < 2 ^ 63) (hn : n < 2 ^ 63) (v : V) :
    (m.map start stop v).getValueAt n =
      if start ≤ n ∧ n < stop then v else m.getValueAt n := by
  obtain ⟨w, hw⟩ := h.holds (show i64Min ≤ (n : ℤ) by rw [i64Min]; omega)
  have hold : m.getValueAt n = w := by
    rw [getValueAt, asI64_eq hn, if_neg (by omega)]
    exact getValueInternal_of_holds hw
  have hmin : i64Min < max (start : ℤ) 0 := by
    rw [i64Min]
    omega
  rw [RangeMap.map, asI64_eq (by omega), asI64_eq hstop, getValueAt, asI64_eq hn,
    if_neg (by omega), hold]
  refine getValueInternal_of_holds ?_
  split
  case isTrue hin => exact internalMap_within h hmin (by omega) (by omega)
  case isFalse hout =>
    rcases Nat.lt_or_ge n start with hlt | hge
    · exact internalMap_before (by omega) (by omega) hw
    · exact internalMap_after h hmin (by omega) (by omega) hw

end RangeMap

end Ruzu
