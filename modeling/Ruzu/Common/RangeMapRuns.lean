import Mathlib
import Ruzu.Common.RangeMap

/-!
# Runs of a range map

An address has the value of the last call that covers it. Two neighbouring
entries never hold the same value, so the entry after an address ends the run
of equal values that the address is in.
-/

set_option autoImplicit false

namespace Ruzu.RangeMap

variable {V : Type} [DecidableEq V]

def i64Max : ℤ := 2 ^ 63 - 1

/-- `z as usize`. -/
def asUsize (z : ℤ) : ℕ := (z % 2 ^ 64).toNat

def unmap (m : RangeMap V) (address addressEnd : ℕ) : RangeMap V :=
  m.map address addressEnd m.nullValue

def continuousSizeInternal (m : RangeMap V) (address : ℤ) : ℕ :=
  match m.container.floor address with
  | none => 0
  | some (key, value) =>
    if value = m.nullValue then 0
    else
      match m.container.succ key with
      | none => asUsize (i64Max - address)
      | some next => asUsize (next.1 - address)

def getContinuousSizeFrom (m : RangeMap V) (address : ℕ) : ℕ :=
  if asI64 address < 0 then 0 else m.continuousSizeInternal (asI64 address)

/-! ### Neighbouring entries -/

variable {m : RangeMap V} {a e x k : ℤ} {u v w : V}

/-- What lies below an entry is not what the entry holds. -/
def Edges (m : RangeMap V) : Prop :=
  ∀ k v w, (k, v) ∈ m.container.entries → i64Min < k → m.Holds (k - 1) w → w ≠ v

/-- The keys are `i64`, from the least on, and the value at the greatest is null. -/
structure WellFormed (m : RangeMap V) : Prop where
  started : m.Started
  edges : m.Edges
  keys : ∀ f ∈ m.container.entries, i64Min ≤ f.1 ∧ f.1 ≤ i64Max
  top : m.Holds i64Max m.nullValue

omit [DecidableEq V] in
theorem Started.holds_below (h : m.Started) (ha : i64Min < a) :
    m.Holds (a - 1) (m.getFirstValueWithin a) := by
  obtain ⟨k, hk, hka, hlast⟩ := h.pred ha
  exact ⟨k, hk, Int.le_sub_one_of_lt hka, fun f hf hle => hlast f hf (by omega)⟩

theorem Edges.internalMap (h : m.Edges) (hstart : m.Started) (ha : i64Min < a) (hae : a < e) :
    (m.internalMap a e v).Edges := by
  intro k u w hk hmin hw
  rcases lt_or_ge k a with hka | hka
  · -- below the range both the entry and what lies under it are old
    obtain ⟨w', hw'⟩ := hstart.holds (show i64Min ≤ k - 1 by omega)
    rw [hw.unique (internalMap_before (v := v) hae.le (by omega) hw')]
    exact h k u w' ((internalMap_outside (.inl hka) hae.le).mp hk) hmin hw'
  rcases le_or_gt k e with hke | hke
  · rcases internalMap_inside hk hka hke with ⟨hend, hlast, hne⟩ | ⟨heq, hne, -⟩
    · -- the entry at the end, over the new value
      simp only at hend hlast
      rw [hw.unique (internalMap_within hstart ha (by omega) (by omega)), hlast]
      exact hne.symm
    · -- the entry at the start, over the value in front
      obtain ⟨rfl, rfl⟩ := Prod.mk.inj heq
      rw [hw.unique (internalMap_before hae.le (by omega) (hstart.holds_below ha))]
      exact hne
  · obtain ⟨w', hw'⟩ := hstart.holds (show i64Min ≤ k - 1 by omega)
    rw [hw.unique (internalMap_after (v := v) hstart ha hae.le (by omega) hw')]
    exact h k u w' ((internalMap_outside (.inr hke) hae.le).mp hk) hmin hw'

theorem WellFormed.internalMap (h : m.WellFormed) (ha : i64Min < a) (hae : a < e)
    (he : e ≤ i64Max) (v : V) : (m.internalMap a e v).WellFormed where
  started := h.started.internalMap ha hae.le v
  edges := h.edges.internalMap h.started ha hae
  keys f hf := by
    rcases mem_internalMap f |>.mp hf with ⟨-, rfl⟩ | ⟨-, ⟨-, rfl⟩ | ⟨-, hold, -⟩⟩
    · exact ⟨(ha.trans hae).le, he⟩
    · exact ⟨ha.le, (hae.trans_le he).le⟩
    · exact h.keys f hold
  top := internalMap_after h.started ha hae.le he h.top

omit [DecidableEq V] in
theorem wellFormed_new (nullValue : V) : (new nullValue).WellFormed := by
  have hmem : ∀ f ∈ (new nullValue).container.entries, f = (i64Min, nullValue) := by
    intro f hf
    rcases BTreeMap.mem_insert.mp hf with rfl | ⟨-, hnil⟩
    · rfl
    · cases hnil
  refine ⟨new_started nullValue, ?_, ?_, ?_⟩
  · intro k v w hk hmin _
    obtain ⟨rfl, -⟩ := Prod.mk.inj (hmem _ hk)
    exact absurd hmin (lt_irrefl _)
  · intro f hf
    rw [hmem f hf]
    exact ⟨le_rfl, show i64Min ≤ i64Max by decide⟩
  · refine ⟨i64Min, BTreeMap.mem_insert.mpr (.inl rfl), show i64Min ≤ i64Max by decide, ?_⟩
    intro f hf _
    rw [hmem f hf]

omit [DecidableEq V] in
/-- Between two entries that follow each other the value is the first one's. -/
theorem WellFormed.isChain (h : m.WellFormed) :
    m.container.entries.IsChain fun f g => f.2 ≠ g.2 := by
  rw [List.isChain_iff_forall_rel_of_append_cons_cons]
  rintro ⟨k, v⟩ ⟨k', v'⟩ pre post hcut
  have hlt : k < k' :=
    BTreeMap.cut_above (m := m.container) (k := k) (v := v) hcut (k', v') (List.mem_cons_self ..)
  have hmem : (k, v) ∈ m.container.entries := by simp [hcut]
  have hmem' : (k', v') ∈ m.container.entries := by simp [hcut]
  refine h.edges k' v' v hmem' ((h.keys _ hmem).1.trans_lt hlt)
    ⟨k, hmem, Int.le_sub_one_of_lt hlt, fun f hf hle => ?_⟩
  have hcut' : m.container.entries = (pre ++ [(k, v)]) ++ (k', v') :: post := by simp [hcut]
  rw [hcut', List.mem_append, List.mem_append, List.mem_singleton, List.mem_cons] at hf
  rcases hf with (hin | rfl) | rfl | hin
  · exact (BTreeMap.cut_below (m := m.container) (k := k) (v := v) hcut f hin).le
  · exact le_rfl
  · exact absurd hle (by omega)
  · have := BTreeMap.cut_above (m := m.container) (k := k') (v := v') hcut' f hin
    exact absurd hle (by omega)

/-! ### The run at a key -/

omit [DecidableEq V] in
theorem holds_between {g : ℤ × V} {y : ℤ} (hf : m.container.floor x = some (k, u))
    (hg : m.container.succ k = some g) (hxy : x ≤ y) (hyg : y < g.1) : m.Holds y u := by
  obtain ⟨hmem, hle⟩ := BTreeMap.floor_eq_some hf
  refine ⟨k, hmem, hle.trans hxy, fun f hin hfy => ?_⟩
  by_contra hkf
  exact absurd (BTreeMap.succ_first hg hin (not_le.mp hkf)) (by omega)

omit [DecidableEq V] in
/-- A value other than null ends at the next entry. -/
theorem WellFormed.run_end (h : m.WellFormed) (hx : x ≤ i64Max)
    (hf : m.container.floor x = some (k, u)) (hu : u ≠ m.nullValue) :
    ∃ g ∈ m.container.entries, m.container.succ k = some g ∧ x < g.1 ∧ g.2 ≠ u := by
  obtain ⟨hmem, hle⟩ := BTreeMap.floor_eq_some hf
  cases hs : m.container.succ k with
  | none =>
    have htop : m.Holds i64Max u :=
      ⟨k, hmem, hle.trans hx, fun f hin _ => BTreeMap.succ_eq_none hs f hin⟩
    exact absurd (htop.unique h.top) hu
  | some g =>
    obtain ⟨hg, hkg⟩ := BTreeMap.succ_eq_some hs
    have hxg : x < g.1 := by
      by_contra hgx
      exact absurd (BTreeMap.floor_last hf hg (not_lt.mp hgx)) (not_le.mpr hkg)
    have hbelow : m.Holds (g.1 - 1) u := holds_between hf hs (by omega) (by omega)
    exact ⟨g, hg, rfl, hxg, (h.edges g.1 g.2 u hg ((h.keys _ hmem).1.trans_lt hkg) hbelow).symm⟩

theorem asUsize_sub {p q : ℤ} (hq : 0 ≤ q) (hqp : q ≤ p) (hp : p ≤ i64Max) :
    (asUsize (p - q) : ℤ) = p - q := by
  rw [i64Max] at hp
  rw [asUsize]
  omega

omit [DecidableEq V] in
theorem WellFormed.getValueAt (h : m.WellFormed) {n : ℕ} (hn : n < 2 ^ 63) :
    m.Holds n (m.getValueAt n) := by
  obtain ⟨w, hw⟩ := h.started.holds (show i64Min ≤ (n : ℤ) by rw [i64Min]; omega)
  rw [RangeMap.getValueAt, asI64_eq hn, if_neg (by omega), getValueInternal_of_holds hw]
  exact hw

omit [DecidableEq V] in
theorem WellFormed.getValueAt_of_holds (h : m.WellFormed) {n : ℕ} (hn : n < 2 ^ 63)
    (hv : m.Holds n v) : m.getValueAt n = v :=
  (h.getValueAt hn).unique hv

theorem getContinuousSizeFrom_null {n : ℕ} (h : m.WellFormed) (hn : n < 2 ^ 64)
    (hnull : m.getValueAt n = m.nullValue) : m.getContinuousSizeFrom n = 0 := by
  rcases Nat.lt_or_ge n (2 ^ 63) with hlt | hge
  · have hv := h.getValueAt hlt
    obtain ⟨k, hk⟩ := floor_of_holds hv
    rw [getContinuousSizeFrom, asI64_eq hlt, if_neg (by omega), continuousSizeInternal, hk]
    exact if_pos hnull
  · have hneg : asI64 n < 0 := by
      rw [asI64, Nat.mod_eq_of_lt hn, if_neg (Nat.not_lt.mpr hge)]
      omega
    rw [getContinuousSizeFrom, if_pos hneg]

/-- The lengths over which the values `f` stay what they are at `x`. -/
def sameFrom (f : ℕ → V) (x : ℕ) : Set ℕ := fun n => ∀ y, x ≤ y → y < x + n → f y = f x

theorem getContinuousSizeFrom_run {n : ℕ} (h : m.WellFormed) (hn : n < 2 ^ 63)
    (hv : m.getValueAt n ≠ m.nullValue) :
    n + m.getContinuousSizeFrom n < 2 ^ 63 ∧
      IsGreatest (sameFrom m.getValueAt n) (m.getContinuousSizeFrom n) := by
  obtain ⟨k, hf⟩ := floor_of_holds (h.getValueAt hn)
  have htop : (n : ℤ) ≤ i64Max := by
    rw [i64Max]
    omega
  obtain ⟨g, hg, hs, hng, hne⟩ := h.run_end htop hf hv
  have hgtop := (h.keys g hg).2
  have hsize : (m.getContinuousSizeFrom n : ℤ) = g.1 - n := by
    rw [getContinuousSizeFrom, asI64_eq hn, if_neg (by omega), continuousSizeInternal, hf]
    simp only [if_neg hv, hs]
    exact asUsize_sub (by omega) hng.le hgtop
  rw [i64Max] at hgtop
  have hend : n + m.getContinuousSizeFrom n < 2 ^ 63 := by omega
  refine ⟨hend, fun y hny hy => ?_, fun l hl => ?_⟩
  · exact h.getValueAt_of_holds (by omega) (holds_between hf hs (by omega) (by omega))
  · by_contra hlt
    -- a longer run would hold the address of the next entry
    have hnext : m.Holds (n + m.getContinuousSizeFrom n : ℕ) g.2 :=
      ⟨g.1, hg, by omega, fun f _ hle => by omega⟩
    have hsame := hl (n + m.getContinuousSizeFrom n) (by omega) (by omega)
    exact hne ((h.getValueAt_of_holds hend hnext).symm.trans hsame)

/-! ### Runs -/

inductive Call (V : Type)
  | map (address addressEnd : ℕ) (value : V)
  | unmap (address addressEnd : ℕ)

namespace Call

def address : Call V → ℕ
  | .map address .. => address
  | .unmap address _ => address

def addressEnd : Call V → ℕ
  | .map _ addressEnd _ => addressEnd
  | .unmap _ addressEnd => addressEnd

/-- What the range of the call gets. -/
def value (nullValue : V) : Call V → V
  | .map _ _ value => value
  | .unmap .. => nullValue

def Valid (c : Call V) : Prop := c.address < c.addressEnd ∧ c.addressEnd < 2 ^ 63

def Covers (c : Call V) (x : ℕ) : Prop := c.address ≤ x ∧ x < c.addressEnd

instance (c : Call V) (x : ℕ) : Decidable (c.Covers x) := inferInstanceAs (Decidable (_ ∧ _))

def apply (m : RangeMap V) : Call V → RangeMap V
  | .map address addressEnd value => m.map address addressEnd value
  | .unmap address addressEnd => m.unmap address addressEnd

end Call

def run (m : RangeMap V) (calls : List (Call V)) : RangeMap V := calls.foldl Call.apply m

/-- The value of the last call that covers the address. -/
def lastValue (nullValue : V) (calls : List (Call V)) (x : ℕ) : V :=
  match calls.reverse.find? fun c => decide (c.Covers x) with
  | none => nullValue
  | some c => c.value nullValue

theorem Call.apply_eq (m : RangeMap V) (c : Call V) :
    c.apply m = m.map c.address c.addressEnd (c.value m.nullValue) := by
  cases c <;> rfl

theorem WellFormed.apply (h : m.WellFormed) {c : Call V} (hc : c.Valid) :
    (c.apply m).WellFormed := by
  obtain ⟨hlt, hend⟩ := hc
  rw [Call.apply_eq, map, asI64_eq (by omega), asI64_eq hend]
  exact h.internalMap (by rw [i64Min]; omega) (by omega) (by rw [i64Max]; omega) _

theorem getValueAt_apply (h : m.WellFormed) {c : Call V} (hc : c.Valid) {n : ℕ}
    (hn : n < 2 ^ 64) :
    (c.apply m).getValueAt n = if c.Covers n then c.value m.nullValue else m.getValueAt n := by
  rw [Call.apply_eq]
  rcases Nat.lt_or_ge n (2 ^ 63) with hlt | hge
  · exact getValueAt_map h.started hc.1.le hc.2 hlt _
  · have hout : ¬c.Covers n := fun hin => by
      have hend := hc.2
      have hnend := hin.2
      omega
    rw [if_neg hout, getValueAt_high hge hn, getValueAt_high hge hn, map_nullValue]

theorem run_append (m : RangeMap V) (calls : List (Call V)) (c : Call V) :
    run m (calls ++ [c]) = c.apply (run m calls) := by
  rw [run, run, List.foldl_append, List.foldl_cons, List.foldl_nil]

omit [DecidableEq V] in
theorem lastValue_append (nullValue : V) (calls : List (Call V)) (c : Call V) (x : ℕ) :
    lastValue nullValue (calls ++ [c]) x =
      if c.Covers x then c.value nullValue else lastValue nullValue calls x := by
  rw [lastValue, lastValue, List.reverse_append, List.reverse_singleton, List.singleton_append,
    List.find?_cons]
  by_cases hc : c.Covers x <;> simp [hc]

theorem run_nullValue (m : RangeMap V) (calls : List (Call V)) :
    (run m calls).nullValue = m.nullValue := by
  induction calls generalizing m with
  | nil => rfl
  | cons c calls ih => exact (ih _).trans (by cases c <;> rfl)

theorem WellFormed.run (h : m.WellFormed) (calls : List (Call V)) (hc : ∀ c ∈ calls, c.Valid) :
    (run m calls).WellFormed := by
  induction calls generalizing m with
  | nil => exact h
  | cons c calls ih =>
    exact ih (h.apply (hc c (List.mem_cons_self ..))) fun d hd => hc d (List.mem_cons_of_mem _ hd)

theorem getValueAt_run (nullValue : V) (calls : List (Call V)) (hc : ∀ c ∈ calls, c.Valid)
    {x : ℕ} (hx : x < 2 ^ 64) :
    (run (new nullValue) calls).getValueAt x = lastValue nullValue calls x := by
  induction calls using List.reverseRecOn with
  | nil =>
    rcases Nat.lt_or_ge x (2 ^ 63) with hlt | hge
    · exact new_getValueAt nullValue hlt
    · exact getValueAt_high hge hx
  | append_singleton calls c ih =>
    have hcalls : ∀ d ∈ calls, d.Valid := fun d hd => hc d (List.mem_append_left _ hd)
    have hwf := (wellFormed_new nullValue).run calls hcalls
    rw [run_append, lastValue_append, getValueAt_apply hwf (hc c (by simp)) hx, ih hcalls,
      run_nullValue]
    rfl

omit [DecidableEq V] in
theorem lastValue_high (nullValue : V) (calls : List (Call V)) (hc : ∀ c ∈ calls, c.Valid)
    {x : ℕ} (hx : 2 ^ 63 ≤ x) : lastValue nullValue calls x = nullValue := by
  have hnone : (calls.reverse.find? fun c => decide (c.Covers x)) = none := by
    rw [List.find?_eq_none]
    intro c hin hcov
    have hend := (hc c (List.mem_reverse.mp hin)).2
    have hxend := (of_decide_eq_true hcov).2
    omega
  rw [lastValue, hnone]

/-- The sizes are those of the runs of the values that the calls gave. -/
theorem getContinuousSizeFrom_lastValue (nullValue : V) (calls : List (Call V))
    (hc : ∀ c ∈ calls, c.Valid) {x : ℕ} (hx : x < 2 ^ 64)
    (hv : lastValue nullValue calls x ≠ nullValue) :
    IsGreatest (sameFrom (lastValue nullValue calls) x)
      ((run (new nullValue) calls).getContinuousSizeFrom x) := by
  have hwf := (wellFormed_new nullValue).run calls hc
  have hlow : x < 2 ^ 63 := by
    by_contra hge
    exact hv (lastValue_high nullValue calls hc (not_lt.mp hge))
  have hval : (run (new nullValue) calls).getValueAt x ≠ (run (new nullValue) calls).nullValue := by
    rw [getValueAt_run nullValue calls hc hx, run_nullValue]
    exact hv
  obtain ⟨hend, hsame, hgreatest⟩ := getContinuousSizeFrom_run hwf hlow hval
  have hat := fun {y : ℕ} (hy : y < 2 ^ 64) => getValueAt_run nullValue calls hc hy
  refine ⟨fun y hxy hy => ?_, fun l hl => hgreatest fun y hxy hy => ?_⟩
  · rw [← hat (by omega), ← hat hx]
    exact hsame y hxy hy
  · rcases Nat.lt_or_ge y (2 ^ 64) with hlt | hge
    · rw [hat hlt, hat hx]
      exact hl y hxy hy
    · -- a run that long would pass an address that no call reaches
      have hfar := hl (2 ^ 63) (by omega) (by omega)
      rw [lastValue_high nullValue calls hc le_rfl] at hfar
      exact absurd hfar.symm hv

/-- After any calls an address has the value of the last call that covers it, neighbouring entries
differ, and the continuous size is the length of the longest run of the value. -/
theorem run_values (nullValue : V) (calls : List (Call V)) (hc : ∀ c ∈ calls, c.Valid) :
    ((run (new nullValue) calls).container.entries.IsChain fun f g => f.2 ≠ g.2) ∧
      ∀ x < 2 ^ 64,
        (run (new nullValue) calls).getValueAt x = lastValue nullValue calls x ∧
        (lastValue nullValue calls x = nullValue →
          (run (new nullValue) calls).getContinuousSizeFrom x = 0) ∧
        (lastValue nullValue calls x ≠ nullValue →
          IsGreatest (sameFrom (lastValue nullValue calls) x)
            ((run (new nullValue) calls).getContinuousSizeFrom x)) := by
  have hwf := (wellFormed_new nullValue).run calls hc
  refine ⟨hwf.isChain, fun x hx => ?_⟩
  have hat := getValueAt_run nullValue calls hc hx
  refine ⟨hat, fun hnull => ?_, getContinuousSizeFrom_lastValue nullValue calls hc hx⟩
  refine getContinuousSizeFrom_null hwf hx ?_
  rw [hat, hnull, run_nullValue]
  rfl

theorem run_values_split :
    (run (new 0) [.map 100 200 1, .unmap 120 150]).getContinuousSizeFrom 105 = 15 ∧
      lastValue 0 [.map 100 200 1, .unmap 120 150] 105 ≠ 0 ∧
      IsGreatest (sameFrom (lastValue 0 [.map 100 200 1, .unmap 120 150]) 105)
        ((run (new 0) [.map 100 200 1, .unmap 120 150]).getContinuousSizeFrom 105) := by
  have hvalid : ∀ c ∈ [Call.map 100 200 1, .unmap 120 150], c.Valid := by
    simp [Call.Valid, Call.address, Call.addressEnd]
  exact ⟨by decide, by decide,
    ((run_values 0 [.map 100 200 1, .unmap 120 150] hvalid).2 105 (by omega)).2.2 (by decide)⟩

end Ruzu.RangeMap
