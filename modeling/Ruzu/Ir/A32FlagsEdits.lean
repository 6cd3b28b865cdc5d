import Mathlib
import Ruzu.Ir.A32FlagsSteps
import Ruzu.Ir.Rename

/-!
# What the flags pass makes of the code

The walk leaves the instructions in front of it alone. Behind it every original
instruction stands at its place, as it was or edited in one of the ways of the
pass, and what stands between takes C out of flags.
-/

set_option autoImplicit false

namespace Ruzu.Ir.A32

/-- The edits of the pass. Only a read of C or GE is answered by a value. -/
inductive FlagEdit (c : Code) : Code → Prop
  | same : FlagEdit c c
  | removed : overwrites c.1 ≠ [] → FlagEdit c (.void, [])
  | narrowed : c.1 = .a32SetCpsrNZC → FlagEdit c (.a32SetCpsrNZ, c.2.set 1 .void)
  | marked : c.1 = .a32SetCpsrNZC → FlagEdit c (c.1, c.2.set 0 .emptyNZCVImmediateMarker)
  | answered (v : Value) : c.1 = .a32GetCFlag ∨ c.1 = .a32GetGEFlags → FlagEdit c (.identity, [v])

theorem FlagEdit.renumber {c c' : Code} (h : FlagEdit c c') (i : ℕ) :
    FlagEdit (Code.renumber i c) (Code.renumber i c') := by
  cases h with
  | same => exact .same
  | removed hop => exact .removed hop
  | narrowed hop =>
    have hnew : Code.renumber i (.a32SetCpsrNZ, c.2.set 1 .void) =
        (.a32SetCpsrNZ, (Code.renumber i c).2.set 1 .void) := by
      simp [Code.renumber, List.map_set, Value.renumber]
    rw [hnew]
    exact .narrowed hop
  | marked hop =>
    have hnew : Code.renumber i (c.1, c.2.set 0 .emptyNZCVImmediateMarker) =
        ((Code.renumber i c).1, (Code.renumber i c).2.set 0 .emptyNZCVImmediateMarker) := by
      simp [Code.renumber, List.map_set, Value.renumber]
    rw [hnew]
    exact .marked hop
  | answered v hop => exact .answered _ hop

/-- The code in front of `i` is the original one, and the original instructions
behind are at the places `g`. -/
structure Shape (cs P : List Code) (g : ℕ → ℕ) (i : ℕ) : Prop where
  before : P.take i = cs.take i
  place : ∀ k < i, g k = k
  mono : StrictMono g
  edited : ∀ k c, i ≤ k → cs[k]? = some c →
    ∃ c', P[g k]? = some c' ∧ FlagEdit (Code.rename g c) c'
  inserted : ∀ j c', P[j]? = some c' → (∀ k < cs.length, g k ≠ j) →
    ∃ v, c' = (.getCFlagFromNZCV, [v])

variable {cs P : List Code} {g : ℕ → ℕ} {i k : ℕ} {c c' : Code}

theorem shape_start (cs : List Code) : Shape cs cs id cs.length where
  before := rfl
  place _ _ := rfl
  mono := strictMono_id
  edited k c hk hc := by
    have := (List.getElem?_eq_some_iff.mp hc).1
    omega
  inserted j c' hj hne := absurd rfl (hne j (List.getElem?_eq_some_iff.mp hj).1)

theorem rename_place (hplace : ∀ k < i, g k = k) (hc : ∀ r, Value.inst r ∈ c.2 → r < i) :
    Code.rename g c = c := by
  have hargs : c.2.map (Value.mapRef g) = c.2 := by
    refine (List.map_congr_left fun v hv => ?_).trans (List.map_id _)
    cases v with
    | inst r => simp [Value.mapRef, hplace r (hc r hv)]
    | _ => rfl
  rw [Code.rename, hargs]

namespace Shape

theorem get (h : Shape cs P g i) (hk : k < i) : P[k]? = cs[k]? := by
  have hget := congrArg (fun l => l[k]?) h.before
  simpa [List.getElem?_take, hk] using hget

/-- The walk comes to the instruction in front. -/
theorem prev (h : Shape cs P g (i+1)) (ht : Typed [] cs) : Shape cs P g i where
  before := by
    have htake := congrArg (List.take i) h.before
    simpa [List.take_take] using htake
  place k hk := h.place k (by omega)
  mono := h.mono
  edited k c hk hc := by
    by_cases hki : k = i
    · subst hki
      refine ⟨c, ?_, ?_⟩
      · rw [h.place k (by omega), h.get (by omega), hc]
      · rw [rename_place (i := k) (fun r hr => h.place r (by omega)) fun r hr =>
          ht.mem_refs hc hr]
        exact .same
    · exact h.edited k c (by omega) hc
  inserted := h.inserted

theorem set (h : Shape cs P g i) (hk : i ≤ k) {d : Code} (hc : cs[k]? = some c)
    (hedit : FlagEdit (Code.rename g c) d) : Shape cs (P.set (g k) d) g i where
  before := by
    rw [List.take_set_of_le (hk.trans (StrictMono.le_apply h.mono))]
    exact h.before
  place := h.place
  mono := h.mono
  edited j c₁ hj hd := by
    obtain ⟨d', hget, hd'⟩ := h.edited j c₁ hj hd
    by_cases hjk : j = k
    · subst hjk
      rw [hc] at hd
      cases hd
      refine ⟨d, ?_, hedit⟩
      rw [List.getElem?_set_self (List.getElem?_eq_some_iff.mp hget).1]
    · refine ⟨d', ?_, hd'⟩
      rw [List.getElem?_set_ne (h.mono.injective.ne (Ne.symm hjk)), hget]
  inserted j c₁ hj hne := by
    rw [List.getElem?_set_ne (hne k (List.getElem?_eq_some_iff.mp hc).1)] at hj
    exact h.inserted j c₁ hj hne

/-- The edit of the instruction that the walk has come to. -/
theorem edit (h : Shape cs P g (i+1)) (ht : Typed [] cs) (hc : cs[i]? = some c)
    (hedit : FlagEdit c c') : Shape cs (P.set i c') g i := by
  have hrename : Code.rename g c = c :=
    rename_place (i := i) (fun r hr => h.place r (by omega)) fun r hr => ht.mem_refs hc hr
  have hset := (h.prev ht).set (d := c') (Nat.le_refl i) hc (by rw [hrename]; exact hedit)
  rwa [h.place i (Nat.lt_succ_self i)] at hset

theorem length_take (h : Shape cs P g i) (hi : i ≤ cs.length) : (P.take i).length = i := by
  rw [h.before, List.length_take_of_le hi]

/-- Inserting in front of the instruction that the walk has come to. -/
theorem insert (h : Shape cs P g i) (hi : i ≤ cs.length) (v : Value) :
    Shape cs (P.take i ++ (.getCFlagFromNZCV, [v]) :: (P.drop i).map (Code.renumber i))
      (fun k => Ssa.shift i (g k)) i where
  before := by
    rw [List.take_left' (h.length_take hi)]
    exact h.before
  place k hk := by simp [Ssa.shift, h.place k hk, hk]
  mono k k' hk := by
    have := h.mono hk
    simp only [Ssa.shift]
    split <;> split <;> omega
  edited k c hk hc := by
    obtain ⟨c', hget, hc'⟩ := h.edited k c hk hc
    have hle : i ≤ g k := hk.trans (StrictMono.le_apply h.mono)
    have hrename : Code.rename (fun k => Ssa.shift i (g k)) c =
        Code.renumber i (Code.rename g c) := by
      rw [Code.renumber, Code.rename, Code.rename]
      simp only [List.map_map]
      refine congrArg _ (List.map_congr_left fun v _ => ?_)
      cases v <;> rfl
    refine ⟨Code.renumber i c', ?_, ?_⟩
    · rw [Ssa.shift, if_pos hle, List.getElem?_append_right (by rw [h.length_take hi]; omega),
        h.length_take hi, Nat.sub_add_comm hle, List.getElem?_cons_succ, List.getElem?_map,
        List.getElem?_drop, Nat.add_sub_cancel' hle, hget]
      rfl
    · rw [hrename]
      exact hc'.renumber i
  inserted j c' hj hne := by
    rcases Nat.lt_trichotomy j i with hji | rfl | hji
    · exact absurd (by simp [Ssa.shift, h.place j hji, hji]) (hne j (by omega))
    · rw [List.getElem?_append_right (by rw [h.length_take hi]), h.length_take hi, Nat.sub_self,
        List.getElem?_cons_zero] at hj
      cases hj
      exact ⟨v, rfl⟩
    · obtain ⟨j, rfl⟩ : ∃ j', j = j'+1 := ⟨j-1, by omega⟩
      have hle : i ≤ j := by omega
      rw [List.getElem?_append_right (by rw [h.length_take hi]; omega), h.length_take hi,
        Nat.sub_add_comm hle, List.getElem?_cons_succ, List.getElem?_map, List.getElem?_drop,
        Nat.add_sub_cancel' hle, Option.map_eq_some_iff] at hj
      obtain ⟨d, hd, rfl⟩ := hj
      obtain ⟨w, rfl⟩ := h.inserted j d hd fun k hk hkj => hne k hk (by
        rw [hkj, Ssa.shift, if_pos hle])
      exact ⟨_, rfl⟩

end Shape
end Ruzu.Ir.A32
