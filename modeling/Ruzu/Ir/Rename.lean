import Mathlib
import Ruzu.Ir.Run

/-!
# Code inside larger code

A pass that inserts instructions moves the ones behind them and renames the
references. `Embeds` says where the instructions of the original code have
gone, and that both codes run alike.
-/

set_option autoImplicit false

namespace Ruzu.Ir

def Value.mapRef (g : ℕ → ℕ) : Value → Value
  | .inst r => .inst (g r)
  | v => v

def Code.rename (g : ℕ → ℕ) (c : Code) : Code := (c.1, c.2.map (Value.mapRef g))

theorem mapRef_ref {g : ℕ → ℕ} {v : Value} {r' : ℕ} (h : v.mapRef g = .inst r') :
    ∃ r, v = .inst r ∧ r' = g r := by
  cases v with
  | inst r =>
    cases h
    exact ⟨r, rfl, rfl⟩
  | _ => cases h

theorem rename_getD (g : ℕ → ℕ) (c : Code) (k : ℕ) :
    (Code.rename g c).2.getD k .void = (c.2.getD k .void).mapRef g := by
  simp only [Code.rename, List.getD_eq_getElem?_getD, List.getElem?_map]
  cases c.2[k]? <;> rfl

theorem rename_congr {g g' : ℕ → ℕ} {c : Code} (h : ∀ r, Value.inst r ∈ c.2 → g r = g' r) :
    Code.rename g c = Code.rename g' c := by
  have hargs : c.2.map (Value.mapRef g) = c.2.map (Value.mapRef g') := by
    refine List.map_congr_left fun v hv => ?_
    cases v with
    | inst r => simp [Value.mapRef, h r hv]
    | _ => rfl
  rw [Code.rename, Code.rename, hargs]

variable {S : Type*}

/-- The instructions of `cs` stand in `P` at the places `g`, and so on behind
it. -/
structure Embeds (m : Machine S) (cs P : List Code) (g : ℕ → ℕ) : Prop where
  next : ∀ k, cs.length ≤ k → g k = P.length+(k-cs.length)
  mono : StrictMono g
  back : ∀ k c, cs[k]? = some c → ∀ r, Value.inst r ∈ c.2 → r < k
  placed : ∀ k c, cs[k]? = some c → P[g k]? = some (Code.rename g c)
  state : ∀ s, (runCode m P s).2 = (runCode m cs s).2
  value : ∀ s k o, k < cs.length →
    (runCode m P s).1.getD (g k) o = (runCode m cs s).1.getD k o

/-- Where the places go when an instruction is inserted behind `n` others. -/
def moved (n : ℕ) (g : ℕ → ℕ) (k : ℕ) : ℕ := if n ≤ k then g k+1 else g k

namespace Embeds

variable {m : Machine S} {cs P : List Code} {g : ℕ → ℕ}

theorem nil (m : Machine S) : Embeds m [] [] id where
  next k _ := by simp
  mono := strictMono_id
  back _ _ h := by cases h
  placed _ _ h := by cases h
  state _ := rfl
  value _ _ _ h := by cases h

variable (h : Embeds m cs P g)
include h

theorem next_self : g cs.length = P.length := by
  rw [h.next _ (Nat.le_refl _), Nat.sub_self, Nat.add_zero]

theorem place_lt {k : ℕ} (hk : k < cs.length) : g k < P.length :=
  h.next_self ▸ h.mono hk

theorem evalArg_mapRef {v : Value} (hv : ∀ r, v = .inst r → r < cs.length) (s : S) :
    evalArg (runCode m P s).1 (v.mapRef g) = evalArg (runCode m cs s).1 v := by
  cases v with
  | inst r => exact h.value s r _ (hv r rfl)
  | _ => rfl

theorem step_rename {c : Code} (hc : ∀ r, Value.inst r ∈ c.2 → r < cs.length) (s : S) :
    step m (Code.rename g c) (runCode m P s).1 (runCode m P s).2 =
      step m c (runCode m cs s).1 (runCode m cs s).2 := by
  have hops : operands (runCode m P s).1 (Code.rename g c) = operands (runCode m cs s).1 c := by
    simp only [operands, Code.rename, ← List.map_take, List.map_map]
    refine List.map_congr_left fun v hv => ?_
    exact h.evalArg_mapRef (fun r hr => hc r (hr ▸ List.mem_of_mem_take hv)) s
  simp only [step, hops, h.state]
  rfl

theorem snoc {c : Code} (hc : ∀ r, Value.inst r ∈ c.2 → r < cs.length) :
    Embeds m (cs ++ [c]) (P ++ [Code.rename g c]) g where
  next k hk := by
    rw [List.length_append, List.length_singleton] at hk
    rw [h.next k (by omega), List.length_append, List.length_append, List.length_singleton,
      List.length_singleton]
    omega
  mono := h.mono
  back k d hd := by
    by_cases hk : k < cs.length
    · rw [List.getElem?_append_left hk] at hd
      exact h.back k d hd
    · obtain ⟨hlt, hget⟩ := List.getElem?_eq_some_iff.mp hd
      rw [List.length_append, List.length_singleton] at hlt
      have hk' : k = cs.length := by omega
      subst hk'
      simp only [List.getElem_concat_length] at hget
      exact hget ▸ hc
  placed k d hd := by
    by_cases hk : k < cs.length
    · rw [List.getElem?_append_left hk] at hd
      rw [List.getElem?_append_left (h.place_lt hk), h.placed k d hd]
    · obtain ⟨hlt, hget⟩ := List.getElem?_eq_some_iff.mp hd
      rw [List.length_append, List.length_singleton] at hlt
      have hk' : k = cs.length := by omega
      subst hk'
      simp only [List.getElem_concat_length] at hget
      rw [h.next_self, ← hget]
      simp
  state s := by
    rw [runCode_snoc, runCode_snoc, Ssa.next, Ssa.next, h.step_rename hc]
  value s k o hk := by
    rw [List.length_append, List.length_singleton] at hk
    rw [runCode_snoc, runCode_snoc, Ssa.next, Ssa.next, h.step_rename hc]
    by_cases hlt : k < cs.length
    · rw [List.getD_append _ _ _ _ (by rw [runCode_length]; exact h.place_lt hlt),
        List.getD_append _ _ _ _ (by rw [runCode_length]; exact hlt)]
      exact h.value s k o hlt
    · have hk' : k = cs.length := by omega
      subst hk'
      rw [h.next_self]
      simp [List.getD_eq_getElem?_getD, runCode_length]

/-- An instruction without effect may stand between. -/
theorem insert {z : Code}
    (hz : ∀ s, (step m z (runCode m P s).1 (runCode m P s).2).2 = (runCode m P s).2) :
    Embeds m cs (P ++ [z]) (moved cs.length g) where
  next k hk := by
    rw [moved, if_pos hk, h.next k hk, List.length_append, List.length_singleton]
    omega
  mono k k' hk := by
    have := h.mono hk
    unfold moved
    split <;> split <;> omega
  back := h.back
  placed k c hc := by
    have hk := (List.getElem?_eq_some_iff.mp hc).1
    rw [moved, if_neg (by omega), List.getElem?_append_left (h.place_lt hk), h.placed k c hc]
    refine congrArg some (rename_congr fun r hr => ?_)
    have := h.back k c hc r hr
    rw [moved, if_neg (by omega)]
  state s := by
    rw [runCode_snoc, Ssa.next]
    simp only
    rw [hz, h.state]
  value s k o hk := by
    rw [runCode_snoc, Ssa.next, moved, if_neg (by omega),
      List.getD_append _ _ _ _ (by rw [runCode_length]; exact h.place_lt hk)]
    exact h.value s k o hk

/-- The renumbering of an insertion is the renaming by the moved places. -/
theorem renumber_rename (c : Code) :
    Code.renumber P.length (Code.rename g c) = Code.rename (moved cs.length g) c := by
  have hargs : (c.2.map (Value.mapRef g)).map (Value.renumber P.length) =
      c.2.map (Value.mapRef (moved cs.length g)) := by
    rw [List.map_map]
    refine List.map_congr_left fun v _ => ?_
    cases v with
    | inst r =>
      have hle : P.length ≤ g r ↔ cs.length ≤ r := by
        rw [← h.next_self]
        exact h.mono.le_iff_le
      simp only [Function.comp_apply, Value.mapRef, Value.renumber, moved, hle]
    | _ => rfl
  rw [Code.renumber, Code.rename, Code.rename]
  simp only [hargs]

end Embeds
end Ruzu.Ir
