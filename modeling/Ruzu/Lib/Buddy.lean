import Mathlib

/-!
# Buddy covers

Level `i` cuts the units into runs of `w i`, and `A i` names the runs that
are free as one block there. A family of levels covers a set of units when
every unit of the set lies in exactly one named run. Blocks are put in, taken
out and merged without leaving a cover, and a cover counts its units.
-/

set_option autoImplicit false

namespace Ruzu.Buddy
open Finset

/-- The units of block `k` where blocks have `w` units. -/
def units (w k : ℕ) : Finset ℕ := Ico (k*w) ((k+1)*w)

theorem mem_units {w k p : ℕ} (hw : 0 < w) : p ∈ units w k ↔ p/w = k := by
  rw [units, mem_Ico, Nat.div_eq_iff hw]
  have h : (k+1)*w = k*w+w := by ring
  rw [h]
  omega

theorem card_units (w k : ℕ) : (units w k).card = w := by
  rw [units, Nat.card_Ico, ← Nat.sub_mul]
  simp

/-- Adjacent blocks of one level are one range of units. -/
theorem ico_units (w j k : ℕ) (h : j ≤ k) :
    Ico (j*w) (k*w) ∪ units w k = Ico (j*w) ((k+1)*w) := by
  apply Ico_union_Ico_eq_Ico
  · exact Nat.mul_le_mul_right w h
  · exact Nat.mul_le_mul_right w (Nat.le_succ k)

structure Covers (w : ℕ → ℕ) (n : ℕ) (A : ℕ → Finset ℕ) (F : Finset ℕ) : Prop where
  cover : ∀ p, p ∈ F ↔ ∃ i < n, p/w i ∈ A i
  once : ∀ p i j, i < n → j < n → p/w i ∈ A i → p/w j ∈ A j → i = j

variable {w : ℕ → ℕ} {n : ℕ} {A : ℕ → Finset ℕ} {F : Finset ℕ}

theorem covers_empty : Covers w n (fun _ => ∅) ∅ := by
  constructor
  · simp
  · simp

/-- The free units of one level. -/
def level (w : ℕ → ℕ) (A : ℕ → Finset ℕ) (i : ℕ) : Finset ℕ := (A i).biUnion (units (w i))

theorem mem_level {i p : ℕ} (hw : 0 < w i) : p ∈ level w A i ↔ p/w i ∈ A i := by
  simp [level, mem_units hw]

theorem card_level (i : ℕ) (hw : 0 < w i) : (level w A i).card = (A i).card*w i := by
  rw [level, card_biUnion]
  · simp [card_units]
  · intro j _ k _ hjk
    change Disjoint (units (w i) j) (units (w i) k)
    rw [disjoint_left]
    intro p hj hk
    rw [mem_units hw] at hj hk
    exact hjk (hj.symm.trans hk)

theorem Covers.eq_levels (h : Covers w n A F) (hw : ∀ i < n, 0 < w i) :
    F = (range n).biUnion (level w A) := by
  ext p
  rw [h.cover, mem_biUnion]
  apply exists_congr
  intro i
  rw [mem_range]
  apply and_congr_right
  intro hi
  exact (mem_level (hw i hi)).symm

/-- Blocks times their size, summed over the levels, count the covered units. -/
theorem Covers.card (h : Covers w n A F) (hw : ∀ i < n, 0 < w i) :
    ∑ i ∈ range n, (A i).card*w i = F.card := by
  rw [h.eq_levels hw, card_biUnion]
  · apply sum_congr rfl
    intro i hi
    exact (card_level i (hw i (mem_range.mp hi))).symm
  · intro i hi j hj hij
    rw [mem_coe] at hi hj
    change Disjoint (level w A i) (level w A j)
    rw [disjoint_left]
    intro p hpi hpj
    rw [mem_level (hw i (mem_range.mp hi))] at hpi
    rw [mem_level (hw j (mem_range.mp hj))] at hpj
    exact hij (h.once p i j (mem_range.mp hi) (mem_range.mp hj) hpi hpj)

theorem Covers.units_subset (h : Covers w n A F) {i k : ℕ} (hi : i < n) (hw : 0 < w i)
    (hk : k ∈ A i) : units (w i) k ⊆ F := by
  intro p hp
  rw [mem_units hw] at hp
  rw [h.cover]
  exact ⟨i, hi, by rwa [hp]⟩

theorem Covers.put (h : Covers w n A F) {i k : ℕ} (hi : i < n) (hw : 0 < w i)
    (hd : Disjoint F (units (w i) k)) :
    Covers w n (Function.update A i (insert k (A i))) (F ∪ units (w i) k) := by
  rw [disjoint_right] at hd
  have hmem : ∀ p j, p/w j ∈ Function.update A i (insert k (A i)) j ↔
      (j = i ∧ p ∈ units (w i) k) ∨ p/w j ∈ A j := by
    intro p j
    by_cases hj : j = i
    · subst hj
      rw [Function.update_self, mem_insert, mem_units hw]
      simp
    · rw [Function.update_of_ne hj]
      simp [hj]
  constructor
  · intro p
    simp only [hmem, mem_union, h.cover]
    constructor
    · rintro (⟨j, hj, hp⟩ | hp)
      · exact ⟨j, hj, .inr hp⟩
      · exact ⟨i, hi, .inl ⟨rfl, hp⟩⟩
    · rintro ⟨j, hj, (⟨_, hp⟩ | hp)⟩
      · exact .inr hp
      · exact .inl ⟨j, hj, hp⟩
  · intro p a b ha hb hpa hpb
    rw [hmem] at hpa hpb
    rcases hpa with ⟨rfl, hpa⟩ | hpa <;> rcases hpb with ⟨rfl, hpb⟩ | hpb
    · rfl
    · exact absurd ((h.cover p).mpr ⟨b, hb, hpb⟩) (hd hpa)
    · exact absurd ((h.cover p).mpr ⟨a, ha, hpa⟩) (hd hpb)
    · exact h.once p a b ha hb hpa hpb

theorem Covers.remove (h : Covers w n A F) {i : ℕ} {K : Finset ℕ} (hi : i < n) (hw : 0 < w i)
    (hK : K ⊆ A i) :
    Covers w n (Function.update A i (A i \ K)) (F \ K.biUnion (units (w i))) := by
  have hunits : ∀ p, p ∈ K.biUnion (units (w i)) ↔ p/w i ∈ K := by
    intro p
    simp [mem_units hw]
  have hmem : ∀ p j, j < n → (p/w j ∈ Function.update A i (A i \ K) j ↔
      p/w j ∈ A j ∧ p/w i ∉ K) := by
    intro p j hj
    by_cases hji : j = i
    · subst hji
      rw [Function.update_self, mem_sdiff]
    · rw [Function.update_of_ne hji]
      constructor
      · intro hp
        exact ⟨hp, fun hpK => hji (h.once p j i hj hi hp (hK hpK))⟩
      · exact And.left
  constructor
  · intro p
    rw [mem_sdiff, hunits, h.cover]
    constructor
    · rintro ⟨⟨j, hj, hp⟩, hpK⟩
      exact ⟨j, hj, (hmem p j hj).mpr ⟨hp, hpK⟩⟩
    · rintro ⟨j, hj, hp⟩
      rw [hmem p j hj] at hp
      exact ⟨⟨j, hj, hp.1⟩, hp.2⟩
  · intro p a b ha hb hpa hpb
    exact h.once p a b ha hb ((hmem p a ha).mp hpa).1 ((hmem p b hb).mp hpb).1

theorem Covers.take (h : Covers w n A F) {i k : ℕ} (hi : i < n) (hw : 0 < w i)
    (hk : k ∈ A i) :
    Covers w n (Function.update A i ((A i).erase k)) (F \ units (w i) k) := by
  have := h.remove (K := {k}) hi hw (by simpa using hk)
  rwa [sdiff_singleton_eq_erase, singleton_biUnion] at this

/-- The `r` blocks of one level below block `q` of the next are that block's units. -/
theorem buddies_units (v r q : ℕ) (hv : 0 < v) (hr : 0 < r) :
    (Ico (q*r) (q*r+r)).biUnion (units v) = units (r*v) q := by
  ext p
  simp only [mem_biUnion, mem_units hv, exists_eq_right']
  rw [mem_units (Nat.mul_pos hr hv), mem_Ico, Nat.mul_comm r v, ← Nat.div_div_eq_div_mul,
    Nat.div_eq_iff hr]
  omega

end Ruzu.Buddy
