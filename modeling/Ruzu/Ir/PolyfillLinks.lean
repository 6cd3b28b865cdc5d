import Mathlib
import Ruzu.Ir.Polyfill

/-!
# Chains of pseudo-operations

The links to pseudo-operations are computed from pairs of a producer and a
pseudo-operation that it gets. Two lists of pairs that are alike up to the places of
the instructions lead to chains that are alike up to the places.
-/

set_option autoImplicit false

namespace Ruzu.Ir

/-- Put a pseudo-operation behind the last one of its producer. -/
def attach (next : List (Option ℕ)) (pair : ℕ × ℕ) : Option (List (Option ℕ)) :=
  (chainEnd next (next.length + 1) pair.1).map fun last => next.set last (some pair.2)

def Follows (next : List (Option ℕ)) (j k : ℕ) : Prop := next[j]? = some (some k)

/-- The pseudo-operation is on the chain of the instruction. -/
def OnChain (next : List (Option ℕ)) : ℕ → ℕ → Prop := Relation.TransGen (Follows next)

/-- Links lead forward and stay below `n`. -/
structure Chained (next : List (Option ℕ)) (n : ℕ) : Prop where
  inside : n ≤ next.length
  forward : ∀ j k, Follows next j k → j < k
  below : ∀ j k, Follows next j k → k < n

section Chains

variable {next next' : List (Option ℕ)} {n : ℕ}

/-! ### Ends of chains -/

theorem chainEnd_mono {fuel fuel' c e : ℕ} (h : chainEnd next fuel c = some e)
    (hle : fuel ≤ fuel') : chainEnd next fuel' c = some e := by
  induction fuel generalizing fuel' c with
  | zero => cases h
  | succ fuel ih =>
    obtain ⟨fuel', rfl⟩ : ∃ k, fuel' = k + 1 := ⟨fuel' - 1, by omega⟩
    rw [chainEnd] at h ⊢
    split at h
    · cases h
    · exact h
    · exact ih h (by omega)

theorem Chained.all (h : Chained next n) : Chained next next.length :=
  ⟨Nat.le_refl _, h.forward, fun j k hjk => Nat.lt_of_lt_of_le (h.below j k hjk) h.inside⟩

theorem Chained.chainEnd_exists (h : Chained next n) {fuel c : ℕ} (hc : c < next.length)
    (hfuel : next.length ≤ c + fuel) : ∃ e, chainEnd next fuel c = some e := by
  induction fuel generalizing c with
  | zero => omega
  | succ fuel ih =>
    rw [chainEnd]
    split
    · rename_i hnone
      exact absurd (List.getElem?_eq_none_iff.mp hnone) (Nat.not_le.mpr hc)
    · exact ⟨c, rfl⟩
    · rename_i following hfollowing
      have := h.forward c following hfollowing
      have := h.below c following hfollowing
      have := h.inside
      exact ih (by omega) (by omega)

theorem chainEnd_spec {fuel c e : ℕ} (h : chainEnd next fuel c = some e) :
    next[e]? = some none ∧ Relation.ReflTransGen (Follows next) c e := by
  induction fuel generalizing c with
  | zero => cases h
  | succ fuel ih =>
    rw [chainEnd] at h
    split at h
    · cases h
    · rename_i hnone
      rw [Option.some_inj] at h
      subst h
      exact ⟨hnone, .refl⟩
    · rename_i following hfollowing
      obtain ⟨hend, hreach⟩ := ih h
      exact ⟨hend, .head hfollowing hreach⟩

/-! ### Attaching -/

theorem attach_follows {p i : ℕ} (h : attach next (p, i) = some next') {j k : ℕ} :
    Follows next' j k ↔ Follows next j k ∨ chainEnd next (next.length + 1) p = some j ∧ k = i := by
  obtain ⟨e, he, rfl⟩ := Option.map_eq_some_iff.mp h
  obtain ⟨hend, -⟩ := chainEnd_spec he
  have hlt := (List.getElem?_eq_some_iff.mp hend).1
  rw [Follows, Follows, he, List.getElem?_set]
  by_cases hj : e = j
  · subst hj
    rw [if_pos rfl, if_pos hlt, hend]
    simp [eq_comm]
  · rw [if_neg hj]
    simp [hj]

theorem attach_length {pair : ℕ × ℕ} (h : attach next pair = some next') :
    next'.length = next.length := by
  obtain ⟨e, -, rfl⟩ := Option.map_eq_some_iff.mp h
  exact List.length_set

/-- The last one on the chain of an earlier instruction is earlier. -/
theorem Chained.chainEnd_lt (h : Chained next n) {fuel p e i : ℕ}
    (he : chainEnd next fuel p = some e) (hp : p < i) (hn : n ≤ i) : e < i := by
  rcases Relation.ReflTransGen.cases_tail (chainEnd_spec he).2 with rfl | ⟨j, -, hj⟩
  · exact hp
  · exact Nat.lt_of_lt_of_le (h.below j e hj) hn

theorem Chained.attach (h : Chained next n) {p i : ℕ} (hp : p < i) (hn : n ≤ i)
    (hi : i < next.length) : ∃ next', attach next (p, i) = some next' ∧ Chained next' (i + 1) := by
  have hfuel : next.length ≤ p + (next.length + 1) := by omega
  obtain ⟨e, he⟩ := h.chainEnd_exists (by omega) hfuel
  have hattach : Ruzu.Ir.attach next (p, i) = some (next.set e (some i)) := by
    rw [Ruzu.Ir.attach, he]
    rfl
  refine ⟨_, hattach, ?_, fun j k hjk => ?_, fun j k hjk => ?_⟩
  · rw [List.length_set]
    exact hi
  · rcases (attach_follows hattach).mp hjk with hjk | ⟨hj, rfl⟩
    · exact h.forward j k hjk
    · exact h.chainEnd_lt hj hp hn
  · rcases (attach_follows hattach).mp hjk with hjk | ⟨-, rfl⟩
    · exact Nat.lt_succ_of_lt (Nat.lt_of_lt_of_le (h.below j k hjk) hn)
    · exact Nat.lt_succ_self _

theorem attach_onChain {p i : ℕ} (h : attach next (p, i) = some next') : OnChain next' p i := by
  obtain ⟨e, he, -⟩ := Option.map_eq_some_iff.mp h
  have hkept : ∀ j k, Follows next j k → Follows next' j k := fun j k hjk =>
    (attach_follows h).mpr (.inl hjk)
  exact .tail' (Relation.ReflTransGen.mono hkept _ _ (chainEnd_spec he).2)
    ((attach_follows h).mpr (.inr ⟨he, rfl⟩))

theorem OnChain.attach {pair : ℕ × ℕ} (h : attach next pair = some next') {j k : ℕ}
    (hjk : OnChain next j k) : OnChain next' j k :=
  Relation.TransGen.mono (fun _ _ hstep =>
    (attach_follows (p := pair.1) (i := pair.2) h).mpr (.inl hstep)) _ _ hjk

theorem foldlM_onChain {pairs : List (ℕ × ℕ)} (h : pairs.foldlM Ruzu.Ir.attach next = some next') :
    (∀ j k, OnChain next j k → OnChain next' j k) ∧
      ∀ pair ∈ pairs, OnChain next' pair.1 pair.2 := by
  induction pairs generalizing next with
  | nil =>
    rw [List.foldlM_nil] at h
    cases h
    exact ⟨fun _ _ h => h, nofun⟩
  | cons pair pairs ih =>
    rw [List.foldlM_cons] at h
    obtain ⟨middle, hattach, hrest⟩ := Option.bind_eq_some_iff.mp h
    obtain ⟨hkept, hpairs⟩ := ih hrest
    refine ⟨fun j k hjk => hkept j k (hjk.attach hattach), ?_⟩
    exact List.forall_mem_cons.mpr ⟨hkept _ _ (attach_onChain hattach), hpairs⟩

end Chains

/-! ### Chains at other places -/

/-- Two lists of links that are alike up to the places of the instructions. -/
structure Mirrored (Node Flag : ℕ → Prop) (g : ℕ → ℕ) (next next' : List (Option ℕ)) : Prop where
  inside : ∀ k, Node k → k < next.length ∧ g k < next'.length
  flags : ∀ j k, Follows next j k → Flag k
  mirrored : ∀ k, Node k → next'[g k]? = next[k]?.map (Option.map g)

section Mirrored

variable {Node Flag : ℕ → Prop} {g : ℕ → ℕ} {next next' out out' : List (Option ℕ)}

theorem follows_of_getD {c d : ℕ} (h : next.getD c none = some d) : Follows next c d := by
  rw [List.getD_eq_getElem?_getD] at h
  cases hc : next[c]? with
  | none => rw [hc] at h; cases h
  | some x =>
    rw [hc, Option.getD_some] at h
    rw [Follows, hc, h]

theorem Mirrored.getD (h : Mirrored Node Flag g next next') {k : ℕ} (hk : Node k) :
    next'.getD (g k) none = (next.getD k none).map g := by
  rw [List.getD_eq_getElem?_getD, List.getD_eq_getElem?_getD, h.mirrored k hk]
  cases next[k]? <;> rfl

variable (hflag : ∀ k, Flag k → Node k)
include hflag

theorem Mirrored.chainEnd (h : Mirrored Node Flag g next next') {fuel c e : ℕ} (hc : Node c)
    (he : chainEnd next fuel c = some e) :
    Ruzu.Ir.chainEnd next' fuel (g c) = some (g e) ∧ Node e := by
  induction fuel generalizing c with
  | zero => cases he
  | succ fuel ih =>
    rw [Ruzu.Ir.chainEnd] at he ⊢
    rw [h.mirrored c hc]
    split at he
    · cases he
    · rename_i hnone
      rw [Option.some_inj] at he
      subst he
      rw [hnone]
      exact ⟨rfl, hc⟩
    · rename_i following hfollowing
      rw [hfollowing]
      exact ih (hflag _ (h.flags c following hfollowing)) he

variable (hmono : ∀ j k, Node j → Node k → j < k → g j < g k)
include hmono

omit hflag in
theorem mirror_injective {j k : ℕ} (hj : Node j) (hk : Node k) (heq : g j = g k) : j = k := by
  rcases Nat.lt_trichotomy j k with hlt | rfl | hlt
  · exact absurd heq (Nat.ne_of_lt (hmono j k hj hk hlt))
  · rfl
  · exact absurd heq.symm (Nat.ne_of_lt (hmono k j hk hj hlt))

theorem Mirrored.attach (h : Mirrored Node Flag g next next') {p i : ℕ} (hp : Node p)
    (hi : Flag i) (hout : attach next (p, i) = some out)
    (hout' : attach next' (g p, g i) = some out') : Mirrored Node Flag g out out' := by
  obtain ⟨e, he, rfl⟩ := Option.map_eq_some_iff.mp hout
  obtain ⟨e', he', rfl⟩ := Option.map_eq_some_iff.mp hout'
  obtain ⟨hmirror, hnode⟩ := h.chainEnd hflag hp he
  -- both walks from the producer end, so they end at the same place
  obtain rfl : g e = e' := by
    have hleft := chainEnd_mono hmirror (Nat.le_add_right _ (next'.length + 1))
    have hright := chainEnd_mono he' (Nat.le_add_left _ (next.length + 1))
    exact Option.some.inj (hleft.symm.trans hright)
  refine ⟨fun k hk => ?_, fun j k hjk => ?_, fun k hk => ?_⟩
  · rw [List.length_set, List.length_set]
    exact h.inside k hk
  · rcases (attach_follows hout).mp hjk with hjk | ⟨-, rfl⟩
    · exact h.flags j k hjk
    · exact hi
  · rw [List.getElem?_set, List.getElem?_set]
    by_cases heq : e = k
    · subst heq
      rw [if_pos rfl, if_pos rfl, if_pos (h.inside e hk).2, if_pos (h.inside e hk).1]
      rfl
    · rw [if_neg heq, if_neg fun hge => heq (mirror_injective hmono hnode hk hge)]
      exact h.mirrored k hk

theorem Mirrored.foldlM {pairs : List (ℕ × ℕ)} (hsorted : pairs.Pairwise fun a b => a.2 < b.2)
    (hpairs : ∀ pair ∈ pairs, pair.1 < pair.2 ∧ Node pair.1 ∧ Flag pair.2) :
    ∀ {next next' : List (Option ℕ)} {n n' : ℕ}, Mirrored Node Flag g next next' →
      Chained next n → Chained next' n' → (∀ pair ∈ pairs, n ≤ pair.2 ∧ n' ≤ g pair.2) →
      ∃ out out', pairs.foldlM Ruzu.Ir.attach next = some out ∧
        (pairs.map fun pair => (g pair.1, g pair.2)).foldlM Ruzu.Ir.attach next' = some out' ∧
        Mirrored Node Flag g out out' ∧ Chained out out.length ∧ Chained out' out'.length := by
  induction pairs with
  | nil =>
    intro next next' n n' h hnext hnext' _
    exact ⟨next, next', rfl, rfl, h, hnext.all, hnext'.all⟩
  | cons pair pairs ih =>
    intro next next' n n' h hnext hnext' hbelow
    obtain ⟨p, i⟩ := pair
    obtain ⟨hrest, hsorted⟩ := List.pairwise_cons.mp hsorted
    obtain ⟨⟨hlt, hp, hi⟩, hpairs⟩ := List.forall_mem_cons.mp hpairs
    obtain ⟨⟨hn, hn'⟩, -⟩ := List.forall_mem_cons.mp hbelow
    have hinside := h.inside i (hflag i hi)
    obtain ⟨middle, hmiddle, hchained⟩ := hnext.attach hlt hn hinside.1
    obtain ⟨middle', hmiddle', hchained'⟩ :=
      hnext'.attach (hmono p i hp (hflag i hi) hlt) hn' hinside.2
    rw [List.foldlM_cons, List.map_cons, List.foldlM_cons, hmiddle, hmiddle']
    refine ih hsorted hpairs (h.attach hflag hmono hp hi hmiddle hmiddle') hchained hchained' ?_
    intro later hlater
    exact ⟨hrest later hlater, hmono i later.2 (hflag i hi)
      (hflag _ (hpairs later hlater).2.2) (hrest later hlater)⟩

end Mirrored

/-! ### Walking a chain -/

namespace LinkedBlock

variable {l l' : LinkedBlock} {opcode : Opcode}

/-- The fuel is enough to walk to the end of the list. -/
def Fueled (l : LinkedBlock) (fuel : ℕ) (current : Option ℕ) : Prop :=
  ∀ c, current = some c → c < l.nextPseudoop.length ∧ l.nextPseudoop.length ≤ c + fuel

theorem Fueled.step (h : Chained l.nextPseudoop l.nextPseudoop.length) {fuel c : ℕ}
    (hfuel : l.Fueled (fuel + 1) (some c)) :
    l.Fueled fuel (l.nextPseudoop.getD c none) := by
  obtain ⟨hc, hle⟩ := hfuel c rfl
  intro d hd
  have hfollows := follows_of_getD hd
  have := h.forward c d hfollows
  exact ⟨h.below c d hfollows, by omega⟩

theorem findOnChain_fuel (h : Chained l.nextPseudoop l.nextPseudoop.length) {fuel fuel' : ℕ}
    {current : Option ℕ} (hfuel : l.Fueled fuel current) (hfuel' : l.Fueled fuel' current) :
    l.findOnChain opcode fuel current = l.findOnChain opcode fuel' current := by
  induction fuel generalizing fuel' current with
  | zero =>
    cases current with
    | none => cases fuel' <;> rfl
    | some c =>
      have := hfuel c rfl
      omega
  | succ fuel ih =>
    cases current with
    | none => cases fuel' <;> rfl
    | some c =>
      cases fuel' with
      | zero =>
        have := hfuel' c rfl
        omega
      | succ fuel' =>
        rw [findOnChain, findOnChain, ih (hfuel.step h) (hfuel'.step h)]

section Mirrored

variable {Node Flag : ℕ → Prop} {g : ℕ → ℕ} (hflag : ∀ k, Flag k → Node k)
  (h : Mirrored Node Flag g l.nextPseudoop l'.nextPseudoop)
  (hopcode : ∀ k, Flag k → (l'.block.inst (g k)).opcode = (l.block.inst k).opcode)
include hflag h hopcode

theorem findOnChain_mirrored {fuel : ℕ} {current : Option ℕ}
    (hcurrent : ∀ c, current = some c → Flag c) :
    l'.findOnChain opcode fuel (current.map g) = (l.findOnChain opcode fuel current).map g := by
  induction fuel generalizing current with
  | zero => rfl
  | succ fuel ih =>
    cases current with
    | none => rfl
    | some c =>
      rw [Option.map_some, findOnChain, findOnChain, hopcode c (hcurrent c rfl)]
      split
      · rfl
      · rw [← ih fun d hd => h.flags c d (follows_of_getD hd), h.getD (hflag c (hcurrent c rfl))]

theorem getAssociatedPseudoOperation_mirrored (hl : Chained l.nextPseudoop l.nextPseudoop.length)
    (hl' : Chained l'.nextPseudoop l'.nextPseudoop.length) {k : ℕ} (hk : Node k) :
    l'.getAssociatedPseudoOperation (g k) opcode =
      (l.getAssociatedPseudoOperation k opcode).map g := by
  have hfueled : ∀ {l : LinkedBlock} {j : ℕ}, Chained l.nextPseudoop l.nextPseudoop.length →
      ∀ fuel, l.Fueled (l.nextPseudoop.length + fuel) (l.nextPseudoop.getD j none) :=
    fun hl fuel c hc => ⟨hl.below _ c (follows_of_getD hc), by omega⟩
  rw [getAssociatedPseudoOperation, getAssociatedPseudoOperation]
  rw [findOnChain_fuel hl (hfueled hl 1) (hfueled hl (l'.nextPseudoop.length))]
  rw [findOnChain_fuel hl' (hfueled hl' 1) (hfueled hl' (l.nextPseudoop.length))]
  rw [← findOnChain_mirrored hflag h hopcode fun c hc => h.flags k c (follows_of_getD hc),
    h.getD hk, Nat.add_comm]

end Mirrored

end LinkedBlock


end Ruzu.Ir
