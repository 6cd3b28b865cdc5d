import Mathlib
import Ruzu.Ir.PolyfillRuns
import Ruzu.Ir.PolyfillLinks
import Ruzu.Ir.UseCounts

/-!
# The polyfill pass

What the pass leaves: the code at its places, the use counts, and the flags of each
instruction.
-/

set_option autoImplicit false

namespace Ruzu.Ir

/-! ### The pairs of a producer and its flags -/

/-- The instruction that a pseudo-operation reads. -/
def producerOf (c : Code) : Option ℕ :=
  if isAssociatedPseudoOpcode c.1 then (c.2.getD 0 .void).ref else none

def pairs (cs : List Code) : List (ℕ × ℕ) :=
  (List.range cs.length).filterMap fun i => (cs[i]?.bind producerOf).map fun p => (p, i)

theorem mem_pairs {cs : List Code} {pair : ℕ × ℕ} :
    pair ∈ pairs cs ↔ ∃ c, cs[pair.2]? = some c ∧ producerOf c = some pair.1 := by
  obtain ⟨p, i⟩ := pair
  rw [pairs, List.mem_filterMap]
  refine ⟨?_, ?_⟩
  · rintro ⟨j, -, hj⟩
    obtain ⟨q, hq, heq⟩ := Option.map_eq_some_iff.mp hj
    cases heq
    exact Option.bind_eq_some_iff.mp hq
  · rintro ⟨c, hc, hp⟩
    refine ⟨i, List.mem_range.mpr (List.getElem?_eq_some_iff.mp hc).1, ?_⟩
    rw [hc, Option.bind_some, hp]
    rfl

theorem pairs_sorted (cs : List Code) : (pairs cs).Pairwise fun a b => a.2 < b.2 := by
  refine List.pairwise_filterMap.mpr (List.pairwise_lt_range.imp fun {i j} hij a ha b hb => ?_)
  obtain ⟨p, -, rfl⟩ := Option.map_eq_some_iff.mp ha
  obtain ⟨q, -, rfl⟩ := Option.map_eq_some_iff.mp hb
  exact hij

theorem sorted_eq {l l' : List (ℕ × ℕ)} (h : l.Pairwise fun a b => a.2 < b.2)
    (h' : l'.Pairwise fun a b => a.2 < b.2) (hmem : ∀ pair, pair ∈ l ↔ pair ∈ l') : l = l' := by
  have : Std.Irrefl fun a b : ℕ × ℕ => a.2 < b.2 := ⟨fun a => Nat.lt_irrefl a.2⟩
  have : Std.Antisymm fun a b : ℕ × ℕ => a.2 < b.2 := ⟨fun a b hab hba => by omega⟩
  exact h.eq_of_mem_iff h' hmem

theorem foldlM_congr {α β : Type} {f g : β → α → Option β} {l : List α}
    (h : ∀ x ∈ l, ∀ s, f s x = g s x) (s : β) : l.foldlM f s = l.foldlM g s := by
  induction l generalizing s with
  | nil => rfl
  | cons x l ih =>
    rw [List.foldlM_cons, List.foldlM_cons, h x List.mem_cons_self]
    have hrest := fun s' => ih (fun y hy => h y (List.mem_cons_of_mem _ hy)) s'
    exact congrArg (g s x).bind (funext hrest)

namespace Polyfill

/-- The producers of flags have not been removed. -/
def Produced (cs : List Code) : Prop :=
  ∀ i c p, cs[i]? = some c → producerOf c = some p → p < i ∧ ∃ d, LiveAt cs p d

theorem rebuildPseudoOpLinks_eq {b : Block}
    (htomb : ∀ k < b.instructions.length, (b.inst k).isTombstone = true ↔ (b.inst k).opcode = .void)
    (hproduced : Produced b.code) : rebuildPseudoOpLinks b =
      (pairs b.code).foldlM attach (List.replicate b.instructions.length none) := by
  rw [pairs, List.foldlM_filterMap, rebuildPseudoOpLinks, Block.code, List.length_map,
    ← Block.code]
  refine foldlM_congr (fun i hi next => ?_) _
  rw [List.mem_range] at hi
  have hcode := b.code_inst hi
  have hproducer : producerOf (b.inst i).code = if isAssociatedPseudoOpcode (b.inst i).opcode then
      ((b.inst i).arg 0).ref else none := rfl
  rw [hcode, Option.bind_some, linkPseudoOp]
  by_cases hassociated : isAssociatedPseudoOpcode (b.inst i).opcode = true
  case neg =>
    rw [hproducer, if_neg hassociated]
    split
    · rfl
    · simp [hassociated]
  have hlive : ¬ (b.inst i).isTombstone = true := by
    intro hremoved
    rw [(htomb i hi).mp hremoved] at hassociated
    cases hassociated
  rw [if_neg hlive, if_neg (by simp [hassociated])]
  rw [hproducer, if_pos hassociated]
  cases harg : (b.inst i).arg 0 with
  | inst p =>
    have hp : producerOf (b.inst i).code = some p := by
      rw [hproducer, if_pos hassociated, harg]
      rfl
    obtain ⟨-, d, hd, hdvoid⟩ := hproduced i _ p hcode hp
    have hlt : p < b.instructions.length := by
      have := (List.getElem?_eq_some_iff.mp hd).1
      rwa [Block.code, List.length_map] at this
    have hpop : (b.inst p).opcode = d.1 := congrArg Prod.fst (Block.inst_code hd)
    have hplive : ¬ (b.inst p).isTombstone = true := fun hremoved =>
      hdvoid (hpop ▸ (htomb p hlt).mp hremoved)
    dsimp only [Value.ref, Option.map_some]
    rw [if_pos hlt, if_neg hplive]
    rfl
  | _ => rfl

/-! ### The opcodes of the expansions -/

section Opcodes

variable (options : PolyfillOptions) {op : Opcode}

theorem expansion_opcode (h : isExpansionOpcode op = true) :
    op ≠ .void ∧ isAssociatedPseudoOpcode op = false ∧ options.expands op = false := by
  unfold isExpansionOpcode at h
  split at h <;> first | exact ⟨nofun, rfl, rfl⟩ | cases h

theorem associated_opcode (h : isAssociatedPseudoOpcode op = true) :
    op ≠ .void ∧ options.expands op = false := by
  unfold isAssociatedPseudoOpcode pseudoOf at h
  split at h <;> first | exact ⟨nofun, rfl⟩ | cases h

end Opcodes

theorem producerOf_some {c : Code} {p : ℕ} (h : producerOf c = some p) :
    isAssociatedPseudoOpcode c.1 = true ∧ Value.inst p ∈ c.2 := by
  unfold producerOf at h
  split at h
  · rename_i hassociated
    refine ⟨hassociated, ?_⟩
    rw [List.getD_eq_getElem?_getD] at h
    cases harg : c.2[0]? with
    | none => rw [harg] at h; cases h
    | some v =>
      rw [harg, Option.getD_some] at h
      cases v with
      | inst r =>
        cases h
        exact List.mem_of_getElem? harg
      | _ => cases h
  · cases h

theorem producerOf_rename (g : ℕ → ℕ) (c : Code) :
    producerOf (Code.rename g c) = (producerOf c).map g := by
  unfold producerOf
  rw [rename_getD, show (Code.rename g c).1 = c.1 from rfl]
  split
  · cases c.2.getD 0 .void <;> rfl
  · rfl

theorem produced {cs : List Code} (h : Typed [] cs) : Produced cs := by
  intro i c p hc hp
  obtain ⟨d, hd⟩ := live_of_ref h hc (producerOf_some hp).2
  have hlt := hd.lt
  rw [List.length_take] at hlt
  refine ⟨by omega, d, ?_, hd.2⟩
  exact (Rebuilt.prefix_getElem? (List.take_prefix i cs) hd.lt).trans hd.1

theorem flag_live (options : PolyfillOptions) {cs : List Code} {i : ℕ} {c : Code} {p : ℕ}
    (hc : cs[i]? = some c) (hp : producerOf c = some p) :
    LiveAt cs i c ∧ options.expands c.1 = false :=
  have hop := associated_opcode options (producerOf_some hp).1
  ⟨⟨hc, hop.1⟩, hop.2⟩

/-! ### The pairs of the rebuilt block -/

namespace Rebuilt

variable {options : PolyfillOptions} {cs P : List Code} {ρ : List Value}
  (h : Rebuilt options cs P ρ)
include h

/-- Every instruction is one of an expansion, or one of the original block. -/
theorem origin {r : ℕ} {d : Code} (hd : P[r]? = some d) : isExpansionOpcode d.1 = true ∨
    ∃ k c, LiveAt cs k c ∧ options.expands c.1 = false ∧ place ρ k = r ∧
      d = Code.rename (place ρ) c := by
  refine (h.new r d hd).imp id fun ⟨k, c, hk, hexpands, hplace⟩ => ?_
  have hkept := h.kept k c hk hexpands
  rw [hplace, hd, Option.some_inj] at hkept
  exact ⟨k, c, hk, hexpands, hplace, hkept⟩

theorem live {r : ℕ} {d : Code} (hd : P[r]? = some d) : d.1 ≠ .void := by
  rcases h.origin hd with hop | ⟨k, c, hk, -, -, rfl⟩
  · exact (expansion_opcode options hop).1
  · exact hk.2

theorem replaced {r : ℕ} {d : Code} (hd : P[r]? = some d) : options.expands d.1 = false := by
  rcases h.origin hd with hop | ⟨k, c, -, hexpands, -, rfl⟩
  · exact (expansion_opcode options hop).2.2
  · exact hexpands

theorem pairs_eq :
    pairs P = (pairs cs).map fun pair => (place ρ pair.1, place ρ pair.2) := by
  refine sorted_eq (pairs_sorted P) ?_ fun pair => ?_
  · refine List.pairwise_map.mpr ((pairs_sorted cs).imp_of_mem fun {a b} ha hb hlt => ?_)
    obtain ⟨c, hc, hp⟩ := mem_pairs.1 ha
    obtain ⟨d, hd, hq⟩ := mem_pairs.1 hb
    exact h.order _ c _ d (flag_live options hc hp).1 (flag_live options hd hq).1 hlt
  · rw [List.mem_map, mem_pairs]
    refine ⟨fun ⟨d, hd, hp⟩ => ?_, ?_⟩
    · rcases h.origin hd with hop | ⟨k, c, hk, -, hplace, rfl⟩
      · have := (expansion_opcode options hop).2.1
        rw [(producerOf_some hp).1] at this
        cases this
      · rw [producerOf_rename] at hp
        obtain ⟨p, hp, hplace'⟩ := Option.map_eq_some_iff.mp hp
        exact ⟨(p, k), mem_pairs.2 ⟨c, hk.1, hp⟩, Prod.ext hplace' hplace⟩
    · rintro ⟨⟨p, i⟩, hpair, rfl⟩
      obtain ⟨c, hc, hp⟩ := mem_pairs.1 hpair
      obtain ⟨hlive, hexpands⟩ := flag_live options hc hp
      refine ⟨_, h.kept i c hlive hexpands, ?_⟩
      rw [producerOf_rename, hp]
      rfl

theorem produced_places (hproduced : Produced cs) : Produced P := by
  intro r d q hd hq
  have hmem : (q, r) ∈ pairs P := mem_pairs.2 ⟨d, hd, hq⟩
  rw [h.pairs_eq] at hmem
  obtain ⟨⟨p, i⟩, hpair, heq⟩ := List.mem_map.mp hmem
  cases heq
  obtain ⟨c, hc, hp⟩ := mem_pairs.1 hpair
  obtain ⟨hlt, e, he⟩ := hproduced i c p hc hp
  obtain ⟨x, hx⟩ : ∃ x, P[place ρ p]? = some x :=
    ⟨_, List.getElem?_eq_getElem (h.placed p e he).2⟩
  exact ⟨h.order p e i c he (flag_live options hc hp).1 hlt, x, hx, h.live hx⟩

/-- The links of the rebuilt block are those of the original one, at the places. -/
theorem links (hproduced : Produced cs) : ∃ next next',
    (pairs cs).foldlM attach (List.replicate cs.length none) = some next ∧
      (pairs P).foldlM attach (List.replicate P.length none) = some next' ∧
      Mirrored (fun k => ∃ c, LiveAt cs k c)
        (fun k => ∃ c p, cs[k]? = some c ∧ producerOf c = some p) (place ρ) next next' ∧
      Chained next next.length ∧ Chained next' next'.length := by
  have hnone : ∀ n j k, ¬ Follows (List.replicate n (none : Option ℕ)) j k := by
    intro n j k hfollows
    have := List.mem_of_getElem? hfollows
    rw [List.mem_replicate] at this
    cases this.2
  have hchained : ∀ n, Chained (List.replicate n none) 0 := fun n =>
    ⟨Nat.zero_le _, fun j k hjk => absurd hjk (hnone n j k),
      fun j k hjk => absurd hjk (hnone n j k)⟩
  rw [h.pairs_eq]
  refine Mirrored.foldlM (fun k ⟨c, p, hc, hp⟩ => ⟨c, (flag_live options hc hp).1⟩)
    (fun j k ⟨c, hj⟩ ⟨d, hk⟩ hlt => h.order j c k d hj hk hlt) (pairs_sorted cs) ?_ ?_
    (hchained _) (hchained _) fun pair _ => ⟨Nat.zero_le _, Nat.zero_le _⟩
  · intro pair hpair
    obtain ⟨c, hc, hp⟩ := mem_pairs.1 hpair
    obtain ⟨hlt, hlive⟩ := hproduced _ c _ hc hp
    exact ⟨hlt, hlive, c, pair.1, hc, hp⟩
  · refine ⟨fun k ⟨c, hk⟩ => ?_, fun j k hjk => absurd hjk (hnone _ j k), fun k ⟨c, hk⟩ => ?_⟩
    · rw [List.length_replicate, List.length_replicate]
      exact ⟨hk.lt, (h.placed k c hk).2⟩
    · rw [List.getElem?_replicate, List.getElem?_replicate, if_pos (h.placed k c hk).2,
        if_pos hk.lt]
      rfl

end Rebuilt


/-! ### The pass -/

/-- What the pass makes of a block, with the place of each instruction. -/
structure Polyfilled (options : PolyfillOptions) (l l' : LinkedBlock) (g : ℕ → ℕ) : Prop where
  unchanged : options = .off → l' = l ∧ g = id
  order : ∀ j c k d, LiveAt l.block.code j c → LiveAt l.block.code k d → j < k → g j < g k
  kept : ∀ k c, LiveAt l.block.code k c → options.expands c.1 = false →
    l'.block.code[g k]? = some (Code.rename g c)
  origin : ∀ r d, LiveAt l'.block.code r d → isExpansionOpcode d.1 = true ∨
    ∃ k c, LiveAt l.block.code k c ∧ options.expands c.1 = false ∧ g k = r ∧ d = Code.rename g c
  replaced : ∀ (r : ℕ) (d : Code), l'.block.code[r]? = some d → options.expands d.1 = false
  /-- Whatever the remaining opcodes mean, the guest state is the same one. -/
  state : ∀ (S : Type) (other : Machine S) (s : S),
    (runCode (vectorExec other) l'.block.code s).2 = (runCode (vectorExec other) l.block.code s).2
  /-- And so is every result, with the flags to read off it. -/
  value : ∀ (S : Type) (other : Machine S) (s : S) k c, LiveAt l.block.code k c →
    outcome other l'.block.code s (.inst (g k)) = outcome other l.block.code s (.inst k)
  counted : ∀ k < l'.block.instructions.length,
    (l'.block.inst k).useCount = (l'.block.instructions.flatMap Inst.refs).count k
  /-- An instruction has the flags that refer to it. -/
  flags : options ≠ .off → ∀ (i : ℕ) (c : Code) (p : ℕ), l.block.code[i]? = some c →
    producerOf c = some p → OnChain l'.nextPseudoop (g p) (g i)
  /-- And it has them in the order of the original block. -/
  attached : options ≠ .off → ∃ next, rebuildPseudoOpLinks l.block = some next ∧
    ∀ k c opcode, LiveAt l.block.code k c → l'.getAssociatedPseudoOperation (g k) opcode =
      ((LinkedBlock.mk l.block next).getAssociatedPseudoOperation k opcode).map g

variable {options : PolyfillOptions} {l : LinkedBlock}

theorem rename_id (c : Code) : Code.rename id c = c := by
  have hargs : c.2.map (Value.mapRef id) = c.2 :=
    (List.map_congr_left fun v _ => by cases v <;> rfl).trans (List.map_id _)
  rw [Code.rename, hargs]

theorem expands_off (op : Opcode) : PolyfillOptions.off.expands op = false := by
  unfold PolyfillOptions.expands
  split <;> rfl

theorem polyfilled_off (hb : WellFormed l.block) : Polyfilled .off l l id where
  unchanged _ := ⟨rfl, rfl⟩
  order _ _ _ _ _ _ h := h
  kept k c hk _ := by
    rw [rename_id]
    exact hk.1
  origin r d hd := .inr ⟨r, d, hd, expands_off d.1, rfl, (rename_id d).symm⟩
  replaced _ d _ := expands_off d.1
  state _ _ _ := rfl
  value _ _ _ _ _ _ := rfl
  counted := hb.counted
  flags h := absurd rfl h
  attached h := absurd rfl h

theorem polyfilled_on (hoptions : options ≠ .off) (hb : WellFormed l.block) {b : Block}
    {ρ : List Value} (h : Rebuilt options l.block.code b.code ρ) : ∃ next',
      rebuildPseudoOpLinks b.recomputeUseCounts = some next' ∧
        Polyfilled options l ⟨b.recomputeUseCounts, next'⟩ (place ρ) := by
  have hproduced := produced hb.typed
  obtain ⟨next, next', hnext, hnext', hmirrored, hchained, hchained'⟩ := h.links hproduced
  have hlen : l.block.instructions.length = l.block.code.length := (List.length_map _).symm
  have hlen' : b.recomputeUseCounts.instructions.length = b.code.length := by
    rw [← b.code_recomputeUseCounts]
    exact (List.length_map _).symm
  have horiginal : rebuildPseudoOpLinks l.block = some next := by
    rw [rebuildPseudoOpLinks_eq (fun k hk => ?_) hproduced, hlen]
    · exact hnext
    · exact isTombstone_iff hb (l.block.getElem?_inst hk)
  have hrebuilt : rebuildPseudoOpLinks b.recomputeUseCounts = some next' := by
    rw [rebuildPseudoOpLinks_eq (fun k hk => ?_), b.code_recomputeUseCounts, hlen']
    · exact hnext'
    · rw [b.code_recomputeUseCounts]
      exact h.produced_places hproduced
    · have hat := b.recomputeUseCounts.code_inst hk
      rw [b.code_recomputeUseCounts] at hat
      have hvoid := h.live hat
      exact ⟨fun hremoved => (of_decide_eq_true hremoved).1, fun hvoid' => absurd hvoid' hvoid⟩
  have hopcode : ∀ k, (∃ c p, l.block.code[k]? = some c ∧ producerOf c = some p) →
      (b.recomputeUseCounts.inst (place ρ k)).opcode = (l.block.inst k).opcode := by
    rintro k ⟨c, p, hc, hp⟩
    have hkept := h.kept k c (flag_live options hc hp).1 (flag_live options hc hp).2
    rw [← b.code_recomputeUseCounts] at hkept
    exact (congrArg Prod.fst (Block.inst_code hkept)).trans
      (congrArg Prod.fst (Block.inst_code hc)).symm
  refine ⟨next', hrebuilt, ?_⟩
  exact {
    unchanged := fun hoff => absurd hoff hoptions
    order := h.order
    kept := fun k c hk hexpands => by
      rw [b.code_recomputeUseCounts]
      exact h.kept k c hk hexpands
    origin := fun r d hd => by
      rw [b.code_recomputeUseCounts] at hd
      exact h.origin hd.1
    replaced := fun r d hd => by
      rw [b.code_recomputeUseCounts] at hd
      exact h.replaced hd
    state := fun S other s => by
      rw [b.code_recomputeUseCounts]
      exact h.state S other s
    value := fun S other s k c hk => by
      rw [b.code_recomputeUseCounts]
      exact h.value S other s k c hk
    counted := fun k hk => b.recomputeUseCounts_counted hk
    flags := fun _ i c p hc hp => by
      have hpair : (p, i) ∈ pairs l.block.code := mem_pairs.2 ⟨c, hc, hp⟩
      rw [h.pairs_eq] at hnext'
      exact (foldlM_onChain hnext').2 _ (List.mem_map_of_mem hpair)
    attached := fun _ => ⟨next, horiginal, fun k c opcode hk =>
      LinkedBlock.getAssociatedPseudoOperation_mirrored
        (fun k ⟨c, p, hc, hp⟩ => ⟨c, (flag_live options hc hp).1⟩) hmirrored hopcode hchained
        hchained' ⟨c, hk⟩⟩ }

/-- The expanded instructions give way to code with their results, the others stay with their
references renamed, and everything keeps its flags. -/
theorem polyfill_refines (options : PolyfillOptions) (l : LinkedBlock) (hb : WellFormed l.block)
    (hselectors : ∀ c ∈ l.block.code, SelectorFits c.1 c.2) :
    ∃ l' g, polyfill l options = some l' ∧ Polyfilled options l l' g := by
  unfold polyfill
  split
  · rename_i hoff
    subst hoff
    exact ⟨l, id, rfl, polyfilled_off hb⟩
  · rename_i hoptions
    obtain ⟨b, ρ, hrebuild, h⟩ := rebuild_spec options hb hselectors
    obtain ⟨next', hlinks, hspec⟩ := polyfilled_on hoptions hb h
    refine ⟨_, place ρ, ?_, hspec⟩
    rw [hrebuild]
    dsimp only [bind, Option.bind]
    rw [hlinks]

/-- Two expanded instructions, a removed one and the flags of a hash. -/
def mixedBlock : LinkedBlock where
  block := ⟨[⟨.zeroVector, [], 5⟩, ⟨.void, [], 0⟩,
    ⟨.sha256Hash, [.inst 0, .inst 0, .inst 0, .immU1 true], 2⟩, ⟨.getNZFromOp, [.inst 2], 0⟩,
    ⟨.vectorMultiplySignedWiden8, [.inst 2, .inst 0], 0⟩, ⟨.vectorZeroUpper, [.inst 0], 0⟩]⟩
  nextPseudoop := List.replicate 6 none

theorem polyfill_refines_mixed : ∃ l' g, polyfill mixedBlock ⟨true, true⟩ = some l' ∧
    Polyfilled ⟨true, true⟩ mixedBlock l' g :=
  polyfill_refines ⟨true, true⟩ mixedBlock (by decide) (by decide)


end Polyfill

end Ruzu.Ir
