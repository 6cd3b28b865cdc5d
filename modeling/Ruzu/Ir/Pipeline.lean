import Mathlib
import Ruzu.Ir.ConstantRuns
import Ruzu.Ir.DeadCode

/-!
# The passes in a row

Constants are propagated, dead code goes, and for A32 code the identities go too. Every
pass leaves a well-formed block for the next one, and the last one a block that
verification accepts. One backend recomputes the use counts in between.
-/

set_option autoImplicit false

namespace Ruzu.Ir

/-- An argument that refers to an instruction goes with any type. -/
def typesCompatible (actual expected : Ty) : Bool :=
  actual = expected || (actual = .anyTy || expected = .anyTy)

/-- Whether verification returns. An instruction that nothing refers to may have any count. -/
def verificationPass (b : Block) : Bool :=
  let live := b.instructions.filter fun i => !i.isTombstone
  let actualUses := live.flatMap Inst.refs
  live.all (fun i => i.opcode.argTypes.zipIdx.all fun p =>
      typesCompatible (i.arg p.2).getType p.1) &&
    actualUses.all fun r => r < b.instructions.length && (b.inst r).useCount = actualUses.count r

variable (listed : ℕ → Bool)

/-- What the x64 backend does with A64 code. -/
def optimizeA64 (b : Block) : Option Block := (constantPropagation b).map (deadCodeElimination listed)

/-- What the x64 backend does with A32 code. -/
def optimizeA32 (b : Block) : Option Block := (optimizeA64 listed b).bind identityRemoval

/-- What the arm64 backend does with A32 code. -/
def optimizeA32Recomputed (b : Block) : Option Block :=
  ((constantPropagation b).map fun b => deadCodeElimination listed b.recomputeUseCounts).bind fun b =>
    (identityRemoval b).map Block.recomputeUseCounts

/-! ### Well-formed blocks -/

section WellFormed

variable {b : Block}

theorem refs_live (is : List Inst) :
    (is.filter fun i => !i.isTombstone).flatMap Inst.refs = is.flatMap Inst.refs := by
  induction is with
  | nil => rfl
  | cons i is ih =>
    rw [List.filter_cons]
    split
    · rw [List.flatMap_cons, List.flatMap_cons, ih]
    · rename_i htomb
      have hvoid : i.opcode = .void := by
        rw [Bool.not_eq_true', Bool.not_eq_false, Inst.isTombstone, decide_eq_true_eq] at htomb
        exact htomb.1
      rw [ih, List.flatMap_cons, Inst.refs, Inst.numArgs, hvoid]
      rfl

theorem typesCompatible_of_fits {ts : List Ty} {v : Value} {t : Ty} (h : Fits (typeOf ts v) t) :
    typesCompatible v.getType t = true := by
  rw [typesCompatible, Bool.or_eq_true, Bool.or_eq_true]
  simp only [decide_eq_true_eq]
  cases v with
  | inst r => exact .inr (.inl rfl)
  | _ =>
    rcases h.2 with hany | hsame
    · exact .inr (.inr hany)
    · exact .inl hsame

/-- Verification accepts a well-formed block. -/
theorem WellFormed.verified (h : WellFormed b) : verificationPass b = true := by
  rw [verificationPass]
  rw [refs_live, Bool.and_eq_true, List.all_eq_true, List.all_eq_true]
  refine ⟨fun i hi => List.all_eq_true.mpr fun p hp => ?_, fun r hr => ?_⟩
  · obtain ⟨k, hk⟩ := List.getElem?_of_mem (List.mem_of_mem_filter hi)
    have hc : b.code[k]? = some i.code := by
      rw [Block.code, List.getElem?_map, hk]
      rfl
    obtain ⟨t, j⟩ := p
    have ht := List.mk_mem_zipIdx_iff_getElem?.mp hp
    have hfit := (h.typed.fits hc).arg (k := j) (List.getElem?_eq_some_iff.mp ht).1
    rw [show i.code.1 = i.opcode from rfl, show i.opcode.argTypes.getD j .void = t by rw [List.getD_eq_getElem?_getD, ht, Option.getD_some]]
      at hfit
    exact typesCompatible_of_fits hfit
  · obtain ⟨i, hi, hmem⟩ := List.mem_flatMap.mp hr
    obtain ⟨k, hk⟩ := List.getElem?_of_mem hi
    have hc : b.code[k]? = some i.code := by
      rw [Block.code, List.getElem?_map, hk]
      rfl
    have hrk := h.typed.mem_refs hc (List.mem_of_mem_take (Code.mem_refs.1 hmem))
    have hlt : r < b.instructions.length := hrk.trans (List.getElem?_eq_some_iff.mp hk).1
    rw [Bool.and_eq_true, decide_eq_true_eq, decide_eq_true_eq]
    exact ⟨hlt, h.counted r hlt⟩

theorem inst_ext {b b' : Block} (hcode : b'.code = b.code)
    (hcount : ∀ k < b.instructions.length, (b'.inst k).useCount = (b.inst k).useCount) : b' = b := by
  have hlen : b'.instructions.length = b.instructions.length := by
    rw [← b'.length_code, hcode, b.length_code]
  suffices b'.instructions = b.instructions by
    cases b
    cases b'
    exact congrArg Block.mk this
  refine List.ext_getElem hlen fun k hk' hk => ?_
  have hinst (c : Block) (h : k < c.instructions.length) : c.instructions[k] = c.inst k := by
    rw [Block.inst, List.getD_eq_getElem _ _ h]
  rw [hinst b' hk', hinst b hk]
  have hsame : (b'.inst k).code = (b.inst k).code := by
    have hc := b'.code_inst hk'
    rw [hcode, b.code_inst hk] at hc
    exact (Option.some.inj hc).symm
  have hcount' := hcount k hk
  generalize b'.inst k = i' at hsame hcount' ⊢
  generalize b.inst k = i at hsame hcount' ⊢
  cases i
  cases i'
  cases hsame
  cases hcount'
  rfl

/-- Exact counts stay when they are recomputed. -/
theorem WellFormed.recompute (h : WellFormed b) : b.recomputeUseCounts = b := by
  have hcode := b.code_recomputeUseCounts
  have hlen : b.recomputeUseCounts.instructions.length = b.instructions.length := by
    rw [← Block.length_code, hcode, Block.length_code]
  refine inst_ext hcode fun k hk => ?_
  rw [b.recomputeUseCounts_counted (hlen.symm ▸ hk), h.counted k hk, Block.refs_code, hcode,
    ← Block.refs_code]

end WellFormed

/-! ### What the passes hand on -/

section HandOn

variable {b b' : Block} {cs cs' : List Code} {kept : ℕ → Prop}

/-- No flag is read off what has been folded. -/
theorem constantPropagation_direct (hwf : WellFormed b) (hflags : FlagsStay b.code)
    (hd : Direct b.code) (h : constantPropagation b = some b') : Direct b'.code := by
  have hfold := constantPropagation_folding hwf h
  have hget {k : ℕ} {c' : Code} (hc' : b'.code[k]? = some c') : ∃ c, b.code[k]? = some c :=
    ⟨_, List.getElem?_eq_getElem (hfold.length ▸ (List.getElem?_eq_some_iff.mp hc').1)⟩
  intro k c' hc' hread c'' r d' hc'' hr hd'
  obtain rfl := Option.some.inj (hc'.symm.trans hc'')
  obtain ⟨c, hc⟩ := hget hc'
  obtain ⟨v, hv, hof⟩ := constantPropagation_replaced hwf h hc hc'
  have hreadc : readsFlag c.1 = true := by
    cases v with
    | none => rwa [hv, replaced, prepared_op] at hread
    | some w =>
      rw [hv] at hread
      cases hread
  rw [replaced_reader hreadc fun w hw => (hof w hw).1] at hv
  subst hv
  obtain ⟨d, hd₀⟩ := hget hd'
  obtain ⟨d'', hfolded, hkeep⟩ := hflags c' (List.mem_of_getElem? hc) hread r hr d hd₀
  have hdone := hfold.done r d hd₀ (b.length_code ▸ (List.getElem?_eq_some_iff.mp hd₀).1)
  rw [hfolded, hd'] at hdone
  obtain rfl := Option.some.inj hdone
  have hid := hd k c' hc hread c' r d hc hr hd₀
  rcases hkeep with rfl | ⟨-, hop⟩
  · exact hid
  · rwa [hop]

theorem Emptied.direct (h : Emptied cs cs' kept) (hd : Direct cs) : Direct cs' := by
  have hget {k : ℕ} {c' : Code} (hc' : cs'[k]? = some c') :
      c' = (.void, []) ∨ kept k ∧ cs[k]? = some c' := by
    have hlt : k < cs.length := h.length ▸ (List.getElem?_eq_some_iff.mp hc').1
    by_cases hk : kept k
    · have hc := List.getElem?_eq_getElem hlt
      exact .inr ⟨hk, hc.trans ((h.stay k _ hc hk).symm.trans hc')⟩
    · exact .inl (Option.some.inj (hc'.symm.trans (h.emptied k hlt hk)))
  intro k c hc hread c' r d hc' hr hd'
  obtain rfl := Option.some.inj (hc.symm.trans hc')
  rcases hget hc with rfl | ⟨hk, hold⟩
  · cases hr
  · rcases hget hd' with rfl | ⟨-, hold'⟩
    · exact fun hid => by cases hid
    · exact hd k c hold hread c r d hold hr hold'

end HandOn

/-! ### The passes -/

variable {listed : ℕ → Bool} {S : Type*} {other : Machine S}

theorem quiet_arithExec (hq : Quiet listed other) : Quiet listed (arithExec other) := by
  intro op args s heffect
  by_cases hvoid : op = .void
  · rw [hvoid] at heffect
    cases heffect
  by_cases hid : op = .identity
  · rw [hid]
    rfl
  rw [arithExec_eq op args s hvoid hid]
  split
  · rfl
  split
  · rfl
  · exact hq op args s heffect

/-- No opcode with a side effect is folded. -/
theorem arithmetic_of_effect {op : Opcode} (h : op.hasSideEffects listed = true) (x y z : Val) :
    arithmetic op x y z = none := by
  cases op <;> first | rfl | cases h

theorem constantPropagation_effect {b b' : Block} (hwf : WellFormed b)
    (h : constantPropagation b = some b') {k : ℕ} {c : Code} (hc : b.code[k]? = some c)
    (heffect : c.1.hasSideEffects listed = true) : b'.code[k]? = some c := by
  have hlt := (List.getElem?_eq_some_iff.mp hc).1
  have hc' := List.getElem?_eq_getElem (l := b'.code)
    ((constantPropagation_folding hwf h).length.symm ▸ hlt)
  obtain ⟨v, hv, hof⟩ := constantPropagation_replaced hwf h hc hc'
  have hnone := arithmetic_of_effect heffect .void .void .void
  rw [hc', hv]
  cases v with
  | none => rw [replaced, prepared_other hnone]
  | some w =>
    have hsome := (hof w rfl).1
    rw [hnone] at hsome
    cases hsome

variable {b : Block}

/-- What constant propagation and dead code elimination keep together. -/
theorem optimizeA64_keeps (ho : Ordinary other) (hq : Quiet listed other) (hwf : WellFormed b)
    (hflags : FlagsStay b.code) (hd : Direct b.code) {b₂ : Block}
    (h : optimizeA64 listed b = some b₂) : WellFormed b₂ ∧ Direct b₂.code ∧
      (∀ (k : ℕ) (c : Code), b.code[k]? = some c → c.1.hasSideEffects listed = true →
        b₂.code[k]? = some c) ∧
      ∀ s, (runCode (arithExec other) b₂.code s).2 = (runCode (arithExec other) b.code s).2 := by
  obtain ⟨b₁, hb₁, rfl⟩ := Option.map_eq_some_iff.mp h
  have hwf₁ := constantPropagation_wellFormed hwf hb₁
  have helim : Eliminated listed b₁ (deadCodeElimination listed b₁) 0 :=
    deadCodeElimination_eliminated hwf₁
  have hempty := helim.emptied hwf₁.typed
  refine ⟨helim.wellFormed, hempty.direct (constantPropagation_direct hwf hflags hd hb₁),
    fun k c hc heffect => ?_, fun s => ?_⟩
  · have hc₁ := constantPropagation_effect hwf hb₁ hc heffect
    exact hempty.stay k c hc₁ (.effect hc₁ heffect)
  · exact (helim.runs (sensible_arithExec ho) (quiet_arithExec hq) hwf₁.typed s).1.trans
      (constantPropagation_keeps ho hwf hflags hb₁ s).1

end Ruzu.Ir
