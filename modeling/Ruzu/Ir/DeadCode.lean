import Mathlib
import Ruzu.Ir.Related

/-!
# Dead code elimination

From the last instruction to the first, one that has no uses and no side effects is
emptied, and the instructions it refers to lose a use. The live instructions stay:
those with side effects, and whatever a live one refers to.
-/

set_option autoImplicit false

namespace Ruzu.Ir

/-- Of the opcodes that no modelled pass tells apart, `listed` says which have side effects. -/
def Opcode.hasSideEffects (listed : ℕ → Bool) : Opcode → Bool
  | .void | .a64SetNZCVRaw | .a64SetNZCV | .a64SetW | .a64SetX | .a64SetS | .a64SetD | .a64SetQ
  | .a64SetSP | .a64SetPC | .a32SetRegister | .a32SetExtendedRegister32
  | .a32SetExtendedRegister64 | .a32SetVector | .a32SetCpsr | .a32SetCpsrNZCVRaw
  | .a32SetCpsrNZCV | .a32SetCpsrNZCVQ | .a32SetCpsrNZ | .a32SetCpsrNZC | .a32OrQFlag
  | .a32SetGEFlags | .a32SetGEFlagsCompressed | .a32BXWritePC
  | .a32UpdateUpperLocationDescriptor => true
  | .other id _ _ => listed id
  | _ => false

variable (listed : ℕ → Bool)

def eliminate (b : Block) (i : ℕ) : Block :=
  let inst := b.inst i
  if inst.isTombstone then b
  else if inst.useCount = 0 ∧ inst.opcode.hasSideEffects listed = false then
    (b.modify i .tombstone).dropUses inst.refs
  else b

def deadCodeElimination (b : Block) : Block :=
  (List.range b.instructions.length).reverse.foldl (eliminate listed) b

/-- The instruction has a side effect, or a live one refers to it. -/
inductive Live (cs : List Code) : ℕ → Prop
  | effect {k : ℕ} {c : Code} (hc : cs[k]? = some c) (h : c.1.hasSideEffects listed = true) :
    Live cs k
  | used {k j : ℕ} {c : Code} (hj : Live cs j) (hc : cs[j]? = some c) (hk : k ∈ c.refs) :
    Live cs k

/-- An opcode without side effects leaves the state alone. -/
def Quiet {S : Type*} (m : Machine S) : Prop :=
  ∀ op args s, op.hasSideEffects listed = false → (m op args s).2 = s

/-! ### One instruction -/

variable {listed} {b b' : Block} {i : ℕ}

/-- The instructions from `n` on have been looked at, and the block `b` has become `b'`. -/
structure Eliminated (listed : ℕ → Bool) (b b' : Block) (n : ℕ) : Prop where
  wellFormed : WellFormed b'
  length : b'.code.length = b.code.length
  code : ∀ (k : ℕ) (c : Code), b.code[k]? = some c → b'.code[k]? = some c ∨
    b'.code[k]? = some (.void, []) ∧ c.1.hasSideEffects listed = false
  used : ∀ (k : ℕ) (c : Code), n ≤ k → b'.code[k]? = some c → c.1.hasSideEffects listed = false →
    0 < uses b'.code k

theorem Eliminated.start (h : WellFormed b) : Eliminated listed b b b.instructions.length where
  wellFormed := h
  length := rfl
  code _ _ hc := .inl hc
  used k c hk hc _ := by
    have := (List.getElem?_eq_some_iff.mp hc).1
    rw [b.length_code] at this
    omega

theorem code_eliminated (b : Block) (i : ℕ) :
    ((b.modify i .tombstone).dropUses (b.inst i).refs).code = b.code.set i (.void, []) := by
  have h : ∀ i : Inst, i.tombstone.code = (.void, []) := fun _ => rfl
  rw [Block.code_dropUses, Block.code_modify_set h]

theorem Eliminated.next (h : Eliminated listed b b' (i+1)) (hi : i < b'.instructions.length) :
    Eliminated listed b (eliminate listed b' i) i := by
  obtain ⟨htyped, hcounted⟩ := b'.wellFormed_iff.mp h.wellFormed
  have hc := b'.code_inst hi
  have hcount := hcounted i hi
  have hlast (k : ℕ) (c : Code) (hik : i ≤ k) (hk : b'.code[k]? = some c)
      (hquiet : c.1.hasSideEffects listed = false)
      (hhere : (b'.inst i).opcode.hasSideEffects listed = true ∨ 0 < uses b'.code i) :
      0 < uses b'.code k := by
    rcases Nat.lt_or_eq_of_le hik with hlt | rfl
    · exact h.used k c hlt hk hquiet
    · obtain rfl := Option.some.inj (hc.symm.trans hk)
      exact hhere.resolve_left fun heffect => by
        rw [show (b'.inst i).code.1 = (b'.inst i).opcode from rfl, heffect] at hquiet
        cases hquiet
  rw [eliminate]
  by_cases htomb : (b'.inst i).isTombstone
  · rw [if_pos htomb]
    have hvoid : (b'.inst i).opcode = .void := by
      rw [Inst.isTombstone, decide_eq_true_eq] at htomb
      exact htomb.1
    exact { h with used := fun k c hik hk hquiet => hlast k c hik hk hquiet (.inl (by rw [hvoid]; rfl)) }
  rw [if_neg htomb]
  by_cases hdead : (b'.inst i).useCount = 0 ∧ (b'.inst i).opcode.hasSideEffects listed = false
  · rw [if_pos hdead]
    have hunread : uses b'.code i = 0 := hcount.symm.trans hdead.1
    have hcode := code_eliminated b' i
    have hsmaller (k : ℕ) (hik : i ≤ k) : uses (b'.code.set i (.void, [])) k = uses b'.code k := by
      have huses := uses_set hc (.void, []) k
      have hnone : (Code.refs (b'.inst i).code).count k = 0 := by
        refine List.count_eq_zero_of_not_mem fun hmem => ?_
        have := htyped.mem_refs hc (List.mem_of_mem_take (Code.mem_refs.1 hmem))
        omega
      have hvoid : Code.refs (.void, []) = [] := rfl
      rw [hvoid, List.count_nil, hnone] at huses
      omega
    refine ⟨(Block.wellFormed_iff _).mpr ⟨?_, ?_⟩, ?_, fun k c hk => ?_, fun k c hik hk hquiet => ?_⟩
    · rw [hcode]
      exact (emptied_set hunread).typed htyped
    · refine hcounted.remove hi hcode fun k hk => ?_
      have hk' : k < (b'.modify i .tombstone).instructions.length := by rwa [Block.length_modify]
      rw [Block.useCount_dropUses _ _ hk', Block.useCount_modify _ _ (f := .tombstone) (fun _ => rfl) hk]
    · rw [hcode, List.length_set, h.length]
    · rw [hcode]
      by_cases hki : k = i
      · rw [hki] at hk ⊢
        refine .inr ⟨List.getElem?_set_self (by rwa [b'.length_code]), ?_⟩
        rcases h.code i c hk with hsame | ⟨-, hquiet⟩
        · obtain rfl := Option.some.inj (hsame.symm.trans hc)
          exact hdead.2
        · exact hquiet
      · rw [List.getElem?_set_ne (Ne.symm hki)]
        exact h.code k c hk
    · rw [hcode] at hk ⊢
      rw [hsmaller k hik]
      by_cases hki : k = i
      · rw [hki, List.getElem?_set_self (by rwa [b'.length_code])] at hk
        obtain rfl := Option.some.inj hk
        cases hquiet
      · rw [List.getElem?_set_ne (Ne.symm hki)] at hk
        exact h.used k c (by omega) hk hquiet
  · rw [if_neg hdead]
    refine { h with used := fun k c hik hk hquiet => hlast k c hik hk hquiet ?_ }
    rw [← hcount, Nat.pos_iff_ne_zero]
    by_contra hnot
    obtain ⟨heffect, hzero⟩ := not_or.mp hnot
    exact hdead ⟨not_not.mp hzero, Bool.not_eq_true _ ▸ heffect⟩

/-! ### The pass -/

theorem length_eliminate (b : Block) (i : ℕ) :
    (eliminate listed b i).instructions.length = b.instructions.length := by
  rw [eliminate]
  split
  · rfl
  split
  · rw [Block.length_dropUses, Block.length_modify]
  · rfl

theorem Eliminated.walk {n : ℕ} (h : Eliminated listed b b' n) (hn : n ≤ b'.instructions.length) :
    Eliminated listed b ((List.range n).reverse.foldl (eliminate listed) b') 0 := by
  induction n generalizing b' with
  | zero => exact h
  | succ n ih =>
    rw [List.range_succ, List.reverse_append, List.reverse_singleton, List.singleton_append,
      List.foldl_cons]
    exact ih (h.next hn) (by rw [length_eliminate]; omega)

theorem deadCodeElimination_eliminated (h : WellFormed b) :
    Eliminated listed b (deadCodeElimination listed b) 0 :=
  (Eliminated.start h).walk le_rfl

/-- What is left is live. -/
theorem Eliminated.live (h : Eliminated listed b b' 0) {k : ℕ} {c : Code}
    (hc : b'.code[k]? = some c) (hne : c ≠ (.void, [])) : Live listed b.code k := by
  obtain ⟨htyped, -⟩ := b'.wellFormed_iff.mp h.wellFormed
  induction hn : b'.code.length - k using Nat.strong_induction_on generalizing k c with
  | _ n ih =>
    have hlt := (List.getElem?_eq_some_iff.mp hc).1
    obtain ⟨d, hd⟩ : ∃ d, b.code[k]? = some d :=
      ⟨_, List.getElem?_eq_getElem (by rwa [← h.length])⟩
    obtain rfl : d = c := by
      rcases h.code k d hd with hsame | ⟨hvoid, -⟩
      · exact Option.some.inj (hsame.symm.trans hc)
      · exact absurd (Option.some.inj (hc.symm.trans hvoid)) hne
    by_cases heffect : d.1.hasSideEffects listed = true
    · exact .effect hd heffect
    obtain ⟨j, e, he, hk⟩ := uses_pos_iff.1 (h.used k d k.zero_le hc (Bool.not_eq_true _ ▸ heffect))
    have hkj := htyped.mem_refs he (List.mem_of_mem_take (Code.mem_refs.1 hk))
    have hj := (List.getElem?_eq_some_iff.mp he).1
    have hne' : e ≠ (.void, []) := by
      rintro rfl
      cases hk
    obtain ⟨f, hf⟩ : ∃ f, b.code[j]? = some f :=
      ⟨_, List.getElem?_eq_getElem (by rwa [← h.length])⟩
    refine .used (ih _ (by omega) he hne' rfl) (c := e) ?_ hk
    rcases h.code j f hf with hsame | ⟨hvoid, -⟩
    · rw [hf, ← hsame, he]
    · exact absurd (Option.some.inj (he.symm.trans hvoid)) hne'

/-- What is live is left. -/
theorem Eliminated.kept (h : Eliminated listed b b' 0) (hty : Typed [] b.code) {k : ℕ}
    (hlive : Live listed b.code k) : b'.code[k]? = b.code[k]? := by
  obtain ⟨htyped, -⟩ := b'.wellFormed_iff.mp h.wellFormed
  induction hlive with
  | @effect k c hc heffect =>
    rcases h.code k c hc with hsame | ⟨-, hquiet⟩
    · rw [hsame, hc]
    · rw [heffect] at hquiet
      cases hquiet
  | @used k j c hj hc hk ih =>
    rw [hc] at ih
    have hmem := List.mem_of_mem_take (Code.mem_refs.1 hk)
    have hkj := hty.mem_refs hc hmem
    have hjlt := (List.getElem?_eq_some_iff.mp hc).1
    obtain ⟨d, hd⟩ : ∃ d, b.code[k]? = some d := ⟨_, List.getElem?_eq_getElem (hkj.trans hjlt)⟩
    rcases h.code k d hd with hsame | ⟨hvoid, -⟩
    · rw [hsame, hd]
    · exact absurd rfl (htyped.ref_ne_void ih hk hvoid)

theorem Eliminated.emptied (h : Eliminated listed b b' 0) (hty : Typed [] b.code) :
    Emptied b.code b'.code (Live listed b.code) where
  length := h.length
  stay k c hc hlive := (h.kept hty hlive).trans hc
  emptied k hk hdead := by
    have hc := List.getElem?_eq_getElem (h.length.symm ▸ hk)
    by_contra hne
    exact hdead (h.live hc fun heq => hne (heq ▸ hc))
  refs k c hc hlive r hr := .used hlive hc hr

variable {S : Type*} {m : Machine S}

theorem Eliminated.runs (h : Eliminated listed b b' 0) (hm : Sensible m) (hq : Quiet listed m)
    (hty : Typed [] b.code) (s : S) : (runCode m b'.code s).2 = (runCode m b.code s).2 ∧
      ∀ k < b.code.length, Live listed b.code k →
        (runCode m b.code s).1.getD k (.plain .void) =
          (runCode m b'.code s).1.getD k (.plain .void) := by
  refine (h.emptied hty).runCode hm (fun k c hc hdead args s => hq _ _ _ ?_) s
  by_contra heffect
  exact hdead (.effect hc (by simpa using heffect))

/-- Over a machine whose listed opcodes alone change the state, the pass keeps the state,
and leaves exactly the live instructions, each with its outcome. -/
theorem deadCodeElimination_keeps_live (hm : Sensible m) (hq : Quiet listed m)
    (h : WellFormed b) :
    WellFormed (deadCodeElimination listed b) ∧
      Emptied b.code (deadCodeElimination listed b).code (Live listed b.code) ∧
      ∀ s, (runCode m (deadCodeElimination listed b).code s).2 = (runCode m b.code s).2 ∧
        ∀ k < b.code.length, Live listed b.code k →
          (runCode m b.code s).1.getD k (.plain .void) =
            (runCode m (deadCodeElimination listed b).code s).1.getD k (.plain .void) := by
  have he : Eliminated listed b (deadCodeElimination listed b) 0 := deadCodeElimination_eliminated h
  exact ⟨he.wellFormed, he.emptied h.typed, he.runs hm hq h.typed⟩

/-! ### A sum that nothing reads -/

/-- Every opcode but the identity returns zero. -/
def bare : Machine Unit := fun op args s =>
  (.plain (if op = .identity then (args.getD 0 (.plain .void)).value else .zero op.returnType), s)

theorem sensible_bare : Sensible bare where
  void _ _ := rfl
  identity _ _ := rfl
  typed op args s hid := by
    rw [bare, if_neg hid]
    exact Val.zero_hasTy _

/-- Of two sums one is stored; the other one is read by a dead instruction only. -/
def deadBlock : Block :=
  ((((Block.mk []).append .add32 [.immU32 1, .immU32 2, .immU1 false]).append .add32
    [.immU32 3, .immU32 4, .immU1 false]).append .not32 [.inst 0]).append .a64SetNZCVRaw [.inst 1]

theorem deadCodeElimination_keeps_live_sum :
    WellFormed (deadCodeElimination (fun _ => false) deadBlock) ∧
      Emptied deadBlock.code (deadCodeElimination (fun _ => false) deadBlock).code
        (Live (fun _ => false) deadBlock.code) ∧
      ∀ s, (runCode bare (deadCodeElimination (fun _ => false) deadBlock).code s).2 =
          (runCode bare deadBlock.code s).2 ∧
        ∀ k < deadBlock.code.length, Live (fun _ => false) deadBlock.code k →
          (runCode bare deadBlock.code s).1.getD k (.plain .void) =
            (runCode bare (deadCodeElimination (fun _ => false) deadBlock).code s).1.getD k
              (.plain .void) :=
  deadCodeElimination_keeps_live sensible_bare (fun _ _ _ _ => rfl) (by decide)

end Ruzu.Ir
