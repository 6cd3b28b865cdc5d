import Mathlib
import Ruzu.Ir.ConstantSound
import Ruzu.Ir.IdentityRemoval

/-!
# What constant propagation keeps

The pass rewrites each instruction by itself. The value stays, and with it the state and
the values of everything that reads it; a flag stays where the instruction it is read off
does, or is an addition whose operands change places.
-/

set_option autoImplicit false

namespace Ruzu.Ir

/-! ### The code of one instruction -/

/-- What `prepare` makes of the code. -/
def prepared (c : Code) : Code :=
  if isShift c.1 then
    if 3 ≤ c.1.numArgs then (c.1, c.2.set 2 (.immU1 false)) else c
  else if isAdd c.1 then
    if (c.2.getD 0 .void).isImmediate && !(c.2.getD 1 .void).isImmediate then
      (c.1, (c.2.set 0 (c.2.getD 1 .void)).set 1 (c.2.getD 0 .void))
    else c
  else c

def replaced (c : Code) : Option Value → Code
  | some v => (.identity, [v])
  | none => prepared c

/-- What the pass makes of the code. -/
def folded (c : Code) : Option Code := (foldOf c.1 (prepared c).2).map (replaced c)

theorem prepared_op (c : Code) : (prepared c).1 = c.1 := by
  unfold prepared
  split_ifs <;> rfl

theorem mem_of_getD {l : List Value} {k r : ℕ} (h : .inst r = l.getD k .void) : .inst r ∈ l := by
  rw [List.getD_eq_getElem?_getD] at h
  cases hk : l[k]? with
  | none =>
    rw [hk] at h
    cases h
  | some v =>
    rw [hk, Option.getD_some] at h
    exact h ▸ List.mem_of_getElem? hk

theorem set_same {α : Type*} {l : List α} {k : ℕ} {a : α} (h : l[k]? = some a) : l.set k a = l := by
  obtain ⟨hk, rfl⟩ := List.getElem?_eq_some_iff.mp h
  exact List.set_getElem_self hk

section Block

variable {b : Block} {i : ℕ} (hb : b.Counted) (hi : i < b.instructions.length)
  (hlen : (b.inst i).args.length = (b.inst i).numArgs)
include hlen

theorem args_get {a : ℕ} (ha : a < (b.inst i).numArgs) :
    (b.inst i).args[a]? = some ((b.inst i).arg a) := by
  rw [Inst.arg, List.getD_eq_getElem?_getD, List.getElem?_eq_getElem (hlen.symm ▸ ha),
    Option.getD_some]

include hb hi

theorem prepare_spec : (prepare b i).code = b.code.set i (prepared (b.inst i).code) ∧
    (prepare b i).Counted := by
  have hsame := set_same (b.code_inst hi)
  rw [prepare, prepared]
  change (if isShift (b.inst i).opcode = true then _ else _ : Block).code = b.code.set i
      (if isShift (b.inst i).opcode = true then _ else _) ∧ _
  by_cases hshift : isShift (b.inst i).opcode = true
  · rw [if_pos hshift, if_pos hshift]
    by_cases hnum : 3 ≤ (b.inst i).numArgs
    · rw [if_pos hnum, if_pos (show 3 ≤ (b.inst i).code.1.numArgs from hnum)]
      exact ⟨Block.code_setArg_at b hi 2 _, hb.setArg hi hnum (args_get hlen hnum) _⟩
    · rw [if_neg hnum, if_neg (show ¬3 ≤ (b.inst i).code.1.numArgs from hnum)]
      exact ⟨hsame.symm, hb⟩
  rw [if_neg hshift, if_neg hshift]
  by_cases hadd : isAdd (b.inst i).opcode = true
  · rw [if_pos hadd, if_pos (show isAdd (b.inst i).code.1 = true from hadd)]
    have hnum : (b.inst i).numArgs = 3 := by
      rw [Inst.numArgs]
      unfold isAdd at hadd
      split at hadd
      case h_1 hop => rw [hop]; rfl
      case h_2 hop => rw [hop]; rfl
      case h_3 => cases hadd
    by_cases hswap : ((b.inst i).arg 0).isImmediate && !((b.inst i).arg 1).isImmediate
    · rw [if_pos hswap, if_pos (show ((b.inst i).code.2.getD 0 .void).isImmediate &&
        !((b.inst i).code.2.getD 1 .void).isImmediate from hswap)]
      have h0 : 0 < (b.inst i).numArgs := by omega
      have h1 : 1 < (b.inst i).numArgs := by omega
      have hcounted := hb.setArg hi h0 (args_get hlen h0) ((b.inst i).arg 1)
      have hi' : i < (b.setArg i 0 ((b.inst i).arg 1)).instructions.length := by
        rw [← Block.length_code, Block.code_setArg_at b hi, List.length_set, Block.length_code]
        exact hi
      have hcode := Block.code_setArg_at b hi 0 ((b.inst i).arg 1)
      have hinst : ((b.setArg i 0 ((b.inst i).arg 1)).inst i).code =
          ((b.inst i).opcode, (b.inst i).args.set 0 ((b.inst i).arg 1)) := by
        refine Block.inst_code ?_
        rw [hcode, List.getElem?_set_self (by rwa [b.length_code])]
      have hop : ((b.setArg i 0 ((b.inst i).arg 1)).inst i).opcode = (b.inst i).opcode :=
        congrArg Prod.fst hinst
      have hargs : ((b.setArg i 0 ((b.inst i).arg 1)).inst i).args =
          (b.inst i).args.set 0 ((b.inst i).arg 1) := congrArg Prod.snd hinst
      refine ⟨?_, hcounted.setArg hi' (v := (b.inst i).arg 1) ?_ ?_ _⟩
      · rw [Block.code_setArg_at _ hi', hop, hargs, hcode, List.set_set]
        rfl
      · rw [Inst.numArgs, hop]
        exact h1
      · rw [hargs, List.getElem?_set_ne (by decide)]
        exact args_get hlen h1
    · rw [if_neg hswap, if_neg (show ¬(((b.inst i).code.2.getD 0 .void).isImmediate &&
        !((b.inst i).code.2.getD 1 .void).isImmediate) from hswap)]
      exact ⟨hsame.symm, hb⟩
  · rw [if_neg hadd, if_neg (show ¬isAdd (b.inst i).code.1 = true from hadd)]
    exact ⟨hsame.symm, hb⟩

theorem constantFold_spec (hvoid : (b.inst i).opcode = .void → (b.inst i).args = []) :
    match folded (b.inst i).code with
    | none => constantFold b i = none
    | some c => ∃ b', constantFold b i = some b' ∧ b'.code = b.code.set i c ∧ b'.Counted := by
  obtain ⟨hcode, hcounted⟩ := prepare_spec hb hi hlen
  have hi' : i < (prepare b i).instructions.length := by
    rw [← Block.length_code, hcode, List.length_set, Block.length_code]
    exact hi
  have hinst : ((prepare b i).inst i).code = prepared (b.inst i).code := by
    refine Block.inst_code ?_
    rw [hcode, List.getElem?_set_self (by rwa [b.length_code])]
  have hargs : ((prepare b i).inst i).args = (prepared (b.inst i).code).2 :=
    congrArg Prod.snd hinst
  rw [constantFold, folded, hargs]
  by_cases htomb : (b.inst i).isTombstone = true
  · rw [if_pos htomb]
    rw [Inst.isTombstone, decide_eq_true_eq] at htomb
    have hc : (b.inst i).code = (.void, []) := by rw [Inst.code, htomb.1, hvoid htomb.1]
    have hget : b.code[i]? = some (.void, []) := by rw [b.code_inst hi, hc]
    rw [hc]
    exact ⟨b, rfl, (set_same hget).symm, hb⟩
  rw [if_neg htomb, replaceWith, show (b.inst i).code.1 = (b.inst i).opcode from rfl]
  cases foldOf (b.inst i).opcode (prepared (b.inst i).code).2 with
  | none => rfl
  | some fold =>
    cases fold with
    | none => exact ⟨_, rfl, hcode, hcounted⟩
    | some v =>
      refine ⟨_, rfl, ?_, hcounted.replaceUsesWith hi' v⟩
      rw [Block.code_replaceUsesWith, hcode, List.set_set]
      rfl

end Block

/-! ### Types and values of one instruction -/

/-- Some outcomes of the types. -/
def zeros (ts : List Ty) : List Outcome := ts.map fun t => .plain (.zero t)

theorem typedEnv_zeros (ts : List Ty) : TypedEnv (zeros ts) ts := by
  rw [TypedEnv, zeros, List.forall₂_map_left_iff]
  exact List.forall₂_same.mpr fun t _ => Val.zero_hasTy t

/-- An argument with a value that has a type is of that type. -/
theorem typeOf_of_value {ts : List Ty} {v : Value} {t : Ty} (ht : t ≠ .void)
    (h : (evalArg (zeros ts) v).value.ty = t) : typeOf ts v = t := by
  cases v with
  | inst r =>
    have hvalue : evalArg (zeros ts) (.inst r) = .plain (.zero (ts.getD r .void)) :=
      List.getD_map ts .void fun t => Outcome.plain (Val.zero t)
    rw [hvalue] at h
    change ts.getD r .void = t
    generalize ts.getD r .void = u at h
    cases u <;> first | exact h | exact absurd h.symm ht
  | _ => exact h

theorem arithmetic_total (op : Opcode) :
    (∀ x y z, arithmetic op x y z = none) ∨ ∀ x y z, ∃ o, arithmetic op x y z = some o := by
  cases op <;> first | exact .inl fun _ _ _ => rfl | exact .inr fun _ _ _ => ⟨_, rfl⟩

theorem arithmetic_ty_ne_void {op : Opcode} {x y z : Val} {o : Outcome}
    (h : arithmetic op x y z = some o) : op.returnType ≠ .void ∧ op ≠ .identity ∧ op ≠ .void ∧
      pseudoOf op = none := by
  cases op <;> cases h <;> exact ⟨by decide, by decide, by decide, rfl⟩

/-- The opcodes that are not arithmetic stay. -/
theorem foldOf_other {op : Opcode} {x y z : Val} (h : arithmetic op x y z = none)
    (args : List Value) : foldOf op args = some none := by
  cases op <;> first | rfl | cases h

theorem prepared_other {c : Code} {x y z : Val} (h : arithmetic c.1 x y z = none) :
    prepared c = c := by
  obtain ⟨op, args⟩ := c
  cases op <;> first | rfl | cases h

theorem mem_prepared {c : Code} {r : ℕ} (h : Value.inst r ∈ (prepared c).2) : Value.inst r ∈ c.2 := by
  unfold prepared at h
  split_ifs at h with hshift hnum hadd hswap
  · rcases List.mem_or_eq_of_mem_set h with h | h
    · exact h
    · cases h
  · exact h
  · rcases List.mem_or_eq_of_mem_set h with h | h
    · rcases List.mem_or_eq_of_mem_set h with h | h
      · exact h
      · exact mem_of_getD h
    · exact mem_of_getD h
  · exact h
  · exact h

theorem overflows_prepared {c : Code} (h : Overflows (prepared c)) : Overflows c := by
  have hop : c.1 = .signedDiv64 := by rw [← prepared_op c, h]
  have hsame : prepared c = c := by
    rw [prepared, hop]
    rfl
  rwa [hsame] at h

theorem folded_overflows : folded (.signedDiv64, [.immU64 (BitVec.intMin 64), .immU64 (-1)]) =
    none := by
  decide

/-- How a place keeps what flags are read off it. -/
def KeepsFlags (c c' : Code) : Prop := c' = c ∨ isAdd c.1 = true ∧ c'.1 = c.1

instance (c c' : Code) : Decidable (KeepsFlags c c') :=
  inferInstanceAs (Decidable (c' = c ∨ isAdd c.1 = true ∧ c'.1 = c.1))

theorem argsFit_three {ts : List Ty} {op : Opcode} {t u v : Ty} {x y z : Value}
    (hop : op.argTypes = [t, u, v]) (hx : Fits (typeOf ts x) t) (hy : Fits (typeOf ts y) u)
    (hz : Fits (typeOf ts z) v) : ArgsFit ts (op, [x, y, z]) := by
  refine ⟨by rw [Opcode.numArgs, hop]; rfl, fun p hp => ?_⟩
  rw [hop] at hp
  simp only [List.zip_cons_cons, List.zip_nil_right, List.mem_cons, List.not_mem_nil,
    or_false] at hp
  rcases hp with rfl | rfl | rfl
  · exact hx
  · exact hy
  · exact hz

theorem shift_spec {op : Opcode} (h : isShift op = true) (hnum : 3 ≤ op.numArgs) :
    op.argTypes = [.u32, .u8, .u1] ∧ ∃ g : Shift 32, ∀ x y z,
      arithmetic op x y z = some (.shift32 g x.w32 y.w8.toNat z.b1) := by
  cases op <;> first | cases h; done | exact ⟨rfl, _, fun _ _ _ => rfl⟩ | exact absurd hnum (by decide)

theorem sum_comm {w : ℕ} (toVal : BitVec w → Val) (a b : BitVec w) (c : Bool) :
    Outcome.sum toVal a b c = Outcome.sum toVal b a c := by
  have hadd : addWithCarry a b c = addWithCarry b a c := by
    rw [addWithCarry, addWithCarry, BitVec.add_comm a b]
  have hcarry : carryOut a b c = carryOut b a c := by
    rw [carryOut, carryOut, Nat.add_comm a.toNat]
  have hover : overflowOut a b c = overflowOut b a c := by
    rw [overflowOut, overflowOut, hadd]
    cases a.msb <;> cases b.msb <;> rfl
  rw [Outcome.sum, Outcome.sum, hadd, hcarry, hover]

theorem add_spec {op : Opcode} (h : isAdd op = true) :
    (∃ t, op.argTypes = [t, t, .u1]) ∧ ∀ x y z, arithmetic op x y z = arithmetic op y x z := by
  cases op <;> first | cases h; done | exact ⟨⟨_, rfl⟩, fun _ _ _ => congrArg some (sum_comm _ _ _ _)⟩

section Place

variable {ts : List Ty} {c : Code} (hfit : ArgsFit ts c)
include hfit

/-- Operands in front of the fold fit, and of the outcome at most a carry has changed. -/
theorem prepared_spec : ArgsFit ts (prepared c) ∧ ∀ env,
    (computed env c.1 (prepared c).2).map Outcome.value =
        (computed env c.1 c.2).map Outcome.value ∧
      (KeepsFlags c (prepared c) → computed env c.1 (prepared c).2 = computed env c.1 c.2) := by
  obtain ⟨op, args⟩ := c
  unfold prepared
  dsimp only
  split_ifs with hshift hnum hadd hswap
  · obtain ⟨htypes, g, hg⟩ := shift_spec hshift hnum
    obtain ⟨x, y, z, rfl, hx, hy, hz⟩ := args_three hfit htypes
    refine ⟨argsFit_three htypes hx hy (show Fits Ty.u1 .u1 from ⟨by decide, .inr rfl⟩),
      fun env => ⟨?_, fun hkeep => ?_⟩⟩
    · rw [computed, computed, hg, hg]
      rfl
    · rcases hkeep with hsame | ⟨hadd, -⟩
      · exact congrArg (computed env op) (congrArg Prod.snd hsame)
      · cases op <;> first | cases hshift; done | cases hadd
  · exact ⟨hfit, fun env => ⟨rfl, fun _ => rfl⟩⟩
  · obtain ⟨⟨t, htypes⟩, hcomm⟩ := add_spec hadd
    obtain ⟨x, y, z, rfl, hx, hy, hz⟩ := args_three hfit htypes
    have hsame (env : List Outcome) : computed env op [y, x, z] = computed env op [x, y, z] :=
      hcomm _ _ _
    exact ⟨argsFit_three htypes hy hx hz, fun env => ⟨congrArg _ (hsame env), fun _ => hsame env⟩⟩
  · exact ⟨hfit, fun env => ⟨rfl, fun _ => rfl⟩⟩
  · exact ⟨hfit, fun env => ⟨rfl, fun _ => rfl⟩⟩

/-- What becomes of an instruction that does not overflow. What replaces it has its value. -/
theorem folded_spec (hno : ¬Overflows c) : ∃ v, folded c = some (replaced c v) ∧
    ∀ w, v = some w → (arithmetic c.1 .void .void .void).isSome ∧
      (∀ r, w = .inst r → w ∈ c.2) ∧
      ∀ env, TypedEnv env ts → ∃ o, computed env c.1 c.2 = some o ∧
        (evalArg env w).value = o.value := by
  rcases arithmetic_total c.1 with hnone | htotal
  · refine ⟨none, ?_, fun w hw => by cases hw⟩
    rw [folded, foldOf_other (hnone .void .void .void)]
    rfl
  obtain ⟨o₀, ho₀⟩ := htotal .void .void .void
  have hsound : Sound c.1 := sound_of_arithmetic (by rw [ho₀]; rfl)
  obtain ⟨hfit', hvalue⟩ := prepared_spec hfit
  have hpair : (c.1, (prepared c).2) = prepared c := Prod.ext (prepared_op c).symm rfl
  have hfold (env : List Outcome) (henv : TypedEnv env ts) := hsound env ts (prepared c).2 henv
    (hpair ▸ hfit') fun h => hno (overflows_prepared (hpair.symm ▸ h))
  obtain ⟨-, -, v, hv, -⟩ := hfold (zeros ts) (typedEnv_zeros ts)
  refine ⟨v, by rw [folded, hv]; rfl, fun w hw => ⟨by rw [ho₀]; rfl, fun r hr => ?_, fun env henv => ?_⟩⟩
  · obtain ⟨_, -, v', hv', hof⟩ := hfold (zeros ts) (typedEnv_zeros ts)
    obtain rfl := Option.some.inj (hv.symm.trans hv')
    have hmem := (hof w hw).2 r hr
    rw [hr] at hmem ⊢
    exact mem_prepared hmem
  · obtain ⟨o', ho', v', hv', hof⟩ := hfold env henv
    obtain rfl := Option.some.inj (hv.symm.trans hv')
    have hsame := (hvalue env).1
    rw [ho'] at hsame
    obtain ⟨o, ho, heq⟩ := Option.map_eq_some_iff.mp hsame.symm
    exact ⟨o, ho, ((hof w hw).1).trans heq.symm⟩

end Place

/-- The instruction and what it becomes fit where the other does, with the same result. -/
theorem replaced_fits {ts : List Ty} {c : Code} (hfit : ArgsFit ts c) {v : Option Value}
    (hv : ∀ w, v = some w → (arithmetic c.1 .void .void .void).isSome ∧
      ∀ env, TypedEnv env ts → ∃ o, computed env c.1 c.2 = some o ∧
        (evalArg env w).value = o.value) :
    ArgsFit ts (replaced c v) ∧ resultType ts (replaced c v) = resultType ts c := by
  cases v with
  | none =>
    refine ⟨(prepared_spec hfit).1, ?_⟩
    rcases arithmetic_total c.1 with hnone | htotal
    · rw [replaced, prepared_other (hnone .void .void .void)]
    · obtain ⟨o, ho⟩ := htotal .void .void .void
      have hid := (arithmetic_ty_ne_void ho).2.1
      rw [replaced, resultType, prepared_op, if_neg hid, resultType, if_neg hid]
  | some w =>
    obtain ⟨-, hvalue⟩ := hv w rfl
    obtain ⟨o, ho, heq⟩ := hvalue (zeros ts) (typedEnv_zeros ts)
    obtain ⟨hty, hid, -⟩ := arithmetic_ty_ne_void ho
    have htype : typeOf ts w = c.1.returnType :=
      typeOf_of_value hty (by rw [heq]; exact arithmetic_ty ho)
    refine ⟨⟨rfl, fun p hp => ?_⟩, ?_⟩
    · obtain rfl : p = (w, .anyTy) := List.mem_singleton.mp hp
      exact ⟨fun h => hty (htype.symm.trans h), .inl rfl⟩
    · rw [resultType, resultType, if_neg hid]
      exact (if_pos rfl).trans htype

/-! ### The walk -/

theorem foldlM_range_inv {β : Type*} {f : β → ℕ → Option β} (P : ℕ → β → Prop) {n : ℕ} {b b' : β}
    (hstart : P 0 b) (hstep : ∀ k < n, ∀ b b', P k b → f b k = some b' → P (k+1) b')
    (h : (List.range n).foldlM f b = some b') : P n b' := by
  induction n generalizing b' with
  | zero => exact Option.some.inj h ▸ hstart
  | succ n ih =>
    rw [List.range_succ, List.foldlM_append, Option.bind_eq_bind] at h
    obtain ⟨b₁, hb₁, h⟩ := Option.bind_eq_some_iff.mp h
    have hlast : f b₁ n = some b' := by
      cases hf : f b₁ n with
      | none =>
        rw [List.foldlM_cons, hf] at h
        cases h
      | some b₂ =>
        rw [List.foldlM_cons, hf] at h
        exact h
    exact hstep n (Nat.lt_succ_self n) b₁ b'
      (ih (fun k hk => hstep k (hk.trans (Nat.lt_succ_self n))) hb₁) hlast

/-- The instructions in front of `n` have been folded. -/
structure Folding (b b' : Block) (n : ℕ) : Prop where
  counted : b'.Counted
  length : b'.code.length = b.code.length
  done : ∀ (k : ℕ) (c : Code), b.code[k]? = some c → k < n → folded c = b'.code[k]?
  ahead : ∀ k, n ≤ k → b'.code[k]? = b.code[k]?

section Walk

variable {b : Block} (hwf : WellFormed b)
include hwf

theorem Folding.start : Folding b b 0 where
  counted := (b.wellFormed_iff.mp hwf).2
  length := rfl
  done _ _ _ hk := absurd hk (Nat.not_lt_zero _)
  ahead _ _ := rfl

theorem Folding.next {b' : Block} {n : ℕ} (h : Folding b b' n) {c : Code} (hc : b.code[n]? = some c) :
    match folded c with
    | none => constantFold b' n = none
    | some _ => ∃ b'', constantFold b' n = some b'' ∧ Folding b b'' (n+1) := by
  have hc' : b'.code[n]? = some c := (h.ahead n le_rfl).trans hc
  have hn : n < b'.instructions.length := b'.length_code ▸ (List.getElem?_eq_some_iff.mp hc').1
  have hcode : (b'.inst n).code = c := Block.inst_code hc'
  have hfit := hwf.typed.fits hc
  rw [← hcode] at hfit
  have hspec := constantFold_spec h.counted hn hfit.1 fun hvoid => by
    have hlen := hfit.1
    rw [show (b'.inst n).code.1 = .void from hvoid] at hlen
    exact List.length_eq_zero_iff.mp hlen
  rw [hcode] at hspec
  cases hf : folded c with
  | none =>
    rw [hf] at hspec
    exact hspec
  | some d =>
    rw [hf] at hspec
    obtain ⟨b'', hb'', hset, hcounted⟩ := hspec
    refine ⟨b'', hb'', hcounted, ?_, fun k e he hk => ?_, fun k hk => ?_⟩
    · rw [hset, List.length_set, h.length]
    · rw [hset]
      rcases Nat.lt_succ_iff_lt_or_eq.1 hk with hk | rfl
      · rw [List.getElem?_set_ne hk.ne']
        exact h.done k e he hk
      · rw [List.getElem?_set_self (List.getElem?_eq_some_iff.mp hc').1, ← hf]
        obtain rfl := Option.some.inj (hc.symm.trans he)
        rfl
    · rw [hset, List.getElem?_set_ne (by omega)]
      exact h.ahead k (by omega)

theorem constantPropagation_folding {b' : Block} (h : constantPropagation b = some b') :
    Folding b b' b.instructions.length :=
  foldlM_range_inv (fun n b' => Folding b b' n) (.start hwf) (fun k hk b₁ b₂ h₁ h₂ => by
    have hnext := h₁.next hwf (List.getElem?_eq_getElem (l := b.code) (b.length_code.symm ▸ hk))
    split at hnext
    · rw [hnext] at h₂
      cases h₂
    · obtain ⟨b₃, hb₃, hf⟩ := hnext
      obtain rfl := Option.some.inj (h₂.symm.trans hb₃)
      exact hf) h

theorem folded_none_iff {k : ℕ} {c : Code} (hc : b.code[k]? = some c) :
    folded c = none ↔ Overflows c := by
  refine ⟨fun h => ?_, fun h => by rw [h, folded_overflows]⟩
  by_contra hno
  obtain ⟨v, hv, -⟩ := folded_spec (hwf.typed.fits hc) hno
  rw [h] at hv
  cases hv

theorem constantPropagation_none_iff : constantPropagation b = none ↔ ∃ c ∈ b.code, Overflows c := by
  refine ⟨fun h => ?_, fun ⟨c, hc, hover⟩ => ?_⟩
  · by_contra hno
    obtain ⟨b', hb', -⟩ := foldlM_range (f := constantFold) (n := b.instructions.length)
      (fun n b' => Folding b b' n) (.start hwf) fun k hk b₁ h₁ => by
        have hc := List.getElem?_eq_getElem (l := b.code) (b.length_code.symm ▸ hk)
        have hnext := h₁.next hwf hc
        split at hnext
        case h_1 hnone =>
          exact absurd ⟨_, List.getElem_mem _, (folded_none_iff hwf hc).1 hnone⟩ hno
        case h_2 => exact hnext
    rw [constantPropagation, hb'] at h
    cases h
  · obtain ⟨k, hk⟩ := List.getElem?_of_mem hc
    have hlt := (List.getElem?_eq_some_iff.mp hk).1
    cases hprop : constantPropagation b with
    | none => rfl
    | some b' =>
      have h := constantPropagation_folding hwf hprop
      have hdone := h.done k c hk (b.length_code ▸ hlt)
      rw [(folded_none_iff hwf hk).2 hover, List.getElem?_eq_getElem (h.length.symm ▸ hlt)] at hdone
      cases hdone

/-- Every instruction of the block that is left is the old one or what replaces it. -/
theorem constantPropagation_replaced {b' : Block} (h : constantPropagation b = some b') {k : ℕ}
    {c c' : Code} (hc : b.code[k]? = some c) (hc' : b'.code[k]? = some c') :
    ∃ v, c' = replaced c v ∧ ∀ w, v = some w → (arithmetic c.1 .void .void .void).isSome ∧
      (∀ r, w = .inst r → w ∈ c.2) ∧
      ∀ env, TypedEnv env (typesOf (b.code.take k)) → ∃ o, computed env c.1 c.2 = some o ∧
        (evalArg env w).value = o.value := by
  have hdone := (constantPropagation_folding hwf h).done k c hc
    (b.length_code ▸ (List.getElem?_eq_some_iff.mp hc).1)
  rw [hc'] at hdone
  have hno : ¬Overflows c := fun hover => by
    rw [(folded_none_iff hwf hc).2 hover] at hdone
    cases hdone
  obtain ⟨v, hv, hof⟩ := folded_spec (hwf.typed.fits hc) hno
  exact ⟨v, Option.some.inj (hdone.symm.trans hv), hof⟩

theorem constantPropagation_wellFormed {b' : Block} (h : constantPropagation b = some b') :
    WellFormed b' := by
  have hfold := constantPropagation_folding hwf h
  refine b'.wellFormed_iff.mpr ⟨typed_same hfold.length (fun k c c' hc hc' hfit => ?_) hwf.typed,
    hfold.counted⟩
  obtain ⟨v, rfl, hof⟩ := constantPropagation_replaced hwf h hc hc'
  exact replaced_fits hfit fun w hw => ⟨(hof w hw).1, (hof w hw).2.2⟩

end Walk

/-! ### Runs -/

section Values

variable {env env' : List Outcome}
  (hvalues : ∀ r, (env'.getD r (.plain .void)).value = (env.getD r (.plain .void)).value)
include hvalues

theorem evalArg_values (v : Value) : (evalArg env' v).value = (evalArg env v).value := by
  cases v with
  | inst r => exact hvalues r
  | _ => rfl

theorem operands_values (c : Code) :
    (operands env' c).map Outcome.value = (operands env c).map Outcome.value := by
  rw [operands, operands, List.map_map, List.map_map]
  exact List.map_congr_left fun v _ => evalArg_values hvalues v

theorem computed_values (op : Opcode) (args : List Value) :
    computed env' op args = computed env op args := by
  rw [computed, computed, evalArg_values hvalues, evalArg_values hvalues, evalArg_values hvalues]

end Values

theorem ArgsFit.operands_getD {ts : List Ty} {c : Code} (h : ArgsFit ts c) (env : List Outcome)
    (k : ℕ) : (operands env c).getD k (.plain .void) = evalArg env (c.2.getD k .void) := by
  by_cases hk : k < c.1.numArgs
  · exact Ruzu.Ir.operands_getD env hk
  · rw [List.getD_eq_default _ _ (by rw [operands, List.length_map, List.length_take]; omega),
      List.getD_eq_default _ _ (by rw [h.1]; omega)]
    rfl

variable {S : Type*} {other : Machine S}

/-- An arithmetic opcode computes from the values of its operands. -/
theorem step_computed {ts : List Ty} {c : Code} (hfit : ArgsFit ts c) {env : List Outcome}
    {o : Outcome} (h : computed env c.1 c.2 = some o) (s : S) :
    step (arithExec other) c env s = (o, s) := by
  obtain ⟨-, hid, hvoid, hpseudo⟩ := arithmetic_ty_ne_void h
  rw [step, arithExec_eq c.1 _ s hvoid hid, hpseudo]
  simp only [hfit.operands_getD]
  rw [computed] at h
  rw [h]

theorem typedEnv_runCode {m : Machine S} (hm : Sensible m) {cs : List Code} (h : Typed [] cs)
    (s : S) : TypedEnv (runCode m cs s).1 (typesOf cs) := by
  induction cs using List.reverseRecOn with
  | nil => exact .nil
  | append_singleton cs c ih =>
    obtain ⟨hcs, hc⟩ := typed_snoc.1 h
    rw [runCode_snoc, typesOf_snoc, Ssa.next]
    exact (ih hcs).snoc (step_ty hm (ih hcs) hc _)

theorem typedEnv_reached {m : Machine S} (hm : Sensible m) {cs : List Code} (h : Typed [] cs)
    (k : ℕ) (s : S) : TypedEnv (reached m cs k s).1 (typesOf (cs.take k)) := by
  rw [reached_eq_take]
  refine typedEnv_runCode hm ?_ s
  rw [← List.take_append_drop k cs] at h
  exact typed_prefix h

/-- Every place that a flag is read off keeps it. -/
def FlagsStay (cs : List Code) : Prop :=
  ∀ c ∈ cs, readsFlag c.1 = true → ∀ r ∈ c.refs, ∀ d ∈ cs[r]?, ∃ d' ∈ folded d, KeepsFlags d d'

instance (cs : List Code) : Decidable (FlagsStay cs) :=
  inferInstanceAs (Decidable (∀ c ∈ cs, readsFlag c.1 = true → ∀ r ∈ c.refs, ∀ d ∈ cs[r]?,
    ∃ d' ∈ folded d, KeepsFlags d d'))

theorem replaced_reader {c : Code} (hflag : readsFlag c.1 = true) {v : Option Value}
    (hv : ∀ w, v = some w → (arithmetic c.1 .void .void .void).isSome) : replaced c v = c := by
  rcases arithmetic_total c.1 with hnone | htotal
  · cases v with
    | none => exact prepared_other (hnone .void .void .void)
    | some w =>
      have hsome := hv w rfl
      rw [hnone] at hsome
      cases hsome
  · obtain ⟨o, ho⟩ := htotal .void .void .void
    rw [readsFlag, (arithmetic_ty_ne_void ho).2.2.2] at hflag
    cases hflag

/-- The instruction at the place does what it did: the same value and state, and the same flags
where the place keeps them. -/
theorem step_replaced (ho : Ordinary other) {ts : List Ty} {c : Code} (hfit : ArgsFit ts c)
    {v : Option Value} (hof : ∀ w, v = some w → (arithmetic c.1 .void .void .void).isSome ∧
      (∀ r, w = .inst r → w ∈ c.2) ∧ ∀ env, TypedEnv env ts → ∃ o, computed env c.1 c.2 = some o ∧
        (evalArg env w).value = o.value) {env env' : List Outcome} (henv : TypedEnv env ts)
    (hvalues : ∀ r, (env'.getD r (.plain .void)).value = (env.getD r (.plain .void)).value)
    (hplain : ∀ o ∈ operands env c, o.Plausible) (hplain' : ∀ o ∈ operands env' c, o.Plausible)
    (hread : readsFlag c.1 = true → operands env' c = operands env c) (s : S) :
    (step (arithExec other) (replaced c v) env' s).1.value =
        (step (arithExec other) c env s).1.value ∧
      (KeepsFlags c (replaced c v) → (step (arithExec other) (replaced c v) env' s).1 =
        (step (arithExec other) c env s).1) ∧
      (step (arithExec other) (replaced c v) env' s).2 = (step (arithExec other) c env s).2 := by
  rcases arithmetic_total c.1 with hnone | htotal
  · -- not an arithmetic opcode, so it is left as it is
    have hsame : replaced c v = c := by
      cases v with
      | none => exact prepared_other (hnone .void .void .void)
      | some w =>
        have hsome := (hof w rfl).1
        rw [hnone] at hsome
        cases hsome
    have hstep : step (arithExec other) c env' s = step (arithExec other) c env s := by
      cases hflag : readsFlag c.1 with
      | true => rw [step, step, hread hflag]
      | false => exact arithExec_values ho hflag (operands_values hvalues c) hplain' hplain s
    rw [hsame, hstep]
    exact ⟨rfl, fun _ => rfl, rfl⟩
  · obtain ⟨o, hcomputed⟩ : ∃ o, computed env c.1 c.2 = some o := htotal _ _ _
    have hold : step (arithExec other) c env s = (o, s) := step_computed hfit hcomputed s
    cases v with
    | none =>
      obtain ⟨hfit', hprepared⟩ := prepared_spec hfit
      obtain ⟨hvalue, hkeeps⟩ := hprepared env'
      rw [(computed_values hvalues _ _).trans hcomputed] at hvalue hkeeps
      obtain ⟨o', ho', heq⟩ := Option.map_eq_some_iff.mp hvalue
      have hnew : step (arithExec other) (prepared c) env' s = (o', s) :=
        step_computed hfit' (by rw [prepared_op]; exact ho') s
      rw [replaced, hnew, hold]
      exact ⟨heq, fun hkeep => Option.some.inj (ho'.symm.trans (hkeeps hkeep)), rfl⟩
    | some w =>
      obtain ⟨o', ho', heq⟩ := (hof w rfl).2.2 env henv
      obtain rfl := Option.some.inj (hcomputed.symm.trans ho')
      have hnew : step (arithExec other) (.identity, [w]) env' s =
          (.plain (evalArg env' w).value, s) := rfl
      rw [replaced, hnew, hold]
      refine ⟨(evalArg_values hvalues w).trans heq, fun hkeep => ?_, rfl⟩
      rcases hkeep with hsame | ⟨hadd, hop⟩
      · exact absurd (congrArg Prod.fst hsame).symm (arithmetic_ty_ne_void hcomputed).2.1
      · exact absurd hop.symm (arithmetic_ty_ne_void hcomputed).2.1

theorem plausible_reached (ho : Ordinary other) (cs : List Code) (k : ℕ) (s : S) (c : Code) :
    ∀ o ∈ operands (reached (arithExec other) cs k s).1 c, o.Plausible := by
  rw [reached_eq_take]
  exact plausible_operands ho (cs.take k) s c

/-- Every instruction keeps its value, and the block leaves the same state. -/
theorem constantPropagation_keeps {b b' : Block} (ho : Ordinary other) (hwf : WellFormed b)
    (hflags : FlagsStay b.code) (hb' : constantPropagation b = some b') (s : S) :
    (runCode (arithExec other) b'.code s).2 = (runCode (arithExec other) b.code s).2 ∧
      ∀ k < b.code.length,
        ((runCode (arithExec other) b'.code s).1.getD k (.plain .void)).value =
          ((runCode (arithExec other) b.code s).1.getD k (.plain .void)).value := by
  have hlen := (constantPropagation_folding hwf hb').length
  have hm := sensible_arithExec ho
  -- a flag is the same only where the instruction keeps it
  have hrun := runCode_related (m := arithExec other) hlen (R := fun k o o' => o'.value = o.value ∧
    ∀ d d', b.code[k]? = some d → b'.code[k]? = some d' → KeepsFlags d d' → o' = o) s
    fun k c c' hc hc' _ hrel => by
      obtain ⟨v, rfl, hof⟩ := constantPropagation_replaced hwf hb' hc hc'
      have hk := (List.getElem?_eq_some_iff.mp hc).1
      have hpast {cs : List Code} (hcs : cs.length = b.code.length) {r : ℕ} (hr : k ≤ r) :
          (reached (arithExec other) cs k s).1.getD r (.plain .void) = .plain .void :=
        List.getD_eq_default _ _ (by rw [reached_length (by omega)]; exact hr)
      have hread : readsFlag c.1 = true → operands (reached (arithExec other) b'.code k s).1 c =
          operands (reached (arithExec other) b.code k s).1 c := fun hflag => by
        refine operands_congr fun r hr => ?_
        by_cases hrk : r < k
        · have hd := List.getElem?_eq_getElem (hrk.trans hk)
          obtain ⟨d', hd', hkeep⟩ := hflags c (List.mem_of_getElem? hc) hflag r hr _ hd
          have hdone := (constantPropagation_folding hwf hb').done r _ hd
            (b.length_code ▸ hrk.trans hk)
          exact (hrel r hrk).2 _ _ hd (hdone.symm.trans hd') hkeep
        · rw [hpast hlen (not_lt.mp hrk), hpast rfl (not_lt.mp hrk)]
      obtain ⟨hvalue, hkeeps, hstate⟩ := step_replaced ho (hwf.typed.fits hc) hof
        (typedEnv_reached hm hwf.typed k s) (fun r => by
          by_cases hrk : r < k
          · exact (hrel r hrk).1
          · rw [hpast hlen (not_lt.mp hrk), hpast rfl (not_lt.mp hrk)])
        (plausible_reached ho b.code k s c) (plausible_reached ho b'.code k s c) hread
        (reached (arithExec other) b.code k s).2
      refine ⟨⟨hvalue, fun d d' hd hd' hkeep => hkeeps ?_⟩, hstate⟩
      obtain rfl := Option.some.inj (hc.symm.trans hd)
      obtain rfl := Option.some.inj (hc'.symm.trans hd')
      exact hkeep
  exact ⟨hrun.1, fun k hk => (hrun.2 k hk).1⟩

/-- On a well-formed block where the flags that are read stay, the pass panics only when a
quotient overflows. Otherwise every instruction keeps its value, and the block leaves the
same state. -/
theorem constantPropagation_runs {b : Block} (ho : Ordinary other) (hwf : WellFormed b)
    (hflags : FlagsStay b.code) :
    (constantPropagation b = none ↔ ∃ c ∈ b.code, Overflows c) ∧
      ∀ b', constantPropagation b = some b' → WellFormed b' ∧ b'.code.length = b.code.length ∧
        ∀ s, (runCode (arithExec other) b'.code s).2 = (runCode (arithExec other) b.code s).2 ∧
          ∀ k < b.code.length,
            ((runCode (arithExec other) b'.code s).1.getD k (.plain .void)).value =
              ((runCode (arithExec other) b.code s).1.getD k (.plain .void)).value := by
  refine ⟨constantPropagation_none_iff hwf, fun b' hb' => ?_⟩
  exact ⟨constantPropagation_wellFormed hwf hb', (constantPropagation_folding hwf hb').length,
    constantPropagation_keeps ho hwf hflags hb'⟩

/-! ### A sum of constants -/

/-- A product of constants, and a sum of it and a register whose carry is read. -/
def sumBlock : Block :=
  (((((Block.mk []).append .mul32 [.immU32 6, .immU32 7]).append .a64GetNZCVRaw []).append .add32
    [.immU32 1, .inst 1, .immU1 false]).append .getCarryFromOp [.inst 2]).append .a64SetNZCVRaw
    [.inst 0]

theorem constantPropagation_runs_sum :
    (constantPropagation sumBlock = none ↔ ∃ c ∈ sumBlock.code, Overflows c) ∧
      ∀ b', constantPropagation sumBlock = some b' → WellFormed b' ∧
        b'.code.length = sumBlock.code.length ∧
        ∀ s, (runCode (arithExec still) b'.code s).2 =
            (runCode (arithExec still) sumBlock.code s).2 ∧
          ∀ k < sumBlock.code.length,
            ((runCode (arithExec still) b'.code s).1.getD k (.plain .void)).value =
              ((runCode (arithExec still) sumBlock.code s).1.getD k (.plain .void)).value :=
  constantPropagation_runs ordinary_still (by decide) (by decide)

end Ruzu.Ir
