import Mathlib
import Ruzu.Ir.Block
import Ruzu.Lib.Ssa

/-!
# What a block computes

An instruction maps the outcomes of its arguments and the guest state to its
own outcome and the next state. An outcome is the value and what each flag
pseudo-operation reads off the instruction. The meaning of the opcodes is a
parameter: a `Machine`.
-/

set_option autoImplicit false

namespace Ruzu.Ir

inductive Val where
  | void
  | u1 (v : Bool)
  | u8 (v : BitVec 8)
  | u16 (v : BitVec 16)
  | u32 (v : BitVec 32)
  | u64 (v : BitVec 64)
  | u128 (v : BitVec 128)
  /-- N, Z, C and V from the highest bit down. -/
  | nzcv (v : BitVec 4)
  /-- A register name, a condition and the like. -/
  | name (v : Value)
deriving DecidableEq

def Val.ty : Val → Ty
  | .void => .void
  | .u1 _ => .u1
  | .u8 _ => .u8
  | .u16 _ => .u16
  | .u32 _ => .u32
  | .u64 _ => .u64
  | .u128 _ => .u128
  | .nzcv _ => .nzcvFlags
  | .name (.immA64Reg _) => .a64Reg
  | .name (.immA64Vec _) => .a64Vec
  | .name (.immA32Reg _) => .a32Reg
  | .name (.immA32ExtReg _) => .a32ExtReg
  | .name (.immCoprocInfo _) => .coprocInfo
  | .name (.immCond _) => .cond
  | .name (.immAccType _) => .accType
  | .name _ => .void

namespace Val

/-- A value of the type. No modelled opcode looks into a table. -/
def HasTy (v : Val) (t : Ty) : Prop := t = .anyTy ∨ t = .table ∨ v.ty = t

variable {v : Val}

theorem of_ty_u1 (h : v.ty = .u1) : ∃ x, v = .u1 x := by
  cases v with
  | u1 x => exact ⟨x, rfl⟩
  | name w => cases w <;> cases h
  | _ => cases h

theorem of_ty_u32 (h : v.ty = .u32) : ∃ x, v = .u32 x := by
  cases v with
  | u32 x => exact ⟨x, rfl⟩
  | name w => cases w <;> cases h
  | _ => cases h

theorem of_ty_u64 (h : v.ty = .u64) : ∃ x, v = .u64 x := by
  cases v with
  | u64 x => exact ⟨x, rfl⟩
  | name w => cases w <;> cases h
  | _ => cases h

theorem of_ty_u128 (h : v.ty = .u128) : ∃ x, v = .u128 x := by
  cases v with
  | u128 x => exact ⟨x, rfl⟩
  | name w => cases w <;> cases h
  | _ => cases h

theorem of_ty_nzcv (h : v.ty = .nzcvFlags) : ∃ x, v = .nzcv x := by
  cases v with
  | nzcv x => exact ⟨x, rfl⟩
  | name w => cases w <;> cases h
  | _ => cases h

/-- Some value of each type. -/
def zero : Ty → Val
  | .u1 => .u1 false
  | .u8 => .u8 0
  | .u16 => .u16 0
  | .u32 => .u32 0
  | .u64 => .u64 0
  | .u128 => .u128 0
  | .nzcvFlags => .nzcv 0
  | .a64Reg => .name (.immA64Reg 0)
  | .a64Vec => .name (.immA64Vec 0)
  | .a32Reg => .name (.immA32Reg .invalidReg)
  | .a32ExtReg => .name (.immA32ExtReg (.single 0))
  | .coprocInfo => .name (.immCoprocInfo 0)
  | .cond => .name (.immCond 0)
  | .accType => .name (.immAccType 0)
  | .void | .anyTy | .table => .void

theorem zero_hasTy (t : Ty) : (zero t).HasTy t := by
  cases t <;> simp [HasTy, zero, ty]

end Val

def flagBits (n z c v : Bool) : BitVec 4 :=
  BitVec.ofBool n ++ BitVec.ofBool z ++ BitVec.ofBool c ++ BitVec.ofBool v

/-- N and Z of a value, with C and V clear. -/
def Val.nz : Val → Val
  | .u8 v => .nzcv (flagBits v.msb (v = 0) false false)
  | .u16 v => .nzcv (flagBits v.msb (v = 0) false false)
  | .u32 v => .nzcv (flagBits v.msb (v = 0) false false)
  | .u64 v => .nzcv (flagBits v.msb (v = 0) false false)
  | _ => .nzcv 0

inductive Pseudo where
  | carry | overflow | ge | nzcv | nz | upper | lower
deriving DecidableEq

structure Outcome where
  value : Val
  side : Pseudo → Val

namespace Outcome

/-- The outcome of an instruction that only has a value: N and Z can be read
off it, nothing else. -/
def plain (v : Val) : Outcome where
  value := v
  side
    | .nz => v.nz
    | .nzcv => v.nz
    | _ => .void

@[simp] theorem plain_value (v : Val) : (plain v).value = v := rfl

end Outcome

/-- The value of an immediate. The marker for absent flags has none set. -/
def Value.toVal : Value → Val
  | .void => .void
  | .inst _ => .void
  | .emptyNZCVImmediateMarker => .nzcv 0
  | .immU1 v => .u1 v
  | .immU8 v => .u8 v
  | .immU16 v => .u16 v
  | .immU32 v => .u32 v
  | .immU64 v => .u64 v
  | v => .name v

def evalArg (env : List Outcome) : Value → Outcome
  | .inst r => env.getD r (.plain .void)
  | v => .plain v.toVal

abbrev Code := Opcode × List Value

def operands (env : List Outcome) (c : Code) : List Outcome :=
  (c.2.take c.1.numArgs).map (evalArg env)

abbrev Machine (S : Type*) := Opcode → List Outcome → S → Outcome × S

section Machine

variable {S : Type*} (m : Machine S)

def step (c : Code) : Ssa.Step Outcome S := fun env s => m c.1 (operands env c) s

/-- The outcomes and the state after the code. -/
def runCode (cs : List Code) (s : S) : List Outcome × S := Ssa.run (cs.map (step m)) ([], s)

/-- What the machine makes of the two opcodes that the passes leave behind, and
the type of every other result. -/
structure Sensible : Prop where
  void : ∀ args s, m .void args s = (.plain .void, s)
  identity : ∀ r s, m .identity [r] s = (.plain r.value, s)
  typed : ∀ op args s, op ≠ .identity → (m op args s).1.value.HasTy op.returnType

end Machine

/-! ### Types -/

def typeOf (ts : List Ty) : Value → Ty
  | .inst r => ts.getD r .void
  | v => v.getType

/-- The type behind an instruction; an identity has that of its argument. -/
def resultType (ts : List Ty) (c : Code) : Ty :=
  if c.1 = .identity then typeOf ts (c.2.getD 0 .void) else c.1.returnType

/-- An argument has a type, and the one that the opcode lists. -/
def Fits (actual expected : Ty) : Prop := actual ≠ .void ∧ (expected = .anyTy ∨ actual = expected)

instance (actual expected : Ty) : Decidable (Fits actual expected) :=
  inferInstanceAs (Decidable (actual ≠ .void ∧ (expected = .anyTy ∨ actual = expected)))

def ArgsFit (ts : List Ty) (c : Code) : Prop :=
  c.2.length = c.1.numArgs ∧ ∀ p ∈ c.2.zip c.1.argTypes, Fits (typeOf ts p.1) p.2

instance (ts : List Ty) (c : Code) : Decidable (ArgsFit ts c) :=
  inferInstanceAs (Decidable (_ ∧ _))

/-- Every argument refers to an earlier result of the type the opcode lists. -/
def Typed : List Ty → List Code → Prop
  | _, [] => True
  | ts, c::cs => ArgsFit ts c ∧ Typed (ts ++ [resultType ts c]) cs

instance decidableTyped : ∀ (ts : List Ty) (cs : List Code), Decidable (Typed ts cs)
  | _, [] => inferInstanceAs (Decidable True)
  | ts, c::cs =>
    have := decidableTyped (ts ++ [resultType ts c]) cs
    inferInstanceAs (Decidable (_ ∧ _))

/-- Arguments refer to earlier results of the right type, and use counts are
exact. -/
structure WellFormed (b : Block) : Prop where
  typed : Typed [] b.code
  counted : ∀ k < b.instructions.length,
    (b.inst k).useCount = (b.instructions.flatMap Inst.refs).count k

instance (b : Block) : Decidable (WellFormed b) :=
  decidable_of_iff (Typed [] b.code ∧ ∀ k < b.instructions.length,
    (b.inst k).useCount = (b.instructions.flatMap Inst.refs).count k)
    ⟨fun h => ⟨h.1, h.2⟩, fun h => ⟨h.typed, h.counted⟩⟩

def TypedEnv (env : List Outcome) (ts : List Ty) : Prop :=
  List.Forall₂ (fun o t => o.value.HasTy t) env ts

variable {env : List Outcome} {ts : List Ty}

theorem TypedEnv.getD (h : TypedEnv env ts) (k : ℕ) :
    (env.getD k (.plain .void)).value.HasTy (ts.getD k .void) := by
  induction h generalizing k with
  | nil => exact Or.inr (Or.inr rfl)
  | cons hhead _ ih =>
    cases k with
    | zero => exact hhead
    | succ k => exact ih k

theorem evalArg_ty (h : TypedEnv env ts) (v : Value) :
    (evalArg env v).value.HasTy (typeOf ts v) := by
  cases v with
  | inst r => exact h.getD r
  | _ => exact Or.inr (Or.inr rfl)

theorem TypedEnv.snoc (h : TypedEnv env ts) {o : Outcome} {t : Ty} (ho : o.value.HasTy t) :
    TypedEnv (env ++ [o]) (ts ++ [t]) :=
  List.rel_append h (.cons ho .nil)

theorem operands_identity {c : Code} (hc : ArgsFit ts c) (hid : c.1 = .identity) :
    operands env c = [evalArg env (c.2.getD 0 .void)] := by
  obtain ⟨op, args⟩ := c
  simp only at hid
  subst hid
  have hlen : args.length = 1 := hc.1
  obtain ⟨v, rfl⟩ := List.length_eq_one_iff.mp hlen
  rfl

theorem operands_getD (env : List Outcome) {c : Code} {k : ℕ} (hk : k < c.1.numArgs) :
    (operands env c).getD k (.plain .void) = evalArg env (c.2.getD k .void) := by
  simp only [operands, List.getD_eq_getElem?_getD, List.getElem?_map, List.getElem?_take, if_pos hk]
  cases c.2[k]? <;> rfl

theorem evalArg_append {v : Value} (hv : ∀ r, v = .inst r → r < env.length) (os : List Outcome) :
    evalArg (env ++ os) v = evalArg env v := by
  cases v with
  | inst r => exact List.getD_append _ _ _ _ (hv r rfl)
  | _ => rfl

theorem fits_ref {v : Value} {t : Ty} (h : Fits (typeOf ts v) t) : ∀ r, v = .inst r → r < ts.length := by
  rintro r rfl
  by_contra hr
  exact h.1 (List.getD_eq_default _ _ (by omega))

theorem ArgsFit.arg {c : Code} (h : ArgsFit ts c) {k : ℕ} (hk : k < c.1.numArgs) :
    Fits (typeOf ts (c.2.getD k .void)) (c.1.argTypes.getD k .void) := by
  have hlen : k < c.2.length := by rw [h.1]; exact hk
  have hty : k < c.1.argTypes.length := hk
  refine h.2 (c.2.getD k .void, c.1.argTypes.getD k .void) ?_
  rw [List.getD_eq_getElem _ _ hlen, List.getD_eq_getElem _ _ hty]
  rw [← List.getElem_zip (h := by rw [List.length_zip]; omega)]
  exact List.getElem_mem _

theorem Typed.at {cs : List Code} (h : Typed ts cs) {k : ℕ} {c : Code} (hc : cs[k]? = some c) :
    ∃ us, us.length = ts.length+k ∧ ArgsFit us c := by
  induction cs generalizing ts k with
  | nil => cases hc
  | cons d cs ih =>
    cases k with
    | zero =>
      cases hc
      exact ⟨ts, rfl, h.1⟩
    | succ k =>
      obtain ⟨us, hlen, hfit⟩ := ih h.2 hc
      refine ⟨us, ?_, hfit⟩
      rw [hlen, List.length_append, List.length_singleton]
      omega

/-- Arguments refer to earlier instructions. -/
theorem Typed.refs {cs : List Code} (h : Typed [] cs) {k : ℕ} {c : Code} (hc : cs[k]? = some c)
    (a r : ℕ) (ha : c.2.getD a .void = .inst r) : r < k := by
  obtain ⟨us, hlen, hfit⟩ := h.at hc
  rw [List.length_nil, Nat.zero_add] at hlen
  by_cases hk : a < c.1.numArgs
  · rw [← hlen]
    exact fits_ref (hfit.arg hk) r ha
  · rw [List.getD_eq_default _ _ (by rw [hfit.1]; omega)] at ha
    cases ha

theorem Typed.mem_refs {cs : List Code} (h : Typed [] cs) {k : ℕ} {c : Code}
    (hc : cs[k]? = some c) {r : ℕ} (hr : Value.inst r ∈ c.2) : r < k := by
  obtain ⟨a, ha⟩ := List.getElem?_of_mem hr
  refine h.refs hc a r ?_
  rw [List.getD_eq_getElem?_getD, ha, Option.getD_some]

section Sensible

variable {S : Type*} {m : Machine S}

theorem step_ty (hm : Sensible m) (h : TypedEnv env ts) {c : Code} (hc : ArgsFit ts c) (s : S) :
    (step m c env s).1.value.HasTy (resultType ts c) := by
  unfold step resultType
  split
  · rename_i hid
    rw [operands_identity hc hid, hid, hm.identity]
    exact evalArg_ty h _
  · rename_i hid
    exact hm.typed _ _ _ hid

theorem typed_append {cs ds : List Code} (h : Typed ts (cs ++ ds)) (hm : Sensible m) :
    ∀ (env : List Outcome) (s : S), TypedEnv env ts →
      ∃ us, TypedEnv (Ssa.run (cs.map (step m)) (env, s)).1 us ∧ Typed us ds := by
  induction cs generalizing ts with
  | nil => exact fun env s henv => ⟨ts, henv, h⟩
  | cons c cs ih =>
    intro env s henv
    exact ih h.2 _ _ (henv.snoc (step_ty hm henv h.1 s))

/-- The state of a run in front of instruction `k`. -/
def reached (m : Machine S) (cs : List Code) (k : ℕ) (s : S) : List Outcome × S :=
  Ssa.upTo (cs.map (step m)) k ([], s)

theorem runCode_snoc (cs : List Code) (c : Code) (s : S) :
    runCode m (cs ++ [c]) s = Ssa.next (runCode m cs s) (step m c) := by
  rw [runCode, List.map_append, Ssa.run_append]
  rfl

theorem runCode_length (cs : List Code) (s : S) : (runCode m cs s).1.length = cs.length := by
  simp [runCode, Ssa.run_length]

theorem steps_getElem? {cs : List Code} {k : ℕ} {c : Code} (h : cs[k]? = some c) :
    (cs.map (step m))[k]? = some (step m c) := by
  rw [List.getElem?_map, h]
  rfl

theorem reached_succ {cs : List Code} {k : ℕ} {c : Code} (h : cs[k]? = some c) (s : S) :
    reached m cs (k+1) s = Ssa.next (reached m cs k s) (step m c) :=
  Ssa.upTo_succ (steps_getElem? h)

theorem reached_length {cs : List Code} {k : ℕ} (hk : k ≤ cs.length) (s : S) :
    (reached m cs k s).1.length = k := by
  have hk' : k ≤ (cs.map (step m)).length := by rwa [List.length_map]
  rw [reached, Ssa.upTo_length hk']
  simp

theorem reached_all (cs : List Code) (s : S) : reached m cs cs.length s = runCode m cs s := by
  have h := Ssa.upTo_all (cs.map (step m)) ([], s)
  rw [List.length_map] at h
  exact h

theorem reached_eq_take (cs : List Code) (k : ℕ) (s : S) :
    reached m cs k s = runCode m (cs.take k) s := by
  rw [reached, Ssa.upTo, ← List.map_take]
  rfl

/-- Rewriting an instruction does not matter before it is reached. -/
theorem reached_set_of_le {cs : List Code} {i k : ℕ} (h : i ≤ k) (c : Code) (s : S) :
    reached m (cs.set k c) i s = reached m cs i s := by
  rw [reached, reached, Ssa.upTo, Ssa.upTo, ← List.map_take, ← List.map_take,
    List.take_set_of_le h]

/-- An argument keeps its outcome from the instruction it refers to on. -/
theorem evalArg_reached {cs : List Code} {j i : ℕ} (hji : j ≤ i) (hj : j ≤ cs.length) {v : Value}
    (hv : ∀ r, v = .inst r → r < j) (s : S) :
    evalArg (reached m cs i s).1 v = evalArg (reached m cs j s).1 v := by
  cases v with
  | inst r => exact Ssa.upTo_getD hji (by rw [← reached, reached_length hj]; exact hv r rfl) _
  | _ => rfl

theorem evalArg_take {cs : List Code} {j : ℕ} (hj : j ≤ cs.length) {v : Value}
    (hv : ∀ r, v = .inst r → r < j) (s : S) :
    evalArg (runCode m cs s).1 v = evalArg (runCode m (cs.take j) s).1 v := by
  rw [← reached_all, ← reached_eq_take]
  exact evalArg_reached hj hj hv s

theorem evalArg_snoc {cs : List Code} {c : Code} {v : Value}
    (hv : ∀ r, v = .inst r → r < cs.length) (s : S) :
    evalArg (runCode m (cs ++ [c]) s).1 v = evalArg (runCode m cs s).1 v := by
  rw [runCode_snoc, Ssa.next]
  exact evalArg_append (by rw [runCode_length]; exact hv) _

/-- The outcome of an instruction is the one at its place in the end. -/
theorem runCode_getD {cs : List Code} {k : ℕ} {c : Code} (h : cs[k]? = some c) (s : S)
    (o : Outcome) : (runCode m cs s).1.getD k o =
      (step m c (reached m cs k s).1 (reached m cs k s).2).1 := by
  have hk := (List.getElem?_eq_some_iff.mp h).1
  have hlen := reached_length (m := m) (Nat.le_of_lt hk) s
  rw [← reached_all, reached, Ssa.upTo_getD (j := k+1) hk, ← reached, reached_succ h]
  · simp [Ssa.next, List.getD_eq_getElem?_getD, hlen]
  · rw [← reached, reached_length hk]
    exact Nat.lt_succ_self k

theorem typed_reached (hm : Sensible m) {cs : List Code} (h : Typed [] cs) {k : ℕ} {c : Code}
    (hc : cs[k]? = some c) (s : S) :
    ∃ us, TypedEnv (reached m cs k s).1 us ∧ us.length = k ∧ ArgsFit us c := by
  obtain ⟨hk, rfl⟩ := List.getElem?_eq_some_iff.mp hc
  rw [← List.take_append_drop k cs] at h
  obtain ⟨us, henv, hus⟩ := typed_append h hm [] s .nil
  rw [List.drop_eq_getElem_cons hk] at hus
  rw [List.map_take] at henv
  exact ⟨us, henv, henv.length_eq.symm.trans (reached_length (Nat.le_of_lt hk) s), hus.1⟩

/-- An operand has the type that the opcode lists, and comes from earlier. -/
theorem operand_ty (hm : Sensible m) {cs : List Code} (h : Typed [] cs) {k : ℕ} {c : Code}
    (hc : cs[k]? = some c) {a : ℕ} (ha : a < c.1.numArgs) {t : Ty}
    (ht : c.1.argTypes.getD a .void = t) (hany : t ≠ .anyTy) (htable : t ≠ .table) (s : S) :
    (evalArg (reached m cs k s).1 (c.2.getD a .void)).value.ty = t ∧
      ∀ r, c.2.getD a .void = .inst r → r < k := by
  obtain ⟨us, henv, hlen, hargs⟩ := typed_reached hm h hc s
  have hfit := hargs.arg ha
  rw [ht] at hfit
  refine ⟨?_, fun r hr => hlen ▸ fits_ref hfit r hr⟩
  have hval := evalArg_ty henv (c.2.getD a .void)
  rw [hfit.2.resolve_left hany] at hval
  exact (hval.resolve_left hany).resolve_left htable

end Sensible

/-! ### Inserting an instruction -/

theorem evalArg_wedge {p : ℕ} (hp : p ≤ env.length) (w : Outcome) (v : Value) :
    evalArg (Ssa.wedge p w env) (v.renumber p) = evalArg env v := by
  cases v with
  | inst r => exact Ssa.wedge_getD hp w r _
  | _ => rfl

def Code.renumber (p : ℕ) (c : Code) : Code := (c.1, c.2.map (Value.renumber p))

theorem Code.renumber_below {p : ℕ} {c : Code} (h : ∀ r, Value.inst r ∈ c.2 → r < p) :
    Code.renumber p c = c := by
  have hargs : c.2.map (Value.renumber p) = c.2 := by
    refine (List.map_congr_left fun v hv => ?_).trans (List.map_id _)
    cases v with
    | inst r => simp [Value.renumber, Nat.not_le.mpr (h r hv)]
    | _ => rfl
  rw [Code.renumber, hargs]

theorem insertIdx_prefix {α : Type*} (l l' : List α) (a : α) :
    (l ++ l').insertIdx l.length a = l ++ a::l' := by
  induction l with
  | nil => rfl
  | cons b l ih => rw [List.cons_append, List.length_cons, List.insertIdx_succ_cons, ih]; rfl

/-- Inserting behind code that only refers back leaves that code alone. -/
theorem code_insert_behind {b : Block} {cs ds : List Code} (hb : b.code = cs ++ ds)
    (hcs : ∀ c ∈ cs, ∀ r, Value.inst r ∈ c.2 → r < cs.length) (op : Opcode) {args : List Value}
    (hargs : ∀ r, Value.inst r ∈ args → r < cs.length) :
    (b.insert cs.length op args).code =
      cs ++ (op, args) :: ds.map (Code.renumber cs.length) := by
  have hmap : cs.map (Code.renumber cs.length) = cs :=
    (List.map_congr_left fun c hc => Code.renumber_below (hcs c hc)).trans (List.map_id _)
  have hinsert : b.code.map (fun c => (c.1, c.2.map (Value.renumber cs.length))) =
      cs ++ ds.map (Code.renumber cs.length) := by
    rw [hb, List.map_append]
    exact congrArg (· ++ _) hmap
  have hnew := Code.renumber_below (c := (op, args)) hargs
  rw [Block.code_insert, hinsert, insertIdx_prefix]
  exact congrArg (fun c => cs ++ c :: _) hnew

theorem step_shifts {S : Type*} (m : Machine S) (p : ℕ) (w : Outcome) (c : Code) :
    Ssa.Shifts p w (step m c) (step m (Code.renumber p c)) := by
  intro env s hp
  have hops : operands (Ssa.wedge p w env) (Code.renumber p c) = operands env c := by
    simp only [operands, Code.renumber, ← List.map_take, List.map_map]
    exact List.map_congr_left fun v _ => evalArg_wedge hp w v
  simp only [step, hops]
  rfl

end Ruzu.Ir
