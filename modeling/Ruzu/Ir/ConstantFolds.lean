import Ruzu.Ir.Arithmetic

/-!
# Folding keeps the value

An operand of an integer type is an immediate, or an instruction with such a
value. What an instruction is folded to has the value that the instruction
computes.
-/

set_option autoImplicit false

namespace Ruzu.Ir

/-- The immediates and the values of a type. -/
structure IntType (α : Type) where
  ty : Ty
  imm : α → Value
  val : α → Val

namespace IntType

def u1 : IntType Bool := ⟨.u1, .immU1, .u1⟩
def u8 : IntType (BitVec 8) := ⟨.u8, .immU8, .u8⟩
def u16 : IntType (BitVec 16) := ⟨.u16, .immU16, .u16⟩
def u32 : IntType (BitVec 32) := ⟨.u32, .immU32, .u32⟩
def u64 : IntType (BitVec 64) := ⟨.u64, .immU64, .u64⟩

end IntType

/-- The operand is the number. -/
inductive Reads {α : Type} (T : IntType α) (env : List Outcome) : Value → α → Prop
  | imm (a : α) : Reads T env (T.imm a) a
  | inst (r : ℕ) (a : α) (h : (evalArg env (.inst r)).value = T.val a) : Reads T env (.inst r) a

variable {env : List Outcome} {ts : List Ty}

/-- Values and immediates of the type are as listed. -/
structure IntType.Full {α : Type} (T : IntType α) : Prop where
  proper : T.ty ≠ .anyTy ∧ T.ty ≠ .table
  val : ∀ v : Val, v.ty = T.ty → ∃ a, v = T.val a
  imm : ∀ v : Value, (∀ r, v ≠ .inst r) → v.getType = T.ty → ∃ a, v = T.imm a
  eval : ∀ a, (T.imm a).toVal = T.val a ∧ (T.imm a).isImmediate = true

theorem IntType.Full.u1 : IntType.u1.Full where
  proper := by decide
  val _ h := Val.of_ty_u1 h
  imm v hv h := by
    cases v with
    | immU1 a => exact ⟨a, rfl⟩
    | inst r => exact absurd rfl (hv r)
    | _ => cases h
  eval _ := ⟨rfl, rfl⟩

theorem IntType.Full.u8 : IntType.u8.Full where
  proper := by decide
  val v h := by
    cases v with
    | u8 a => exact ⟨a, rfl⟩
    | name w => cases w <;> cases h
    | _ => cases h
  imm v hv h := by
    cases v with
    | immU8 a => exact ⟨a, rfl⟩
    | inst r => exact absurd rfl (hv r)
    | _ => cases h
  eval _ := ⟨rfl, rfl⟩

theorem IntType.Full.u16 : IntType.u16.Full where
  proper := by decide
  val v h := by
    cases v with
    | u16 a => exact ⟨a, rfl⟩
    | name w => cases w <;> cases h
    | _ => cases h
  imm v hv h := by
    cases v with
    | immU16 a => exact ⟨a, rfl⟩
    | inst r => exact absurd rfl (hv r)
    | _ => cases h
  eval _ := ⟨rfl, rfl⟩

theorem IntType.Full.u32 : IntType.u32.Full where
  proper := by decide
  val _ h := Val.of_ty_u32 h
  imm v hv h := by
    cases v with
    | immU32 a => exact ⟨a, rfl⟩
    | inst r => exact absurd rfl (hv r)
    | _ => cases h
  eval _ := ⟨rfl, rfl⟩

theorem IntType.Full.u64 : IntType.u64.Full where
  proper := by decide
  val _ h := Val.of_ty_u64 h
  imm v hv h := by
    cases v with
    | immU64 a => exact ⟨a, rfl⟩
    | inst r => exact absurd rfl (hv r)
    | _ => cases h
  eval _ := ⟨rfl, rfl⟩

namespace IntType.Full

variable {α : Type} {T : IntType α} (hT : T.Full)
include hT

theorem reads (henv : TypedEnv env ts) {x : Value} (h : Fits (typeOf ts x) T.ty) :
    ∃ a, Reads T env x a := by
  have hty := h.2.resolve_left hT.proper.1
  by_cases hx : ∃ r, x = .inst r
  · obtain ⟨r, rfl⟩ := hx
    have hval := evalArg_ty henv (.inst r)
    rw [hty] at hval
    obtain ⟨a, ha⟩ := hT.val _ ((hval.resolve_left hT.proper.1).resolve_left hT.proper.2)
    exact ⟨a, .inst r a ha⟩
  · have hne : ∀ r, x ≠ .inst r := fun r hr => hx ⟨r, hr⟩
    have htype : x.getType = T.ty := by
      cases x with
      | inst r => exact absurd rfl (hne r)
      | _ => exact hty
    obtain ⟨a, rfl⟩ := hT.imm x hne htype
    exact ⟨a, .imm a⟩

theorem imm_ne (a : α) (r : ℕ) : T.imm a ≠ .inst r := by
  intro h
  have := (hT.eval a).2
  rw [h] at this
  cases this

theorem value {x : Value} {a : α} (h : Reads T env x a) : (evalArg env x).value = T.val a := by
  cases h with
  | inst r a hval => exact hval
  | imm a =>
    have heval : evalArg env (T.imm a) = .plain (T.imm a).toVal := by
      cases himm : T.imm a with
      | inst r => exact absurd himm (hT.imm_ne a r)
      | _ => rfl
    rw [heval, Outcome.plain_value, (hT.eval a).1]

end IntType.Full

/-- The fold does not panic, and what replaces the instruction has the value.
It is an immediate or one of the operands. -/
def FoldsTo (env : List Outcome) (args : List Value) (fold : Fold) (value : Val) : Prop :=
  ∃ o, fold = some o ∧ ∀ v, o = some v →
    (evalArg env v).value = value ∧ ∀ r, v = .inst r → v ∈ args

namespace FoldsTo

variable {args : List Value} {value : Val}

theorem stays : FoldsTo env args (some none) value := ⟨none, rfl, nofun⟩

section

variable {α : Type} {T : IntType α} (hT : T.Full)
include hT

theorem imm (a : α) : FoldsTo env args (some (some (T.imm a))) (T.val a) := by
  refine ⟨_, rfl, fun v hv => ?_⟩
  obtain rfl := Option.some.inj hv
  exact ⟨hT.value (.imm a), fun r hr => absurd hr (hT.imm_ne a r)⟩

theorem operand {x : Value} {a : α} (h : Reads T env x a) (hx : x ∈ args) :
    FoldsTo env args (some (some x)) (T.val a) := by
  refine ⟨_, rfl, fun v hv => ?_⟩
  obtain rfl := Option.some.inj hv
  exact ⟨hT.value h, fun _ _ => hx⟩

theorem one {β : Type} {U : IntType β} (hU : U.Full) {γ : Type} {get : Value → Option γ}
    {f : γ → Value} {x : Value} {a : α} (h : Reads T env x a) {c : γ} {b : β}
    (hget : get (T.imm a) = some c) (hf : f c = U.imm b) :
    FoldsTo env args (foldOne get f x) (U.val b) := by
  cases h with
  | inst r a hval => exact .stays
  | imm a =>
    rw [foldOne, (hT.eval a).2, if_pos rfl, hget, Option.map_some, hf]
    exact .imm hU b

theorem both {β : Type} {U : IntType β} (hU : U.Full) {γ : Type} {get : Value → Option γ}
    {get' : Value → Option γ} {f : γ → γ → Option Value} {x y : Value} {a b : α}
    (hx : Reads T env x a) (hy : Reads T env y b) {c d : γ} {e : β}
    (hget : get (T.imm a) = some c) (hget' : get' (T.imm b) = some d) (hf : f c d = some (U.imm e)) :
    FoldsTo env args (foldBoth get get' f x y) (U.val e) := by
  cases hx with
  | inst r a hval => exact .stays
  | imm a =>
    cases hy with
    | inst r b hval =>
      rw [foldBoth, (hT.eval a).2]
      exact .stays
    | imm b =>
      rw [foldBoth, (hT.eval a).2, (hT.eval b).2, Bool.and_self, if_pos rfl, hget, hget',
        Option.bind_some, Option.bind_some, hf]
      exact .imm hU e

end

end FoldsTo

/-! ### 32 and 64 bits -/

/-- The two integer types that the sized folds are for. -/
structure Word {w : ℕ} (T : IntType (BitVec w)) (is32 : Bool) : Prop where
  full : T.Full
  le : w ≤ 64
  two : 1 < w
  width : width is32 = w
  u64 : ∀ a, (T.imm a).getImmAsU64 = some (a.setWidth 64)
  s64 : ∀ a, (T.imm a).getImmAsS64 = some (a.signExtend 64)
  isZero : ∀ a, (T.imm a).isZero = decide (a = 0)
  hasAllBitsSet : ∀ a, (T.imm a).hasAllBitsSet = decide (a = BitVec.allOnes w)
  sized : ∀ v, sized is32 v = T.imm (v.setWidth w)

theorem word32 : Word IntType.u32 true where
  full := .u32
  le := by decide
  two := by decide
  width := rfl
  u64 _ := rfl
  s64 _ := rfl
  isZero _ := rfl
  hasAllBitsSet _ := rfl
  sized _ := rfl

theorem word64 : Word IntType.u64 false where
  full := .u64
  le := by decide
  two := by decide
  width := rfl
  u64 a := by
    rw [BitVec.setWidth_eq]
    rfl
  s64 a := by
    rw [BitVec.signExtend_eq]
    rfl
  isZero _ := rfl
  hasAllBitsSet _ := rfl
  sized v := by
    rw [BitVec.setWidth_eq]
    rfl

section Word

variable {w : ℕ} {T : IntType (BitVec w)} {is32 : Bool} (hT : Word T is32) {args : List Value}
  {x y z : Value} {a b : BitVec w}
include hT

theorem Word.isUnsignedImm_one (a : BitVec w) : (T.imm a).isUnsignedImm 1 = some (decide (a = 1)) := by
  have hpow : (2:ℕ)^w ≤ 2^64 := Nat.pow_le_pow_right (by decide) hT.le
  have hone : 1 < (2:ℕ)^w := Nat.one_lt_two_pow (by have := hT.two; omega)
  rw [Value.isUnsignedImm, (hT.full.eval a).2, if_pos rfl, hT.u64, Option.map_some]
  have hiff : a.setWidth 64 = 1 ↔ a = 1 := by
    rw [← BitVec.toNat_inj, ← BitVec.toNat_inj]
    simp only [BitVec.toNat_setWidth]
    have hlt := a.isLt
    rw [Nat.mod_eq_of_lt (by omega)]
    simp [Nat.mod_eq_of_lt hone]
  rw [Option.some_inj, decide_eq_decide]
  exact hiff

end Word

end Ruzu.Ir
