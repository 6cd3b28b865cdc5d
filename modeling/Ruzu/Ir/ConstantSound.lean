import Mathlib
import Ruzu.Ir.ConstantFolds

/-!
# Every fold is sound

What an instruction is folded to has the value that the instruction computes, for every
opcode. The one fold that panics is that of the quotient that overflows.
-/

set_option autoImplicit false

namespace Ruzu.Ir

/-- The most negative dividend over minus one, in 64 bits. -/
def Overflows (c : Code) : Prop :=
  c = (.signedDiv64, [.immU64 (BitVec.intMin 64), .immU64 (-1)])

instance (c : Code) : Decidable (Overflows c) := inferInstanceAs (Decidable (c = _))

/-- What the opcode computes from the operands. -/
def computed (env : List Outcome) (op : Opcode) (args : List Value) : Option Outcome :=
  arithmetic op (evalArg env (args.getD 0 .void)).value (evalArg env (args.getD 1 .void)).value
    (evalArg env (args.getD 2 .void)).value

/-- Operands of the right types that do not overflow are folded to the value. -/
def Sound (op : Opcode) : Prop :=
  ∀ (env : List Outcome) (ts : List Ty) (args : List Value), TypedEnv env ts →
    ArgsFit ts (op, args) → ¬Overflows (op, args) →
      ∃ o, computed env op args = some o ∧ FoldsTo env args (foldOf op args) o.value

variable {ts : List Ty} {op : Opcode} {args : List Value} {t u v : Ty}

theorem args_one (h : ArgsFit ts (op, args)) (hop : op.argTypes = [t]) :
    ∃ x, args = [x] ∧ Fits (typeOf ts x) t := by
  obtain ⟨hlen, hfit⟩ := h
  dsimp only at hlen hfit
  rw [Opcode.numArgs, hop] at hlen
  obtain ⟨x, rfl⟩ := List.length_eq_one_iff.mp hlen
  rw [hop] at hfit
  exact ⟨x, rfl, hfit (x, t) List.mem_cons_self⟩

theorem args_two (h : ArgsFit ts (op, args)) (hop : op.argTypes = [t, u]) :
    ∃ x y, args = [x, y] ∧ Fits (typeOf ts x) t ∧ Fits (typeOf ts y) u := by
  obtain ⟨hlen, hfit⟩ := h
  dsimp only at hlen hfit
  rw [Opcode.numArgs, hop] at hlen
  obtain ⟨x, y, rfl⟩ := List.length_eq_two.mp hlen
  rw [hop] at hfit
  exact ⟨x, y, rfl, hfit (x, t) List.mem_cons_self, hfit (y, u) (.tail _ List.mem_cons_self)⟩

theorem args_three (h : ArgsFit ts (op, args)) (hop : op.argTypes = [t, u, v]) :
    ∃ x y z, args = [x, y, z] ∧ Fits (typeOf ts x) t ∧ Fits (typeOf ts y) u ∧
      Fits (typeOf ts z) v := by
  obtain ⟨hlen, hfit⟩ := h
  dsimp only at hlen hfit
  rw [Opcode.numArgs, hop] at hlen
  obtain ⟨x, y, z, rfl⟩ := List.length_eq_three.mp hlen
  rw [hop] at hfit
  exact ⟨x, y, z, rfl, hfit (x, t) List.mem_cons_self, hfit (y, u) (.tail _ List.mem_cons_self),
    hfit (z, v) (.tail _ (.tail _ List.mem_cons_self))⟩

/-! ### One operand and two -/

section Families

variable {α β : Type} {T : IntType α} {U : IntType β}

theorem sound_one (hT : T.Full) (hU : U.Full) {δ : Type} {get : Value → Option δ} {f : δ → Value}
    (hop : op.argTypes = [T.ty])
    (hfold : ∀ x, foldOf op [x] = foldOne get f x) {g : α → β}
    (hget : ∀ a, ∃ c, get (T.imm a) = some c ∧ f c = U.imm (g a))
    (harith : ∀ a y z, arithmetic op (T.val a) y z = some (.plain (U.val (g a)))) : Sound op := by
  intro env ts args henv hfit _
  obtain ⟨x, rfl, hx⟩ := args_one hfit hop
  obtain ⟨a, ha⟩ := hT.reads henv hx
  obtain ⟨c, hc, hf⟩ := hget a
  refine ⟨_, (congrArg (arithmetic op · _ _) (hT.value ha)).trans (harith a _ _), ?_⟩
  rw [hfold]
  exact FoldsTo.one hT hU ha hc hf

theorem sound_both (hT : T.Full) (hU : U.Full) {δ : Type} {get : Value → Option δ}
    {f : δ → δ → Option Value} (hop : op.argTypes = [T.ty, T.ty])
    (hfold : ∀ x y, foldOf op [x, y] = foldBoth get get f x y) {g : α → α → β}
    (hget : ∀ a b, ∃ c d, get (T.imm a) = some c ∧ get (T.imm b) = some d ∧
      f c d = some (U.imm (g a b)))
    (harith : ∀ a b z, arithmetic op (T.val a) (T.val b) z = some (.plain (U.val (g a b)))) :
    Sound op := by
  intro env ts args henv hfit _
  obtain ⟨x, y, rfl, hx, hy⟩ := args_two hfit hop
  obtain ⟨a, ha⟩ := hT.reads henv hx
  obtain ⟨b, hb⟩ := hT.reads henv hy
  obtain ⟨c, d, hc, hd, hf⟩ := hget a b
  refine ⟨_, (congrArg₂ (arithmetic op · · _) (hT.value ha) (hT.value hb)).trans (harith a b _), ?_⟩
  rw [hfold]
  exact FoldsTo.both hT hU ha hb hc hd hf

end Families

/-! ### Shifts -/

theorem sshiftRight_top {w : ℕ} (a : BitVec w) {n : ℕ} (hn : w ≤ n) :
    a.sshiftRight (w-1) = a.sshiftRight n := by
  refine BitVec.eq_of_getLsbD_eq fun i hi => ?_
  rw [BitVec.getLsbD_sshiftRight, BitVec.getLsbD_sshiftRight]
  by_cases hzero : i = 0
  · subst hzero
    have hmsb : a.getLsbD (w-1) = a.msb := (BitVec.msb_eq_getLsbD_last a).symm
    simp only [Nat.add_zero, hmsb]
    grind
  · grind

/-- What a shift by `s` of a number of `w` bits is folded to. -/
structure ShiftFold (w : ℕ) (is32 : Bool) (get : Value → Option (BitVec 64))
    (f : BitVec 64 → BitVec 8 → Bool → BitVec 64) (g : Shift w) (imm : BitVec w → Value) : Prop where
  zero : ∀ a, g.value a 0 = a
  fold : ∀ a (s : BitVec 8), ∃ c, get (imm a) = some c ∧
    sized is32 (f c s is32) = imm (g.value a s.toNat)

theorem shiftFold_lsl32 : ShiftFold 32 true Value.getImmAsU64 safeLsl (shiftLeft 32) .immU32 where
  zero a := BitVec.shiftLeft_zero a
  fold a s := by
    refine ⟨_, rfl, congrArg Value.immU32 ?_⟩
    rw [safeLsl]
    split
    case isTrue h => exact (BitVec.shiftLeft_eq_zero h).symm
    case isFalse => simp [shiftLeft]

theorem shiftFold_lsl64 : ShiftFold 64 false Value.getImmAsU64 safeLsl (shiftLeft 64) .immU64 where
  zero a := BitVec.shiftLeft_zero a
  fold a s := by
    refine ⟨_, rfl, congrArg Value.immU64 ?_⟩
    rw [safeLsl]
    split
    case isTrue h => exact (BitVec.shiftLeft_eq_zero h).symm
    case isFalse => rfl

theorem shiftFold_lsr32 : ShiftFold 32 true Value.getImmAsU64 safeLsr (shiftRight 32) .immU32 where
  zero a := BitVec.ushiftRight_zero a
  fold a s := by
    refine ⟨_, rfl, congrArg Value.immU32 ?_⟩
    rw [safeLsr]
    split
    case isTrue h => exact (BitVec.ushiftRight_eq_zero h).symm
    case isFalse =>
      rw [if_pos rfl, BitVec.setWidth_setWidth_of_le _ (by decide), BitVec.setWidth_eq,
        BitVec.setWidth_setWidth_of_le _ (by decide), BitVec.setWidth_eq]
      rfl

theorem shiftFold_lsr64 : ShiftFold 64 false Value.getImmAsU64 safeLsr (shiftRight 64) .immU64 where
  zero a := BitVec.ushiftRight_zero a
  fold a s := by
    refine ⟨_, rfl, congrArg Value.immU64 ?_⟩
    rw [safeLsr]
    split
    case isTrue h => exact (BitVec.ushiftRight_eq_zero h).symm
    case isFalse => rfl

theorem shiftFold_asr32 :
    ShiftFold 32 true Value.getImmAsS64 safeAsr (arithmeticShiftRight 32) .immU32 where
  zero _ := BitVec.sshiftRight_zero
  fold a s := by
    refine ⟨_, rfl, congrArg Value.immU32 ?_⟩
    have hback (x : BitVec 32) : (x.signExtend 64).setWidth 32 = x := by
      ext i hi
      rw [BitVec.getElem_setWidth, BitVec.getLsbD_signExtend]
      simp [hi, Nat.lt_trans hi]
    rw [safeAsr, if_pos rfl, hback, hback]
    split
    case isTrue h => exact sshiftRight_top a h
    case isFalse => rfl

theorem shiftFold_asr64 :
    ShiftFold 64 false Value.getImmAsS64 safeAsr (arithmeticShiftRight 64) .immU64 where
  zero _ := BitVec.sshiftRight_zero
  fold a s := by
    refine ⟨_, rfl, congrArg Value.immU64 ?_⟩
    rw [safeAsr, if_neg (by decide)]
    split
    case isTrue h => exact sshiftRight_top a h
    case isFalse => rfl

theorem rotateRight_zero {w : ℕ} (a : BitVec w) : a.rotateRight 0 = a := by
  rw [BitVec.rotateRight, BitVec.rotateRightAux, Nat.zero_mod]
  simp

theorem shiftFold_ror32 : ShiftFold 32 true Value.getImmAsU64 safeRor (rotateRight 32) .immU32 where
  zero a := rotateRight_zero a
  fold a s := ⟨_, rfl, congrArg Value.immU32 (by simp [safeRor, rotateRight])⟩

theorem shiftFold_ror64 : ShiftFold 64 false Value.getImmAsU64 safeRor (rotateRight 64) .immU64 where
  zero a := rotateRight_zero a
  fold a s := ⟨_, rfl, congrArg Value.immU64 (by simp [safeRor, rotateRight])⟩

section Shift

variable {w : ℕ} {T : IntType (BitVec w)} {is32 : Bool} {get : Value → Option (BitVec 64)}
  {f : BitVec 64 → BitVec 8 → Bool → BitVec 64} {g : Shift w}

theorem foldShift_sound (hT : Word T is32) (hs : ShiftFold w is32 get f g T.imm)
    {env : List Outcome} {x y : Value} {rest : List Value} {a : BitVec w} {s : BitVec 8}
    (hx : Reads T env x a) (hy : Reads .u8 env y s) (numArgs : ℕ) (hn : 2 ≤ numArgs) :
    FoldsTo env (x :: y :: rest) (foldShift get f is32 (x :: y :: rest) numArgs)
      (T.val (g.value a s.toNat)) := by
  rw [foldShift]
  split
  case isTrue hzero =>
    have hs0 : s = 0 := by
      cases hy with
      | imm s => exact of_decide_eq_true hzero
      | inst r s h => cases hzero
    rw [hs0, show (0 : BitVec 8).toNat = 0 from rfl, hs.zero]
    exact .operand hT.full hx List.mem_cons_self
  split
  case isTrue himm =>
    have himm := List.all_eq_true.mp himm
    have h0 := himm 0 (List.mem_range.mpr (by omega))
    have h1 := himm 1 (List.mem_range.mpr (by omega))
    cases hx with
    | inst r a h => cases h0
    | imm a =>
      cases hy with
      | inst r s h => cases h1
      | imm s =>
        obtain ⟨c, hc, hf⟩ := hs.fold a s
        rw [List.getD_cons_zero, hc]
        refine Eq.subst (motive := fun v => FoldsTo env _ (some (some v)) _) hf.symm ?_
        exact .imm hT.full _
  case isFalse => exact .stays

end Shift

/-! ### Arithmetic and logic of both sizes -/

theorem unsignedQuotient_eq (a b : BitVec 64) : unsignedQuotient a b = some (a/b) := by
  rw [unsignedQuotient]
  split
  case isTrue h =>
    rw [h]
    exact congrArg some BitVec.udiv_zero.symm
  case isFalse => rfl

theorem signedQuotient_eq {a b : BitVec 64} (h : ¬(a = BitVec.intMin 64 ∧ b = -1)) :
    signedQuotient a b = some (a.sdiv b) := by
  rw [signedQuotient]
  split
  case isTrue h =>
    rw [h]
    exact congrArg some BitVec.sdiv_zero.symm
  case isFalse => rfl

section Word

variable {w : ℕ} {T : IntType (BitVec w)} {is32 : Bool} (hT : Word T is32)
include hT

theorem Word.back (a : BitVec w) : (a.setWidth 64).setWidth w = a := by
  rw [BitVec.setWidth_setWidth_of_le _ hT.le, BitVec.setWidth_eq]

variable {env : List Outcome} {x y z : Value} {a b : BitVec w} {c : Bool}

/-- Two immediates are computed with in 64 bits. -/
theorem Word.both {f : BitVec 64 → BitVec 64 → BitVec 64} {g : BitVec w} {args : List Value}
    (hx : Reads T env x a) (hy : Reads T env y b)
    (hfg : (f (a.setWidth 64) (b.setWidth 64)).setWidth w = g) :
    FoldsTo env args (foldBoth Value.getImmAsU64 Value.getImmAsU64
      (fun a b => some (Ruzu.Ir.sized is32 (f a b))) x y) (T.val g) :=
  FoldsTo.both hT.full hT.full hx hy (hT.u64 a) (hT.u64 b) (by rw [hT.sized, hfg])

theorem Word.zero_of_isZero (hx : Reads T env x a) (h : x.isZero = true) : a = 0 := by
  cases hx with
  | imm a =>
    rw [hT.isZero] at h
    exact of_decide_eq_true h
  | inst r a => cases h

theorem Word.ones_of_hasAllBitsSet (hx : Reads T env x a) (h : x.hasAllBitsSet = true) :
    a = BitVec.allOnes w := by
  cases hx with
  | imm a =>
    rw [hT.hasAllBitsSet] at h
    exact of_decide_eq_true h
  | inst r a => cases h

/-- A test for one does not panic on an operand. -/
theorem Word.unsignedImm_one (hx : Reads T env x a) :
    ∃ one, x.isUnsignedImm 1 = some one ∧ (one = true → a = 1) := by
  cases hx with
  | imm a => exact ⟨_, hT.isUnsignedImm_one a, of_decide_eq_true⟩
  | inst r a => exact ⟨false, rfl, fun h => by cases h⟩

theorem Word.constant (g : BitVec w) {v : BitVec 64} (h : v.setWidth w = g) {args : List Value} :
    FoldsTo env args (some (some (Ruzu.Ir.sized is32 v))) (T.val g) := by
  rw [hT.sized, h]
  exact .imm hT.full g

variable (hx : Reads T env x a) (hy : Reads T env y b)
include hx hy

theorem foldAdd_sound (hz : Reads .u1 env z c) :
    FoldsTo env [x, y, z] (foldAdd is32 x y z) (T.val (addWithCarry a b c)) := by
  rw [foldAdd]
  split
  case isTrue h =>
    simp only [Bool.and_eq_true] at h
    obtain rfl := hT.zero_of_isZero hy h.1.2
    obtain rfl : c = false := by
      cases hz with
      | imm c => exact Bool.not_eq_true' c ▸ h.2
      | inst r c => cases h.2
    have hsum : addWithCarry a 0 false = a := by simp [addWithCarry]
    rw [hsum]
    exact .operand hT.full hx List.mem_cons_self
  split
  case isTrue h =>
    simp only [Bool.and_eq_true] at h
    cases hx with
    | inst r a => cases h.1.1
    | imm a =>
      cases hy with
      | inst r b => cases h.1.2
      | imm b =>
        cases hz with
        | inst r c => cases h.2
        | imm c =>
          rw [hT.u64, hT.u64]
          refine hT.constant _ ?_
          rw [BitVec.setWidth_add _ _ hT.le, BitVec.setWidth_add _ _ hT.le, hT.back, hT.back,
            BitVec.setWidth_setWidth_of_le _ hT.le, addWithCarry]
  case isFalse => exact .stays

theorem foldSub_sound (hz : Reads .u1 env z c) :
    FoldsTo env [x, y, z] (foldSub is32 x y z) (T.val (addWithCarry a (~~~b) c)) := by
  rw [foldSub]
  split
  case isTrue h =>
    simp only [Bool.and_eq_true] at h
    cases hx with
    | inst r a => cases h.1.1
    | imm a =>
      cases hy with
      | inst r b => cases h.1.2
      | imm b =>
        cases hz with
        | inst r c => cases h.2
        | imm c =>
          rw [hT.u64, hT.u64]
          refine hT.constant _ ?_
          rw [BitVec.setWidth_add _ _ hT.le, BitVec.setWidth_add _ _ hT.le, hT.back,
            BitVec.setWidth_not hT.le, hT.back, BitVec.setWidth_setWidth_of_le _ hT.le,
            addWithCarry]
  case isFalse => exact .stays

theorem foldMultiply_sound : FoldsTo env [x, y] (foldMultiply is32 x y) (T.val (a*b)) := by
  rw [foldMultiply]
  split
  case isTrue h =>
    have hzero : a*b = 0 := by
      rcases Bool.or_eq_true _ _ ▸ h with h | h
      · rw [hT.zero_of_isZero hx h]
        exact BitVec.zero_mul
      · rw [hT.zero_of_isZero hy h]
        exact BitVec.mul_zero
    rw [hzero]
    exact hT.constant _ (BitVec.setWidth_zero w 64)
  obtain ⟨one, hone, heq⟩ := hT.unsignedImm_one hy
  rw [hone, Option.bind_some]
  cases one with
  | true =>
    have hself : a*b = a := by
      rw [heq rfl]
      exact BitVec.mul_one a
    rw [if_pos rfl, hself]
    exact .operand hT.full hx List.mem_cons_self
  | false =>
    obtain ⟨one, hone, heq⟩ := hT.unsignedImm_one hx
    rw [if_neg (by decide), hone, Option.bind_some]
    cases one with
    | true =>
      have hself : a*b = b := by
        rw [heq rfl]
        exact BitVec.one_mul b
      rw [if_pos rfl, hself]
      exact .operand hT.full hy (.tail _ List.mem_cons_self)
    | false =>
      rw [if_neg (by decide)]
      exact hT.both hx hy (by rw [BitVec.setWidth_mul _ _ hT.le, hT.back, hT.back])

theorem foldAnd_sound : FoldsTo env [x, y] (foldAnd is32 x y) (T.val (a &&& b)) := by
  rw [foldAnd]
  split
  case isTrue h =>
    have hzero : a &&& b = 0 := by
      rcases Bool.or_eq_true _ _ ▸ h with h | h
      · rw [hT.zero_of_isZero hx h]
        exact BitVec.zero_and
      · rw [hT.zero_of_isZero hy h]
        exact BitVec.and_zero
    rw [hzero]
    exact hT.constant _ (BitVec.setWidth_zero w 64)
  split
  case isTrue h =>
    rw [hT.ones_of_hasAllBitsSet hy h, BitVec.and_allOnes]
    exact .operand hT.full hx List.mem_cons_self
  split
  case isTrue h =>
    rw [hT.ones_of_hasAllBitsSet hx h, BitVec.allOnes_and]
    exact .operand hT.full hy (.tail _ List.mem_cons_self)
  case isFalse => exact hT.both hx hy (by rw [BitVec.setWidth_and, hT.back, hT.back])

theorem foldEor_sound : FoldsTo env [x, y] (foldEor is32 x y) (T.val (a ^^^ b)) := by
  rw [foldEor]
  split
  case isTrue h =>
    have hself : a ^^^ b = a := by
      rw [hT.zero_of_isZero hy h]
      exact BitVec.xor_zero
    rw [hself]
    exact .operand hT.full hx List.mem_cons_self
  split
  case isTrue h =>
    have hself : a ^^^ b = b := by
      rw [hT.zero_of_isZero hx h]
      exact BitVec.zero_xor
    rw [hself]
    exact .operand hT.full hy (.tail _ List.mem_cons_self)
  case isFalse => exact hT.both hx hy (by rw [BitVec.setWidth_xor, hT.back, hT.back])

theorem foldOr_sound : FoldsTo env [x, y] (foldOr is32 x y) (T.val (a ||| b)) := by
  rw [foldOr]
  split
  case isTrue h =>
    have hself : a ||| b = a := by
      rw [hT.zero_of_isZero hy h]
      exact BitVec.or_zero
    rw [hself]
    exact .operand hT.full hx List.mem_cons_self
  split
  case isTrue h =>
    have hself : a ||| b = b := by
      rw [hT.zero_of_isZero hx h]
      exact BitVec.zero_or
    rw [hself]
    exact .operand hT.full hy (.tail _ List.mem_cons_self)
  case isFalse => exact hT.both hx hy (by rw [BitVec.setWidth_or, hT.back, hT.back])

omit hx hy in
theorem Word.udiv_back (a b : BitVec w) :
    (a.setWidth 64 / b.setWidth 64).setWidth w = a/b := by
  have hpow : (2:ℕ)^w ≤ 2^64 := Nat.pow_le_pow_right (by decide) hT.le
  have hlt := a.isLt
  have hlt' := b.isLt
  have hle := Nat.div_le_self a.toNat b.toNat
  refine BitVec.eq_of_toNat_eq ?_
  simp only [BitVec.toNat_setWidth, BitVec.toNat_udiv]
  rw [Nat.mod_eq_of_lt (a := a.toNat) (by omega), Nat.mod_eq_of_lt (a := b.toNat) (by omega),
    Nat.mod_eq_of_lt (by omega)]

omit hx hy in
theorem Word.sdiv_back (a b : BitVec w) :
    ((a.signExtend 64).sdiv (b.signExtend 64)).setWidth w = a.sdiv b := by
  have hdvd : 2^w ∣ 2^64 := Nat.pow_dvd_pow 2 hT.le
  refine BitVec.eq_of_toInt_eq ?_
  calc (((a.signExtend 64).sdiv (b.signExtend 64)).setWidth w).toInt
      = ((a.signExtend 64).sdiv (b.signExtend 64)).toInt.bmod (2^w) := by
        rw [BitVec.toInt_setWidth, BitVec.toInt_eq_toNat_bmod, Int.bmod_bmod_of_dvd hdvd]
    _ = (a.toInt.tdiv b.toInt).bmod (2^w) := by
        rw [BitVec.toInt_sdiv, Int.bmod_bmod_of_dvd hdvd, BitVec.toInt_signExtend_of_le hT.le,
          BitVec.toInt_signExtend_of_le hT.le]
    _ = (a.sdiv b).toInt := (BitVec.toInt_sdiv a b).symm

/-- The test for a zero divisor comes before the quotients. -/
theorem foldDivide_sound (isSigned : Bool)
    (hover : isSigned = true → x = T.imm a → y = T.imm b →
      ¬(a.signExtend 64 = BitVec.intMin 64 ∧ b.signExtend 64 = -1)) :
    FoldsTo env [x, y] (foldDivide is32 isSigned x y)
      (T.val (if isSigned then a.sdiv b else a/b)) := by
  rw [foldDivide]
  split
  case isTrue h =>
    have hzero : (if isSigned then a.sdiv b else a/b) = 0 := by
      rw [hT.zero_of_isZero hy h]
      cases isSigned
      · exact BitVec.udiv_zero
      · exact BitVec.sdiv_zero
    rw [hzero]
    exact hT.constant _ (BitVec.setWidth_zero w 64)
  case isFalse hnz =>
    obtain ⟨one, hone, heq⟩ := hT.unsignedImm_one hy
    rw [hone, Option.bind_some]
    cases one with
    | true =>
      have hself : (if isSigned then a.sdiv b else a/b) = a := by
        rw [heq rfl]
        cases isSigned
        · exact BitVec.udiv_one
        · exact BitVec.sdiv_one
      rw [if_pos rfl, hself]
      exact .operand hT.full hx List.mem_cons_self
    | false =>
      rw [if_neg (by decide)]
      cases hx with
      | inst r a => cases isSigned <;> exact .stays
      | imm a =>
        cases hy with
        | inst r b =>
          cases isSigned <;> (rw [foldBoth, foldBoth, (hT.full.eval a).2]; exact .stays)
        | imm b =>
          cases isSigned with
          | false =>
            rw [if_neg (by decide), if_neg (by decide)]
            refine FoldsTo.both hT.full hT.full (.imm a) (.imm b) (hT.u64 a) (hT.u64 b) ?_
            rw [unsignedQuotient_eq, Option.map_some, hT.sized, hT.udiv_back]
          | true =>
            rw [if_pos rfl, if_pos rfl]
            refine FoldsTo.both hT.full hT.full (.imm a) (.imm b) (hT.s64 a) (hT.s64 b) ?_
            rw [signedQuotient_eq (hover rfl rfl rfl), Option.map_some, hT.sized, hT.sdiv_back]

end Word

/-! ### Every opcode -/

section Shift

variable {w : ℕ} {T : IntType (BitVec w)} {is32 : Bool} {get : Value → Option (BitVec 64)}
  {f : BitVec 64 → BitVec 8 → Bool → BitVec 64} {g : Shift w}

/-- A shift of 64 bits has no carry-in. -/
theorem sound_shift64 (hT : Word T is32) (hs : ShiftFold w is32 get f g T.imm)
    (hop : op.argTypes = [T.ty, .u8])
    (hfold : ∀ args, foldOf op args = foldShift get f is32 args op.numArgs)
    (harith : ∀ a s z, arithmetic op (T.val a) (.u8 s) z =
      some (.plain (T.val (g.value a s.toNat)))) : Sound op := by
  intro env ts args henv hfit _
  obtain ⟨x, y, rfl, hx, hy⟩ := args_two hfit hop
  obtain ⟨a, ha⟩ := hT.full.reads henv hx
  obtain ⟨s, hs'⟩ := IntType.Full.u8.reads henv hy
  refine ⟨_, (congrArg₂ (arithmetic op · · _) (hT.full.value ha)
    (IntType.Full.u8.value hs')).trans (harith a s _), ?_⟩
  rw [hfold]
  exact foldShift_sound hT hs ha hs' _ (by rw [Opcode.numArgs, hop]; exact le_rfl)

theorem sound_shift32 {get : Value → Option (BitVec 64)} {g : Shift 32}
    (hs : ShiftFold 32 true get f g .immU32) (hop : op.argTypes = [.u32, .u8, .u1])
    (hfold : ∀ args, foldOf op args = foldShift get f true args op.numArgs)
    (harith : ∀ a s z, arithmetic op (.u32 a) (.u8 s) z = some (.shift32 g a s.toNat z.b1)) :
    Sound op := by
  intro env ts args henv hfit _
  obtain ⟨x, y, z, rfl, hx, hy, -⟩ := args_three hfit hop
  obtain ⟨a, ha⟩ := IntType.Full.u32.reads henv hx
  obtain ⟨s, hs'⟩ := IntType.Full.u8.reads henv hy
  refine ⟨_, (congrArg₂ (arithmetic op · · _) (IntType.Full.u32.value ha)
    (IntType.Full.u8.value hs')).trans (harith a s _), ?_⟩
  rw [hfold]
  exact foldShift_sound word32 hs ha hs' _ (by rw [Opcode.numArgs, hop]; decide)

end Shift

section Sized

variable {w : ℕ} {T : IntType (BitVec w)} {is32 : Bool} (hT : Word T is32)
include hT

theorem sound_sum (fold : Bool → Value → Value → Value → Fold) (g : BitVec w → BitVec w)
    (hop : op.argTypes = [T.ty, T.ty, .u1])
    (hfold : ∀ x y z, foldOf op [x, y, z] = fold is32 x y z)
    (hsound : ∀ {env x y z a b c}, Reads T env x a → Reads T env y b → Reads .u1 env z c →
      FoldsTo env [x, y, z] (fold is32 x y z) (T.val (addWithCarry a (g b) c)))
    (harith : ∀ a b c, arithmetic op (T.val a) (T.val b) (.u1 c) = some (.sum T.val a (g b) c)) :
    Sound op := by
  intro env ts args henv hfit _
  obtain ⟨x, y, z, rfl, hx, hy, hz⟩ := args_three hfit hop
  obtain ⟨a, ha⟩ := hT.full.reads henv hx
  obtain ⟨b, hb⟩ := hT.full.reads henv hy
  obtain ⟨c, hc⟩ := IntType.Full.u1.reads henv hz
  have hvalue : computed env op [x, y, z] = some (.sum T.val a (g b) c) := by
    have hargs : computed env op [x, y, z] =
        arithmetic op (evalArg env x).value (evalArg env y).value (evalArg env z).value := rfl
    rw [hargs, hT.full.value ha, hT.full.value hb, IntType.Full.u1.value hc]
    exact harith a b c
  refine ⟨_, hvalue, ?_⟩
  rw [hfold]
  exact hsound ha hb hc

theorem sound_pair (fold : Value → Value → Fold) {g : BitVec w → BitVec w → BitVec w}
    (hop : op.argTypes = [T.ty, T.ty]) (hfold : ∀ x y, foldOf op [x, y] = fold x y)
    (hsound : ∀ {env x y a b}, Reads T env x a → Reads T env y b → ¬Overflows (op, [x, y]) →
      FoldsTo env [x, y] (fold x y) (T.val (g a b)))
    (harith : ∀ a b z, arithmetic op (T.val a) (T.val b) z = some (.plain (T.val (g a b)))) :
    Sound op := by
  intro env ts args henv hfit hno
  obtain ⟨x, y, rfl, hx, hy⟩ := args_two hfit hop
  obtain ⟨a, ha⟩ := hT.full.reads henv hx
  obtain ⟨b, hb⟩ := hT.full.reads henv hy
  refine ⟨_, (congrArg₂ (arithmetic op · · _) (hT.full.value ha) (hT.full.value hb)).trans
    (harith a b _), ?_⟩
  rw [hfold]
  exact hsound ha hb hno

end Sized

theorem masked32 (b : BitVec 32) : (b &&& 0x1F).toNat = b.toNat % 32 := by
  rw [BitVec.toNat_and]
  exact Nat.and_two_pow_sub_one_eq_mod _ 5

theorem masked64 (b : BitVec 64) : (b &&& 0x3F).toNat = b.toNat % 64 := by
  rw [BitVec.toNat_and]
  exact Nat.and_two_pow_sub_one_eq_mod _ 6

theorem rotateRight_mod' {w : ℕ} (a : BitVec w) (n : ℕ) : a.rotateRight (n % w) = a.rotateRight n := by
  rw [BitVec.rotateRight, BitVec.rotateRight, Nat.mod_mod]

theorem rotate_low (a : BitVec 64) (b : BitVec 64) :
    a.rotateRight (b.setWidth 32).toNat = a.rotateRight b.toNat := by
  have hmod : (b.setWidth 32).toNat % 64 = b.toNat % 64 := by
    rw [BitVec.toNat_setWidth]
    exact Nat.mod_mod_of_dvd _ (by decide)
  rw [← rotateRight_mod', hmod, rotateRight_mod']

/-- No number of 32 bits is the most negative one of 64. -/
theorem signExtend_ne_intMin (a : BitVec 32) : a.signExtend 64 ≠ BitVec.intMin 64 := by
  intro h
  have hint := congrArg BitVec.toInt h
  rw [BitVec.toInt_signExtend_of_le (by decide)] at hint
  have hle := BitVec.le_toInt a
  have hmin : (BitVec.intMin 64).toInt = -2^63 := by decide
  rw [hmin] at hint
  omega

theorem msb_shift (a : BitVec 32) : decide (a.setWidth 64 >>> 31 ≠ 0) = a.msb := by
  have hlt := a.isLt
  have hzero : a.setWidth 64 >>> 31 = 0 ↔ a.toNat < 2^31 := by
    rw [← BitVec.toNat_inj, BitVec.toNat_ushiftRight, BitVec.toNat_setWidth,
      Nat.mod_eq_of_lt (by omega), Nat.shiftRight_eq_div_pow]
    exact Nat.div_eq_zero_iff.trans (by omega)
  rw [BitVec.msb_eq_decide, decide_eq_decide, ne_eq, hzero, Nat.not_lt]

theorem signExtend_setWidth {n w v : ℕ} (a : BitVec n) (h : w ≤ v) :
    (a.signExtend v).setWidth w = a.signExtend w := by
  ext i hi
  rw [BitVec.getElem_setWidth, BitVec.getLsbD_signExtend, ← BitVec.getLsbD_eq_getElem hi,
    BitVec.getLsbD_signExtend]
  simp [hi, hi.trans_le h]

theorem setWidth_twice {n w v : ℕ} (a : BitVec n) (h : w ≤ v) :
    (a.setWidth v).setWidth w = a.setWidth w := BitVec.setWidth_setWidth_of_le a h

/-- The opcodes that are folded. -/
theorem sound_of_arithmetic (h : (arithmetic op .void .void .void).isSome) : Sound op := by
  cases op with
  | leastSignificantWord =>
    exact sound_one .u64 .u32 rfl (fun _ => rfl) (g := (·.setWidth 32)) (fun a => ⟨a, rfl, rfl⟩)
      fun _ _ _ => rfl
  | leastSignificantHalf =>
    exact sound_one .u32 .u16 rfl (fun _ => rfl) (g := (·.setWidth 16))
      (fun a => ⟨_, rfl, congrArg Value.immU16 (setWidth_twice a (by decide))⟩) fun _ _ _ => rfl
  | leastSignificantByte =>
    exact sound_one .u32 .u8 rfl (fun _ => rfl) (g := (·.setWidth 8))
      (fun a => ⟨_, rfl, congrArg Value.immU8 (setWidth_twice a (by decide))⟩) fun _ _ _ => rfl
  | mostSignificantBit =>
    exact sound_one .u32 .u1 rfl (fun _ => rfl) (g := BitVec.msb)
      (fun a => ⟨_, rfl, congrArg Value.immU1 (msb_shift a)⟩) fun _ _ _ => rfl
  | isZero32 =>
    exact sound_one .u32 .u1 rfl (fun _ => rfl) (g := fun a => a = 0) (fun a => ⟨a, rfl, rfl⟩)
      fun _ _ _ => rfl
  | isZero64 =>
    exact sound_one .u64 .u1 rfl (fun _ => rfl) (g := fun a => a = 0) (fun a => ⟨a, rfl, rfl⟩)
      fun _ _ _ => rfl
  | logicalShiftLeftMasked32 =>
    exact sound_both .u32 .u32 rfl (fun _ _ => rfl) (g := fun a b => a <<< (b.toNat%32))
      (fun a b => ⟨a, b, rfl, rfl, by rw [BitVec.shiftLeft_eq', masked32]; rfl⟩) fun _ _ _ => rfl
  | logicalShiftLeftMasked64 =>
    exact sound_both .u64 .u64 rfl (fun _ _ => rfl) (g := fun a b => a <<< (b.toNat%64))
      (fun a b => ⟨a, b, rfl, rfl, by rw [BitVec.shiftLeft_eq', masked64]; rfl⟩) fun _ _ _ => rfl
  | logicalShiftRightMasked32 =>
    exact sound_both .u32 .u32 rfl (fun _ _ => rfl) (g := fun a b => a >>> (b.toNat%32))
      (fun a b => ⟨a, b, rfl, rfl, by rw [BitVec.ushiftRight_eq', masked32]; rfl⟩) fun _ _ _ => rfl
  | logicalShiftRightMasked64 =>
    exact sound_both .u64 .u64 rfl (fun _ _ => rfl) (g := fun a b => a >>> (b.toNat%64))
      (fun a b => ⟨a, b, rfl, rfl, by rw [BitVec.ushiftRight_eq', masked64]; rfl⟩) fun _ _ _ => rfl
  | arithmeticShiftRightMasked32 =>
    exact sound_both .u32 .u32 rfl (fun _ _ => rfl) (g := fun a b => a.sshiftRight (b.toNat%32))
      (fun a b => ⟨a, b, rfl, rfl, by rw [BitVec.sshiftRight', masked32]; rfl⟩) fun _ _ _ => rfl
  | arithmeticShiftRightMasked64 =>
    exact sound_both .u64 .u64 rfl (fun _ _ => rfl) (g := fun a b => a.sshiftRight (b.toNat%64))
      (fun a b => ⟨a, b, rfl, rfl, by rw [BitVec.sshiftRight', masked64]; rfl⟩) fun _ _ _ => rfl
  | rotateRightMasked32 =>
    exact sound_both .u32 .u32 rfl (fun _ _ => rfl) (g := fun a b => a.rotateRight (b.toNat%32))
      (fun a b => ⟨a, b, rfl, rfl, by rw [rotateRight_mod']; rfl⟩) fun _ _ _ => rfl
  | rotateRightMasked64 =>
    exact sound_both .u64 .u64 rfl (fun _ _ => rfl) (g := fun a b => a.rotateRight (b.toNat%64))
      (fun a b => ⟨a, b, rfl, rfl, by rw [rotate_low, rotateRight_mod']; rfl⟩) fun _ _ _ => rfl
  | logicalShiftLeft32 => exact sound_shift32 shiftFold_lsl32 rfl (fun _ => rfl) fun _ _ _ => rfl
  | logicalShiftRight32 => exact sound_shift32 shiftFold_lsr32 rfl (fun _ => rfl) fun _ _ _ => rfl
  | arithmeticShiftRight32 => exact sound_shift32 shiftFold_asr32 rfl (fun _ => rfl) fun _ _ _ => rfl
  | bitRotateRight32 => exact sound_shift32 shiftFold_ror32 rfl (fun _ => rfl) fun _ _ _ => rfl
  | logicalShiftLeft64 =>
    exact sound_shift64 word64 shiftFold_lsl64 rfl (fun _ => rfl) fun _ _ _ => rfl
  | logicalShiftRight64 =>
    exact sound_shift64 word64 shiftFold_lsr64 rfl (fun _ => rfl) fun _ _ _ => rfl
  | arithmeticShiftRight64 =>
    exact sound_shift64 word64 shiftFold_asr64 rfl (fun _ => rfl) fun _ _ _ => rfl
  | bitRotateRight64 =>
    exact sound_shift64 word64 shiftFold_ror64 rfl (fun _ => rfl) fun _ _ _ => rfl
  | add32 =>
    exact sound_sum word32 foldAdd id rfl (fun _ _ _ => rfl) (foldAdd_sound word32)
      fun _ _ _ => rfl
  | add64 =>
    exact sound_sum word64 foldAdd id rfl (fun _ _ _ => rfl) (foldAdd_sound word64)
      fun _ _ _ => rfl
  | sub32 =>
    exact sound_sum word32 foldSub (~~~·) rfl (fun _ _ _ => rfl) (foldSub_sound word32)
      fun _ _ _ => rfl
  | sub64 =>
    exact sound_sum word64 foldSub (~~~·) rfl (fun _ _ _ => rfl) (foldSub_sound word64)
      fun _ _ _ => rfl
  | mul32 =>
    exact sound_pair word32 (foldMultiply true) rfl (fun _ _ => rfl)
      (fun hx hy _ => foldMultiply_sound word32 hx hy) fun _ _ _ => rfl
  | mul64 =>
    exact sound_pair word64 (foldMultiply false) rfl (fun _ _ => rfl)
      (fun hx hy _ => foldMultiply_sound word64 hx hy) fun _ _ _ => rfl
  | signedDiv32 =>
    exact sound_pair word32 (foldDivide true true) rfl (fun _ _ => rfl)
      (fun hx hy _ => foldDivide_sound word32 hx hy true fun _ _ _ h =>
        signExtend_ne_intMin _ h.1) fun _ _ _ => rfl
  | signedDiv64 =>
    refine sound_pair word64 (foldDivide false true) rfl (fun _ _ => rfl)
      (fun hx hy hno => foldDivide_sound word64 hx hy true fun _ hxa hyb h => hno ?_)
      fun _ _ _ => rfl
    rw [BitVec.signExtend_eq, BitVec.signExtend_eq] at h
    rw [hxa, hyb, h.1, h.2]
    rfl
  | unsignedDiv32 =>
    exact sound_pair word32 (foldDivide true false) rfl (fun _ _ => rfl)
      (fun hx hy _ => foldDivide_sound word32 hx hy false fun h => by cases h) fun _ _ _ => rfl
  | unsignedDiv64 =>
    exact sound_pair word64 (foldDivide false false) rfl (fun _ _ => rfl)
      (fun hx hy _ => foldDivide_sound word64 hx hy false fun h => by cases h) fun _ _ _ => rfl
  | and32 =>
    exact sound_pair word32 (foldAnd true) rfl (fun _ _ => rfl)
      (fun hx hy _ => foldAnd_sound word32 hx hy) fun _ _ _ => rfl
  | and64 =>
    exact sound_pair word64 (foldAnd false) rfl (fun _ _ => rfl)
      (fun hx hy _ => foldAnd_sound word64 hx hy) fun _ _ _ => rfl
  | eor32 =>
    exact sound_pair word32 (foldEor true) rfl (fun _ _ => rfl)
      (fun hx hy _ => foldEor_sound word32 hx hy) fun _ _ _ => rfl
  | eor64 =>
    exact sound_pair word64 (foldEor false) rfl (fun _ _ => rfl)
      (fun hx hy _ => foldEor_sound word64 hx hy) fun _ _ _ => rfl
  | or32 =>
    exact sound_pair word32 (foldOr true) rfl (fun _ _ => rfl)
      (fun hx hy _ => foldOr_sound word32 hx hy) fun _ _ _ => rfl
  | or64 =>
    exact sound_pair word64 (foldOr false) rfl (fun _ _ => rfl)
      (fun hx hy _ => foldOr_sound word64 hx hy) fun _ _ _ => rfl
  | not32 =>
    exact sound_one .u32 .u32 rfl (fun _ => rfl) (g := (~~~·))
      (fun a => ⟨_, rfl, congrArg Value.immU32 (by
        rw [BitVec.setWidth_not (by decide), setWidth_twice a (by decide), BitVec.setWidth_eq])⟩)
      fun _ _ _ => rfl
  | not64 =>
    exact sound_one .u64 .u64 rfl (fun _ => rfl) (g := (~~~·)) (fun a => ⟨a, rfl, rfl⟩)
      fun _ _ _ => rfl
  | signExtendByteToWord =>
    exact sound_one .u8 .u32 rfl (fun _ => rfl) (g := (·.signExtend 32))
      (fun a => ⟨_, rfl, congrArg Value.immU32 (signExtend_setWidth a (by decide))⟩) fun _ _ _ => rfl
  | signExtendHalfToWord =>
    exact sound_one .u16 .u32 rfl (fun _ => rfl) (g := (·.signExtend 32))
      (fun a => ⟨_, rfl, congrArg Value.immU32 (signExtend_setWidth a (by decide))⟩) fun _ _ _ => rfl
  | signExtendByteToLong =>
    exact sound_one .u8 .u64 rfl (fun _ => rfl) (g := (·.signExtend 64)) (fun a => ⟨_, rfl, rfl⟩)
      fun _ _ _ => rfl
  | signExtendHalfToLong =>
    exact sound_one .u16 .u64 rfl (fun _ => rfl) (g := (·.signExtend 64)) (fun a => ⟨_, rfl, rfl⟩)
      fun _ _ _ => rfl
  | signExtendWordToLong =>
    exact sound_one .u32 .u64 rfl (fun _ => rfl) (g := (·.signExtend 64)) (fun a => ⟨_, rfl, rfl⟩)
      fun _ _ _ => rfl
  | zeroExtendByteToWord =>
    exact sound_one .u8 .u32 rfl (fun _ => rfl) (g := (·.setWidth 32))
      (fun a => ⟨_, rfl, congrArg Value.immU32 (setWidth_twice a (by decide))⟩) fun _ _ _ => rfl
  | zeroExtendHalfToWord =>
    exact sound_one .u16 .u32 rfl (fun _ => rfl) (g := (·.setWidth 32))
      (fun a => ⟨_, rfl, congrArg Value.immU32 (setWidth_twice a (by decide))⟩) fun _ _ _ => rfl
  | zeroExtendByteToLong =>
    exact sound_one .u8 .u64 rfl (fun _ => rfl) (g := (·.setWidth 64)) (fun a => ⟨_, rfl, rfl⟩)
      fun _ _ _ => rfl
  | zeroExtendHalfToLong =>
    exact sound_one .u16 .u64 rfl (fun _ => rfl) (g := (·.setWidth 64)) (fun a => ⟨_, rfl, rfl⟩)
      fun _ _ _ => rfl
  | zeroExtendWordToLong =>
    exact sound_one .u32 .u64 rfl (fun _ => rfl) (g := (·.setWidth 64)) (fun a => ⟨_, rfl, rfl⟩)
      fun _ _ _ => rfl
  | byteReverseWord =>
    exact sound_one .u32 .u32 rfl (fun _ => rfl) (g := swapBytes32)
      (fun a => ⟨_, rfl, congrArg (Value.immU32 ∘ swapBytes32) (word32.back a)⟩) fun _ _ _ => rfl
  | byteReverseHalf =>
    exact sound_one .u16 .u16 rfl (fun _ => rfl) (g := swapBytes16)
      (fun a => ⟨_, rfl, congrArg (Value.immU16 ∘ swapBytes16)
        ((setWidth_twice a (by decide)).trans (BitVec.setWidth_eq a))⟩) fun _ _ _ => rfl
  | byteReverseDual =>
    exact sound_one .u64 .u64 rfl (fun _ => rfl) (g := swapBytes64) (fun a => ⟨a, rfl, rfl⟩)
      fun _ _ _ => rfl
  | _ => cases h

end Ruzu.Ir
