import Mathlib
import Ruzu.Ir.Arithmetic
import Ruzu.Ir.Related

/-!
# What identity removal keeps

An argument that goes past an identity has the value and the type it had. The chase
ends, since it only goes back; what it leaves reads no identity.
-/

set_option autoImplicit false

namespace Ruzu.Ir

/-- The pseudo-operations that read more than the value of an instruction. -/
def readsFlag (op : Opcode) : Bool :=
  match pseudoOf op with
  | none | some .nz => false
  | some _ => true

/-- The value of an outcome says what its N and Z are. -/
def Outcome.Plausible (o : Outcome) : Prop := o.side .nz = o.value.nz

theorem plausible_plain (v : Val) : (Outcome.plain v).Plausible := rfl

theorem plausible_arithmetic {op : Opcode} {x y z : Val} {o : Outcome}
    (h : arithmetic op x y z = some o) : o.Plausible := by
  unfold arithmetic at h
  split at h
  case h_5 op =>
    split at h
    · obtain rfl := Option.some.inj h
      rfl
    · obtain ⟨v, -, rfl⟩ := Option.map_eq_some_iff.mp h
      rfl
  all_goals
    obtain rfl := Option.some.inj h
    rfl

section Machine

variable {S : Type*} {other : Machine S}

theorem arithExec_eq (op : Opcode) (args : List Outcome) (s : S) (hvoid : op ≠ .void)
    (hid : op ≠ .identity) :
    arithExec other op args s = match pseudoOf op with
      | some kind => (.plain (((args.getD 0 (.plain .void)).side kind).orZero op.returnType), s)
      | none => match arithmetic op (args.getD 0 (.plain .void)).value
          (args.getD 1 (.plain .void)).value (args.getD 2 (.plain .void)).value with
        | some o => (o, s)
        | none => other op args s := by
  cases op <;> first | rfl | exact absurd rfl hvoid | exact absurd rfl hid

theorem arithExec_plausible (ho : Ordinary other) (op : Opcode) (args : List Outcome) (s : S) :
    (arithExec other op args s).1.Plausible := by
  by_cases hvoid : op = .void
  · rw [hvoid]
    rfl
  by_cases hid : op = .identity
  · rw [hid]
    rfl
  rw [arithExec_eq op args s hvoid hid]
  split
  · rfl
  split
  · rename_i h
    exact plausible_arithmetic h
  · exact ho.nz op args s

/-- An opcode that reads no flag sees the values of its operands, and what is plausible. -/
theorem arithExec_values (ho : Ordinary other) {op : Opcode} (hflag : readsFlag op = false)
    {args args' : List Outcome} (hvalues : args.map Outcome.value = args'.map Outcome.value)
    (h : ∀ o ∈ args, o.Plausible) (h' : ∀ o ∈ args', o.Plausible) (s : S) :
    arithExec other op args s = arithExec other op args' s := by
  have hget (k : ℕ) :
      (args.getD k (.plain .void)).value = (args'.getD k (.plain .void)).value := by
    have hk := congrArg (·.getD k (Outcome.plain .void).value) hvalues
    simpa only [List.getD_map] using hk
  have hplain (as : List Outcome) (has : ∀ o ∈ as, o.Plausible) :
      (as.getD 0 (.plain .void)).Plausible := by
    cases as with
    | nil => rfl
    | cons o as => exact has o List.mem_cons_self
  by_cases hvoid : op = .void
  · rw [hvoid]
    rfl
  by_cases hid : op = .identity
  · rw [hid]
    exact congrArg (fun v => (Outcome.plain v, s)) (hget 0)
  rw [arithExec_eq op args s hvoid hid, arithExec_eq op args' s hvoid hid, hget 0, hget 1, hget 2,
    ho.values op args args' s hvalues]
  cases hkind : pseudoOf op with
  | none => rfl
  | some kind =>
    obtain rfl : kind = .nz := by
      rw [readsFlag, hkind] at hflag
      cases kind <;> first | rfl | cases hflag
    have hnz := (hplain args h).trans ((congrArg Val.nz (hget 0)).trans (hplain args' h').symm)
    dsimp only
    rw [hnz]

theorem arithmetic_ty {op : Opcode} {x y z : Val} {o : Outcome}
    (h : arithmetic op x y z = some o) : o.value.ty = op.returnType := by
  cases op <;> cases h <;> rfl

theorem sensible_arithExec (ho : Ordinary other) : Sensible (arithExec other) where
  void _ _ := rfl
  identity _ _ := rfl
  typed op args s hid := by
    by_cases hvoid : op = .void
    · rw [hvoid]
      exact .inr (.inr rfl)
    rw [arithExec_eq op args s hvoid hid]
    split
    · rw [Outcome.plain_value, Val.orZero]
      split
      case isTrue h => exact .inr (.inr h)
      case isFalse => exact Val.zero_hasTy _
    split
    case h_1 h => exact .inr (.inr (arithmetic_ty h))
    case h_2 => exact ho.typed op args s

theorem plausible_operands (ho : Ordinary other) (cs : List Code) (s : S) (c : Code) :
    ∀ o ∈ operands (runCode (arithExec other) cs s).1 c, o.Plausible := by
  intro o hmem
  obtain ⟨v, -, rfl⟩ := List.mem_map.mp hmem
  cases v with
  | inst r =>
    rw [evalArg, List.getD_eq_getElem?_getD]
    cases hr : (runCode (arithExec other) cs s).1[r]? with
    | none => rfl
    | some o =>
      exact runCode_all (fun op args s => arithExec_plausible ho op args s) cs s o
        (List.mem_of_getElem? hr)
  | _ => rfl

end Machine

/-! ### Leading an argument past an identity -/

/-- The instruction reads no identity. -/
def Past (cs : List Code) (k : ℕ) : Prop :=
  ∀ c r d, cs[k]? = some c → r ∈ c.refs → cs[r]? = some d → d.1 ≠ .identity

/-- No flag is read off an identity. -/
def Direct (cs : List Code) : Prop :=
  ∀ k c, cs[k]? = some c → readsFlag c.1 = true → Past cs k

theorem Past.congr {cs cs' : List Code} {k : ℕ} (h : Past cs k) (hk : cs'[k]? = cs[k]?)
    (hops : cs'.map Prod.fst = cs.map Prod.fst) : Past cs' k := by
  intro c r d hc hr hd
  have hop := congrArg (·[r]?) hops
  simp only [List.getElem?_map, hd, Option.map_some] at hop
  obtain ⟨e, he, heq⟩ := Option.map_eq_some_iff.mp hop.symm
  rw [← heq]
  exact h c r e (hk.symm.trans hc) hr he

variable {S : Type*} {other : Machine S}

/-- The arguments of instruction `i` have been led on, and nothing else has changed. -/
structure Led (other : Machine S) (i : ℕ) (b b' : Block) : Prop where
  wellFormed : WellFormed b'
  ops : b'.code.map Prod.fst = b.code.map Prod.fst
  elsewhere : ∀ k, k ≠ i → b'.code[k]? = b.code[k]?
  runs : ∀ s, runCode (arithExec other) b'.code s = runCode (arithExec other) b.code s

namespace Led

variable {b b' b'' : Block} {i : ℕ}

theorem refl (h : WellFormed b) : Led other i b b := ⟨h, rfl, fun _ _ => rfl, fun _ => rfl⟩

theorem trans (h : Led other i b b') (h' : Led other i b' b'') : Led other i b b'' where
  wellFormed := h'.wellFormed
  ops := h'.ops.trans h.ops
  elsewhere k hk := (h'.elsewhere k hk).trans (h.elsewhere k hk)
  runs s := (h'.runs s).trans (h.runs s)

theorem length (h : Led other i b b') : b'.instructions.length = b.instructions.length := by
  have hlen := congrArg List.length h.ops
  rwa [List.length_map, List.length_map, Block.length_code, Block.length_code] at hlen

theorem opcode (h : Led other i b b') (k : ℕ) : (b'.inst k).opcode = (b.inst k).opcode := by
  have hget (c : Block) : (c.code.map Prod.fst).getD k .void = (c.inst k).opcode := by
    rw [Block.code, List.map_map, Block.inst]
    exact List.getD_map _ (.new .void []) Inst.opcode
  rw [← hget, ← hget, h.ops]

theorem past (h : Led other i b b') {k : ℕ} (hk : k ≠ i) (hp : Past b.code k) : Past b'.code k :=
  hp.congr (h.elsewhere k hk) h.ops

theorem direct (h : Led other i b b') (hp : Past b'.code i) (hd : Direct b.code) :
    Direct b'.code := by
  intro k c hc hread
  by_cases hk : k = i
  · exact hk ▸ hp
  · exact h.past hk (hd k c ((h.elsewhere k hk).symm.trans hc) hread)

end Led

section Chase

variable {b : Block} {i a r : ℕ}

theorem chase_eq (h : (b.inst i).arg a = .inst r) :
    b.chase i a r = b.setArg i a ((b.inst r).arg 0) := by
  rw [Block.chase, Block.setArg, h]
  rfl

variable (hwf : WellFormed b) (hi : i < b.instructions.length) (ha : a < (b.inst i).numArgs)
  (harg : (b.inst i).arg a = .inst r) (hid : (b.inst r).opcode = .identity)
include hwf hi harg hid

/-- What is known of the identity. -/
theorem identity_at : r < i ∧ b.code[r]? = some (.identity, [(b.inst r).arg 0]) ∧
    ∀ q, (b.inst r).arg 0 = .inst q → q < r := by
  have hr := hwf.typed.refs (b.code_inst hi) a r harg
  have hc := b.code_inst (hr.trans hi)
  have hop : (b.inst r).code = (.identity, (b.inst r).args) := by rw [Inst.code, hid]
  rw [hop] at hc
  have hlen : (b.inst r).args.length = 1 := (hwf.typed.fits hc).1
  obtain ⟨v, hv⟩ := List.length_eq_one_iff.mp hlen
  have hzero : (b.inst r).arg 0 = v := by
    rw [Inst.arg, hv]
    rfl
  rw [hv] at hc
  rw [hzero]
  exact ⟨hr, hc, fun q hq => hwf.typed.refs hc 0 q hq⟩

include ha in
theorem chase_led (ho : Ordinary other) (hflag : readsFlag (b.inst i).opcode = false) :
    Led other i b (b.chase i a r) := by
  obtain ⟨hr, hrc, hback⟩ := identity_at hwf hi harg hid
  obtain ⟨htyped, hcounted⟩ := b.wellFormed_iff.mp hwf
  have hic := b.code_inst hi
  have hfit := htyped.fits hic
  generalize hw : (b.inst r).arg 0 = w at hrc hback
  have hcode : (b.chase i a r).code =
      b.code.set i ((b.inst i).opcode, (b.inst i).args.set a w) := by
    rw [chase_eq harg, hw, Block.code_setArg_at b hi]
  have hlen : (b.chase i a r).code.length = b.code.length := by rw [hcode, List.length_set]
  have hget : (b.inst i).args[a]? = some (.inst r) := by
    have halen : a < (b.inst i).args.length := hfit.1 ▸ ha
    rw [Inst.arg, List.getD_eq_getElem _ _ halen] at harg
    rw [List.getElem?_eq_getElem halen, harg]
  have hself {c : Code} (hc : (b.chase i a r).code[i]? = some c) :
      c = ((b.inst i).opcode, (b.inst i).args.set a w) := by
    rw [hcode, List.getElem?_set_self (by rwa [b.length_code])] at hc
    exact (Option.some.inj hc).symm
  have helse (k : ℕ) (hk : k ≠ i) : (b.chase i a r).code[k]? = b.code[k]? := by
    rw [hcode, List.getElem?_set_ne (Ne.symm hk)]
  refine ⟨(Block.wellFormed_iff _).mpr ⟨typed_same hlen (fun k c c' hc hc' hargs => ?_) htyped, ?_⟩,
    ?_, helse, fun s => runCode_same hlen s fun k c c' hc hc' => ?_⟩
  · by_cases hk : k = i
    · subst hk
      obtain rfl := Option.some.inj (hic.symm.trans hc)
      obtain rfl := hself hc'
      -- the identity has the type of its argument
      have hty : typeOf (typesOf (b.code.take k)) w = typeOf (typesOf (b.code.take k)) (.inst r) := by
        have hrlen := (List.getElem?_eq_some_iff.mp hrc).1
        rw [typeOf_take hrlen.le hr.le hback]
        exact (typesOf_take_getD hrc hr).symm
      refine ⟨⟨by rw [List.length_set]; exact hargs.1, fun p hp => ?_⟩, ?_⟩
      · obtain ⟨j, hj⟩ := List.getElem?_of_mem hp
        rw [List.getElem?_zip_eq_some] at hj
        by_cases hja : j = a
        · subst hja
          rw [List.getElem?_set_self (List.getElem?_eq_some_iff.mp hget).1] at hj
          rw [← Option.some.inj hj.1, hty]
          refine hargs.2 (.inst r, p.2) (List.mem_of_getElem? (i := j) ?_)
          rw [List.getElem?_zip_eq_some]
          exact ⟨hget, hj.2⟩
        · rw [List.getElem?_set_ne (Ne.symm hja)] at hj
          refine hargs.2 p (List.mem_of_getElem? (i := j) ?_)
          rw [List.getElem?_zip_eq_some]
          exact hj
      · rw [resultType, resultType]
        by_cases hop : (b.inst k).opcode = .identity
        · rw [if_pos hop, if_pos (show (b.inst k).code.1 = _ from hop)]
          obtain rfl : a = 0 := by
            rw [Inst.numArgs, hop] at ha
            exact Nat.lt_one_iff.mp ha
          have hzero : ((b.inst k).args.set 0 w).getD 0 .void = w := by
            rw [List.getD_eq_getElem?_getD,
              List.getElem?_set_self (List.getElem?_eq_some_iff.mp hget).1, Option.getD_some]
          rw [hzero, hty]
          exact congrArg _ harg.symm
        · rw [if_neg hop, if_neg (show (b.inst k).code.1 ≠ _ from hop)]
          rfl
    · rw [helse k hk, hc] at hc'
      obtain rfl := Option.some.inj hc'
      exact ⟨hargs, rfl⟩
  · rw [chase_eq harg]
    exact hcounted.setArg hi ha hget _
  · rw [hcode, List.map_set]
    refine List.ext_getElem? fun k => ?_
    by_cases hk : i = k
    · subst hk
      rw [List.getElem?_set_self (by rwa [List.length_map, b.length_code]), List.getElem?_map, hic]
      rfl
    · rw [List.getElem?_set_ne hk]
  · by_cases hk : k = i
    · subst hk
      obtain rfl := Option.some.inj (hic.symm.trans hc)
      obtain rfl := hself hc'
      have hrlen := (List.getElem?_eq_some_iff.mp hrc).1
      have hvalue : (evalArg (reached (arithExec other) b.code k s).1 w).value =
          (evalArg (reached (arithExec other) b.code k s).1 (.inst r)).value := by
        rw [evalArg_reached hr.le hrlen.le hback, evalArg, reached_getD hrc hr]
        rfl
      have hvalues : (operands (reached (arithExec other) b.code k s).1
            ((b.inst k).opcode, (b.inst k).args.set a w)).map Outcome.value =
          (operands (reached (arithExec other) b.code k s).1 (b.inst k).code).map
            Outcome.value := by
        rw [operands, operands, List.map_map, List.map_map]
        refine List.ext_getElem? fun j => ?_
        simp only [List.getElem?_map, List.getElem?_take, List.getElem?_set]
        by_cases hja : a = j
        · subst hja
          rw [if_pos rfl, if_pos (List.getElem?_eq_some_iff.mp hget).1]
          simp only [Inst.code, hget]
          split
          · exact congrArg some hvalue
          · rfl
        · rw [if_neg hja]
          rfl
      rw [step, step]
      rw [reached_eq_take] at hvalues ⊢
      exact arithExec_values ho hflag hvalues (plausible_operands ho _ s _)
        (plausible_operands ho _ s _) _
    · rw [helse k hk, hc] at hc'
      obtain rfl := Option.some.inj hc'
      rfl

end Chase

/-! ### The loops -/

/-- A loop over a range keeps what its steps keep. -/
theorem foldlM_range {β : Type*} {f : β → ℕ → Option β} (P : ℕ → β → Prop) {n : ℕ} {b : β}
    (hstart : P 0 b) (hstep : ∀ k < n, ∀ b, P k b → ∃ b', f b k = some b' ∧ P (k+1) b') :
    ∃ b', (List.range n).foldlM f b = some b' ∧ P n b' := by
  induction n with
  | zero => exact ⟨b, rfl, hstart⟩
  | succ n ih =>
    obtain ⟨b', hb', hp⟩ := ih fun k hk => hstep k (hk.trans (Nat.lt_succ_self n))
    obtain ⟨b'', hb'', hp'⟩ := hstep n (Nat.lt_succ_self n) b' hp
    refine ⟨b'', ?_, hp'⟩
    rw [List.range_succ, List.foldlM_append, hb', Option.bind_eq_bind, Option.bind_some,
      List.foldlM_cons, hb'']
    rfl

section Loops

variable {b : Block} {i : ℕ}

/-- The argument does not refer to an identity. -/
def ArgPast (b : Block) (i a : ℕ) : Prop :=
  ∀ r, (b.inst i).arg a = .inst r → (b.inst r).opcode ≠ .identity

theorem setArg_args (b : Block) (hi : i < b.instructions.length) (a : ℕ) (w : Value) :
    ((b.setArg i a w).inst i).args = (b.inst i).args.set a w := by
  have hc : (b.setArg i a w).code[i]? = some ((b.inst i).opcode, (b.inst i).args.set a w) := by
    rw [Block.code_setArg_at b hi, List.getElem?_set_self (by rwa [b.length_code])]
  exact congrArg Prod.snd (Block.inst_code hc)

theorem setArg_arg (b : Block) (hi : i < b.instructions.length) (a : ℕ) (w : Value) {a' : ℕ}
    (ha : a' ≠ a) : ((b.setArg i a w).inst i).arg a' = (b.inst i).arg a' := by
  rw [Inst.arg, Inst.arg, setArg_args b hi, List.getD_eq_getElem?_getD,
    List.getD_eq_getElem?_getD, List.getElem?_set_ne (Ne.symm ha)]

theorem ArgPast.congr {b' : Block} {a : ℕ} (h : ArgPast b i a)
    (harg : (b'.inst i).arg a = (b.inst i).arg a)
    (hop : ∀ r, (b'.inst r).opcode = (b.inst r).opcode) : ArgPast b' i a := by
  intro r hr
  rw [hop r]
  exact h r (harg.symm.trans hr)

/-- The chase ends, since each identity refers to an earlier instruction. -/
theorem chaseArg_led (ho : Ordinary other) {a n : ℕ} (hwf : WellFormed b)
    (hi : i < b.instructions.length) (ha : a < (b.inst i).numArgs)
    (hflag : readsFlag (b.inst i).opcode = true → ArgPast b i a)
    (hfuel : ∀ r, (b.inst i).arg a = .inst r → r + 1 < n) (hpos : 0 < n) :
    ∃ b', Block.chaseArg i a n b = some b' ∧ Led other i b b' ∧ ArgPast b' i a ∧
      ∀ a', a' ≠ a → (b'.inst i).arg a' = (b.inst i).arg a' := by
  induction n generalizing b with
  | zero => exact absurd hpos (Nat.lt_irrefl 0)
  | succ n ih =>
    rw [Block.chaseArg]
    split
    case h_1 r harg =>
      split
      case isTrue hid =>
        have hquiet : readsFlag (b.inst i).opcode = false := by
          rw [← Bool.not_eq_true]
          exact fun h => hflag h r harg hid
        have hled := chase_led hwf hi ha harg hid ho hquiet
        obtain ⟨hr, hrc, hback⟩ := identity_at hwf hi harg hid
        have hlen : (b.inst i).args.length = (b.inst i).numArgs :=
          (hwf.typed.fits (b.code_inst hi)).1
        have hnew : ((b.chase i a r).inst i).arg a = (b.inst r).arg 0 := by
          rw [chase_eq harg, Inst.arg, setArg_args b hi, List.getD_eq_getElem?_getD,
            List.getElem?_set_self (hlen.symm ▸ ha), Option.getD_some]
        have hlast := hfuel r harg
        obtain ⟨b', hb', hled', hpast, hothers⟩ := ih hled.wellFormed (hled.length.symm ▸ hi)
          (by rw [Inst.numArgs, hled.opcode]; exact ha)
          (fun h => absurd (hled.opcode i ▸ h) (by rw [hquiet]; decide))
          (fun q hq => by have := hback q (hnew ▸ hq); omega) (by omega)
        refine ⟨b', hb', hled.trans hled', hpast, fun a' ha' => ?_⟩
        rw [hothers a' ha', chase_eq harg, setArg_arg b hi a _ ha']
      case isFalse hid =>
        refine ⟨b, rfl, .refl hwf, fun q hq => ?_, fun _ _ => rfl⟩
        obtain rfl := Value.inst.inj (harg.symm.trans hq)
        exact hid
    case h_2 hnot => exact ⟨b, rfl, .refl hwf, fun r hr => absurd hr (hnot r), fun _ _ => rfl⟩

/-- An instruction whose arguments are past identities reads none. -/
theorem past_of_args (hi : i < b.instructions.length)
    (h : ∀ a < (b.inst i).numArgs, ArgPast b i a) : Past b.code i := by
  intro c r d hc hr hd
  obtain rfl := Option.some.inj ((b.code_inst hi).symm.trans hc)
  obtain ⟨a, ha⟩ := List.getElem?_of_mem (Code.mem_refs.1 hr)
  have hlt := (List.getElem?_eq_some_iff.mp ha).1
  rw [List.length_take] at hlt
  have hnum : a < (b.inst i).numArgs := lt_of_lt_of_le hlt (Nat.min_le_left _ _)
  rw [List.getElem?_take, if_pos (lt_of_lt_of_le hlt (Nat.min_le_left _ _))] at ha
  have harg : (b.inst i).arg a = .inst r := by
    rw [Inst.arg, List.getD_eq_getElem?_getD, show (b.inst i).args[a]? = _ from ha, Option.getD_some]
  have hop := h a hnum r harg
  rw [← Block.inst_code hd]
  exact hop

theorem argPast_of_past (hwf : WellFormed b) (hi : i < b.instructions.length)
    (h : Past b.code i) {a : ℕ} (ha : a < (b.inst i).numArgs) : ArgPast b i a := by
  intro r hr
  have hc := b.code_inst hi
  have hlen : (b.inst i).args.length = (b.inst i).numArgs := (hwf.typed.fits hc).1
  have hrlt := (hwf.typed.refs hc a r hr).trans hi
  have hget : (b.inst i).args[a]? = some (.inst r) := by
    rw [← hr, Inst.arg, List.getD_eq_getElem?_getD, List.getElem?_eq_getElem (hlen.symm ▸ ha),
      Option.getD_some]
  refine h _ r _ hc (Code.mem_refs.2 (List.mem_of_getElem? (i := a) ?_)) (b.code_inst hrlt)
  rw [List.getElem?_take, if_pos (show a < (b.inst i).code.1.numArgs from ha)]
  exact hget

theorem chaseArgs_led (ho : Ordinary other) (hwf : WellFormed b) (hd : Direct b.code)
    (hi : i < b.instructions.length) :
    ∃ b', b.chaseArgs i = some b' ∧ Led other i b b' ∧ Past b'.code i := by
  rw [Block.chaseArgs]
  split
  case isTrue htomb =>
    rw [Inst.isTombstone, decide_eq_true_eq] at htomb
    refine ⟨b, rfl, .refl hwf, past_of_args hi fun a ha => ?_⟩
    rw [Inst.numArgs, htomb.1] at ha
    exact absurd ha (Nat.not_lt_zero a)
  obtain ⟨b', hb', hled, hpast, -⟩ := foldlM_range (n := (b.inst i).numArgs) (b := b)
    (f := fun b a => Block.chaseArg i a (b.instructions.length+1) b)
    (fun n b' => Led other i b b' ∧ (∀ a < n, ArgPast b' i a) ∧
      (readsFlag (b.inst i).opcode = true → ∀ a < (b.inst i).numArgs, ArgPast b' i a))
    ⟨.refl hwf, fun a ha => absurd ha (Nat.not_lt_zero a), fun hflag a ha =>
      argPast_of_past hwf hi (hd i _ (b.code_inst hi) hflag) ha⟩
    fun a ha b' hp => by
      obtain ⟨hled, hpast, hflag⟩ := hp
      have hi' : i < b'.instructions.length := hled.length.symm ▸ hi
      have hop := hled.opcode i
      obtain ⟨b'', hb'', hled', hnew, hothers⟩ := chaseArg_led ho
        (n := b'.instructions.length+1) hled.wellFormed hi' (a := a) (by rw [Inst.numArgs, hop]; exact ha)
        (fun h => hflag (hop ▸ h) a ha)
        (fun r hr => by have := hled.wellFormed.typed.refs (b'.code_inst hi') a r hr; omega)
        (Nat.succ_pos _)
      have hkeep (a' : ℕ) (hpast' : ArgPast b' i a') : ArgPast b'' i a' := by
        by_cases haa : a' = a
        · exact haa ▸ hnew
        · exact hpast'.congr (hothers a' haa) hled'.opcode
      refine ⟨b'', hb'', hled.trans hled', fun a' ha' => ?_, fun h a' ha' => hkeep a' (hflag h a' ha')⟩
      rcases Nat.lt_succ_iff_lt_or_eq.1 ha' with hlt | rfl
      · exact hkeep a' (hpast a' hlt)
      · exact hnew
  refine ⟨b', hb', hled, past_of_args (hled.length.symm ▸ hi) fun a ha => hpast a ?_⟩
  rwa [Inst.numArgs, hled.opcode] at ha

end Loops

/-! ### Removing what nothing reads -/

section Removal

variable {b b' : Block}

/-- The instructions before `n` have been led past the identities. -/
structure Chased (other : Machine S) (b b' : Block) (n : ℕ) : Prop where
  wellFormed : WellFormed b'
  direct : Direct b'.code
  ops : b'.code.map Prod.fst = b.code.map Prod.fst
  past : ∀ k < n, Past b'.code k
  runs : ∀ s, runCode (arithExec other) b'.code s = runCode (arithExec other) b.code s

theorem chase_all (ho : Ordinary other) (hwf : WellFormed b) (hd : Direct b.code) :
    ∃ b', (List.range b.instructions.length).foldlM Block.chaseArgs b = some b' ∧
      Chased other b b' b.instructions.length := by
  refine foldlM_range (fun n b' => Chased other b b' n)
    ⟨hwf, hd, rfl, fun k hk => absurd hk (Nat.not_lt_zero k), fun _ => rfl⟩ fun i hi b₁ h => ?_
  have hlen : b₁.instructions.length = b.instructions.length := by
    have hlen := congrArg List.length h.ops
    rwa [List.length_map, List.length_map, Block.length_code, Block.length_code] at hlen
  obtain ⟨b₂, hb₂, hled, hpast⟩ := chaseArgs_led ho h.wellFormed h.direct (hlen.symm ▸ hi)
  refine ⟨b₂, hb₂, hled.wellFormed, hled.direct hpast h.direct, hled.ops.trans h.ops,
    fun k hk => ?_, fun s => (hled.runs s).trans (h.runs s)⟩
  by_cases hki : k = i
  · exact hki ▸ hpast
  · exact hled.past hki (h.past k (by omega))

/-- The opcodes that identity removal removes. -/
def removable (op : Opcode) : Prop := op = .identity ∨ op = .void

instance (op : Opcode) : Decidable (removable op) := inferInstanceAs (Decidable (_ ∨ _))

/-- The identities and the empty instructions before `n` are gone. -/
structure Removed (b b' : Block) (n : ℕ) : Prop where
  counted : b'.Counted
  length : b'.code.length = b.code.length
  uses : ∀ k, uses b'.code k ≤ uses b.code k
  code : ∀ (k : ℕ) (c : Code), b.code[k]? = some c →
    b'.code[k]? = some (if removable c.1 ∧ k < n then (.void, []) else c)

theorem Removed.next {i : ℕ} (h : Removed b b' i) (hi : i < b.instructions.length)
    (hunread : removable (b.inst i).opcode → Ruzu.Ir.uses b.code i = 0) :
    Removed b (b'.removeIdentity i) (i+1) := by
  have hc := b.code_inst hi
  have hlen := h.length
  rw [b.length_code, b'.length_code] at hlen
  have hi' : i < b'.instructions.length := hlen.symm ▸ hi
  have hsame : b'.code[i]? = some (b.inst i).code := by
    rw [h.code i _ hc, if_neg fun hboth => Nat.lt_irrefl i hboth.2]
  have hinst : (b'.inst i).code = (b.inst i).code := Block.inst_code hsame
  have hop : (b'.inst i).opcode = (b.inst i).opcode := congrArg Prod.fst hinst
  rw [Block.removeIdentity, hop]
  split
  case isTrue hgone =>
    have hcode : ((b'.dropUses (b'.inst i).refs).modify i
        fun inst => { inst.tombstone with useCount := 0 }).code = b'.code.set i (.void, []) := by
      rw [Block.code_modify_set (c := (.void, [])) fun _ => rfl, Block.code_dropUses]
    have hzero : Ruzu.Ir.uses b'.code i = 0 := Nat.le_zero.mp (hunread hgone ▸ h.uses i)
    refine ⟨h.counted.remove hi' hcode fun k hk => ?_, ?_, fun k => ?_, fun k c hk => ?_⟩
    · have hk' : k < (b'.dropUses (b'.inst i).refs).instructions.length := by
        rwa [Block.length_dropUses]
      rw [Block.inst_modify _ _ _ hk']
      split
      case isTrue hik =>
        subst hik
        rw [h.counted i hi', hzero, Nat.zero_sub]
      case isFalse => exact Block.useCount_dropUses _ _ hk
    · rw [hcode, List.length_set, h.length]
    · have huses := uses_set hsame (.void, []) k
      have hvoid : Code.refs (.void, []) = [] := rfl
      rw [hvoid, List.count_nil] at huses
      have := h.uses k
      rw [hcode]
      omega
    · rw [hcode]
      by_cases hki : k = i
      · subst hki
        obtain rfl := Option.some.inj (hc.symm.trans hk)
        rw [if_pos ⟨hgone, Nat.lt_succ_self k⟩, List.getElem?_set_self (by rwa [b'.length_code])]
      · rw [List.getElem?_set_ne (Ne.symm hki), h.code k c hk]
        have hiff : k < i+1 ↔ k < i := by omega
        simp only [hiff]
  case isFalse hstays =>
    refine { h with code := fun k c hk => ?_ }
    rw [h.code k c hk]
    by_cases hki : k = i
    · subst hki
      obtain rfl := Option.some.inj (hc.symm.trans hk)
      rw [if_neg fun hboth => hstays hboth.1, if_neg fun hboth => hstays hboth.1]
    · have hiff : k < i+1 ↔ k < i := by omega
      simp only [hiff]

theorem remove_all (hcounted : b.Counted)
    (hunread : ∀ i, i < b.instructions.length → removable (b.inst i).opcode → uses b.code i = 0) :
    Removed b ((List.range b.instructions.length).foldl Block.removeIdentity b)
      b.instructions.length := by
  suffices ∀ n ≤ b.instructions.length,
      Removed b ((List.range n).foldl Block.removeIdentity b) n from this _ le_rfl
  intro n
  induction n with
  | zero => exact fun _ => ⟨hcounted, rfl, fun _ => le_rfl, fun k c hc => by
      rw [if_neg fun hboth => Nat.not_lt_zero k hboth.2]
      exact hc⟩
  | succ n ih =>
    intro hn
    rw [List.range_succ, List.foldl_append]
    exact (ih (Nat.le_of_succ_le hn)).next hn (hunread n hn)

/-- Nothing refers to what is removed once every instruction is past the identities. -/
theorem Chased.unread (h : Chased other b b' b'.instructions.length) {i : ℕ} {c : Code}
    (hc : b'.code[i]? = some c) (hgone : removable c.1) : uses b'.code i = 0 := by
  by_contra hused
  obtain ⟨j, d, hd, hi⟩ := uses_pos_iff.1 (Nat.pos_of_ne_zero hused)
  have hj := (List.getElem?_eq_some_iff.mp hd).1
  rw [b'.length_code] at hj
  rcases hgone with hid | hvoid
  · exact h.past j hj d i c hd hi hc hid
  · refine h.wellFormed.typed.ref_ne_void hd hi hc ?_
    rw [resultType, hvoid]
    rfl

/-- The identities have gone, and nothing else that is computed. -/
structure Without (other : Machine S) (b b' : Block) : Prop where
  wellFormed : WellFormed b'
  length : b'.code.length = b.code.length
  gone : ∀ c ∈ b'.code, c.1 ≠ .identity
  state : ∀ s, (runCode (arithExec other) b'.code s).2 = (runCode (arithExec other) b.code s).2
  stay : ∀ (k : ℕ) (c : Code), b.code[k]? = some c → c.1 ≠ .identity → c.1 ≠ .void →
    (∃ args, b'.code[k]? = some (c.1, args)) ∧
      ∀ s, (runCode (arithExec other) b'.code s).1.getD k (.plain .void) =
        (runCode (arithExec other) b.code s).1.getD k (.plain .void)

theorem identityRemoval_without (ho : Ordinary other) (hwf : WellFormed b) (hd : Direct b.code) :
    ∃ b', identityRemoval b = some b' ∧ Without other b b' := by
  obtain ⟨b₁, hb₁, h⟩ := chase_all ho hwf hd
  have hlen : b₁.code.length = b.code.length := by
    have := congrArg List.length h.ops
    rwa [List.length_map, List.length_map] at this
  have hlen' : b₁.instructions.length = b.instructions.length := by
    rwa [← b₁.length_code, ← b.length_code]
  rw [← hlen'] at hb₁ h
  obtain ⟨htyped, hcounted⟩ := b₁.wellFormed_iff.mp h.wellFormed
  have hr := remove_all hcounted fun i hi hgone => h.unread (b₁.code_inst hi) hgone
  generalize hb₂ : (List.range b₁.instructions.length).foldl Block.removeIdentity b₁ = b₂ at hr
  have hcode (k : ℕ) (c : Code) (hc : b₁.code[k]? = some c) :
      b₂.code[k]? = some (if removable c.1 then (.void, []) else c) := by
    have hk : k < b₁.instructions.length := b₁.length_code ▸ (List.getElem?_eq_some_iff.mp hc).1
    rw [hr.code k c hc]
    simp only [hk, and_true]
  have hempty : Emptied b₁.code b₂.code fun k => ∀ c, b₁.code[k]? = some c → ¬removable c.1 := by
    refine ⟨hr.length, fun k c hc hkept => ?_, fun k hk hgone => ?_, fun k c hc hkept r hrc d hrd hgone => ?_⟩
    · rw [hcode k c hc, if_neg (hkept c hc)]
    · have hc := List.getElem?_eq_getElem hk
      rw [hcode k _ hc, if_pos]
      by_contra hstays
      refine hgone fun c hc' => ?_
      obtain rfl := Option.some.inj (hc.symm.trans hc')
      exact hstays
    · have := uses_pos_iff.2 ⟨k, c, hc, hrc⟩
      rw [h.unread hrd hgone] at this
      exact Nat.lt_irrefl 0 this
  have hquiet (k : ℕ) (c : Code) (hc : b₁.code[k]? = some c)
      (hgone : ¬∀ c, b₁.code[k]? = some c → ¬removable c.1) (args : List Outcome) (s : S) :
      (arithExec other c.1 args s).2 = s := by
    obtain ⟨d, hd⟩ := not_forall.mp hgone
    obtain ⟨hd, hgone⟩ := Classical.not_imp.mp hd
    obtain rfl := Option.some.inj (hc.symm.trans hd)
    rcases not_not.mp hgone with hid | hvoid
    · rw [hid]
      rfl
    · rw [hvoid]
      rfl
  have hrun := hempty.runCode (sensible_arithExec ho) hquiet
  refine ⟨b₂, ?_, (Block.wellFormed_iff _).mpr ⟨hempty.typed htyped, hr.counted⟩,
    hr.length.trans hlen, fun c hc hid => ?_, fun s => ?_,
    fun k c hc hid hvoid => ?_⟩
  · rw [identityRemoval, ← hlen', hb₁, Option.map_some, hb₂]
  · obtain ⟨k, hk⟩ := List.getElem?_of_mem hc
    have hk₁ : k < b₁.code.length := hr.length ▸ (List.getElem?_eq_some_iff.mp hk).1
    have hc₁ := List.getElem?_eq_getElem hk₁
    rw [hcode k _ hc₁] at hk
    obtain rfl := Option.some.inj hk
    split at hid
    case isTrue => cases hid
    case isFalse hstays => exact hstays (.inl hid)
  · exact (hrun s).1.trans (congrArg Prod.snd (h.runs s))
  · have hop := congrArg (·[k]?) h.ops
    simp only [List.getElem?_map, hc, Option.map_some] at hop
    obtain ⟨d, hd, heq⟩ := Option.map_eq_some_iff.mp hop
    have hstays : ¬removable d.1 := by
      rw [heq]
      exact not_or.mpr ⟨hid, hvoid⟩
    have hkept : ∀ c, b₁.code[k]? = some c → ¬removable c.1 := fun c hc =>
      Option.some.inj (hd.symm.trans hc) ▸ hstays
    refine ⟨⟨d.2, ?_⟩, fun s => ?_⟩
    · rw [hcode k d hd, if_neg hstays, ← heq]
    · rw [← (hrun s).2 k (List.getElem?_eq_some_iff.mp hd).1 hkept, h.runs s]

/-- On a well-formed block the chase ends and no identity is left. When no flag is read off
an identity, the state and the outcomes of all other instructions are the same. -/
theorem identityRemoval_runs (ho : Ordinary other) (hwf : WellFormed b) (hd : Direct b.code) :
    ∃ b', identityRemoval b = some b' ∧ WellFormed b' ∧ b'.code.length = b.code.length ∧
      (∀ c ∈ b'.code, c.1 ≠ .identity) ∧
      ∀ s, (runCode (arithExec other) b'.code s).2 = (runCode (arithExec other) b.code s).2 ∧
        ∀ (k : ℕ) (c : Code), b.code[k]? = some c → c.1 ≠ .identity → c.1 ≠ .void →
          (∃ args, b'.code[k]? = some (c.1, args)) ∧
            (runCode (arithExec other) b'.code s).1.getD k (.plain .void) =
              (runCode (arithExec other) b.code s).1.getD k (.plain .void) := by
  obtain ⟨b', hb', h⟩ := identityRemoval_without ho hwf hd
  exact ⟨b', hb', h.wellFormed, h.length, h.gone, fun s => ⟨h.state s, fun k c hc hid hvoid =>
    ⟨(h.stay k c hc hid hvoid).1, (h.stay k c hc hid hvoid).2 s⟩⟩⟩

end Removal

/-! ### A chain -/

instance (cs : List Code) : Decidable (Direct cs) :=
  decidable_of_iff (∀ c ∈ cs, readsFlag c.1 = true → ∀ r ∈ c.refs, ∀ d ∈ cs[r]?, d.1 ≠ .identity)
    ⟨fun h k c hc hread d r e hd hr he => h c (List.mem_of_getElem? hc) hread r
        (Option.some.inj (hc.symm.trans hd) ▸ hr) e he,
      fun h c hc hread r hr d hd => by
        obtain ⟨k, hk⟩ := List.getElem?_of_mem hc
        exact h k c hk hread c r d hk hr hd⟩

/-- Opcodes outside the arithmetic ones that leave the state alone. -/
def still : Machine Unit := fun op _ s => (.plain (.zero op.returnType), s)

theorem ordinary_still : Ordinary still where
  values _ _ _ _ _ := rfl
  typed op _ _ := Val.zero_hasTy op.returnType
  nz _ _ _ := rfl

/-- A sum, whose carry is read, behind two identities. -/
def chainBlock : Block :=
  (((((Block.mk []).append .add32 [.immU32 1, .immU32 2, .immU1 false]).append .getCarryFromOp
    [.inst 0]).append .identity [.inst 0]).append .identity [.inst 2]).append .a64SetNZCVRaw
    [.inst 3]

theorem identityRemoval_runs_chain :
    ∃ b', identityRemoval chainBlock = some b' ∧ WellFormed b' ∧
      b'.code.length = chainBlock.code.length ∧ (∀ c ∈ b'.code, c.1 ≠ .identity) ∧
      ∀ s, (runCode (arithExec still) b'.code s).2 = (runCode (arithExec still) chainBlock.code s).2 ∧
        ∀ (k : ℕ) (c : Code), chainBlock.code[k]? = some c → c.1 ≠ .identity → c.1 ≠ .void →
          (∃ args, b'.code[k]? = some (c.1, args)) ∧
            (runCode (arithExec still) b'.code s).1.getD k (.plain .void) =
              (runCode (arithExec still) chainBlock.code s).1.getD k (.plain .void) :=
  identityRemoval_runs ordinary_still (by decide) (by decide)

end Ruzu.Ir
