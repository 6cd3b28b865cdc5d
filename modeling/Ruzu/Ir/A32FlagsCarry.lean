import Ruzu.Ir.A32FlagsSets

/-!
# Sets that answer a read of C

A set of N, Z and C has the value of C as an operand. In front of a set of all
four flags an instruction is inserted that takes it out of the operand.
-/

set_option autoImplicit false

namespace Ruzu.Ir.A32

variable {E : Type*} {other : Machine (Guest E)} {b : Block} {p : FlagsPass} {g : ℕ → ℕ}
  {k : ℕ} {c : Code}

/-! ### The search through identities -/

theorem inst_opcode {q : Block} {r : ℕ} {d : Code} (h : q.code[r]? = some d) :
    (q.inst r).opcode = d.1 ∧ (q.inst r).arg 0 = d.2.getD 0 .void := by
  have hcode := Block.inst_code h
  exact ⟨congrArg Prod.fst hcode, congrArg (fun c : Code => c.2.getD 0 .void) hcode⟩

/-- The search only goes back, so it ends, and it sees no instruction behind. -/
theorem getRecursiveOpcode_agree {q : Block} (ht : Typed [] b.code) (hk : k ≤ b.code.length)
    (hq : ∀ j < k, q.code[j]? = b.code[j]?) (r : ℕ) (hr : r < k) :
    ∃ a, ∀ fuel, r+1 < fuel →
      getRecursiveOpcode b fuel (.inst r) = some a ∧ getRecursiveOpcode q fuel (.inst r) = some a := by
  induction r using Nat.strong_induction_on with
  | _ r ih =>
    have hb := List.getElem?_eq_getElem (show r < b.code.length by omega)
    obtain ⟨hop, harg⟩ := inst_opcode hb
    obtain ⟨hop', harg'⟩ := inst_opcode ((hq r hr).trans hb)
    by_cases hid : b.code[r].1 = .identity
    · cases hv : b.code[r].2.getD 0 .void with
      | inst r' =>
        have hlt := ht.refs hb 0 r' hv
        obtain ⟨a, ha⟩ := ih r' hlt (by omega)
        refine ⟨a, fun fuel hfuel => ?_⟩
        obtain ⟨fuel, rfl⟩ : ∃ f, fuel = f+1 := ⟨fuel-1, by omega⟩
        simp only [getRecursiveOpcode, hop, hop', harg, harg', hid, hv, if_pos]
        exact ha fuel (by omega)
      | _ =>
        refine ⟨none, fun fuel hfuel => ?_⟩
        obtain ⟨fuel, rfl⟩ : ∃ f, fuel = f+1+1 := ⟨fuel-2, by omega⟩
        simp only [getRecursiveOpcode, hop, hop', harg, harg', hid, hv, if_pos]
        exact ⟨trivial, trivial⟩
    · refine ⟨some b.code[r].1, fun fuel hfuel => ?_⟩
      obtain ⟨fuel, rfl⟩ : ∃ f, fuel = f+1 := ⟨fuel-1, by omega⟩
      simp only [getRecursiveOpcode, hop, hop', if_neg hid]
      exact ⟨trivial, trivial⟩

theorem rootOpcode_agree {q : Block} (ht : Typed [] b.code) (hk : k < b.code.length)
    (hk' : k < q.code.length) (hq : ∀ j < k, q.code[j]? = b.code[j]?) {v : Value}
    (hv : ∀ r, v = .inst r → r < k) :
    ∃ a, rootOpcode b v = some a ∧ rootOpcode q v = some a := by
  have hlen : ∀ q' : Block, q'.code.length = q'.instructions.length := fun q' => by
    simp [Block.code]
  cases v with
  | inst r =>
    have hr := hv r rfl
    have hb := hlen b
    have hq' := hlen q
    obtain ⟨a, ha⟩ := getRecursiveOpcode_agree ht (Nat.le_of_lt hk) hq r hr
    exact ⟨a, (ha _ (by omega)).1, (ha _ (by omega)).2⟩
  | _ => exact ⟨none, rfl, rfl⟩

/-! ### The set of N, Z and C -/

theorem answerCFlag_code (p : FlagsPass) (v : Value) :
    (p.answerCFlag v).block.code = answer p.cFlag.request v p.block.code := by
  rw [← code_answer]
  unfold FlagsPass.answerCFlag
  split <;> rfl

theorem answerCFlag_fields (p : FlagsPass) (v : Value) :
    (p.answerCFlag v).ge = p.ge ∧ (p.answerCFlag v).nz = p.nz ∧
      (p.answerCFlag v).cFlag.setNotRequired = p.cFlag.setNotRequired ∧
      (p.answerCFlag v).cFlag.request = none := by
  unfold FlagsPass.answerCFlag FlagInfo.request
  split <;> exact ⟨rfl, rfl, rfl, rfl⟩

theorem modify_eq_set {α : Type*} {l : List α} {k : ℕ} {a : α} (h : l[k]? = some a) (f : α → α) :
    l.modify k f = l.set k (f a) := by
  obtain ⟨hlt, rfl⟩ := List.getElem?_eq_some_iff.mp h
  refine List.ext_getElem? fun j => ?_
  rw [List.getElem?_modify, List.getElem?_set]
  by_cases hk : k = j
  · subst hk
    simp [hlt]
  · simp [hk]

/-- The code once the set is narrowed. -/
theorem code_narrowed {q : Block} (h : q.code[k]? = some c) :
    ((q.modify k fun inst => { inst with opcode := .a32SetCpsrNZ }).setArg k 1 .void).code =
      q.code.set k (.a32SetCpsrNZ, c.2.set 1 .void) := by
  have hmodify : (q.modify k fun inst => { inst with opcode := .a32SetCpsrNZ }).code =
      q.code.set k (.a32SetCpsrNZ, c.2) := by
    rw [Block.code_modify (g := fun c => (.a32SetCpsrNZ, c.2)) fun _ => rfl, modify_eq_set h]
  have hlen := (List.getElem?_eq_some_iff.mp h).1
  rw [Block.code_setArg, hmodify, modify_eq_set (List.getElem?_set_self hlen), List.set_set]

theorem dead_narrowed (p : FlagsPass) (v : Value) (k : ℕ) (rg : Option ℕ) :
    dead ((p.answerCFlag v).narrowed k (some .a32GetCFlag)) none rg .c =
      p.cFlag.setNotRequired ∧
    dead ((p.answerCFlag v).narrowed k (some .a32GetCFlag)) none rg .ge =
      (p.ge.setNotRequired && rg == p.ge.request) := by
  obtain ⟨hge, -, hset, hreq⟩ := answerCFlag_fields p v
  simp only [FlagsPass.narrowed, if_pos, dead, hge, hset, hreq]
  simp

section NZC

variable {x v : Value} (hw : FlagsWalked other b (k+1) p g) (ht : Typed [] b.code)
  (hm : Sensible (flagExec other)) (hc : b.code[k]? = some (.a32SetCpsrNZC, [x, v]))

theorem step_setCpsrNZC (x v : Value) (env : List Outcome) (s : Guest E) :
    step (flagExec other) (.a32SetCpsrNZC, [x, v]) env s =
      (.plain .void, overwrite .a32SetCpsrNZC (evalArg env x).value (evalArg env v).value s) := rfl

theorem step_setCpsrNZ (x : Value) (env : List Outcome) (s : Guest E) :
    step (flagExec other) (.a32SetCpsrNZ, [x, .void]) env s =
      (.plain .void, overwrite .a32SetCpsrNZ (evalArg env x).value .void s) := rfl

include ht hm hc in
/-- The operand is what C holds behind the set. -/
theorem names_carry (s : Guest E) : Names (reached (flagExec other) b.code (k+1) s).1 v
    (.u1 ((reached (flagExec other) b.code (k+1) s).2.cells .c)) := by
  refine names_operand ht hm hc (a := 1) (t := .u1)
    (show 1 < Opcode.a32SetCpsrNZC.numArgs by decide) rfl (by decide) (by decide) s
    fun hty => ?_
  obtain ⟨w, hval⟩ := Val.of_ty_u1 hty
  rw [reached_state hc, step_setCpsrNZC, hval]
  have hv : (evalArg (reached (flagExec other) b.code k s).1 v).value = .u1 w := hval
  rw [hv]
  rfl

include hw hc in
theorem FlagsWalked.get_answered : (p.answerCFlag v).block.code[k]? = some (.a32SetCpsrNZC, [x, v]) := by
  rw [answerCFlag_code, (hw.shape.answer hw.carry v).get (Nat.lt_succ_self k), hc]

include hw ht hm hc

/-- The C operand is a read of C, so C is left alone. -/
theorem FlagsWalked.narrowed (hroot : rootOpcode b v = some (some .a32GetCFlag)) :
    FlagsWalked other b k ((p.answerCFlag v).narrowed k (some .a32GetCFlag)) g := by
  obtain ⟨hge, -, hset, hreq⟩ := answerCFlag_fields p v
  have hget := hw.get_answered hc
  have hcode : ((p.answerCFlag v).narrowed k (some .a32GetCFlag)).block.code =
      (answer p.cFlag.request v p.block.code).set k (.a32SetCpsrNZ, [x, .void]) := by
    rw [← answerCFlag_code]
    exact code_narrowed hget
  have harg : (b.inst k).arg 1 = v :=
    congrArg (fun c : Code => c.2.getD 1 .void) (Block.inst_code hc)
  have hback : ReadsBack b k := ⟨opAt_eq hc, by rw [harg, hroot]⟩
  refine hw.setCarry hm hc (show overwrites .a32SetCpsrNZC ≠ [] by decide)
    (show Flag.ge ∉ overwrites .a32SetCpsrNZC by decide) hge hreq ?_ (fun h => ?_) (Or.inr rfl) (v := v)
    (d := (.a32SetCpsrNZ, [x, .void])) ?_ (fun _ => names_carry ht hm hc)
    fun s hs rg t htt => ?_
  · rw [hcode]
    exact (hw.shape.answer hw.carry v).edit ht hc (.narrowed rfl)
  · rcases h.prev with ⟨-, hno⟩ | ⟨h, -⟩
    · exact absurd hback hno
    · exact hset.trans (hw.settled h)
  · rw [hcode, ← answerCFlag_code]
    exact drop_set_of_get hget _
  · rw [step_setCpsrNZ, step_setCpsrNZC]
    refine ⟨rfl, htt.1, fun l hl => ?_⟩
    have hkept : dead ((p.answerCFlag v).narrowed k (some .a32GetCFlag)) none rg l = false →
        (reached (flagExec other) b.code k s).2.cells l = t.cells l := htt.2 l
    cases l with
    | n => rfl
    | z => rfl
    | c =>
      have hrequired : p.cFlag.setNotRequired = false := by
        cases h : p.cFlag.setNotRequired with
        | false => rfl
        | true => simp [dead, h] at hl
      have hno : ¬ Overwritten b (k+1) := fun h => by
        rw [hw.settled h] at hrequired
        cases hrequired
      have hcarry := hs k (List.getElem?_eq_some_iff.mp hc).1 hback hno
      rw [harg] at hcarry
      rw [(dead_narrowed p v k rg).1] at hkept
      exact hcarry.symm.trans (hkept hrequired)
    | v => exact hkept rfl
    | q => exact hkept rfl
    | ge =>
      rw [(dead_narrowed p v k rg).2] at hkept
      exact hkept hl

/-- The set as it is, without N and Z, or removed. -/
theorem FlagsWalked.notNarrowed {aim : Option Opcode} (haim : aim ≠ some .a32GetCFlag) :
    FlagsWalked other b k ((p.answerCFlag v).narrowed k aim) g := by
  obtain ⟨hge, hnz, hset, hreq⟩ := answerCFlag_fields p v
  have hget := hw.get_answered hc
  have hshape := hw.shape.answer hw.carry v
  have how : overwrites .a32SetCpsrNZC ≠ [] := by decide
  -- the instruction that comes out, and the dead flags that allow it
  have hedit : ∃ c', ((p.answerCFlag v).narrowed k aim).block.code =
      (answer p.cFlag.request v p.block.code).set k c' ∧ FlagEdit (.a32SetCpsrNZC, [x, v]) c' ∧
      (c' = (.a32SetCpsrNZC, [x, v]) ∨
        p.nz = true ∧ (c' = (.a32SetCpsrNZC, [.emptyNZCVImmediateMarker, v]) ∨
          p.cFlag.setNotRequired = true ∧ c' = (.void, []))) := by
    rw [← answerCFlag_code, ← hnz, ← hset]
    simp only [FlagsPass.narrowed, if_neg haim]
    split
    · rename_i h
      rw [Bool.and_eq_true] at h
      exact ⟨_, Block.code_invalidate _ _, .removed how, Or.inr ⟨h.1, Or.inr ⟨h.2, rfl⟩⟩⟩
    · split
      · rename_i h
        refine ⟨_, ?_, .marked rfl, Or.inr ⟨h, Or.inl rfl⟩⟩
        rw [Block.code_setArg, modify_eq_set hget]
      · refine ⟨_, ?_, .same, Or.inl rfl⟩
        obtain ⟨hlt, heq⟩ := List.getElem?_eq_some_iff.mp hget
        rw [← heq, List.set_getElem_self]
  obtain ⟨c', hcode, hflag, hcases⟩ := hedit
  have hfields : ∀ rg l, l ∉ overwrites .a32SetCpsrNZC →
      dead ((p.answerCFlag v).narrowed k aim) none rg l = true → dead p p.cFlag.request rg l = true := by
    intro rg l hl h
    simp only [FlagsPass.narrowed, if_neg haim, dead, hge] at h
    cases l with
    | n => exact absurd (by decide) hl
    | z => exact absurd (by decide) hl
    | c => exact absurd (by decide) hl
    | v => cases h
    | q => cases h
    | ge => exact h
  refine hw.setCarry hm hc how (show Flag.ge ∉ overwrites .a32SetCpsrNZC by decide) ?_ ?_ ?_
    (fun _ => ?_) (Or.inr rfl) (v := v) (d := c') ?_ (fun _ => names_carry ht hm hc)
    fun s hs rg t htt => ?_
  · simp only [FlagsPass.narrowed, if_neg haim, hge]
  · simp only [FlagsPass.narrowed, if_neg haim]
    rfl
  · rw [hcode]
    exact hshape.edit ht hc hflag
  · simp only [FlagsPass.narrowed, if_neg haim]
    rfl
  · rw [hcode]
    rw [answerCFlag_code] at hget
    exact drop_set_of_get hget _
  · rcases hcases with rfl | ⟨hnz, rfl | ⟨hcarry, rfl⟩⟩
    · exact kept_agree how htt _ (hfields rg)
    · rw [step_setCpsrNZC, step_setCpsrNZC]
      refine ⟨rfl, htt.overwrite fun l hl => ⟨fun hmem => ?_, fun hmem => ?_⟩⟩
      · rw [or_self] at hmem
        refine ⟨hmem, hmem, ?_⟩
        cases l with
        | n => simp [dead, hnz] at hl
        | z => simp [dead, hnz] at hl
        | c => rfl
        | _ => exact absurd hmem (by decide)
      · cases h : dead ((p.answerCFlag v).narrowed k aim) none rg l with
        | false => rfl
        | true =>
          rw [hfields rg l hmem h] at hl
          cases hl
    · have hdead : ∀ l ∈ overwrites .a32SetCpsrNZC, dead p p.cFlag.request rg l = true := by
        intro l hl
        cases l with
        | n => simp [dead, hnz]
        | z => simp [dead, hnz]
        | c => simp [dead, hcarry]
        | _ => exact absurd hl (by decide)
      refine removed_agree how htt _ hdead fun l h => ?_
      by_cases hl : l ∈ overwrites .a32SetCpsrNZC
      · exact hdead l hl
      · exact hfields rg l hl h

theorem FlagsWalked.setCpsrNZC :
    ∃ p', p.setCpsrNZC k = some p' ∧ FlagsWalked other b k p' g := by
  have hlt := (List.getElem?_eq_some_iff.mp hc).1
  have harg : ∀ {q : Block}, q.code[k]? = some (.a32SetCpsrNZC, [x, v]) → (q.inst k).arg 1 = v :=
    fun hq => congrArg (fun c : Code => c.2.getD 1 .void) (Block.inst_code hq)
  have hget := hw.get_answered hc
  have hagree : ∀ j < k, (p.answerCFlag v).block.code[j]? = b.code[j]? := by
    intro j hj
    rw [answerCFlag_code]
    exact (hw.shape.answer hw.carry v).get (by omega)
  obtain ⟨aim, hroot, hroot'⟩ := rootOpcode_agree ht hlt (List.getElem?_eq_some_iff.mp hget).1 hagree
    (v := v) fun r hr => ht.refs hc 1 r hr
  refine ⟨(p.answerCFlag v).narrowed k aim, ?_, ?_⟩
  · simp only [FlagsPass.setCpsrNZC, harg (hw.get hc), harg hget, hroot']
    rfl
  · by_cases haim : aim = some .a32GetCFlag
    · subst haim
      exact hw.narrowed ht hm hc hroot
    · exact hw.notNarrowed ht hm hc haim

end NZC

/-! ### The insertion -/

section Insert

variable {x : Value} {r : ℕ} (hw : FlagsWalked other b (k+1) p g) (ht : Typed [] b.code)
  (hm : Sensible (flagExec other)) (hc : b.code[k]? = some (.a32SetCpsrNZCV, [x]))

/-- The code with the new instruction in front of the set, and the read behind
answered by it. -/
def inserted (P : List Code) (k r : ℕ) (x : Value) : List Code :=
  (P.take k ++ (.getCFlagFromNZCV, [x]) :: (P.drop k).map (Code.renumber k)).set (r+1)
    (.identity, [.inst k])

include hw ht hc

theorem FlagsWalked.code_inserted (hreq : p.cFlag.request = some r) :
    (p.setCpsrNZCV k).block.code =
      if p.nzcv then (inserted p.block.code k r x).set (k+1) (.void, [])
      else inserted p.block.code k r x := by
  have hlt := (List.getElem?_eq_some_iff.mp hc).1
  have hprev := hw.shape.prev ht
  have hlen := hprev.length_take (Nat.le_of_lt hlt)
  obtain ⟨hhas, rfl⟩ : p.cFlag.hasValueRequest = true ∧ p.cFlag.valueRequestIdx = r := by
    simpa [FlagInfo.request] using hreq
  have hpend := (hw.carry _ hreq).1.1
  have harg : (p.block.inst k).arg 0 = x :=
    congrArg (fun c : Code => c.2.getD 0 .void) (Block.inst_code (hw.get hc))
  have hinsert := code_insert_behind (b := p.block) (List.take_append_drop k p.block.code).symm
    (fun c hmem r hr => by
      obtain ⟨j, hj⟩ := List.getElem?_of_mem hmem
      have hjk : j < k := by
        rw [← hlen]
        exact (List.getElem?_eq_some_iff.mp hj).1
      rw [hprev.before, List.getElem?_take, if_pos hjk] at hj
      have := ht.mem_refs hj hr
      omega) .getCFlagFromNZCV fun r (hr : Value.inst r ∈ [x]) => by
        rw [hlen]
        exact ht.mem_refs hc hr
  rw [hlen] at hinsert
  simp only [FlagsPass.setCpsrNZCV, hhas, if_pos, code_valueless, Block.code_replaceUsesWith, harg,
    hinsert, if_pos (show k ≤ p.cFlag.valueRequestIdx by omega), inserted]

theorem FlagsWalked.shape_inserted (hreq : p.cFlag.request = some r) :
    Shape b.code (p.setCpsrNZCV k).block.code (fun j => Ssa.shift k (g j)) k := by
  have hlt := (List.getElem?_eq_some_iff.mp hc).1
  obtain ⟨⟨hle, hr, hop, -⟩, hplace⟩ := hw.carry r hreq
  have hread := List.getElem?_eq_getElem hr
  have hanswer := ((hw.shape.prev ht).insert (Nat.le_of_lt hlt) x).set (d := (.identity, [.inst k]))
    (by omega) hread (.answered _ (Or.inl (by rw [opAt_eq hread] at hop; exact Option.some.inj hop)))
  have hmove : Ssa.shift k (g r) = r+1 := by rw [hplace, Ssa.shift, if_pos (by omega)]
  rw [hmove] at hanswer
  rw [hw.code_inserted ht hc hreq]
  split
  · have hset := hanswer.set (d := (.void, [])) (Nat.le_refl k) hc
      (.removed (show overwrites .a32SetCpsrNZCV ≠ [] by decide))
    rwa [hw.shape.place k (Nat.lt_succ_self k), Ssa.shift, if_pos (Nat.le_refl k)] at hset
  · exact hanswer

theorem FlagsWalked.drop_inserted (hreq : p.cFlag.request = some r) :
    (p.setCpsrNZCV k).block.code.drop k = (.getCFlagFromNZCV, [x]) ::
      (if p.nzcv then (.void, []) else (.a32SetCpsrNZCV, [x])) ::
        ((p.block.code.drop (k+1)).map (Code.renumber k)).set (r-(k+1)) (.identity, [.inst k]) := by
  have hlt := (List.getElem?_eq_some_iff.mp hc).1
  have hlen := (hw.shape.prev ht).length_take (Nat.le_of_lt hlt)
  have hle := (hw.carry r hreq).1.1
  have hself : Code.renumber k (.a32SetCpsrNZCV, [x]) = (.a32SetCpsrNZCV, [x]) :=
    Code.renumber_below fun r hr => ht.mem_refs hc hr
  have hdrop : (inserted p.block.code k r x).drop k = (.getCFlagFromNZCV, [x]) ::
      (.a32SetCpsrNZCV, [x]) ::
        ((p.block.code.drop (k+1)).map (Code.renumber k)).set (r-(k+1)) (.identity, [.inst k]) := by
    rw [inserted, List.drop_set, if_neg (by omega), List.drop_left' hlen, drop_of_get (hw.get hc),
      List.map_cons, hself, show r+1-k = (r-(k+1))+1+1 by omega, List.set_cons_succ,
      List.set_cons_succ]
  rw [hw.code_inserted ht hc hreq]
  split
  · rw [List.drop_set, if_neg (by omega), hdrop, Nat.add_sub_cancel_left]
    rfl
  · exact hdrop

omit hw ht hc in
theorem run_inserted {env : List Outcome} {P : List Code} {j : ℕ} {w : Outcome} {y : Bool}
    (hm : Sensible (flagExec other)) (hw : w.value = .u1 y) (hk : k ≤ env.length) (t : Guest E) :
    Ssa.run (((P.map (Code.renumber k)).set j (.identity, [.inst k])).map (step (flagExec other)))
        (Ssa.wedge k w env, t) =
      (Ssa.wedge k w (Ssa.run ((P.set j (.identity, [.immU1 y])).map (step (flagExec other)))
          (env, t)).1,
        (Ssa.run ((P.set j (.identity, [.immU1 y])).map (step (flagExec other))) (env, t)).2) := by
  have hsame : List.Forall₂ (fun c d => Ssa.Shifts k w (step (flagExec other) c)
      (step (flagExec other) d)) P (P.map (Code.renumber k)) := by
    rw [List.forall₂_map_right_iff]
    exact List.forall₂_same.mpr fun c _ => step_shifts _ _ _ _
  have hvalue : ∀ e, (evalArg e (.immU1 y)).value = w.value := fun _ => hw.symm
  exact run_shifted (forall₂_set hsame (shifts_answer hm hvalue) j) hk t

omit hw in
/-- The inserted instruction does not disturb the set behind it. -/
theorem step_behind (s : Guest E) (w : Outcome) :
    step (flagExec other) (.a32SetCpsrNZCV, [x])
        ((reached (flagExec other) b.code k s).1 ++ [w]) (reached (flagExec other) b.code k s).2 =
      (.plain .void, (reached (flagExec other) b.code (k+1) s).2) := by
  have hk := Nat.le_of_lt (List.getElem?_eq_some_iff.mp hc).1
  have hx : evalArg ((reached (flagExec other) b.code k s).1 ++ [w]) x =
      evalArg (reached (flagExec other) b.code k s).1 x := by
    refine evalArg_append (fun r hr => ?_) _
    rw [reached_length hk]
    exact ht.refs hc 0 r hr
  rw [reached_state hc, step_overwrite (show overwrites .a32SetCpsrNZCV ≠ [] by decide),
    step_overwrite (show overwrites .a32SetCpsrNZCV ≠ [] by decide)]
  have hops : operands ((reached (flagExec other) b.code k s).1 ++ [w]) (.a32SetCpsrNZCV, [x]) =
      operands (reached (flagExec other) b.code k s).1 (.a32SetCpsrNZCV, [x]) :=
    congrArg (fun o => [o]) hx
  rw [hops]

include hm

/-- Behind the inserted result the code does what it did, with the read of C
answered. -/
theorem FlagsWalked.behaves_inserted (hreq : p.cFlag.request = some r) {s : Guest E}
    (hs : CarryKept other b s) :
    Behaves other b (p.setCpsrNZCV k).block.code (fun j => Ssa.shift k (g j)) k
      (dead (p.setCpsrNZCV k) none none) s := by
  intro t htt
  have hlt := (List.getElem?_eq_some_iff.mp hc).1
  have hlen := reached_length (m := flagExec other) (Nat.le_of_lt hlt) s
  have hle := (hw.carry r hreq).1.1
  have hlen' := reached_length (m := flagExec other) (show k+1 ≤ b.code.length from hlt) s
  let w := (step (flagExec other) (.getCFlagFromNZCV, [x]) (reached (flagExec other) b.code k s).1 t).1
  have hw' : w.value = .u1 ((reached (flagExec other) b.code (k+1) s).2.cells .c) := by
    rw [reached_state hc]
    rfl
  have hwedge : (reached (flagExec other) b.code k s).1 ++ [w] ++ [.plain .void] =
      Ssa.wedge k w (reached (flagExec other) b.code (k+1) s).1 := by
    rw [reached_succ hc, Ssa.next, Ssa.wedge, List.take_left' hlen, List.drop_left' hlen,
      List.append_assoc]
    rfl
  obtain ⟨hval, hrel⟩ := valueless_agree other (c := (.a32SetCpsrNZCV, [x]))
    (D := dead p p.cFlag.request none) (x := p.nzcv)
    (show overwrites .a32SetCpsrNZCV ≠ [] by decide) htt
    ((reached (flagExec other) b.code k s).1 ++ [w]) fun l => dead_setCpsrNZCV
  rw [step_behind ht hc] at hval hrel
  let t' := (step (flagExec other) (if p.nzcv then (.void, []) else (.a32SetCpsrNZCV, [x]))
    ((reached (flagExec other) b.code k s).1 ++ [w]) t).2
  have hnext := hw.runs s hs p.cFlag.request none (Or.inr rfl) (Or.inl rfl) t' hrel
  have hrun : Ssa.run (((p.setCpsrNZCV k).block.code.drop k).map (step (flagExec other)))
      ((reached (flagExec other) b.code k s).1, t) =
      (Ssa.wedge k w (Ssa.run (((answered (reached (flagExec other) b.code (k+1) s).2
          p.cFlag.request none p.block.code).drop (k+1)).map (step (flagExec other)))
            ((reached (flagExec other) b.code (k+1) s).1, t')).1,
        (Ssa.run (((answered (reached (flagExec other) b.code (k+1) s).2
          p.cFlag.request none p.block.code).drop (k+1)).map (step (flagExec other)))
            ((reached (flagExec other) b.code (k+1) s).1, t')).2) := by
    rw [hw.drop_inserted ht hc hreq, List.map_cons, List.map_cons, Ssa.run_cons, Ssa.run_cons,
      Ssa.next, Ssa.next]
    refine (congrArg (fun o => Ssa.run _ (_ ++ [o], _)) hval).trans ?_
    refine (congrArg (fun e => Ssa.run _ (e, _)) hwedge).trans ?_
    rw [answered, hreq, answer, answer, List.drop_set, if_neg (show ¬ r < k+1 by omega)]
    exact run_inserted hm hw' (by rw [hlen']; omega) _
  rw [hrun]
  refine ⟨hnext.1, fun j o hj => ?_⟩
  rw [Ssa.wedge_getD ?_, hnext.2 j o hj]
  rw [Ssa.run_length]
  simp only
  omega

theorem FlagsWalked.setCpsrNZCV_inserted (hreq : p.cFlag.request = some r) :
    FlagsWalked other b k (p.setCpsrNZCV k) (fun j => Ssa.shift k (g j)) := by
  have hlt := (List.getElem?_eq_some_iff.mp hc).1
  have hpend := (hw.carry r hreq).1
  refine ⟨Nat.le_of_lt hlt, hw.shape_inserted ht hc hreq, fun r hr => ?_, fun r' hr => ?_,
    fun _ => rfl, fun s hs rc rg hrc hrg => ?_⟩
  · cases hr
  · have hge := (hw.ge r' hr).1
    refine ⟨hge.prev (by rw [opAt_eq hc]; rfl), fun hno => absurd ?_ (hno k hge.1 (Nat.le_refl k))⟩
    exact ⟨opAt_eq hc, r, hpend.2.1, hpend⟩
  · obtain rfl : rc = none := hrc.elim id id
    obtain rfl : rg = none := by
      refine hrg.elim id fun hrg => ?_
      cases rg with
      | none => rfl
      | some r' =>
        have hmove := hrg.2 r' rfl
        have hge := (hw.ge r' hrg.1.symm).1.1
        have hmono : r' ≤ g r' := StrictMono.le_apply hw.shape.mono
        simp only [Ssa.shift] at hmove
        split at hmove <;> omega
    exact hw.behaves_inserted ht hm hc hreq hs

end Insert
end Ruzu.Ir.A32
