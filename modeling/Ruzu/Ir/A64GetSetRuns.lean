import Ruzu.Ir.A64GetSetElimination
import Ruzu.Ir.GetSetRuns

/-!
# What the A64 get/set elimination keeps

The walk makes the moves of a get/set elimination over the A64 views. The new
block runs like the original one provided that a forwarded set has not dropped
bits of its operand, and only then.
-/

set_option autoImplicit false

namespace Ruzu.Ir.A64

variable {E : Type*} {other : Machine (State (fun l => BitVec (width l)) E)}

/-! ### The views -/

theorem access_types {op : Opcode} {isSet : Bool} {t : TrackingType}
    (h : access op = some (isSet, t)) :
    op.returnType = (if isSet then .void else viewTy t) ∧
      (isSet = true → valueArg t < op.numArgs ∧ op.argTypes.getD (valueArg t) .void = viewTy t) ∧
      (op.numArgs = 0 → t = .sp ∨ t = .nzcvRaw) ∧ (isSet = false → t ≠ .nzcv) := by
  unfold access at h
  split at h <;> simp_all <;> obtain ⟨rfl, rfl⟩ := h <;> decide

theorem slot_some {t : TrackingType} {args : List Value} {l : Loc} (h : slot t args = some l) :
    ((t = .w ∨ t = .x) ∧ ∃ r, ∃ hr : r.val < 31, args.getD 0 .void = .immA64Reg r ∧ l = .x ⟨r, hr⟩) ∨
    ((t = .s ∨ t = .d ∨ t = .q) ∧ ∃ v, args.getD 0 .void = .immA64Vec v ∧ l = .v v) ∨
    (t = .sp ∧ l = .sp) ∨ (t = .nzcv ∨ t = .nzcvRaw) ∧ l = .nzcv := by
  have hreg : regIndex args = some l →
      ∃ r, ∃ hr : r.val < 31, args.getD 0 .void = .immA64Reg r ∧ l = .x ⟨r, hr⟩ := by
    intro h
    unfold regIndex at h
    split at h
    · rename_i r hr
      split at h
      · rename_i hlt
        exact ⟨r, hlt, hr, (Option.some.inj h).symm⟩
      · cases h
    · cases h
  have hvec : vecIndex args = some l → ∃ v, args.getD 0 .void = .immA64Vec v ∧ l = .v v := by
    intro h
    unfold vecIndex at h
    split at h
    · rename_i v hv
      exact ⟨v, hv, (Option.some.inj h).symm⟩
    · cases h
  cases t with
  | w => exact Or.inl ⟨Or.inl rfl, hreg h⟩
  | x => exact Or.inl ⟨Or.inr rfl, hreg h⟩
  | s => exact Or.inr (Or.inl ⟨Or.inl rfl, hvec h⟩)
  | d => exact Or.inr (Or.inl ⟨Or.inr (Or.inl rfl), hvec h⟩)
  | q => exact Or.inr (Or.inl ⟨Or.inr (Or.inr rfl), hvec h⟩)
  | sp => exact Or.inr (Or.inr (Or.inl ⟨rfl, (Option.some.inj h).symm⟩))
  | nzcv => exact Or.inr (Or.inr (Or.inr ⟨Or.inl rfl, (Option.some.inj h).symm⟩))
  | nzcvRaw => exact Or.inr (Or.inr (Or.inr ⟨Or.inr rfl, (Option.some.inj h).symm⟩))

theorem slot_first (t : TrackingType) (args : List Value) :
    slot t [args.getD 0 .void] = slot t args := by
  cases t <;> rfl

theorem readAs_ty {t : TrackingType} {args : List Value} {l : Loc} (hl : slot t args = some l)
    (ht : t ≠ .nzcv) (c : BitVec (width l)) : (readAs t l c).ty = viewTy t := by
  rcases slot_some hl with ⟨rfl | rfl, r, hr, -, rfl⟩ | ⟨rfl | rfl | rfl, v, -, rfl⟩ |
    ⟨rfl, rfl⟩ | ⟨rfl | rfl, rfl⟩
  all_goals first | rfl | exact absurd rfl ht

/-- The views whose sets drop bits of their operand. -/
def Lossy (t : TrackingType) : Prop := t = .s ∨ t = .d ∨ t = .nzcvRaw

/-- The other views give back what was stored. -/
theorem readAs_written {t : TrackingType} {args : List Value} {l : Loc}
    (hl : slot t args = some l) (ht : t ≠ .nzcv) (hlossy : ¬ Lossy t) {v : Val}
    (hv : v.ty = viewTy t) : readAs t l (written t l v) = v := by
  rcases slot_some hl with ⟨rfl | rfl, r, hr, -, rfl⟩ | ⟨rfl | rfl | rfl, n, -, rfl⟩ |
    ⟨rfl, rfl⟩ | ⟨rfl | rfl, rfl⟩
  · obtain ⟨x, rfl⟩ := Val.of_ty_u32 hv
    simp [readAs, written, width]
  · obtain ⟨x, rfl⟩ := Val.of_ty_u64 hv
    simp [readAs, written, width]
  · exact absurd (Or.inl rfl) hlossy
  · exact absurd (Or.inr (Or.inl rfl)) hlossy
  · obtain ⟨x, rfl⟩ := Val.of_ty_u128 hv
    simp [readAs, written, width]
  · obtain ⟨x, rfl⟩ := Val.of_ty_u64 hv
    simp [readAs, written, width]
  · exact absurd rfl ht
  · exact absurd (Or.inr (Or.inr rfl)) hlossy

theorem view_eq {op : Opcode} {v : Value} {isSet : Bool} {w : TrackingType × Loc}
    (h : views.view op v = some (isSet, w)) :
    access op = some (isSet, w.1) ∧ slot w.1 [v] = some w.2 := by
  obtain ⟨⟨isSet', t⟩, hacc, hslot⟩ := Option.bind_eq_some_iff.mp h
  obtain ⟨l, hl, heq⟩ := Option.map_eq_some_iff.mp hslot
  cases heq
  exact ⟨hacc, hl⟩

theorem lawful : views.Lawful where
  named op v a h := by
    obtain ⟨isSet, t, l⟩ := a
    obtain ⟨hacc, hl⟩ := view_eq h
    have hview : ∀ v', slot t [v'] = some l → views.view op v' = some (isSet, t, l) := by
      intro v' hv'
      simp only [views, hacc, Option.bind_some, hv', Option.map_some]
    refine ⟨by simp [views, hacc], fun env => hview _ ?_, fun hnum => hview _ ?_⟩
    · rcases slot_some hl with ⟨-, r, -, hv, -⟩ | ⟨-, n, hv, -⟩ | ⟨ht, -⟩ | ⟨ht, -⟩
      · simp only [List.getD_cons_zero] at hv
        subst hv
        exact hl
      · simp only [List.getD_cons_zero] at hv
        subst hv
        exact hl
      · simp only at ht
        subst ht
        exact hl
      · rcases ht with ht | ht <;> simp only at ht <;> subst ht <;> exact hl
    · rcases (access_types hacc).2.2.1 hnum with ht | ht <;> simp only at ht <;> subst ht <;> exact hl
  opcode op v isSet w h := by
    obtain ⟨hacc, -⟩ := view_eq h
    exact ⟨(access_types hacc).1, (access_types hacc).2.1⟩
  ordinary := by
    refine ⟨rfl, rfl, fun l => ?_, fun l => ?_⟩ <;> cases l <;> rfl
  proper w := by
    refine ⟨by simp [views], ?_, ?_⟩ <;> obtain ⟨t, l⟩ := w <;> cases t <;> simp [views, viewTy]
  reads w c d h := by
    have : c w.2 = d w.2 := h w.2 (by simp [views])
    simp only [views, this]
  readTy op v w c h := by
    obtain ⟨hacc, hl⟩ := view_eq h
    exact readAs_ty hl ((access_types hacc).2.2.2 rfl) _

/-! ### One step of the walk -/

/-- What the walk knows of a register. -/
def entry (info : Tracking) : Views.Tracking Loc (TrackingType × Loc) := fun l =>
  (info l).registerValue.map fun v =>
    ⟨v, ((info l).trackingType, l), if (info l).setInstructionPresent then some (info l).lastSetIndex
      else none⟩

section Visit

variable {P Q T : List Code} {b b' : Block} {info info' : Tracking} {c : Code} {i : ℕ}

/-- Everything a step of the walk can do. -/
theorem visit_cases (hc : b.code[i]? = some c) (h : visit (b, info) i = some (b', info')) :
    (access c.1 = none ∧ b' = b ∧ info' = fun l => if flagged c.1 l then .default else info l) ∨
    (∃ t l, access c.1 = some (true, t) ∧ slot t c.2 = some l ∧
      b' = (if (info l).setInstructionPresent then b.invalidate (info l).lastSetIndex else b) ∧
      info' = Function.update info l ⟨some (c.2.getD (valueArg t) .void), t, true, i⟩) ∨
    (∃ t l v, access c.1 = some (false, t) ∧ slot t c.2 = some l ∧
      (info l).registerValue = some v ∧ (info l).trackingType = t ∧
      b' = b.replaceUsesWith i v ∧ info' = info) ∨
    ∃ t l, access c.1 = some (false, t) ∧ slot t c.2 = some l ∧
      ((info l).registerValue ≠ none → (info l).trackingType ≠ t) ∧ b' = b ∧
      info' = Function.update info l ⟨some (.inst i), t, false, 0⟩ := by
  have hcode := Block.inst_code hc
  have hop : (b.inst i).opcode = c.1 := congrArg Prod.fst hcode
  have hargs : (b.inst i).args = c.2 := congrArg Prod.snd hcode
  simp only [visit, hop, hargs] at h
  by_cases htomb : (b.inst i).isTombstone = true
  · rw [if_pos htomb] at h
    obtain ⟨rfl, rfl⟩ := Prod.mk.inj (Option.some.inj h)
    have hvoid : c.1 = .void := by
      rw [← hop]
      exact (of_decide_eq_true htomb).1
    refine Or.inl ⟨by rw [hvoid]; rfl, rfl, ?_⟩
    funext l
    rw [hvoid]
    cases l <;> rfl
  · rw [if_neg htomb] at h
    cases hacc : access c.1 with
    | none =>
      rw [hacc] at h
      obtain ⟨rfl, rfl⟩ := Prod.mk.inj (Option.some.inj h)
      exact Or.inl ⟨rfl, rfl, rfl⟩
    | some a =>
      obtain ⟨isSet, t⟩ := a
      rw [hacc] at h
      obtain ⟨l, hl, heq⟩ := Option.map_eq_some_iff.mp h
      obtain ⟨rfl, rfl⟩ := Prod.mk.inj heq
      cases isSet with
      | true =>
        refine Or.inr (Or.inl ⟨t, l, rfl, hl, rfl, ?_⟩)
        simp only [doSet, if_true, Inst.arg, hargs]
      | false =>
        simp only [Bool.false_eq_true, if_false]
        unfold doGet
        split
        · rename_i known hknown
          split
          · rename_i ht
            exact Or.inr (Or.inr (Or.inl ⟨t, l, known, rfl, hl, hknown, ht, rfl, by simp⟩))
          · rename_i ht
            exact Or.inr (Or.inr (Or.inr ⟨t, l, rfl, hl, fun _ => ht, rfl, rfl⟩))
        · rename_i hnone
          exact Or.inr (Or.inr (Or.inr ⟨t, l, rfl, hl, fun h => absurd hnone h, rfl, rfl⟩))

/-- The walk only stops where a register operand is no immediate. -/
theorem visit_some (hc : b.code[i]? = some c) (hn : views.Named c) :
    ∃ st, visit (b, info) i = some st := by
  have hcode := Block.inst_code hc
  have hop : (b.inst i).opcode = c.1 := congrArg Prod.fst hcode
  have hargs : (b.inst i).args = c.2 := congrArg Prod.snd hcode
  simp only [visit, hop, hargs]
  split
  · exact ⟨_, rfl⟩
  · split
    · rename_i isSet t hacc
      obtain ⟨⟨isSet', w⟩, hview⟩ := Option.isSome_iff_exists.mp (hn (by simp [views, hacc]))
      obtain ⟨hacc', hl⟩ := view_eq hview
      rw [hacc] at hacc'
      cases hacc'
      rw [slot_first] at hl
      exact ⟨_, by rw [hl]; rfl⟩
    · exact ⟨_, rfl⟩

theorem access_view {isSet : Bool} {t : TrackingType} {l : Loc}
    (hacc : access c.1 = some (isSet, t)) (hl : slot t c.2 = some l) :
    views.access c = some (isSet, t, l) := by
  rw [← slot_first] at hl
  simp only [Views.access, views, hacc, Option.bind_some, hl, Option.map_some]

/-- A step of the walk is a move. -/
theorem visit_move (hb : b.code = Q ++ c::T) (hlen : P.length = Q.length)
    (hkept : views.Traced record P Q (entry info))
    (hpresent : ∀ l, (info l).setInstructionPresent = true → (info l).registerValue ≠ none)
    (h : visit (b, info) Q.length = some (b', info')) :
    (∃ R, b'.code = R ++ T ∧ views.Move record P Q (entry info) c R (entry info')) ∧
      ∀ l, (info' l).setInstructionPresent = true → (info' l).registerValue ≠ none := by
  have hc : b.code[Q.length]? = some c := by rw [hb]; simp
  rcases visit_cases hc h with ⟨hacc, rfl, rfl⟩ | ⟨t, l, hacc, hl, rfl, rfl⟩ |
    ⟨t, l, v, hacc, hl, hv, ht, rfl, rfl⟩ | ⟨t, l, hacc, hl, hview, rfl, rfl⟩
  · have hentry : entry (fun l => if flagged c.1 l then .default else info l) =
        fun l => if views.flagged c.1 l then none else entry info l := by
      funext l
      by_cases hf : flagged c.1 l = true <;> simp [entry, views, hf, RegisterInfo.default]
    rw [hentry]
    have haccess : views.access c = none := by simp only [Views.access, views, hacc, Option.bind_none]
    refine ⟨⟨Q ++ [c], by rw [hb]; simp, .pass haccess⟩, fun l hl => ?_⟩
    simp only at hl ⊢
    split at hl
    · cases hl
    · rename_i hf
      rw [if_neg hf]
      exact hpresent l hl
  · have haccess := access_view hacc hl
    have hentry : entry (Function.update info l ⟨some (c.2.getD (valueArg t) .void), t, true,
        Q.length⟩) = Views.assign (views.covers (t, l))
          ⟨record (t, l) P.length (views.operandOf c (t, l)), (t, l), some P.length⟩
          (entry info) := by
      funext l'
      by_cases hll : l' = l
      · subst hll
        simp [entry, Views.assign, views, record, Views.operandOf, hlen]
      · simp [entry, Views.assign, views, hll]
    rw [hentry]
    refine ⟨?_, fun l' hp => ?_⟩
    · split
      · rename_i hp
        obtain ⟨v, hv⟩ := Option.ne_none_iff_exists'.mp (hpresent l hp)
        have he : entry info l = some ⟨v, ((info l).trackingType, l), some (info l).lastSetIndex⟩ := by
          simp [entry, hv, hp]
        have hj := (hkept.fromSet l _ _ he rfl).live.earlier
        refine ⟨Q.set (info l).lastSetIndex (.void, []) ++ [c], ?_,
          .newSet (t, l) _ haccess (.dead ⟨v, ((info l).trackingType, l),
            some (info l).lastSetIndex⟩ _ rfl fun l' hl' => ?_)⟩
        · rw [Block.code_invalidate, hb, List.set_append_left _ _ (by omega)]
          simp
        · rw [List.mem_singleton.mp hl']
          exact ⟨by simp [views], he⟩
      · exact ⟨Q ++ [c], by rw [hb]; simp, .newSet (t, l) _ haccess .none⟩
    · by_cases hll : l' = l
      · subst hll
        simp
      · rw [Function.update_of_ne hll] at hp ⊢
        exact hpresent l' hp
  · have he : entry info' l = some ⟨v, (t, l), if (info' l).setInstructionPresent
        then some (info' l).lastSetIndex else none⟩ := by
      simp [entry, hv, ht]
    refine ⟨⟨Q ++ [(.identity, [v])], ?_, .forward (t, l) l _ (access_view hacc hl) rfl ?_
      (by simp [views]) he⟩, hpresent⟩
    · rw [Block.code_replaceUsesWith, hb]
      simp
    · intro l' hl'
      rw [List.mem_singleton.mp hl']
      exact ⟨_, he, rfl⟩
  · have hentry : entry (Function.update info l ⟨some (.inst Q.length), t, false, 0⟩) =
        Views.assign (views.covers (t, l)) ⟨.inst P.length, (t, l), none⟩ (entry info) := by
      funext l'
      by_cases hll : l' = l
      · subst hll
        simp [entry, Views.assign, views, hlen]
      · simp [entry, Views.assign, views, hll]
    rw [hentry]
    refine ⟨⟨Q ++ [c], by rw [hb]; simp, .newGet (t, l) (access_view hacc hl) fun hk => ?_⟩,
      fun l' hp => ?_⟩
    · obtain ⟨e, he, heview⟩ := hk l (by simp [views])
      simp only [entry, Option.map_eq_some_iff] at he
      obtain ⟨v, hv, rfl⟩ := he
      exact hview (by simp [hv]) (Prod.mk.inj heview).1
    · by_cases hll : l' = l
      · subst hll
        simp at hp
      · rw [Function.update_of_ne hll] at hp ⊢
        exact hpresent l' hp

end Visit

/-! ### The whole walk -/

section Walk

variable {b : Block} (hr : views.Respects other) (hn : ∀ c ∈ b.code, views.Named c)
include hr hn

def walk (b : Block) (n : ℕ) : Option (Block × Tracking) :=
  (List.range n).foldlM visit (b, fun _ => .default)

omit hr hn in
theorem walk_succ (b : Block) (n : ℕ) : walk b (n+1) = (walk b n).bind fun st => visit st n := by
  rw [walk, List.range_succ, List.foldlM_append]
  cases h : walk b n with
  | none => rw [← walk, h]; rfl
  | some st =>
    rw [← walk, h]
    simp

theorem walk_kept {n : ℕ} (h : n ≤ b.code.length) :
    ∃ b' info Q, walk b n = some (b', info) ∧ b'.code = Q ++ b.code.drop n ∧
      views.Kept record other (b.code.take n) Q (entry info) ∧
      ∀ l, (info l).setInstructionPresent = true → (info l).registerValue ≠ none := by
  induction n with
  | zero =>
    refine ⟨b, fun _ => .default, [], rfl, rfl, Views.kept_nil lawful, fun l hp => ?_⟩
    cases hp
  | succ n ih =>
    obtain ⟨b', info, Q, hwalk, hcode, hkept, hpresent⟩ := ih (by omega)
    have hlen : (b.code.take n).length = Q.length := hkept.traced.length
    have hQ : Q.length = n := by rw [← hlen, List.length_take]; omega
    rw [List.drop_eq_getElem_cons h] at hcode
    have hnc := hn b.code[n] (List.getElem_mem h)
    have hsome : ∃ st, visit (b', info) Q.length = some st := by
      refine visit_some (c := b.code[n]) ?_ hnc
      rw [hcode, List.getElem?_append_right (Nat.le_refl _), Nat.sub_self]
      rfl
    obtain ⟨⟨b'', info'⟩, hvisit⟩ := hsome
    obtain ⟨⟨R, hR, hmove⟩, hpresent'⟩ := visit_move hcode hlen hkept.traced hpresent hvisit
    refine ⟨b'', info', R, ?_, hR, ?_, hpresent'⟩
    · rw [walk_succ, hwalk]
      rw [hQ] at hvisit
      exact hvisit
    · rw [List.take_succ_eq_append_getElem h]
      exact hkept.move lawful hr hnc hmove

end Walk

section Forwards

variable (hr : views.Respects other) {cs : List Code} (hty : Typed [] cs) {j i : ℕ}
  {w : TrackingType × Loc} (hf : views.Forwards cs j i w)
include hf

/-- Where the operand of a forwarded set comes from. -/
theorem forwards_source : j < i ∧ i < cs.length ∧
    ∃ d, cs[j]? = some d ∧ views.access d = some (true, w) := by
  obtain ⟨-, hlive, c, hc, -⟩ := hf
  have hi := (List.getElem?_eq_some_iff.mp hc).1
  obtain ⟨d, hd, hset, -⟩ := (hlive w.2 (by simp [views])).source
  have hj := (List.getElem?_eq_some_iff.mp hd).1
  rw [List.length_take, Nat.min_eq_left (Nat.le_of_lt hi)] at hj
  rw [List.getElem?_take_of_lt hj] at hd
  exact ⟨hj, hi, d, hd, hset⟩

include hr hty

theorem forwards_refs (s : State (fun l => BitVec (width l)) E) (r : ℕ)
    (h : views.recorded record cs j w = .inst r) : r < j := by
  obtain ⟨-, -, d, hd, hset⟩ := forwards_source hf
  refine (Views.stored_ty (s := s) lawful hr hty hd hset).2 r ?_
  rw [← h, Views.recorded, List.getD_eq_getElem?_getD, hd, Option.getD_some]
  rfl

/-- Whether a forwarded set kept all of its operand. -/
theorem exact_iff (s : State (fun l => BitVec (width l)) E) :
    views.Exact record (views.exec other) (cs.take i) j w s ↔
      readAs w.1 w.2 (written w.1 w.2 (views.stored (views.exec other) cs j w s)) =
        views.stored (views.exec other) cs j w s := by
  obtain ⟨hj, hi, d, hd, hset⟩ := forwards_source hf
  have hrefs := (Views.stored_ty (s := s) lawful hr hty hd hset).2
  have hget : cs.getD j (.void, []) = d := by
    rw [List.getD_eq_getElem?_getD, hd, Option.getD_some]
  have hstored : views.stored (views.exec other) (cs.take i) j w s =
      views.stored (views.exec other) cs j w s := by
    simp [Views.stored, List.take_take, Nat.min_eq_left (Nat.le_of_lt hj),
      List.getD_eq_getElem?_getD, hj]
  have hvalue : (evalArg (runCode (views.exec other) (cs.take i) s).1
      (views.recorded record (cs.take i) j w)).value =
      views.stored (views.exec other) cs j w s := by
    have hrec : views.recorded record (cs.take i) j w = views.operandOf d w := by
      simp [Views.recorded, record, List.getD_eq_getElem?_getD, hj, hd]
    rw [hrec, evalArg_take (j := j) (by rw [List.length_take]; omega) hrefs, Views.stored, hget,
      List.take_take, Nat.min_eq_left (Nat.le_of_lt hj)]
  rw [Views.Exact, hvalue, hstored]
  exact eq_comm

theorem exact_of_not_lossy (hlossy : ¬ Lossy w.1) (s : State (fun l => BitVec (width l)) E) :
    readAs w.1 w.2 (written w.1 w.2 (views.stored (views.exec other) cs j w s)) =
      views.stored (views.exec other) cs j w s := by
  obtain ⟨-, -, d, hd, hset⟩ := forwards_source hf
  obtain ⟨-, -, c, -, hget⟩ := hf
  obtain ⟨hacc, hl⟩ := view_eq hget
  exact readAs_written hl ((access_types hacc).2.2.2 rfl) hlossy
    (Views.stored_ty lawful hr hty hd hset).1

end Forwards

/-- The elimination removes sets and turns gets into identities, and nothing
else. From a guest state the new block gives every instruction the same result
and ends in the same state exactly when each set of a lossy view that a get is
forwarded from stores all of its operand. -/
theorem a64GetSetElimination_runs (hr : views.Respects other) {b : Block} (hwf : WellFormed b)
    (hn : ∀ c ∈ b.code, views.Named c) :
    ∃ b', a64GetSetElimination b = some b' ∧ List.Forall₂ views.Edited b.code b'.code ∧
      ∀ s, (runCode (views.exec other) b'.code s = runCode (views.exec other) b.code s ↔
        ∀ j i t l, views.Forwards b.code j i (t, l) → Lossy t →
          readAs t l (written t l (views.stored (views.exec other) b.code j (t, l) s)) =
            views.stored (views.exec other) b.code j (t, l) s) := by
  obtain ⟨b', info, Q, hwalk, hcode, hkept, -⟩ := walk_kept hr hn (Nat.le_refl b.code.length)
  rw [List.drop_length, List.append_nil] at hcode
  rw [List.take_length] at hkept
  have hlen : b.instructions.length = b.code.length := by simp [Block.code]
  refine ⟨b', ?_, hcode ▸ hkept.traced.edited, fun s => ⟨fun hsame j i t l hf _ => ?_, fun h => ?_⟩⟩
  · rw [a64GetSetElimination, hlen, ← walk, hwalk]
    rfl
  · rw [hcode] at hsame
    refine (exact_iff hr hwf.typed hf s).mp
      (Views.exact_of_same lawful hr hkept.traced hkept.named hsame hf fun r hrec => ?_)
    have := forwards_refs hr hwf.typed hf s r hrec
    have := (forwards_source hf).1
    omega
  · rw [hcode]
    refine hkept.same s fun j i w hf => (exact_iff hr hwf.typed hf s).mpr ?_
    obtain ⟨t, l⟩ := w
    by_cases hlossy : Lossy t
    · exact h j i t l hf hlossy
    · exact exact_of_not_lossy hr hwf.typed hf hlossy s

/-- Opcodes outside the get and set opcodes that leave the state alone. -/
def idle : Machine (State (fun l => BitVec (width l)) Unit) :=
  fun op _ s => (.plain (Val.zero op.returnType), s)

theorem respects_idle : views.Respects idle where
  ignores _ _ _ _ _ _ _ := rfl
  typed op _ _ := Val.zero_hasTy op.returnType

theorem vec_neZero : NeZero 32 := ⟨by decide⟩

attribute [local instance] vec_neZero in
/-- A vector is stored as a single and read back as one. -/
def singleBlock : Block :=
  (((Block.mk []).append .a64GetQ [.immA64Vec 1]).append .a64SetS
    [.immA64Vec 0, .inst 0]).append .a64GetS [.immA64Vec 0] |>.append .a64SetQ
    [.immA64Vec 2, .inst 2]

theorem a64GetSetElimination_runs_single :
    ∃ b', a64GetSetElimination singleBlock = some b' ∧
      List.Forall₂ views.Edited singleBlock.code b'.code ∧
      ∀ s, (runCode (views.exec idle) b'.code s = runCode (views.exec idle) singleBlock.code s ↔
        ∀ j i t l, views.Forwards singleBlock.code j i (t, l) → Lossy t →
          readAs t l (written t l (views.stored (views.exec idle) singleBlock.code j (t, l) s)) =
            views.stored (views.exec idle) singleBlock.code j (t, l) s) :=
  a64GetSetElimination_runs respects_idle (by decide) (by decide)

attribute [local instance] vec_neZero in
/-- `MSR NZCV, X0; MRS X1, NZCV`. -/
def flagsBlock : Block :=
  (((Block.mk []).append .a64GetW [.immA64Reg 0]).append .a64SetNZCVRaw
    [.inst 0]).append .a64GetNZCVRaw [] |>.append .a64SetW [.immA64Reg 1, .inst 2]

/-- With X0 = 1 the original block leaves 0 in X1, the rewritten one leaves 1. -/
theorem flags_forwarded_unmasked :
    WellFormed flagsBlock ∧ (∀ c ∈ flagsBlock.code, views.Named c) ∧
      ∃ b', a64GetSetElimination flagsBlock = some b' ∧
        ∃ s : State (fun l => BitVec (width l)) Unit,
          (runCode (views.exec idle) flagsBlock.code s).2.cells (.x 1) = 0 ∧
          (runCode (views.exec idle) b'.code s).2.cells (.x 1) = 1 := by
  have hrun : (a64GetSetElimination flagsBlock).map (fun b' => decide
      ((runCode (views.exec idle) flagsBlock.code ⟨fun _ => 1, ()⟩).2.cells (.x 1) = 0 ∧
        (runCode (views.exec idle) b'.code ⟨fun _ => 1, ()⟩).2.cells (.x 1) = 1)) = some true := by
    decide +kernel
  obtain ⟨b', hb', hcells⟩ := Option.map_eq_some_iff.mp hrun
  exact ⟨by decide, by decide, b', hb', _, of_decide_eq_true hcells⟩

end Ruzu.Ir.A64
