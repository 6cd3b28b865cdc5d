import Ruzu.Ir.A32FlagsWalk

/-!
# Sets on the walk of the flags pass

A set is kept, narrowed or removed. A set that stores what a pending read
would return answers it.
-/

set_option autoImplicit false

namespace Ruzu.Ir.A32

variable {E : Type*} {other : Machine (Guest E)} {b : Block} {p : FlagsPass} {g : ℕ → ℕ}
  {k : ℕ} {c : Code}

theorem code_valueless (b : Block) (setNotRequired : Bool) (i : ℕ) :
    (flagsDoSetValueless b setNotRequired i).code =
      if setNotRequired then b.code.set i (.void, []) else b.code := by
  unfold flagsDoSetValueless
  split
  · exact Block.code_invalidate _ _
  · rfl

theorem step_removed (env : List Outcome) (s : Guest E) :
    step (flagExec other) (.void, []) env s = (.plain .void, s) := rfl

/-- A set removed on one side. -/
theorem removed_agree {D D' : Flag → Bool} {s t : Guest E} (how : overwrites c.1 ≠ [])
    (h : Agree D' s t) (env : List Outcome) (hop : ∀ l ∈ overwrites c.1, D l = true)
    (hD : ∀ l, D' l = true → D l = true) :
    (step (flagExec other) (.void, []) env t).1 = (step (flagExec other) c env s).1 ∧
      Agree D (step (flagExec other) c env s).2 (step (flagExec other) (.void, []) env t).2 := by
  rw [step_overwrite how, step_removed]
  exact ⟨rfl, h.drop hop hD⟩

/-- A set kept on both sides. -/
theorem kept_agree {D D' : Flag → Bool} {s t : Guest E} (how : overwrites c.1 ≠ [])
    (h : Agree D' s t) (env : List Outcome)
    (hD : ∀ l, l ∉ overwrites c.1 → D' l = true → D l = true) :
    (step (flagExec other) c env t).1 = (step (flagExec other) c env s).1 ∧
      Agree D (step (flagExec other) c env s).2 (step (flagExec other) c env t).2 := by
  rw [step_overwrite how, step_overwrite how]
  refine ⟨rfl, h.overwrite fun l hl => ⟨fun hmem => ?_, fun hmem => ?_⟩⟩
  · rw [or_self] at hmem
    exact ⟨hmem, hmem, rfl⟩
  · cases hl' : D' l with
    | false => rfl
    | true =>
      rw [hD l hmem hl'] at hl
      cases hl

theorem not_flagged (how : overwrites c.1 ≠ []) : flagged c.1 = false := by
  simp [flagged, followed, how]

/-- An operand of the type `t`, read one instruction later. -/
theorem names_operand (ht : Typed [] b.code) (hm : Sensible (flagExec other))
    (hc : b.code[k]? = some c) {a : ℕ} (ha : a < c.1.numArgs) {t : Ty}
    (htype : c.1.argTypes.getD a .void = t) (hany : t ≠ .anyTy) (htable : t ≠ .table)
    (s : Guest E) {x : Val}
    (hx : (evalArg (reached (flagExec other) b.code k s).1 (c.2.getD a .void)).value.ty = t →
      (evalArg (reached (flagExec other) b.code k s).1 (c.2.getD a .void)).value = x) :
    Names (reached (flagExec other) b.code (k+1) s).1 (c.2.getD a .void) x := by
  have hk := (List.getElem?_eq_some_iff.mp hc).1
  obtain ⟨hty, hrefs⟩ := operand_ty hm ht hc ha htype hany htable s
  have hnames : Names (reached (flagExec other) b.code k s).1 (c.2.getD a .void) x := by
    refine ⟨fun r hr => ?_, hx hty⟩
    rw [reached_length (Nat.le_of_lt hk)]
    exact hrefs r hr
  rw [reached_succ hc]
  exact hnames.snoc _

section Sets

variable (hw : FlagsWalked other b (k+1) p g) (hm : Sensible (flagExec other))
  (hc : b.code[k]? = some c) (how : overwrites c.1 ≠ [])
include hw hm hc how

/-- A set of C that leaves GE alone. The read of C that is pending has been
answered by `v`, or it stays for good. -/
theorem FlagsWalked.setCarry {p' : FlagsPass} (hge : .ge ∉ overwrites c.1) (hge' : p'.ge = p.ge)
    (hreq : p'.cFlag.request = none) (hshape : Shape b.code p'.block.code g k)
    (hset : Overwritten b k → p'.cFlag.setNotRequired = true)
    {r : Option ℕ} (hr : r = none ∨ r = p.cFlag.request) {v : Value} {d : Code}
    (hdrop : p'.block.code.drop k = d :: (answer r v p.block.code).drop (k+1))
    (hv : r.isSome → ∀ s, Names (reached (flagExec other) b.code (k+1) s).1 v
      (.u1 ((reached (flagExec other) b.code (k+1) s).2.cells .c)))
    (hstep : ∀ s, CarryKept other b s → ∀ rg t,
      Agree (dead p' none rg) (reached (flagExec other) b.code k s).2 t →
      (step (flagExec other) d (reached (flagExec other) b.code k s).1 t).1 =
        (step (flagExec other) c (reached (flagExec other) b.code k s).1
          (reached (flagExec other) b.code k s).2).1 ∧
      Agree (dead p r rg) (step (flagExec other) c (reached (flagExec other) b.code k s).1
          (reached (flagExec other) b.code k s).2).2
        (step (flagExec other) d (reached (flagExec other) b.code k s).1 t).2) :
    FlagsWalked other b k p' g where
  le := by have := hw.le; omega
  shape := hshape
  carry x hx := by
    rw [hreq] at hx
    cases hx
  ge x hx := by
    rw [hge'] at hx
    obtain ⟨hpend, hplace⟩ := hw.ge x hx
    have hshield : shields .ge c.1 = false := by
      have hne : some c.1 ≠ reader .ge := by
        intro hread
        have hop : c.1 = .a32GetGEFlags := Option.some.inj hread
        rw [hop] at how
        exact how rfl
      simp [shields, not_flagged how, hne, hge]
    exact ⟨hpend.prev (by rw [opAt_eq hc, hshield]), fun h => hplace fun j hj hkj => h j hj (by omega)⟩
  settled := hset
  runs s hs rc rg hrc hrg := by
    rw [hreq, or_self] at hrc
    subst hrc
    rw [hge'] at hrg
    have hrg' : ∀ x, rg = some x → k < x := by
      rintro x rfl
      exact (hw.ge x (hrg.resolve_left (by simp)).1.symm).1.1
    have hcell : (reached (flagExec other) b.code (k+1) s).2.cells .ge =
        (reached (flagExec other) b.code k s).2.cells .ge := by
      rw [reached_state hc, step_overwrite_cells how _ _ hge]
    have hcomm : ∀ w, answer rg w (answer r v p.block.code) =
        answer r v (answer rg w p.block.code) := by
      intro w
      rcases hr with rfl | rfl
      · rfl
      · exact hw.apart (hrg.imp_right And.left) v w _
    refine (hw.runs s hs r rg hr hrg).cons hm hc (d := d) (v := v)
      (w := .immU32 ((reached (flagExec other) b.code k s).2.cells .ge)) ?_ (fun h => hv h s)
      (fun _ => by rw [hcell]; exact ⟨(fun _ h => by cases h), rfl⟩) fun t htt => hstep s hs rg t htt
    rw [← hcomm]
    exact drop_answer hrg' hdrop _

omit hw hm hc how in
theorem drop_valueless {q : Block} (hq : q.code[k]? = some c) (x : Bool) :
    (flagsDoSetValueless q x k).code.drop k =
      (if x then (.void, []) else c) :: q.code.drop (k+1) := by
  rw [code_valueless]
  cases x
  · exact drop_of_get hq
  · exact drop_set_of_get hq _

omit hm in
theorem FlagsWalked.shape_valueless (ht : Typed [] b.code) (x : Bool) :
    Shape b.code (flagsDoSetValueless p.block x k).code g k := by
  rw [code_valueless]
  cases x
  · exact hw.shape.prev ht
  · exact hw.shape.edit ht hc (.removed how)

variable (other) in
omit hw hm hc in
theorem valueless_agree {D D' : Flag → Bool} {s t : Guest E} {x : Bool} (h : Agree D' s t)
    (env : List Outcome)
    (hD : ∀ l, (l ∈ overwrites c.1 → x = true) → (l ∈ overwrites c.1 ∨ D' l = true) → D l = true) :
    (step (flagExec other) (if x then (.void, []) else c) env t).1 =
        (step (flagExec other) c env s).1 ∧
      Agree D (step (flagExec other) c env s).2
        (step (flagExec other) (if x then (.void, []) else c) env t).2 := by
  cases x with
  | false =>
    exact kept_agree how h env fun l hl hl' => hD l (fun hmem => absurd hmem hl) (Or.inr hl')
  | true =>
    exact removed_agree how h env (fun l hl => hD l (fun _ => rfl) (Or.inl hl))
      fun l hl => hD l (fun _ => rfl) (Or.inr hl)

/-- A set of N to V, or of N to Q, in front of which nothing is inserted. -/
theorem FlagsWalked.setValueless (ht : Typed [] b.code) {p' : FlagsPass} (x : Bool)
    (hblock : p'.block = flagsDoSetValueless p.block x k) (hge' : p'.ge = p.ge)
    (hcarry : p'.cFlag = .notRequired) (hge : .ge ∉ overwrites c.1)
    (hD : ∀ rg l, (l ∈ overwrites c.1 → x = true) →
      (l ∈ overwrites c.1 ∨ dead p' none rg l = true) → dead p none rg l = true) :
    FlagsWalked other b k p' g := by
  refine hw.setCarry hm hc how (r := none) (v := .void) hge hge' (by rw [hcarry]; rfl)
    (by rw [hblock]; exact hw.shape_valueless hc how ht x) (fun _ => by rw [hcarry]; rfl)
    (Or.inl rfl) (by rw [hblock]; exact drop_valueless (hw.get hc) x) nofun
    fun s _ rg t htt => valueless_agree other how htt _ (hD rg)

end Sets

/-! ### Sets of GE -/

section SetsGE

variable (hw : FlagsWalked other b (k+1) p g) (ht : Typed [] b.code)
  (hm : Sensible (flagExec other)) (hc : b.code[k]? = some c)
include hw ht hm hc

/-- The read of GE that is pending has been answered by `v`, or it stays for
good. -/
theorem FlagsWalked.setGE {p' : FlagsPass} (hop : overwrites c.1 = [.ge])
    (hcarry : p'.cFlag = p.cFlag) (hreq : p'.ge.request = none)
    {rg : Option ℕ} (hrg : ∀ r, rg = some r → Pending b.code .ge (k+1) r ∧ g r = r)
    (hrg' : rg = none ∨ rg = p.ge.request) {v : Value} {x : Bool} {q : Block}
    (hq : q.code = answer rg v p.block.code) (hblock : p'.block = flagsDoSetValueless q x k)
    (hv : rg.isSome → ∀ s, Names (reached (flagExec other) b.code (k+1) s).1 v
      (.u32 ((reached (flagExec other) b.code (k+1) s).2.cells .ge)))
    (hD : ∀ rc l, (l ∈ overwrites c.1 → x = true) →
      (l ∈ overwrites c.1 ∨ dead p' rc none l = true) → dead p rc rg l = true) :
    FlagsWalked other b k p' g := by
  have how : overwrites c.1 ≠ [] := by rw [hop]; exact List.cons_ne_nil _ _
  have hcarryno : Flag.c ∉ overwrites c.1 := by rw [hop]; decide
  have hshape := hw.shape.answer hrg v
  have hget : q.code[k]? = some c := by
    rw [hq, hshape.get (Nat.lt_succ_self k), hc]
  refine ⟨by have := hw.le; omega, ?_, fun r hr => ?_, fun r hr => ?_, fun h => ?_,
    fun s hs rc rg' hrc hrg'' => ?_⟩
  · rw [hblock, code_valueless, hq]
    cases x
    · exact hshape.prev ht
    · exact hshape.edit ht hc (.removed how)
  · rw [hcarry] at hr
    obtain ⟨hpend, hplace⟩ := hw.carry r hr
    have hshield : shields .c c.1 = false := by
      have hne : some c.1 ≠ reader .c := by
        intro hread
        have hget : c.1 = .a32GetCFlag := Option.some.inj hread
        rw [hget] at how
        exact how rfl
      simp [shields, not_flagged how, hne, hcarryno]
    exact ⟨hpend.prev (by rw [opAt_eq hc, hshield]), hplace⟩
  · rw [hreq] at hr
    cases hr
  · rw [hcarry]
    rcases h.prev with ⟨hmem, -⟩ | ⟨h, -⟩
    · rw [opAt_eq hc] at hmem
      exact absurd hmem hcarryno
    · exact hw.settled h
  · obtain rfl : rg' = none := hrg''.elim id fun h => by rw [h.1, hreq]
    rw [hcarry] at hrc
    have hrc' : ∀ x, rc = some x → k < x := by
      rintro x rfl
      exact (hw.carry x (hrc.resolve_left (by simp)).symm).1.1
    have hcell : (reached (flagExec other) b.code (k+1) s).2.cells .c =
        (reached (flagExec other) b.code k s).2.cells .c := by
      rw [reached_state hc, step_overwrite_cells how _ _ hcarryno]
    refine (hw.runs s hs rc rg hrc (hrg'.imp_right fun h => ⟨h, fun r hr => (hrg r hr).2⟩)).cons hm
      hc (v := .immU1 ((reached (flagExec other) b.code k s).2.cells .c)) (w := v)
      (d := if x then (.void, []) else c) ?_ (fun _ => by rw [hcell]; exact ⟨(fun _ h => by cases h), rfl⟩)
      (fun h => hv h s) fun t htt => valueless_agree other how htt _ (hD rc)
    rw [answered, hblock]
    refine drop_answer hrc' ?_ _
    rw [← hq]
    exact drop_valueless hget x

end SetsGE

/-! ### The dead flags in front of each set -/

section Dead

variable {rc rg : Option ℕ} {l : Flag}

theorem dead_setCpsrNZCVRaw
    (hl : l ∈ overwrites .a32SetCpsrNZCVRaw →
      (if p.cFlag.hasValueRequest then false else p.nzcv) = true)
    (h : l ∈ overwrites .a32SetCpsrNZCVRaw ∨ dead (p.setCpsrNZCVRaw k) none rg l = true) :
    dead p none rg l = true := by
  cases l <;> simp_all [dead, FlagInfo.request, overwrites, FlagsPass.setCpsrNZCVRaw]

theorem dead_setCpsrNZCVQ
    (hl : l ∈ overwrites .a32SetCpsrNZCVQ →
      (if p.cFlag.hasValueRequest then false else p.nzcvq) = true)
    (h : l ∈ overwrites .a32SetCpsrNZCVQ ∨ dead (p.setCpsrNZCVQ k) none rg l = true) :
    dead p none rg l = true := by
  cases l <;> simp_all [dead, FlagInfo.request, overwrites, FlagsPass.setCpsrNZCVQ]

theorem dead_setCpsrNZCV (hl : l ∈ overwrites .a32SetCpsrNZCV → p.nzcv = true)
    (h : l ∈ overwrites .a32SetCpsrNZCV ∨ dead (p.setCpsrNZCV k) none rg l = true) :
    dead p p.cFlag.request rg l = true := by
  cases l <;> simp_all [dead, overwrites, FlagsPass.setCpsrNZCV]

theorem dead_setCpsrNZ (hl : l ∈ overwrites .a32SetCpsrNZ → p.nz = true)
    (h : l ∈ overwrites .a32SetCpsrNZ ∨ dead (p.setCpsrNZ k) rc rg l = true) :
    dead p rc rg l = true := by
  cases l <;> simp_all [dead, overwrites, FlagsPass.setCpsrNZ]

end Dead

section Cases

variable (hw : FlagsWalked other b (k+1) p g) (ht : Typed [] b.code)
  (hm : Sensible (flagExec other)) (hc : b.code[k]? = some c)
include hw ht hm hc

theorem FlagsWalked.setCpsrNZCVRaw (hop : c.1 = .a32SetCpsrNZCVRaw) :
    FlagsWalked other b k (p.setCpsrNZCVRaw k) g := by
  refine hw.setValueless hm hc (by rw [hop]; decide) ht _ rfl rfl rfl (by rw [hop]; decide)
    fun rg l => ?_
  rw [hop]
  exact dead_setCpsrNZCVRaw

theorem FlagsWalked.setCpsrNZCVQ (hop : c.1 = .a32SetCpsrNZCVQ) :
    FlagsWalked other b k (p.setCpsrNZCVQ k) g := by
  refine hw.setValueless hm hc (by rw [hop]; decide) ht _ rfl rfl rfl (by rw [hop]; decide)
    fun rg l => ?_
  rw [hop]
  exact dead_setCpsrNZCVQ

/-- Without a pending read of C nothing is inserted. -/
theorem FlagsWalked.setCpsrNZCV (hop : c.1 = .a32SetCpsrNZCV)
    (hno : p.cFlag.hasValueRequest = false) : FlagsWalked other b k (p.setCpsrNZCV k) g := by
  have hreq : p.cFlag.request = none := by simp [FlagInfo.request, hno]
  refine hw.setValueless hm hc (by rw [hop]; decide) ht p.nzcv
    (by simp [FlagsPass.setCpsrNZCV, hno]) rfl rfl (by rw [hop]; decide) fun rg l => ?_
  intro hl h
  rw [hop] at hl h
  rw [← hreq]
  exact dead_setCpsrNZCV hl h

theorem FlagsWalked.setCpsrNZ (hop : c.1 = .a32SetCpsrNZ) :
    FlagsWalked other b k (p.setCpsrNZ k) g where
  le := by have := hw.le; omega
  shape := hw.shape_valueless hc (by rw [hop]; decide) ht p.nz
  carry r hr := by
    obtain ⟨hpend, hplace⟩ := hw.carry r hr
    exact ⟨hpend.prev (by rw [opAt_eq hc, hop]; decide), hplace⟩
  ge r hr := by
    obtain ⟨hpend, hplace⟩ := hw.ge r hr
    exact ⟨hpend.prev (by rw [opAt_eq hc, hop]; decide),
      fun h => hplace fun j hj hkj => h j hj (by omega)⟩
  settled h := by
    rcases h.prev with ⟨hmem, -⟩ | ⟨h, -⟩
    · rw [opAt_eq hc, hop] at hmem
      exact absurd hmem (by decide)
    · exact hw.settled h
  runs s hs rc rg hrc hrg := by
    have how : overwrites c.1 ≠ [] := by rw [hop]; decide
    have hrc' : ∀ x, rc = some x → k < x := by
      rintro x rfl
      exact (hw.carry x (hrc.resolve_left (by simp)).symm).1.1
    have hrg' : ∀ x, rg = some x → k < x := by
      rintro x rfl
      exact (hw.ge x (hrg.resolve_left (by simp)).1.symm).1.1
    have hcell : ∀ l, l ∉ overwrites c.1 → (reached (flagExec other) b.code (k+1) s).2.cells l =
        (reached (flagExec other) b.code k s).2.cells l := by
      intro l hl
      rw [reached_state hc, step_overwrite_cells how _ _ hl]
    refine (hw.runs s hs rc rg hrc hrg).cons hm hc
      (drop_answer hrc' (drop_answer hrg' (drop_valueless (hw.get hc) p.nz) _) _)
      (fun _ => by rw [hcell .c (by rw [hop]; decide)]; exact ⟨nofun, rfl⟩)
      (fun _ => by rw [hcell .ge (by rw [hop]; decide)]; exact ⟨nofun, rfl⟩)
      fun t htt => valueless_agree other how htt _ fun l => ?_
    rw [hop]
    exact dead_setCpsrNZ

theorem FlagsWalked.setGEFlags (hop : c.1 = .a32SetGEFlags) (hst : SteadyAt b.code k) :
    FlagsWalked other b k { p with
      block := (flagsDoSet p.block p.ge (c.2.getD 0 .void) k).1
      ge := (flagsDoSet p.block p.ge (c.2.getD 0 .void) k).2 } g := by
  refine hw.setGE ht hm hc (by rw [hop]; rfl) rfl rfl (hw.steady hst) (Or.inr rfl)
    (code_answer p.block p.ge (c.2.getD 0 .void)) rfl (fun _ s => ?_) fun rc l => ?_
  · refine names_operand ht hm hc (a := 0) (t := .u32) (by rw [hop]; decide) (by rw [hop]; rfl)
      (by decide) (by decide) s fun hty => ?_
    obtain ⟨x, hx⟩ := Val.of_ty_u32 hty
    rw [reached_state hc, step_overwrite (by rw [hop]; decide), operands_getD _ (by rw [hop]; decide),
      hx, hop]
    rfl
  · rw [hop]
    intro hl h
    cases l <;> simp_all [dead, overwrites, flagsDoSet]

theorem FlagsWalked.setGEFlagsCompressed (hop : c.1 = .a32SetGEFlagsCompressed) :
    FlagsWalked other b k { p with ge := .notRequired } g := by
  refine hw.setGE ht hm hc (v := .void) (x := false) (q := p.block) (by rw [hop]; rfl) rfl rfl (by nofun)
    (Or.inl rfl) rfl rfl (by nofun) fun rc l => ?_
  rw [hop]
  intro hl h
  cases l <;> simp_all [dead, overwrites]

end Cases
end Ruzu.Ir.A32
