import Ruzu.Ir.A32FlagsRequests

/-!
# The walk of the flags pass

Behind the walk the code may run from any state that differs in flags which
are overwritten before a read.
-/

set_option autoImplicit false

namespace Ruzu.Ir.A32

def opAt (cs : List Code) (k : ℕ) : Opcode := (cs.getD k (.void, [])).1

/-- An opcode outside those that the pass follows that touches the flags. -/
def flagged (op : Opcode) : Bool := !followed op && (op.readsCpsr || op.writesCpsr)

/-- The opcode that reads the flag alone. -/
def reader : Flag → Option Opcode
  | .c => some .a32GetCFlag
  | .ge => some .a32GetGEFlags
  | _ => none

/-- The next one for which a read behind it is not pending. -/
def shields (l : Flag) (op : Opcode) : Bool :=
  flagged op || some op = reader l || l ∈ overwrites op

/-- The read of the flag that is pending in front of `k` is at `b`. -/
def Pending (cs : List Code) (l : Flag) (k b : ℕ) : Prop :=
  k ≤ b ∧ b < cs.length ∧ some (opAt cs b) = reader l ∧
    ∀ x < b, k ≤ x → shields l (opAt cs x) = false

instance (cs : List Code) (l : Flag) (k b : ℕ) : Decidable (Pending cs l k b) :=
  inferInstanceAs (Decidable (_ ∧ _ ∧ _ ∧ _))

/-- A set of all four flags with a read of C pending. -/
def Inserts (cs : List Code) (j : ℕ) : Prop :=
  opAt cs j = .a32SetCpsrNZCV ∧ ∃ a < cs.length, Pending cs .c (j+1) a

instance (cs : List Code) (j : ℕ) : Decidable (Inserts cs j) :=
  inferInstanceAs (Decidable (_ ∧ _))

/-- Nothing is inserted between `k` and the read of GE that is pending there. -/
def SteadyAt (cs : List Code) (k : ℕ) : Prop :=
  ∀ b < cs.length, Pending cs .ge (k+1) b → ∀ j < b, k < j → ¬ Inserts cs j

instance (cs : List Code) (k : ℕ) : Decidable (SteadyAt cs k) :=
  inferInstanceAs (Decidable (∀ b < cs.length, _ → ∀ j < b, _ → ¬ Inserts cs j))

/-- Nothing is inserted between a read of GE and what answers it. -/
def Steady (cs : List Code) : Prop :=
  ∀ k < cs.length, opAt cs k = .a32SetGEFlags ∨ opAt cs k = .a32GetGEFlags → SteadyAt cs k

instance (cs : List Code) : Decidable (Steady cs) :=
  inferInstanceAs (Decidable (∀ k < cs.length, _ → SteadyAt cs k))

/-- A set of N, Z and C whose C operand is a read of C. -/
def ReadsBack (b : Block) (k : ℕ) : Prop :=
  opAt b.code k = .a32SetCpsrNZC ∧
    rootOpcode b ((b.inst k).arg 1) = some (some .a32GetCFlag)

instance (b : Block) (k : ℕ) : Decidable (ReadsBack b k) :=
  inferInstanceAs (Decidable (_ ∧ _))

/-- C is overwritten behind `k` before any other opcode touches the flags. -/
def Overwritten (b : Block) (k : ℕ) : Prop :=
  ∃ l < b.code.length, k ≤ l ∧ .c ∈ overwrites (opAt b.code l) ∧ ¬ ReadsBack b l ∧
    ∀ x < l, k ≤ x → flagged (opAt b.code x) = false

instance (b : Block) (k : ℕ) : Decidable (Overwritten b k) :=
  inferInstanceAs (Decidable (∃ _, _ ∧ _))

section

variable {E : Type*} (other : Machine (Guest E)) (b : Block)

/-- A set that gives C back what a read of C has returned finds it unchanged,
unless C is overwritten before it matters. -/
def CarryKept (s : Guest E) : Prop :=
  ∀ k < b.code.length, ReadsBack b k → ¬ Overwritten b (k+1) →
    (reached (flagExec other) b.code k s).2.cells .c =
      truth (evalArg (reached (flagExec other) b.code k s).1 ((b.inst k).arg 1)).value

/-- The code from `i` on computes what the block does, from any state that
differs in the flags of `D`. -/
def Behaves (P : List Code) (g : ℕ → ℕ) (i : ℕ) (D : Flag → Bool) (s : Guest E) : Prop :=
  ∀ t, Agree D (reached (flagExec other) b.code i s).2 t →
    (Ssa.run ((P.drop i).map (step (flagExec other)))
      ((reached (flagExec other) b.code i s).1, t)).2 = (runCode (flagExec other) b.code s).2 ∧
    ∀ k o, k < b.code.length → (Ssa.run ((P.drop i).map (step (flagExec other)))
      ((reached (flagExec other) b.code i s).1, t)).1.getD (g k) o =
        (runCode (flagExec other) b.code s).1.getD k o

end

def FlagInfo.request (info : FlagInfo) : Option ℕ :=
  if info.hasValueRequest then some info.valueRequestIdx else none

/-- The flags that are overwritten before a read, once the requests `rc` and
`rg` are answered. -/
def dead (p : FlagsPass) (rc rg : Option ℕ) : Flag → Bool
  | .n | .z => p.nz || p.nzcv || p.nzcvq
  | .v => p.nzcv || p.nzcvq
  | .q => p.nzcvq
  | .c => (p.cFlag.setNotRequired || p.nzcv || p.nzcvq) && rc == p.cFlag.request
  | .ge => p.ge.setNotRequired && rg == p.ge.request

/-- The code with both requests answered by what the flags hold. -/
def answered {E : Type*} (t : Guest E) (rc rg : Option ℕ) (P : List Code) : List Code :=
  answer rc (.immU1 (t.cells .c)) (answer rg (.immU32 (t.cells .ge)) P)

/-- What is known when the walk has done the instructions from `i` on. -/
structure FlagsWalked {E : Type*} (other : Machine (Guest E)) (b : Block) (i : ℕ) (p : FlagsPass)
    (g : ℕ → ℕ) : Prop where
  le : i ≤ b.code.length
  shape : Shape b.code p.block.code g i
  carry : ∀ r, p.cFlag.request = some r → Pending b.code .c i r ∧ g r = r
  ge : ∀ r, p.ge.request = some r → Pending b.code .ge i r ∧
    ((∀ j < r, i ≤ j → ¬ Inserts b.code j) → g r = r)
  settled : Overwritten b i → p.cFlag.setNotRequired = true
  runs : ∀ s, CarryKept other b s → ∀ rc rg, (rc = none ∨ rc = p.cFlag.request) →
    (rg = none ∨ rg = p.ge.request ∧ ∀ r, rg = some r → g r = r) →
    Behaves other b (answered (reached (flagExec other) b.code i s).2 rc rg p.block.code) g i
      (dead p rc rg) s

variable {E : Type*} {other : Machine (Guest E)} {b : Block} {p : FlagsPass} {g : ℕ → ℕ}

theorem opAt_eq {cs : List Code} {k : ℕ} {c : Code} (h : cs[k]? = some c) : opAt cs k = c.1 := by
  rw [opAt, List.getD_eq_getElem?_getD, h, Option.getD_some]

theorem flagsWalked_start (b : Block) :
    FlagsWalked other b b.code.length ⟨b, false, false, false, .new, .new⟩ id where
  le := Nat.le_refl _
  shape := shape_start _
  carry r hr := by cases hr
  ge r hr := by cases hr
  settled h := by
    obtain ⟨l, hl, hle, -⟩ := h
    omega
  runs s _ rc rg hrc hrg := by
    have hc : rc = none := by
      rcases hrc with h | h
      · exact h
      · exact h
    have hg : rg = none := by
      rcases hrg with h | ⟨h, -⟩
      · exact h
      · exact h
    subst hc
    subst hg
    intro t ht
    have hst := ht.eq fun l => by cases l <;> rfl
    subst hst
    rw [reached_all]
    simp only [answered, answer, List.drop_length, List.map_nil, Ssa.run_nil]
    exact ⟨trivial, fun _ _ _ => rfl⟩

/-! ### One instruction -/

section Step

variable {cs : List Code} {P Q : List Code} {k : ℕ} {c c' : Code} {D D' : Flag → Bool}
  {s : Guest E}

/-- The instruction `d` stands at `k`, and what follows behaves up to the
choice of the answers. -/
theorem Behaves.cons (hm : Sensible (flagExec other)) (hc : b.code[k]? = some c)
    {d : Code} {rc rg : Option ℕ} {v w : Value}
    (h : Behaves other b (answered (reached (flagExec other) b.code (k+1) s).2 rc rg P) g (k+1) D s)
    (hQ : Q.drop k = d :: (answer rc v (answer rg w P)).drop (k+1))
    (hv : rc.isSome → Names (reached (flagExec other) b.code (k+1) s).1 v
      (.u1 ((reached (flagExec other) b.code (k+1) s).2.cells .c)))
    (hw : rg.isSome → Names (reached (flagExec other) b.code (k+1) s).1 w
      (.u32 ((reached (flagExec other) b.code (k+1) s).2.cells .ge)))
    (hstep : ∀ t, Agree D' (reached (flagExec other) b.code k s).2 t →
      (step (flagExec other) d (reached (flagExec other) b.code k s).1 t).1 =
        (step (flagExec other) c (reached (flagExec other) b.code k s).1
          (reached (flagExec other) b.code k s).2).1 ∧
      Agree D (step (flagExec other) c (reached (flagExec other) b.code k s).1
          (reached (flagExec other) b.code k s).2).2
        (step (flagExec other) d (reached (flagExec other) b.code k s).1 t).2) :
    Behaves other b Q g k D' s := by
  intro t ht
  obtain ⟨hval, hrel⟩ := hstep t ht
  have hnext := reached_succ (m := flagExec other) hc s
  have halike : List.Forall₂ (Alike (flagExec other) (reached (flagExec other) b.code (k+1) s).1)
      ((answered (reached (flagExec other) b.code (k+1) s).2 rc rg P).drop (k+1))
      ((answer rc v (answer rg w P)).drop (k+1)) := by
    refine List.forall₂_drop _ (forall₂_answer (forall₂_answer ?_ rg fun hrg => ?_) rc fun hrc => ?_)
    · exact List.forall₂_same.mpr fun _ _ _ _ => rfl
    · exact alike_answer hm ⟨nofun, rfl⟩ (hw hrg)
    · exact alike_answer hm ⟨nofun, rfl⟩ (hv hrc)
  have hrun : Ssa.run ((Q.drop k).map (step (flagExec other)))
      ((reached (flagExec other) b.code k s).1, t) =
      Ssa.run (((answered (reached (flagExec other) b.code (k+1) s).2 rc rg P).drop (k+1)).map
        (step (flagExec other))) ((reached (flagExec other) b.code (k+1) s).1,
          (step (flagExec other) d (reached (flagExec other) b.code k s).1 t).2) := by
    rw [run_alike halike, hQ, List.map_cons, Ssa.run_cons, Ssa.next, hval, hnext]
    rfl
  rw [hrun]
  refine h _ ?_
  rw [hnext]
  exact hrel

theorem drop_of_get (h : P[k]? = some c) : P.drop k = c :: P.drop (k+1) := by
  obtain ⟨hk, rfl⟩ := List.getElem?_eq_some_iff.mp h
  exact List.drop_eq_getElem_cons hk

theorem drop_set_of_get (h : P[k]? = some c) (c' : Code) :
    (P.set k c').drop k = c' :: P.drop (k+1) := by
  rw [List.drop_set, if_neg (by omega), drop_of_get h, Nat.sub_self, List.set_cons_zero]

theorem Pending.prev {l : Flag} {r : ℕ} (h : Pending cs l (k+1) r)
    (hk : shields l (opAt cs k) = false) : Pending cs l k r := by
  refine ⟨by have := h.1; omega, h.2.1, h.2.2.1, fun x hx hkx => ?_⟩
  by_cases hxk : x = k
  · rw [hxk, hk]
  · exact h.2.2.2 x hx (by omega)

theorem pending_self {l : Flag} (hk : k < cs.length) (h : some (opAt cs k) = reader l) :
    Pending cs l k k :=
  ⟨Nat.le_refl k, hk, h, fun x hx hkx => by omega⟩

theorem Overwritten.prev (h : Overwritten b k) :
    Flag.c ∈ overwrites (opAt b.code k) ∧ ¬ ReadsBack b k ∨
      Overwritten b (k+1) ∧ flagged (opAt b.code k) = false := by
  obtain ⟨l, hl, hle, hop, hback, hno⟩ := h
  by_cases hlk : l = k
  · subst hlk
    exact Or.inl ⟨hop, hback⟩
  · refine Or.inr ⟨⟨l, hl, by omega, hop, hback, fun x hx hkx => hno x hx (by omega)⟩, ?_⟩
    exact hno k (by omega) (Nat.le_refl k)

theorem not_shields {l : Flag} {op : Opcode} (h : shields l op = false) :
    flagged op = false ∧ some op ≠ reader l ∧ l ∉ overwrites op := by
  simpa [shields, and_assoc] using h

theorem dead_carry_ge {rc rg : Option ℕ} {x : ℕ} (h : Pending cs .c k x) {y : ℕ}
    (h' : Pending cs .ge k y) (hrc : rc = some x) (hrg : rg = some y) : rc ≠ rg := by
  rintro rfl
  rw [hrc] at hrg
  cases hrg
  have := h.2.2.1.symm.trans h'.2.2.1
  cases this

end Step

/-! ### Instructions that the walk passes over -/

section Visit

variable {k : ℕ} {c : Code} (hw : FlagsWalked other b (k+1) p g) (ht : Typed [] b.code)
  (hm : Sensible (flagExec other)) (hc : b.code[k]? = some c)
include hw hc

theorem FlagsWalked.get : p.block.code[k]? = some c := by
  rw [hw.shape.get (Nat.lt_succ_self k), hc]

omit hw in
theorem reached_state (s : Guest E) : (reached (flagExec other) b.code (k+1) s).2 =
    (step (flagExec other) c (reached (flagExec other) b.code k s).1
      (reached (flagExec other) b.code k s).2).2 := by
  rw [reached_succ hc]
  rfl

include ht hm

theorem FlagsWalked.pass (hcarry : shields .c c.1 = false) (hge : shields .ge c.1 = false)
    (hblind : ∀ D, Ssa.Blind (Agree D) (step (flagExec other) c))
    (hcells : ∀ env s l, l = .c ∨ l = .ge → (step (flagExec other) c env s).2.cells l = s.cells l) :
    FlagsWalked other b k p g where
  le := by have := hw.le; omega
  shape := hw.shape.prev ht
  carry r hr := by
    obtain ⟨hpend, hplace⟩ := hw.carry r hr
    exact ⟨hpend.prev (by rw [opAt_eq hc, hcarry]), hplace⟩
  ge r hr := by
    obtain ⟨hpend, hplace⟩ := hw.ge r hr
    exact ⟨hpend.prev (by rw [opAt_eq hc, hge]), fun h => hplace fun j hj hkj => h j hj (by omega)⟩
  settled h := by
    rcases h.prev with ⟨hop, -⟩ | ⟨h, -⟩
    · rw [opAt_eq hc] at hop
      exact absurd hop (not_shields hcarry).2.2
    · exact hw.settled h
  runs s hs rc rg hrc hrg := by
    have hrc' : ∀ x, rc = some x → k < x := by
      rintro x rfl
      have hx := hrc.resolve_left (by simp)
      exact (hw.carry x hx.symm).1.1
    have hrg' : ∀ x, rg = some x → k < x := by
      rintro x rfl
      have hx := (hrg.resolve_left (by simp)).1
      exact (hw.ge x hx.symm).1.1
    have hcell := fun l hl => hcells (reached (flagExec other) b.code k s).1
      (reached (flagExec other) b.code k s).2 l hl
    refine (hw.runs s hs rc rg hrc hrg).cons hm hc (d := c)
      (drop_answer hrc' (drop_answer hrg' (drop_of_get (hw.get hc)) _) _) (fun _ => ?_)
      (fun _ => ?_) fun t htt => ?_
    · rw [reached_state hc, hcell .c (Or.inl rfl)]
      exact ⟨nofun, rfl⟩
    · rw [reached_state hc, hcell .ge (Or.inr rfl)]
      exact ⟨nofun, rfl⟩
    · obtain ⟨hval, hrel⟩ := hblind _ _ _ _ htt
      exact ⟨hval.symm, hrel⟩

/-- An opcode that may do anything with the flags. -/
theorem FlagsWalked.reset (hflag : flagged c.1 = true) :
    FlagsWalked other b k { p with nzcvq := false, nzcv := false, nz := false, cFlag := .new, ge := .new }
      g where
  le := by have := hw.le; omega
  shape := hw.shape.prev ht
  carry r hr := by cases hr
  ge r hr := by cases hr
  settled h := by
    rcases h.prev with ⟨hop, -⟩ | ⟨-, hno⟩
    · rw [opAt_eq hc] at hop
      have hfollow : followed c.1 = false := by
        simp only [flagged, Bool.and_eq_true, Bool.not_eq_true'] at hflag
        exact hflag.1
      have hnil : overwrites c.1 ≠ [] := List.ne_nil_of_mem hop
      simp [followed, hnil] at hfollow
    · rw [opAt_eq hc, hflag] at hno
      cases hno
  runs s hs rc rg hrc hrg := by
    obtain rfl : rc = none := hrc.elim id id
    obtain rfl : rg = none := hrg.elim id fun h => h.1
    refine (hw.runs s hs none none (Or.inl rfl) (Or.inl rfl)).cons hm hc (v := .void) (w := .void)
      (drop_of_get (hw.get hc)) nofun nofun fun t htt => ?_
    have hst := htt.eq fun l => by cases l <;> rfl
    rw [← hst]
    exact ⟨rfl, .refl _ _⟩

end Visit

/-! ### Reads -/

theorem code_answer (b : Block) (info : FlagInfo) (v : Value) :
    (if info.hasValueRequest then b.replaceUsesWith info.valueRequestIdx v else b).code =
      answer info.request v b.code := by
  unfold FlagInfo.request
  split
  · exact Block.code_replaceUsesWith _ _ _
  · rfl

/-- The shape after the answer to a pending read. -/
theorem Shape.answer {cs P : List Code} {i : ℕ} (h : Shape cs P g i) {l : Flag} {r : Option ℕ}
    (hr : ∀ x, r = some x → Pending cs l i x ∧ g x = x) (v : Value) :
    Shape cs (answer r v P) g i := by
  cases r with
  | none => exact h
  | some x =>
    obtain ⟨⟨hle, hlt, hop, -⟩, hplace⟩ := hr x rfl
    have hget := List.getElem?_eq_getElem hlt
    have hset := h.set (d := (.identity, [v])) hle hget (.answered v ?_)
    · rwa [hplace] at hset
    · have hread : some (cs[x]).1 = reader l := by rw [← hop, opAt_eq hget]
      cases l with
      | c => exact Or.inl (Option.some.inj hread)
      | ge => exact Or.inr (Option.some.inj hread)
      | _ => cases hread

section Reads

variable {k : ℕ} {c : Code} (hw : FlagsWalked other b (k+1) p g) (ht : Typed [] b.code)
  (hm : Sensible (flagExec other)) (hc : b.code[k]? = some c)
include hw hc

variable (other) in
omit hw in
theorem names_result (s : Guest E) : Names (reached (flagExec other) b.code (k+1) s).1 (.inst k)
    (step (flagExec other) c (reached (flagExec other) b.code k s).1
      (reached (flagExec other) b.code k s).2).1.value := by
  have hk := (List.getElem?_eq_some_iff.mp hc).1
  have hlen := reached_length (m := flagExec other) (Nat.le_of_lt hk) s
  have hlast := names_last (reached (flagExec other) b.code k s).1
    (step (flagExec other) c (reached (flagExec other) b.code k s).1
      (reached (flagExec other) b.code k s).2).1
  rw [hlen] at hlast
  rw [reached_succ hc]
  exact hlast

omit hc in
/-- The requests are of different instructions. -/
theorem FlagsWalked.apart {rg : Option ℕ} (hrg : rg = none ∨ rg = p.ge.request) (v w : Value) (P : List Code) :
    answer rg w (answer p.cFlag.request v P) = answer p.cFlag.request v (answer rg w P) := by
  refine (answer_comm (fun x hx hxg => ?_) v w P).symm
  have hxg' := hrg.resolve_left (by rw [hxg]; simp)
  exact dead_carry_ge (hw.carry x hx).1 (hw.ge x (by rw [← hxg', hxg])).1 hx hxg (hx.trans hxg.symm)

include ht hm

theorem FlagsWalked.getCFlag (hop : c.1 = .a32GetCFlag) :
    FlagsWalked other b k { p with
      block := (flagsDoGet p.block p.cFlag k).1
      cFlag := (flagsDoGet p.block p.cFlag k).2 } g where
  le := by have := hw.le; omega
  shape := by
    simp only [flagsDoGet, code_answer]
    exact (hw.shape.answer hw.carry _).prev ht
  carry r hr := by
    obtain rfl : k = r := Option.some.inj hr
    refine ⟨pending_self (by have := hw.le; omega) ?_, hw.shape.place k (Nat.lt_succ_self k)⟩
    rw [opAt_eq hc, hop]
    rfl
  ge r hr := by
    obtain ⟨hpend, hplace⟩ := hw.ge r hr
    exact ⟨hpend.prev (by rw [opAt_eq hc, hop]; rfl), fun h => hplace fun j hj hkj => h j hj (by omega)⟩
  settled h := by
    rcases h.prev with ⟨hmem, -⟩ | ⟨h, -⟩
    · rw [opAt_eq hc, hop] at hmem
      cases hmem
    · exact hw.settled h
  runs s hs rc rg hrc hrg := by
    have hrg' : ∀ x, rg = some x → k < x := by
      rintro x rfl
      exact (hw.ge x (hrg.resolve_left (by simp)).1.symm).1.1
    have hcode : (flagsDoGet p.block p.cFlag k).1.code = answer p.cFlag.request (.inst k) p.block.code := by
      rw [flagsDoGet, code_answer]
    have hstate : (reached (flagExec other) b.code (k+1) s).2 =
        (reached (flagExec other) b.code k s).2 := by
      rw [reached_state hc, step_getCFlag hop]
    have hdrop : (answer rg (.immU32 ((reached (flagExec other) b.code k s).2.cells .ge))
        (answer p.cFlag.request (.inst k) p.block.code)).drop k =
        c :: (answer p.cFlag.request (.inst k) (answer rg
          (.immU32 ((reached (flagExec other) b.code k s).2.cells .ge)) p.block.code)).drop (k+1) := by
      rw [← hw.apart (hrg.imp_right And.left)]
      exact drop_answer hrg' (drop_answer (fun x hx => (hw.carry x hx).1.1)
        (drop_of_get (hw.get hc)) _) _
    have hcarry := names_result other hc s
    rw [step_getCFlag hop, ← hstate] at hcarry
    have hnext := hw.runs s hs p.cFlag.request rg (Or.inr rfl) hrg
    have hdead : ∀ l, dead { p with
        block := (flagsDoGet p.block p.cFlag k).1
        cFlag := (flagsDoGet p.block p.cFlag k).2 } rc rg l = true →
        dead p p.cFlag.request rg l = true := by
      intro l
      cases l with
      | c => simp +contextual [dead, flagsDoGet]
      | _ => exact id
    refine hrc.elim (fun hrc => ?_) fun hrc => ?_
    · -- the read stays
      subst hrc
      refine hnext.cons hm hc (d := c) (by rw [answered, hcode]; exact hdrop) (fun _ => hcarry)
        (fun _ => by rw [hstate]; exact ⟨nofun, rfl⟩) fun t htt => ?_
      rw [step_getCFlag hop, step_getCFlag hop]
      refine ⟨?_, htt.mono hdead⟩
      have := htt.2 .c (by simp [dead, flagsDoGet, FlagInfo.request])
      rw [this]
    · -- the read is answered
      subst hrc
      have hself : answered (reached (flagExec other) b.code k s).2 (some k) rg
          (flagsDoGet p.block p.cFlag k).1.code = answer (some k)
            (.immU1 ((reached (flagExec other) b.code k s).2.cells .c)) (answer rg
              (.immU32 ((reached (flagExec other) b.code k s).2.cells .ge))
                (answer p.cFlag.request (.inst k) p.block.code)) := by
        rw [answered, hcode]
      refine hnext.cons hm hc (by
        refine (congrArg (List.drop k) hself).trans ?_
        exact drop_answer_self hdrop _) (fun _ => hcarry)
        (fun _ => by rw [hstate]; exact ⟨nofun, rfl⟩) fun t htt => ?_
      rw [step_getCFlag hop]
      exact ⟨rfl, htt.mono hdead⟩

omit hc ht hm in
/-- Nothing has been inserted in front of the pending read of GE. -/
theorem FlagsWalked.steady (hst : SteadyAt b.code k) (r : ℕ) (hr : p.ge.request = some r) :
    Pending b.code .ge (k+1) r ∧ g r = r := by
  obtain ⟨hpend, hplace⟩ := hw.ge r hr
  exact ⟨hpend, hplace fun j hj hkj => hst r hpend.2.1 hpend j hj (by omega)⟩

theorem FlagsWalked.getGEFlags (hop : c.1 = .a32GetGEFlags) (hst : SteadyAt b.code k) :
    FlagsWalked other b k { p with
      block := (flagsDoGet p.block p.ge k).1
      ge := (flagsDoGet p.block p.ge k).2 } g where
  le := by have := hw.le; omega
  shape := by
    simp only [flagsDoGet, code_answer]
    exact (hw.shape.answer (hw.steady hst) _).prev ht
  carry r hr := by
    obtain ⟨hpend, hplace⟩ := hw.carry r hr
    exact ⟨hpend.prev (by rw [opAt_eq hc, hop]; rfl), hplace⟩
  ge r hr := by
    obtain rfl : k = r := Option.some.inj hr
    refine ⟨pending_self (by have := hw.le; omega) ?_, fun _ => hw.shape.place k (Nat.lt_succ_self k)⟩
    rw [opAt_eq hc, hop]
    rfl
  settled h := by
    rcases h.prev with ⟨hmem, -⟩ | ⟨h, -⟩
    · rw [opAt_eq hc, hop] at hmem
      cases hmem
    · exact hw.settled h
  runs s hs rc rg hrc hrg := by
    have hrc' : ∀ x, rc = some x → k < x := by
      rintro x rfl
      exact (hw.carry x (hrc.resolve_left (by simp)).symm).1.1
    have hcode : (flagsDoGet p.block p.ge k).1.code = answer p.ge.request (.inst k) p.block.code := by
      rw [flagsDoGet, code_answer]
    have hstate : (reached (flagExec other) b.code (k+1) s).2 =
        (reached (flagExec other) b.code k s).2 := by
      rw [reached_state hc, step_getGEFlags hop]
    have hdrop : (answer p.ge.request (.inst k) p.block.code).drop k =
        c :: (answer p.ge.request (.inst k) p.block.code).drop (k+1) :=
      drop_answer (fun x hx => (hw.ge x hx).1.1) (drop_of_get (hw.get hc)) _
    have hge := names_result other hc s
    rw [step_getGEFlags hop, ← hstate] at hge
    have hnext := hw.runs s hs rc p.ge.request hrc
      (Or.inr ⟨rfl, fun r hr => (hw.steady hst r hr).2⟩)
    have hdead : ∀ l, dead { p with
        block := (flagsDoGet p.block p.ge k).1
        ge := (flagsDoGet p.block p.ge k).2 } rc rg l = true →
        dead p rc p.ge.request l = true := by
      intro l
      cases l with
      | ge => simp +contextual [dead, flagsDoGet]
      | _ => exact id
    refine hrg.elim (fun hrg => ?_) fun hrg => ?_
    · -- the read stays
      subst hrg
      refine hnext.cons hm hc (d := c) (by rw [answered, hcode]; exact drop_answer hrc' hdrop _)
        (fun _ => by rw [hstate]; exact ⟨nofun, rfl⟩) (fun _ => hge) fun t htt => ?_
      rw [step_getGEFlags hop, step_getGEFlags hop]
      refine ⟨?_, htt.mono hdead⟩
      have := htt.2 .ge (by simp [dead, flagsDoGet, FlagInfo.request])
      rw [this]
    · -- the read is answered
      obtain rfl : rg = some k := hrg.1
      refine hnext.cons hm hc (by rw [answered, hcode]; exact drop_answer hrc' (drop_answer_self hdrop _) _)
        (fun _ => by rw [hstate]; exact ⟨nofun, rfl⟩) (fun _ => hge) fun t htt => ?_
      rw [step_getGEFlags hop]
      exact ⟨rfl, htt.mono hdead⟩

end Reads
end Ruzu.Ir.A32
