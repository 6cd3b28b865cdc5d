import Ruzu.Ir.A32FlagsCarry

/-!
# Runs through the flags pass

The pass keeps what a block computes, unless an insertion moves a pending read
of GE away from its index, or a set of C gives back a value of C that is out of
date.
-/

set_option autoImplicit false

namespace Ruzu.Ir.A32

variable {E : Type*} {other : Machine (Guest E)} {b : Block} {p : FlagsPass} {g : ℕ → ℕ}
  {k : ℕ} {c : Code}

theorem inert_of_followed {op : Opcode} (hf : followed op = true) (hover : overwrites op = [])
    (hcarry : op ≠ .a32GetCFlag) (hge : op ≠ .a32GetGEFlags) (hq : op ≠ .a32OrQFlag) :
    inert op = true := by
  simpa [followed, hover, hcarry, hge, hq, inert] using hf

theorem shields_inert {op : Opcode} (h : inert op = true) (l : Flag) (hl : l = .c ∨ l = .ge) :
    shields l op = false := by
  have hop : op = .void ∨ op = .identity ∨ op = .getCFlagFromNZCV := by
    simpa [inert, or_assoc] using h
  rcases hl with rfl | rfl <;> rcases hop with rfl | rfl | rfl <;> rfl

theorem shields_unflagged {op : Opcode} (hf : followed op = false) (hno : flagged op = false)
    (l : Flag) : shields l op = false := by
  have hover : overwrites op = [] := by
    by_contra h
    simp [followed, h] at hf
  have hread : some op ≠ reader l := by
    intro h
    cases l with
    | c => simp [followed, Option.some.inj h] at hf
    | ge => simp [followed, Option.some.inj h] at hf
    | _ => cases h
  simp [shields, hno, hread, hover]

theorem args_length (ht : Typed [] b.code) (hc : b.code[k]? = some c) : c.2.length = c.1.numArgs := by
  obtain ⟨us, -, hfit⟩ := ht.at hc
  exact hfit.1

theorem args_one {op : Opcode} (ht : Typed [] b.code) (hc : b.code[k]? = some c) (hop : c.1 = op)
    (hnum : op.numArgs = 1) : ∃ x, c = (op, [x]) := by
  obtain ⟨op', args⟩ := c
  simp only at hop
  subst hop
  obtain ⟨x, rfl⟩ := List.length_eq_one_iff.mp ((args_length ht hc).trans hnum)
  exact ⟨x, rfl⟩

theorem args_two {op : Opcode} (ht : Typed [] b.code) (hc : b.code[k]? = some c) (hop : c.1 = op)
    (hnum : op.numArgs = 2) : ∃ x y, c = (op, [x, y]) := by
  obtain ⟨op', args⟩ := c
  simp only at hop
  subst hop
  obtain ⟨x, y, rfl⟩ := List.length_eq_two.mp ((args_length ht hc).trans hnum)
  exact ⟨x, y, rfl⟩

/-- One instruction. -/
theorem FlagsWalked.visit (hr : flagViews.Respects other) (ht : Typed [] b.code)
    (hst : Steady b.code) (hw : FlagsWalked other b (k+1) p g) :
    ∃ p' g', p.visit k = some p' ∧ FlagsWalked other b k p' g' := by
  have hm := sensible_flagExec hr
  have hlt : k < b.code.length := hw.le
  obtain ⟨c, hc⟩ : ∃ c, b.code[k]? = some c := ⟨_, List.getElem?_eq_getElem hlt⟩
  obtain ⟨hop, harg⟩ := inst_opcode (hw.get hc)
  have hinert : inert c.1 = true → FlagsWalked other b k p g := fun h =>
    hw.pass ht hm hc (shields_inert h _ (Or.inl rfl)) (shields_inert h _ (Or.inr rfl))
      (blind_inert h) fun env s l _ => by rw [(step_inert h env s s).2]
  have hsteady := fun h => hst k hlt (by rw [opAt_eq hc]; exact h)
  unfold FlagsPass.visit
  simp only [hop, harg]
  split
  · rename_i hskip
    refine ⟨p, g, rfl, hinert ?_⟩
    simp only [Inst.isTombstone, hop, decide_eq_true_eq] at hskip
    rcases hskip with h | h
    · simp [inert, h.1]
    · simp [inert, h]
  split
  · rename_i h
    exact ⟨_, _, rfl, hw.getCFlag ht hm hc h⟩
  · rename_i h
    cases hreq : p.cFlag.hasValueRequest with
    | false => exact ⟨_, _, rfl, hw.setCpsrNZCV ht hm hc h hreq⟩
    | true =>
      obtain ⟨x, rfl⟩ := args_one ht hc h rfl
      exact ⟨_, _, rfl, hw.setCpsrNZCV_inserted ht hm hc (if_pos hreq)⟩
  · rename_i h
    exact ⟨_, _, rfl, hw.setCpsrNZCVRaw ht hm hc h⟩
  · rename_i h
    exact ⟨_, _, rfl, hw.setCpsrNZCVQ ht hm hc h⟩
  · rename_i h
    exact ⟨_, _, rfl, hw.setCpsrNZ ht hm hc h⟩
  · rename_i h
    obtain ⟨x, v, rfl⟩ := args_two ht hc h rfl
    obtain ⟨p', hp', hw'⟩ := hw.setCpsrNZC ht hm hc
    exact ⟨p', g, hp', hw'⟩
  · rename_i h
    exact ⟨_, _, rfl, hw.setGEFlags ht hm hc h (hsteady (Or.inl h))⟩
  · rename_i h
    exact ⟨_, _, rfl, hw.getGEFlags ht hm hc h (hsteady (Or.inr h))⟩
  · rename_i h
    exact ⟨_, _, rfl, hw.setGEFlagsCompressed ht hm hc h⟩
  · rename_i h
    refine ⟨p, g, rfl, hw.pass ht hm hc (by rw [h]; rfl) (by rw [h]; rfl) (blind_orQ h)
      fun env s l hl => step_orQ_cells h env s ?_⟩
    rcases hl with rfl | rfl <;> decide
  · rename_i hcarry hnzcv hraw hnzcvq hnz hnzc hset hge hcomp hq
    have hover : overwrites c.1 = [] := by
      unfold overwrites
      split <;> first
        | rfl
        | contradiction
    cases hf : followed c.1 with
    | true =>
      have h := inert_of_followed hf hover hcarry hge hq
      have hno : (c.1.readsCpsr || c.1.writesCpsr) = false := by
        have hop : c.1 = .void ∨ c.1 = .identity ∨ c.1 = .getCFlagFromNZCV := by
          simpa [inert, or_assoc] using h
        rcases hop with h | h | h <;> rw [h] <;> rfl
      rw [if_neg (by rw [hno]; decide)]
      exact ⟨p, g, rfl, hinert h⟩
    | false =>
      split
      · rename_i hflag
        exact ⟨_, _, rfl, hw.reset ht hm hc (by rw [flagged, hf, hflag]; rfl)⟩
      · rename_i hflag
        rw [Bool.not_eq_true] at hflag
        have hno : flagged c.1 = false := by rw [flagged, hflag, Bool.and_false]
        exact ⟨p, g, rfl, hw.pass ht hm hc (shields_unflagged hf hno _) (shields_unflagged hf hno _)
          (blind_of_unflagged hr hf hflag) fun env s l _ => step_cells_unflagged hr hf hflag env s l⟩

/-- The walk down to the start. -/
theorem FlagsWalked.finish (hr : flagViews.Respects other) (ht : Typed [] b.code)
    (hst : Steady b.code) (hw : FlagsWalked other b k p g) :
    ∃ p' g', FlagsPass.loop k p = some p' ∧ FlagsWalked other b 0 p' g' := by
  induction k generalizing p g with
  | zero => exact ⟨p, g, rfl, hw⟩
  | succ k ih =>
    obtain ⟨p', g', hvisit, hw'⟩ := hw.visit hr ht hst
    obtain ⟨p'', g'', hloop, hw''⟩ := ih hw'
    refine ⟨p'', g'', ?_, hw''⟩
    rw [FlagsPass.loop, hvisit]
    exact hloop

/-- Where the instructions have gone, and that each is as it was or edited. -/
structure FlagsRewrite (b b' : Block) (g : ℕ → ℕ) : Prop where
  mono : StrictMono g
  edited : ∀ k c, b.code[k]? = some c →
    ∃ c', b'.code[g k]? = some c' ∧ FlagEdit (Code.rename g c) c'
  inserted : ∀ j c', b'.code[j]? = some c' → (∀ k < b.code.length, g k ≠ j) →
    ∃ v, c' = (.getCFlagFromNZCV, [v])

/-- The pass returns. If no insertion disturbs a pending read of GE, each
instruction stays or gets the edit that is meant for it; and from a state in
which every C that is given back is still up to date, the final state and all
results are the same. -/
theorem flagsPass_runs (hr : flagViews.Respects other) (hwf : WellFormed b)
    (hst : Steady b.code) : ∃ b' g, flagsPass b = some b' ∧ FlagsRewrite b b' g ∧
      ∀ s, CarryKept other b s →
        (runCode (flagExec other) b'.code s).2 = (runCode (flagExec other) b.code s).2 ∧
        ∀ k o, k < b.code.length → (runCode (flagExec other) b'.code s).1.getD (g k) o =
          (runCode (flagExec other) b.code s).1.getD k o := by
  obtain ⟨p, g, hloop, hw⟩ := (flagsWalked_start b).finish hr hwf.typed hst
  have hlen : b.code.length = b.instructions.length := by simp [Block.code]
  refine ⟨p.block, g, ?_, ⟨hw.shape.mono, fun k c hc => hw.shape.edited k c (Nat.zero_le k) hc,
    hw.shape.inserted⟩, fun s hs => ?_⟩
  · rw [flagsPass, ← hlen, hloop]
    rfl
  · have hruns := hw.runs s hs none none (Or.inl rfl) (Or.inl rfl) s (.refl _ _)
    exact hruns

/-- Opcodes outside those that the pass follows that leave the state alone. -/
def flagIdle : Machine (Guest Unit) := fun op _ s => (.plain (Val.zero op.returnType), s)

theorem respects_flagIdle : flagViews.Respects flagIdle where
  ignores _ _ _ _ _ _ _ := rfl
  typed op _ _ := Val.zero_hasTy op.returnType

def clearFlags : Guest Unit where
  cells
    | .ge => 0#32
    | .n | .z | .c | .v | .q => false
  rest := ()

/-- A read of GE in front of an insertion, and C given back while it is up to
date. -/
def keptBlock : Block :=
  ((((((Block.mk []).append .a32SetGEFlags [.immU32 0xFF]).append .a32GetGEFlags []).append
    .a32SetCpsrNZCV [.emptyNZCVImmediateMarker]).append .a32GetCFlag []).append .a32SetCpsrNZC
    [.emptyNZCVImmediateMarker, .inst 3]).append (.other 0 .void [.u32, .u1]) [.inst 1, .inst 3]

theorem carryKept_keptBlock : CarryKept flagIdle keptBlock clearFlags := by
  intro k hk hback _
  change k < 6 at hk
  by_cases h : k = 4
  · subst h
    rfl
  · have hother : ∀ k < 6, k ≠ 4 → ¬ ReadsBack keptBlock k := by decide
    exact absurd hback (hother k hk h)

theorem flagsPass_runs_kept : ∃ b' g, flagsPass keptBlock = some b' ∧
    FlagsRewrite keptBlock b' g ∧
    (runCode (flagExec flagIdle) b'.code clearFlags).2 =
      (runCode (flagExec flagIdle) keptBlock.code clearFlags).2 := by
  obtain ⟨b', g, hpass, hrewrite, hruns⟩ := flagsPass_runs (b := keptBlock) respects_flagIdle
    (by decide) (by decide)
  exact ⟨b', g, hpass, hrewrite, (hruns clearFlags carryKept_keptBlock).1⟩

/-- A parallel addition, a comparison, a saturating addition, a selection by GE
and an addition with carry. -/
def staleBlock : Block :=
  ((((((Block.mk []).append .a32SetGEFlags [.immU32 0xFF]).append .a32SetCpsrNZCV
    [.emptyNZCVImmediateMarker]).append .a32OrQFlag [.immU1 true]).append .a32GetGEFlags []).append
    .a32GetCFlag []).append (.other 0 .void [.u32, .u1]) [.inst 3, .inst 4]

/-- The insertion in front of the comparison moves the read of GE by one, and
the set of GE answers the set of Q in its place. -/
theorem q_lost : WellFormed staleBlock ∧ flagViews.Respects flagIdle ∧
    ∃ b', flagsPass staleBlock = some b' ∧
      (runCode (flagExec flagIdle) staleBlock.code clearFlags).2.cells .q = true ∧
      (runCode (flagExec flagIdle) b'.code clearFlags).2.cells .q = false := by
  refine ⟨by decide, respects_flagIdle, ?_⟩
  have hpass : (flagsPass staleBlock).map Block.code = some [
      (.a32SetGEFlags, [.immU32 0xFF]),
      (.getCFlagFromNZCV, [.emptyNZCVImmediateMarker]),
      (.a32SetCpsrNZCV, [.emptyNZCVImmediateMarker]),
      (.identity, [.immU32 0xFF]),
      (.a32GetGEFlags, []),
      (.identity, [.inst 1]),
      (.other 0 .void [.u32, .u1], [.inst 4, .inst 5])] := by decide +kernel
  obtain ⟨b', hb', hcode⟩ := Option.map_eq_some_iff.mp hpass
  refine ⟨b', hb', rfl, ?_⟩
  rw [hcode]
  rfl

/-- C is read, set, and then set back to what was read. -/
def backBlock : Block :=
  (((Block.mk []).append .a32GetCFlag []).append .a32SetCpsrNZC
    [.emptyNZCVImmediateMarker, .immU1 true]).append .a32SetCpsrNZC
    [.emptyNZCVImmediateMarker, .inst 0]

/-- The second set only sets N and Z. -/
theorem carry_lost : WellFormed backBlock ∧ Steady backBlock.code ∧
    ∃ b', flagsPass backBlock = some b' ∧
      (runCode (flagExec flagIdle) backBlock.code clearFlags).2.cells .c = false ∧
      (runCode (flagExec flagIdle) b'.code clearFlags).2.cells .c = true := by
  refine ⟨by decide, by decide, ?_⟩
  have hpass : (flagsPass backBlock).map Block.code = some [
      (.a32GetCFlag, []),
      (.a32SetCpsrNZC, [.emptyNZCVImmediateMarker, .immU1 true]),
      (.a32SetCpsrNZ, [.emptyNZCVImmediateMarker, .void])] := by decide +kernel
  obtain ⟨b', hb', hcode⟩ := Option.map_eq_some_iff.mp hpass
  refine ⟨b', hb', rfl, ?_⟩
  rw [hcode]
  rfl

end Ruzu.Ir.A32
