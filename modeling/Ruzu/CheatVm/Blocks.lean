import Ruzu.CheatVm.Safety

/-!
# Structured cheat programs

The blocks and loops of a program as a tree, with an interpreter that runs one
branch of a block and repeats a loop's body as often as its start says. The
machine does the same, provided that a body leaves the counter of its loop.
-/

set_option autoImplicit false

namespace Ruzu.CheatVm
open Relation

structure Instr where
  op : Opcode
  size : ℕ

inductive Code
  | nil
  | plain (i : Instr) (rest : Code)
  | block (head : Instr) (body rest : Code)
  | blockElse (head : Instr) (body other rest : Code)
  | loop (reg : Fin 16) (count : BitVec 32) (body rest : Code)

def Code.size : Code → ℕ
  | .nil => 0
  | .plain i rest => i.size + rest.size
  | .block head body rest => head.size + body.size + 1 + rest.size
  | .blockElse head body other rest => head.size + body.size + 1 + other.size + 1 + rest.size
  | .loop _ _ body rest => 2 + body.size + 1 + rest.size

def Variant.isPlain : Variant → Bool
  | .beginConditional _ | .beginKeypressConditional _ | .beginRegisterConditional _
  | .endConditional _ | .controlLoop _ => false
  | _ => true

def loopStart (reg : Fin 16) (count : BitVec 32) : Variant := .controlLoop ⟨true, reg, count⟩

def loopEnd (reg : Fin 16) : Variant := .controlLoop ⟨false, reg, 0⟩

/-- The program decodes, from a position on, to the code. -/
def Code.Lays (p : Program) : Code → ℕ → Prop
  | .nil, _ => True
  | .plain i rest, pos =>
    i.op.variant.isPlain = true ∧ Decodes p pos i.op i.size ∧ rest.Lays p (pos + i.size)
  | .block head body rest, pos =>
    let next := pos + head.size
    let last := next + body.size
    head.op.beginConditionalBlock = true ∧ Decodes p pos head.op head.size ∧ body.Lays p next ∧
      Decodes p last ⟨false, .endConditional false⟩ 1 ∧ rest.Lays p (last + 1)
  | .blockElse head body other rest, pos =>
    let next := pos + head.size
    let middle := next + body.size
    let last := middle + 1 + other.size
    head.op.beginConditionalBlock = true ∧ Decodes p pos head.op head.size ∧ body.Lays p next ∧
      Decodes p middle ⟨false, .endConditional true⟩ 1 ∧ other.Lays p (middle + 1) ∧
      Decodes p last ⟨false, .endConditional false⟩ 1 ∧ rest.Lays p (last + 1)
  | .loop reg count body rest, pos =>
    let last := pos + 2 + body.size
    count ≠ 0 ∧ Decodes p pos ⟨false, loopStart reg count⟩ 2 ∧ body.Lays p (pos + 2) ∧
      Decodes p last ⟨false, loopEnd reg⟩ 1 ∧ rest.Lays p (last + 1)

variable {W : Type} (env : Env W)

/-! ### The interpreter -/

/-- A condition is logged, then evaluated. -/
def Data.branch (d : Data W) (next : ℕ) (head : Variant) : Bool × Data W :=
  let d := d.logCommand env next head
  (d.condition env head).getD (false, d)

/-- The turns of a loop; its counter is what is left of them. -/
def turns (turn : Data W → Data W) (reg : Fin 16) : ℕ → Data W → Data W
  | 0, d => d
  | n+1, d => turns turn reg n ((turn d).setRegister reg (BitVec.ofNat 64 n))

/-- The logs are those of the instructions that are executed, the markers among them. -/
def Code.run : Code → ℕ → Data W → Data W
  | .nil, _, d => d
  | .plain i rest, pos, d =>
    let next := pos + i.size
    rest.run next ((d.logCommand env next i.op.variant).perform env i.op.variant)
  | .block head body rest, pos, d =>
    let next := pos + head.size
    let after := next + body.size + 1
    let r := d.branch env next head.op.variant
    rest.run after
      (if r.1 then (body.run next r.2).logCommand env after (.endConditional false) else r.2)
  | .blockElse head body other rest, pos, d =>
    let next := pos + head.size
    let middle := next + body.size + 1
    let after := middle + other.size + 1
    let r := d.branch env next head.op.variant
    rest.run after
      (if r.1 then (body.run next r.2).logCommand env middle (.endConditional true)
        else (other.run middle r.2).logCommand env after (.endConditional false))
  | .loop reg count body rest, pos, d =>
    let top := pos + 2
    let after := top + body.size + 1
    let d := (d.logCommand env top (loopStart reg count)).startLoop reg count top
    rest.run after
      (turns (fun d => (body.run top d).logCommand env after (loopEnd reg)) reg count.toNat d)

/-- Each turn leaves the counter and the top of the loop. -/
def KeepsCounter (turn : Data W → Data W) (keeps : Data W → Prop) (reg : Fin 16) (top : ℕ) :
    ℕ → Data W → Prop
  | 0, _ => True
  | n+1, d =>
    keeps d ∧ (turn d).registers reg = BitVec.ofNat 64 (n + 1) ∧ (turn d).loopTops reg = top ∧
      KeepsCounter turn keeps reg top n ((turn d).setRegister reg (BitVec.ofNat 64 n))

/-- What is run of a loop's body leaves the loop's counter and its top as they are. -/
def Code.Keeps : Code → ℕ → Data W → Prop
  | .nil, _, _ => True
  | .plain i rest, pos, d =>
    let next := pos + i.size
    rest.Keeps next ((d.logCommand env next i.op.variant).perform env i.op.variant)
  | .block head body rest, pos, d =>
    let next := pos + head.size
    let after := next + body.size + 1
    let r := d.branch env next head.op.variant
    (r.1 = true → body.Keeps next r.2) ∧
    rest.Keeps after
      (if r.1 then (body.run env next r.2).logCommand env after (.endConditional false) else r.2)
  | .blockElse head body other rest, pos, d =>
    let next := pos + head.size
    let middle := next + body.size + 1
    let after := middle + other.size + 1
    let r := d.branch env next head.op.variant
    (if r.1 then body.Keeps next r.2 else other.Keeps middle r.2) ∧
    rest.Keeps after
      (if r.1 then (body.run env next r.2).logCommand env middle (.endConditional true)
        else (other.run env middle r.2).logCommand env after (.endConditional false))
  | .loop reg count body rest, pos, d =>
    let top := pos + 2
    let after := top + body.size + 1
    let turn := fun d => (body.run env top d).logCommand env after (loopEnd reg)
    let d := (d.logCommand env top (loopStart reg count)).startLoop reg count top
    KeepsCounter turn (body.Keeps top) reg top count.toNat d ∧
    rest.Keeps after (turns turn reg count.toNat d)

/-! ### Single steps -/

section Steps

variable {env} {p : Program} {pos size depth : ℕ} {op : Opcode} {d : Data W} {skip : Skip}

/-- The machine that executes at `pos`. -/
def running (p : Program) (pos depth : ℕ) (d : Data W) : Machine W :=
  ⟨⟨p, ⟨pos, true⟩, depth, d⟩, none⟩

/-- The machine that skips at `pos`. -/
def skipping (p : Program) (pos depth : ℕ) (d : Data W) (skip : Skip) : Machine W :=
  ⟨⟨p, ⟨pos, true⟩, depth, d⟩, some skip⟩

theorem isPlain_begin (h : Decodes p pos op size)
    (hplain : op.variant.isPlain = true) : op.beginConditionalBlock = false := by
  rw [decodeNextOpcode_begins (congrArg Prod.fst h)]
  cases hop : op.variant <;> rw [hop] at hplain <;> first | rfl | cases hplain

theorem step_running (h : Decodes p pos op size) (hflag : op.beginConditionalBlock = false) :
    (running p pos depth d).step env =
      Vm.executeOpcode env
        ⟨p, ⟨pos + size, true⟩, depth, d.logCommand env (pos + size) op.variant⟩ op.variant := by
  unfold running Machine.step Vm.run
  dsimp only
  rw [h]
  dsimp only
  rw [hflag, if_neg Bool.false_ne_true]

theorem step_plain (h : Decodes p pos op size) (hplain : op.variant.isPlain = true) :
    Leads env (running p pos depth d)
      (running p (pos + size) depth
        ((d.logCommand env (pos + size) op.variant).perform env op.variant)) := by
  rw [Leads, step_running h (isPlain_begin h hplain)]
  cases hop : op.variant <;> rw [hop] at hplain <;> first | rfl | cases hplain

theorem depth_succ_lt (h : Decodes p pos op size) (hdepth : depth ≤ pos) :
    depth + 1 < usizeBound := by
  have hlt := (readProgramU32_success (decodeNextOpcode_cases (congrArg Prod.fst h)).2.1).1
  have hfits := p.fits
  unfold maximumProgramOpcodeCount at hfits
  unfold usizeBound
  dsimp only at hlt
  omega

theorem deepen_of_lt {vm : Vm W} (go : Vm W → Outcome W) (hdepth : vm.conditionDepth = depth)
    (h : depth + 1 < usizeBound) :
    vm.deepen go = go { vm with conditionDepth := depth + 1 } := by
  subst hdepth
  exact if_pos h

theorem step_running_begin (h : Decodes p pos op size) (hflag : op.beginConditionalBlock = true)
    (hdepth : depth ≤ pos) :
    (running p pos depth d).step env =
      Vm.executeOpcode env
        ⟨p, ⟨pos + size, true⟩, depth + 1, d.logCommand env (pos + size) op.variant⟩
        op.variant := by
  unfold running Machine.step Vm.run
  dsimp only
  rw [h]
  dsimp only
  rw [hflag, if_pos rfl]
  exact deepen_of_lt _ rfl (depth_succ_lt h hdepth)

theorem step_begin (h : Decodes p pos op size) (hflag : op.beginConditionalBlock = true)
    (hdepth : depth ≤ pos) :
    Leads env (running p pos depth d)
      (if (d.branch env (pos + size) op.variant).1 then
        running p (pos + size) (depth + 1) (d.branch env (pos + size) op.variant).2
      else
        skipping p (pos + size) (depth + 1) (d.branch env (pos + size) op.variant).2
          ⟨true, depth⟩) := by
  have hcondition := (decodeNextOpcode_begins (congrArg Prod.fst h)).symm.trans hflag
  obtain ⟨⟨holds, data⟩, hr⟩ := condition_of_isCondition env
    (d.logCommand env (pos + size) op.variant) hcondition
  have hbranch : d.branch env (pos + size) op.variant = (holds, data) :=
    congrArg (Option.getD · _) hr
  rw [Leads, step_running_begin h hflag hdepth, hbranch,
    executeOpcode_condition p _ _ hr]
  cases holds with
  | true => rfl
  | false => rfl

theorem step_end (h : Decodes p pos ⟨false, .endConditional false⟩ 1) :
    Leads env (running p pos (depth + 1) d)
      (running p (pos + 1) depth (d.logCommand env (pos + 1) (.endConditional false))) := by
  rw [Leads, step_running h rfl]
  rfl

theorem step_else (h : Decodes p pos ⟨false, .endConditional true⟩ 1) :
    Leads env (running p pos (depth + 1) d)
      (skipping p (pos + 1) (depth + 1) (d.logCommand env (pos + 1) (.endConditional true))
        ⟨false, depth⟩) := by
  rw [Leads, step_running h rfl]
  rfl

theorem step_loopStart {reg : Fin 16} {count : BitVec 32}
    (h : Decodes p pos ⟨false, loopStart reg count⟩ 2) :
    Leads env (running p pos depth d)
      (running p (pos + 2) depth
        ((d.logCommand env (pos + 2) (loopStart reg count)).startLoop reg count (pos + 2))) := by
  rw [Leads, step_running h rfl]
  rfl

theorem step_loopEnd {reg : Fin 16} (h : Decodes p pos ⟨false, loopEnd reg⟩ 1) :
    Leads env (running p pos depth d)
      (let d := d.logCommand env (pos + 1) (loopEnd reg)
      running p (if d.registers reg - 1 = 0 then pos + 1 else d.loopTops reg) depth
        (d.setRegister reg (d.registers reg - 1))) := by
  rw [Leads, step_running h rfl]
  unfold loopEnd Vm.executeOpcode Data.condition
  dsimp only
  rw [if_neg Bool.false_ne_true]
  split
  case isTrue h => rw [if_neg (by simpa using h)]; rfl
  case isFalse h => rw [if_pos (by simpa using h)]; rfl

theorem step_skipping (h : Decodes p pos op size) (hdepth : skip.desiredDepth < depth)
    (hflag : op.beginConditionalBlock = false)
    (hend : ∀ isElse, op.variant ≠ .endConditional isElse) :
    Leads env (skipping p pos depth d skip) (skipping p (pos + size) depth d skip) := by
  unfold Leads skipping Machine.step Vm.skipOne
  dsimp only
  rw [if_pos hdepth, h]
  dsimp only
  rw [hflag, if_neg Bool.false_ne_true]
  split
  case h_1 isElse hvariant => exact absurd hvariant (hend isElse)
  case h_2 => rfl

theorem step_skipping_begin (h : Decodes p pos op size) (hdepth : skip.desiredDepth < depth)
    (hpos : depth ≤ pos) (hflag : op.beginConditionalBlock = true) :
    Leads env (skipping p pos depth d skip) (skipping p (pos + size) (depth + 1) d skip) := by
  have hdeeper := depth_succ_lt h hpos
  unfold Leads skipping Machine.step Vm.skipOne
  dsimp only
  rw [if_pos hdepth, h]
  dsimp only
  rw [hflag, if_pos rfl, deepen_of_lt _ rfl hdeeper]

theorem step_skipping_end (h : Decodes p pos ⟨false, .endConditional false⟩ 1)
    (hdepth : skip.desiredDepth < depth + 1) :
    Leads env (skipping p pos (depth + 1) d skip) (skipping p (pos + 1) depth d skip) := by
  unfold Leads skipping Machine.step Vm.skipOne
  dsimp only
  rw [if_pos hdepth, h]
  rfl

theorem step_skipping_else (h : Decodes p pos ⟨false, .endConditional true⟩ 1)
    (hdepth : skip.desiredDepth < depth + 1) :
    Leads env (skipping p pos (depth + 1) d skip)
      (if skip.isIf ∧ depth = skip.desiredDepth then running p (pos + 1) (depth + 1) d
      else skipping p (pos + 1) (depth + 1) d skip) := by
  unfold Leads skipping Machine.step Vm.skipOne
  dsimp only
  rw [if_pos hdepth, h]
  change (if _ ∧ depth = _ then _ else _) = _
  split <;> rfl

theorem step_skipped (hdepth : depth ≤ skip.desiredDepth) :
    Leads env (skipping p pos depth d skip) (running p pos depth d) := by
  unfold Leads skipping Machine.step Vm.skipOne
  dsimp only
  rw [if_neg (by omega)]
  rfl

end Steps

/-! ### Runs -/

section Runs

variable {env} {p : Program}

theorem isPlain_end {opcode : Variant} (h : opcode.isPlain = true) (isElse : Bool) :
    opcode ≠ .endConditional isElse := by
  rintro rfl
  cases h

/-- Code is skipped as a whole, whatever its words look like. -/
theorem skips (code : Code) (d : Data W) (skip : Skip) {pos depth : ℕ} (hlays : code.Lays p pos)
    (hpos : depth ≤ pos) (hdepth : skip.desiredDepth < depth) :
    Reaches env (skipping p pos depth d skip) (skipping p (pos + code.size) depth d skip) := by
  induction code generalizing pos depth with
  | nil => exact .refl
  | plain i rest ih =>
    obtain ⟨hplain, hdecodes, hrest⟩ := hlays
    refine .head (step_skipping hdecodes hdepth (isPlain_begin hdecodes hplain)
      (isPlain_end hplain)) ?_
    rw [Code.size, ← Nat.add_assoc]
    exact ih hrest (by omega) hdepth
  | block head body rest ihbody ihrest =>
    obtain ⟨hflag, hhead, hbody, hend, hrest⟩ := hlays
    have hsize := hhead.size_pos
    refine .head (step_skipping_begin hhead hdepth hpos hflag) ?_
    refine (ihbody hbody (by omega) (by omega)).trans ?_
    refine .head (step_skipping_end hend (by omega)) ?_
    have hrun := ihrest hrest (by omega) hdepth
    rwa [show pos + (Code.block head body rest).size =
      pos + head.size + body.size + 1 + rest.size by rw [Code.size]; omega]
  | blockElse head body other rest ihbody ihother ihrest =>
    obtain ⟨hflag, hhead, hbody, helse, hother, hend, hrest⟩ := hlays
    have hsize := hhead.size_pos
    refine .head (step_skipping_begin hhead hdepth hpos hflag) ?_
    refine (ihbody hbody (by omega) (by omega)).trans ?_
    have hstep : Leads env (skipping p (pos + head.size + body.size) (depth + 1) d skip) _ :=
      step_skipping_else helse (Nat.lt_succ_of_lt hdepth)
    rw [if_neg (by omega)] at hstep
    refine .head hstep ((ihother hother (by omega) (by omega)).trans ?_)
    refine .head (step_skipping_end hend (by omega)) ?_
    have hrun := ihrest hrest (by omega) hdepth
    rwa [show pos + (Code.blockElse head body other rest).size =
      pos + head.size + body.size + 1 + other.size + 1 + rest.size by rw [Code.size]; omega]
  | loop reg count body rest ihbody ihrest =>
    obtain ⟨-, hstart, hbody, hend, hrest⟩ := hlays
    refine .head (step_skipping hstart hdepth rfl fun _ h => nomatch h) ?_
    refine (ihbody hbody (by omega) hdepth).trans ?_
    refine .head (step_skipping hend hdepth rfl fun _ h => nomatch h) ?_
    have hrun := ihrest hrest (by omega) hdepth
    rwa [show pos + (Code.loop reg count body rest).size =
      pos + 2 + body.size + 1 + rest.size by rw [Code.size]; omega]

theorem counter_pred (n : ℕ) : BitVec.ofNat 64 (n + 1) - 1 = BitVec.ofNat 64 n := by
  rw [BitVec.ofNat_add]
  exact BitVec.add_sub_cancel _ _

theorem counter_eq_zero {n : ℕ} (hn : n < 2 ^ 32) : BitVec.ofNat 64 n = 0 ↔ n = 0 := by
  rw [← BitVec.toNat_inj, BitVec.toNat_ofNat]
  change n % 2 ^ 64 = 0 % 2 ^ 64 ↔ n = 0
  omega

theorem step_turn {last depth : ℕ} {reg : Fin 16} {d : Data W}
    (hend : Decodes p last ⟨false, loopEnd reg⟩ 1) {n : ℕ} (hn : n < 2 ^ 32)
    (hcounter : (d.logCommand env (last + 1) (loopEnd reg)).registers reg =
      BitVec.ofNat 64 (n + 1)) :
    Leads env (running p last depth d)
      (running p (if n = 0 then last + 1 else d.loopTops reg) depth
        ((d.logCommand env (last + 1) (loopEnd reg)).setRegister reg (BitVec.ofNat 64 n))) := by
  have hstep : Leads env (running p last depth d) _ := step_loopEnd hend
  dsimp only at hstep
  rw [hcounter, counter_pred] at hstep
  simp only [counter_eq_zero hn] at hstep
  exact hstep

/-- The turns of a loop, from its top, by induction on what is left of them. -/
theorem turns_run {top last depth : ℕ} {reg : Fin 16} {body : Data W → Data W}
    {keeps : Data W → Prop}
    (hbody : ∀ d, keeps d → Reaches env (running p top depth d) (running p last depth (body d)))
    (hend : Decodes p last ⟨false, loopEnd reg⟩ 1) (n : ℕ) (hn : n + 1 < 2 ^ 32) (d : Data W)
    (hkeeps : KeepsCounter (fun d => (body d).logCommand env (last + 1) (loopEnd reg)) keeps reg
      top (n + 1) d) :
    Reaches env (running p top depth d)
      (running p (last + 1) depth
        (turns (fun d => (body d).logCommand env (last + 1) (loopEnd reg)) reg (n + 1) d)) := by
  induction n generalizing d with
  | zero =>
    obtain ⟨hd, hcounter, -, -⟩ := hkeeps
    exact (hbody d hd).tail (step_turn hend (by decide) hcounter)
  | succ n ih =>
    obtain ⟨hd, hcounter, htop, hkeeps⟩ := hkeeps
    have hstep : Leads env (running p last depth (body d)) _ :=
      step_turn hend (by omega) hcounter
    rw [if_neg (by omega), show (body d).loopTops reg = top from htop] at hstep
    exact ((hbody d hd).tail hstep).trans (ih (by omega) _ hkeeps)

/-- The machine runs code as the interpreter does. -/
theorem runs (code : Code) {d : Data W} {pos depth : ℕ} (hlays : code.Lays p pos)
    (hpos : depth ≤ pos) (hkeeps : code.Keeps env pos d) :
    Reaches env (running p pos depth d)
      (running p (pos + code.size) depth (code.run env pos d)) := by
  induction code generalizing pos depth d with
  | nil => exact .refl
  | plain i rest ih =>
    obtain ⟨hplain, hdecodes, hrest⟩ := hlays
    refine .head (step_plain hdecodes hplain) ?_
    rw [Code.size, ← Nat.add_assoc]
    exact ih hrest (by omega) hkeeps
  | block head body rest ihbody ihrest =>
    obtain ⟨hflag, hhead, hbody, hend, hrest⟩ := hlays
    have hsize := hhead.size_pos
    have hbegin : Leads env (running p pos depth d) _ := step_begin hhead hflag hpos
    have hafter : pos + (Code.block head body rest).size =
        pos + head.size + body.size + 1 + rest.size := by rw [Code.size]; omega
    dsimp only [Code.Keeps] at hkeeps
    rw [hafter, Code.run]
    cases hholds : (d.branch env (pos + head.size) head.op.variant).1 with
    | true =>
      rw [hholds, if_pos rfl] at hbegin hkeeps
      rw [if_pos rfl]
      refine .head hbegin ((ihbody hbody (by omega) (hkeeps.1 rfl)).trans ?_)
      exact .head (step_end hend) (ihrest hrest (by omega) hkeeps.2)
    | false =>
      rw [hholds, if_neg Bool.false_ne_true] at hbegin hkeeps
      rw [if_neg Bool.false_ne_true]
      refine .head hbegin ((skips body _ ⟨true, depth⟩ hbody (by omega) (by simp)).trans ?_)
      refine .head (step_skipping_end hend (by simp)) (.head (step_skipped le_rfl) ?_)
      exact ihrest hrest (by omega) hkeeps.2
  | blockElse head body other rest ihbody ihother ihrest =>
    obtain ⟨hflag, hhead, hbody, helse, hother, hend, hrest⟩ := hlays
    have hsize := hhead.size_pos
    have hbegin : Leads env (running p pos depth d) _ := step_begin hhead hflag hpos
    have hafter : pos + (Code.blockElse head body other rest).size =
        pos + head.size + body.size + 1 + other.size + 1 + rest.size := by rw [Code.size]; omega
    dsimp only [Code.Keeps] at hkeeps
    rw [hafter, Code.run]
    cases hholds : (d.branch env (pos + head.size) head.op.variant).1 with
    | true =>
      rw [hholds, if_pos rfl] at hbegin hkeeps
      rw [if_pos rfl]
      refine .head hbegin ((ihbody hbody (by omega) hkeeps.1).trans ?_)
      refine .head (step_else helse) ?_
      refine (skips other _ ⟨false, depth⟩ hother (by omega) (by simp)).trans ?_
      refine .head (step_skipping_end hend (by simp)) (.head (step_skipped le_rfl) ?_)
      exact ihrest hrest (by omega) hkeeps.2
    | false =>
      rw [hholds, if_neg Bool.false_ne_true] at hbegin hkeeps
      rw [if_neg Bool.false_ne_true]
      refine .head hbegin ((skips body _ ⟨true, depth⟩ hbody (by omega) (by simp)).trans ?_)
      have hstep : Leads env (skipping p (pos + head.size + body.size) (depth + 1)
          (d.branch env (pos + head.size) head.op.variant).2 ⟨true, depth⟩) _ :=
        step_skipping_else helse (Nat.lt_succ_self depth)
      rw [if_pos ⟨rfl, rfl⟩] at hstep
      refine .head hstep ((ihother hother (by omega) hkeeps.1).trans ?_)
      exact .head (step_end hend) (ihrest hrest (by omega) hkeeps.2)
  | loop reg count body rest ihbody ihrest =>
    obtain ⟨hcount, hstart, hbody, hend, hrest⟩ := hlays
    obtain ⟨hturns, hkeeps⟩ := hkeeps
    have hafter : pos + (Code.loop reg count body rest).size =
        pos + 2 + body.size + 1 + rest.size := by rw [Code.size]; omega
    have hpositive : count.toNat ≠ 0 := fun h => hcount (BitVec.toNat_inj.mp h)
    obtain ⟨n, hn⟩ := Nat.exists_eq_succ_of_ne_zero hpositive
    have hlt := count.isLt
    rw [hafter, Code.run]
    rw [hn] at hturns hkeeps hlt ⊢
    refine .head (step_loopStart hstart) (.trans ?_ (ihrest hrest (by omega) hkeeps))
    exact turns_run (fun d hd => ihbody hbody (by omega) hd) hend n hlt _ hturns

end Runs

/-! ### Whole runs -/

/-- The run from `m` ends, with `vm` as the machine that `execute` leaves. -/
def Halts (env : Env W) (m : Machine W) (vm : Vm W) : Prop :=
  ∃ m', Reaches env m m' ∧ m'.step env = .halt vm

variable {env}

theorem leads_unique {m m₁ m₂ : Machine W} (h₁ : Leads env m m₁) (h₂ : Leads env m m₂) :
    m₁ = m₂ :=
  Outcome.next.inj (h₁.symm.trans h₂)

theorem Halts.unique {m : Machine W} {vm₁ vm₂ : Vm W} (h₁ : Halts env m vm₁)
    (h₂ : Halts env m vm₂) : vm₁ = vm₂ := by
  obtain ⟨m₁, hreach₁, hhalt₁⟩ := h₁
  obtain ⟨m₂, hreach₂, hhalt₂⟩ := h₂
  have hlast : ∀ {m₁ m₂ : Machine W} {vm : Vm W}, m₁.step env = .halt vm →
      Reaches env m₁ m₂ → m₁ = m₂ := by
    intro m₁ m₂ vm hhalt hreach
    obtain rfl | ⟨c, hstep, -⟩ := ReflTransGen.cases_head hreach
    · rfl
    · cases hhalt.symm.trans hstep
  have hunique : Relator.RightUnique (Leads env) := fun _ _ _ h₁ h₂ => leads_unique h₁ h₂
  have hsame : m₁ = m₂ := by
    obtain h | h := ReflTransGen.total_of_right_unique hunique hreach₁ hreach₂
    · exact hlast hhalt₁ h
    · exact (hlast hhalt₂ h).symm
  subst hsame
  exact Outcome.halt.inj (hhalt₁.symm.trans hhalt₂)

/-- A structured program, at whose end nothing decodes, ends as the interpreter does. -/
theorem structured_halts (vm : Vm W) (callbacks : VmCallbacks W)
    (metadata : CheatProcessMetadata) (code : Code) (hlays : code.Lays vm.program 0)
    (hend : (decodeNextOpcode vm.program ⟨code.size, true⟩).1 = none)
    (hkeeps : code.Keeps (vm.start callbacks metadata).1 0
      (vm.start callbacks metadata).2.vm.data) :
    (∃ vm', Halts (vm.start callbacks metadata).1 (vm.start callbacks metadata).2 vm') ∧
    ∀ vm', Halts (vm.start callbacks metadata).1 (vm.start callbacks metadata).2 vm' →
      vm'.data = code.run (vm.start callbacks metadata).1 0
        (vm.start callbacks metadata).2.vm.data ∧ vm'.conditionDepth = 0 := by
  have hrun := runs code hlays (Nat.zero_le 0) hkeeps
  rw [Nat.zero_add] at hrun
  rcases hdecode : decodeNextOpcode vm.program ⟨code.size, true⟩ with ⟨r, cursor⟩
  have hnone : r = none := (congrArg Prod.fst hdecode).symm.trans hend
  subst hnone
  have hhalts : Halts (vm.start callbacks metadata).1 (vm.start callbacks metadata).2
      ⟨vm.program, cursor, 0, code.run (vm.start callbacks metadata).1 0
        (vm.start callbacks metadata).2.vm.data⟩ := by
    refine ⟨_, hrun, ?_⟩
    unfold running Machine.step Vm.run
    dsimp only
    rw [hdecode]
  refine ⟨⟨_, hhalts⟩, fun vm' h => ?_⟩
  rw [h.unique hhalts]
  exact ⟨rfl, rfl⟩

/-- Two turns of a choice, with operands that look like markers. -/
def choiceLoop : List CheatEntry :=
  [enabledCheat [0x30000000, 2, 0x80000001, 0x40010000, 0, 0x80000001, 0x21000000, 0x40010000, 0,
    0x20000000, 0x20000000, 0x31000000]]

attribute [local instance] nibble_neZero in
def choiceLoopCode : Code :=
  .loop 0 2
    (.blockElse ⟨⟨true, .beginKeypressConditional ⟨1⟩⟩, 1⟩
      (.plain ⟨⟨false, .loadRegisterStatic ⟨1, 0x80000001⟩⟩, 3⟩ .nil)
      (.plain ⟨⟨false, .loadRegisterStatic ⟨1, 0x20000000⟩⟩, 3⟩ .nil) .nil) .nil

theorem structured_halts_choiceLoop :
    (∃ vm', Halts ((loaded 0 choiceLoop).start countingCallbacks ⟨0, 0, 0, 0⟩).1
        ((loaded 0 choiceLoop).start countingCallbacks ⟨0, 0, 0, 0⟩).2 vm') ∧
    ∀ vm', Halts ((loaded 0 choiceLoop).start countingCallbacks ⟨0, 0, 0, 0⟩).1
        ((loaded 0 choiceLoop).start countingCallbacks ⟨0, 0, 0, 0⟩).2 vm' →
      vm'.data = choiceLoopCode.run
        ((loaded 0 choiceLoop).start countingCallbacks ⟨0, 0, 0, 0⟩).1 0
        ((loaded 0 choiceLoop).start countingCallbacks ⟨0, 0, 0, 0⟩).2.vm.data ∧
      vm'.conditionDepth = 0 :=
  structured_halts (loaded 0 choiceLoop) countingCallbacks ⟨0, 0, 0, 0⟩ choiceLoopCode
    ⟨by decide, rfl, ⟨rfl, rfl, ⟨rfl, rfl, trivial⟩, rfl, ⟨rfl, rfl, trivial⟩, rfl, trivial⟩, rfl,
      trivial⟩
    rfl ⟨⟨⟨trivial, trivial⟩, rfl, rfl, ⟨trivial, trivial⟩, rfl, rfl, trivial⟩, trivial⟩

/-! ### A body that writes its counter -/

def counterWriter : List CheatEntry :=
  [enabledCheat [0x30000000, 2, 0x40000000, 0, 1, 0x31000000]]

attribute [local instance] nibble_neZero in
def counterWriterCode : Code :=
  .loop 0 2 (.plain ⟨⟨false, .loadRegisterStatic ⟨0, 1⟩⟩, 3⟩ .nil) .nil

/-- The body sets the counter to one: the loop ends after its first turn. -/
theorem counterWriter_ends_early :
    counterWriterCode.Lays (loaded 0 counterWriter).program 0 ∧
      (decodeNextOpcode (loaded 0 counterWriter).program ⟨counterWriterCode.size, true⟩).1 = none ∧
      (∃ vm', Halts ((loaded 0 counterWriter).start countingCallbacks ⟨0, 0, 0, 0⟩).1
        ((loaded 0 counterWriter).start countingCallbacks ⟨0, 0, 0, 0⟩).2 vm' ∧
        vm'.data.world = 4) ∧
      (counterWriterCode.run ((loaded 0 counterWriter).start countingCallbacks ⟨0, 0, 0, 0⟩).1 0
        ((loaded 0 counterWriter).start countingCallbacks ⟨0, 0, 0, 0⟩).2.vm.data).world = 6 :=
  ⟨⟨by decide, rfl, ⟨rfl, rfl, trivial⟩, rfl, trivial⟩, rfl,
    ⟨_, ⟨_, .head rfl (.head rfl (.head rfl .refl)), rfl⟩, rfl⟩, rfl⟩

end Ruzu.CheatVm
