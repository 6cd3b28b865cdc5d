import Ruzu.Ir.Registers

/-!
# The flags pass of the A32 get/set elimination

One backward walk. It removes sets of flags that are overwritten before a read
and replaces reads of C and GE by what an earlier set stores. In front of a set
of all four flags it inserts an instruction that takes C out of the operand, so
the block grows behind the walk. A search that does not return is `none`.
-/

set_option autoImplicit false

namespace Ruzu.Ir.A32

structure FlagInfo where
  setNotRequired : Bool
  hasValueRequest : Bool
  valueRequestIdx : ℕ

namespace FlagInfo

def new : FlagInfo := ⟨false, false, 0⟩

def notRequired : FlagInfo := ⟨true, false, 0⟩

end FlagInfo

/-- N and Z, N to V, and N to Q have only the first field of `FlagInfo`. -/
structure FlagsPass where
  block : Block
  nzcvq : Bool
  nzcv : Bool
  nz : Bool
  cFlag : FlagInfo
  ge : FlagInfo

def flagsDoSet (b : Block) (info : FlagInfo) (value : Value) (i : ℕ) : Block × FlagInfo :=
  let b := if info.hasValueRequest then b.replaceUsesWith info.valueRequestIdx value else b
  (if info.setNotRequired then b.invalidate i else b,
    { info with setNotRequired := true, hasValueRequest := false })

def flagsDoSetValueless (b : Block) (setNotRequired : Bool) (i : ℕ) : Block :=
  if setNotRequired then b.invalidate i else b

def flagsDoGet (b : Block) (info : FlagInfo) (i : ℕ) : Block × FlagInfo :=
  (if info.hasValueRequest then b.replaceUsesWith info.valueRequestIdx (.inst i) else b,
    { info with hasValueRequest := true, valueRequestIdx := i })

/-- The opcode behind identities. -/
def getRecursiveOpcode (b : Block) : ℕ → Value → Option (Option Opcode)
  | 0, _ => none
  | fuel+1, .inst r =>
    if (b.inst r).opcode = .identity then getRecursiveOpcode b fuel ((b.inst r).arg 0)
    else some (some (b.inst r).opcode)
  | _+1, _ => some none

/-- More steps than that run in a circle. -/
def rootOpcode (b : Block) (v : Value) : Option (Option Opcode) :=
  getRecursiveOpcode b (b.instructions.length+1) v

namespace FlagsPass

variable (p : FlagsPass) (i : ℕ)

def setCpsrNZCV : FlagsPass :=
  let arg := (p.block.inst i).arg 0
  let req := p.cFlag.valueRequestIdx
  let r : Block × ℕ :=
    if p.cFlag.hasValueRequest then
      ((p.block.insert i .getCFlagFromNZCV [arg]).replaceUsesWith
        (if i ≤ req then req+1 else req) (.inst i), i+1)
    else (p.block, i)
  { p with
    block := flagsDoSetValueless r.1 p.nzcv r.2
    nzcv := true
    nz := true
    cFlag := .notRequired }

def setCpsrNZCVRaw : FlagsPass :=
  { p with
    block := flagsDoSetValueless p.block (if p.cFlag.hasValueRequest then false else p.nzcv) i
    nzcv := true
    nzcvq := false
    nz := true
    cFlag := .notRequired }

def setCpsrNZCVQ : FlagsPass :=
  { p with
    block := flagsDoSetValueless p.block (if p.cFlag.hasValueRequest then false else p.nzcvq) i
    nzcvq := true
    nzcv := true
    nz := true
    cFlag := .notRequired }

def setCpsrNZ : FlagsPass :=
  { p with
    block := flagsDoSetValueless p.block p.nz i
    nz := true
    nzcvq := false
    nzcv := false }

/-- The set of N, Z and C when no read of C is pending: if its C operand comes
from a read of C, only N and Z are set. -/
def narrowed (aim : Option Opcode) : FlagsPass :=
  if aim = some .a32GetCFlag then
    { p with
      block := (p.block.modify i fun inst => { inst with opcode := .a32SetCpsrNZ }).setArg i 1 .void
      nzcvq := false
      nzcv := false
      nz := true }
  else
    { p with
      block :=
        if p.nz && p.cFlag.setNotRequired then p.block.invalidate i
        else if p.nz then p.block.setArg i 0 .emptyNZCVImmediateMarker
        else p.block
      nz := true
      cFlag := .notRequired
      nzcv := false
      nzcvq := false }

/-- A pending read of C gets its value. -/
def answerCFlag (value : Value) : FlagsPass :=
  if p.cFlag.hasValueRequest then
    { p with
      block := p.block.replaceUsesWith p.cFlag.valueRequestIdx value
      cFlag := { p.cFlag with hasValueRequest := false } }
  else p

def setCpsrNZC : Option FlagsPass :=
  let p := p.answerCFlag ((p.block.inst i).arg 1)
  (rootOpcode p.block ((p.block.inst i).arg 1)).map (p.narrowed i)

def visit : Option FlagsPass :=
  let inst := p.block.inst i
  if inst.isTombstone ∨ inst.opcode = .identity then some p else
    match inst.opcode with
    | .a32GetCFlag =>
      let r := flagsDoGet p.block p.cFlag i
      some { p with block := r.1, cFlag := r.2 }
    | .a32SetCpsrNZCV => some (p.setCpsrNZCV i)
    | .a32SetCpsrNZCVRaw => some (p.setCpsrNZCVRaw i)
    | .a32SetCpsrNZCVQ => some (p.setCpsrNZCVQ i)
    | .a32SetCpsrNZ => some (p.setCpsrNZ i)
    | .a32SetCpsrNZC => p.setCpsrNZC i
    | .a32SetGEFlags =>
      let r := flagsDoSet p.block p.ge (inst.arg 0) i
      some { p with block := r.1, ge := r.2 }
    | .a32GetGEFlags =>
      let r := flagsDoGet p.block p.ge i
      some { p with block := r.1, ge := r.2 }
    | .a32SetGEFlagsCompressed => some { p with ge := .notRequired }
    | .a32OrQFlag => some p
    | op =>
      if op.readsCpsr || op.writesCpsr then
        some { p with nzcvq := false, nzcv := false, nz := false, cFlag := .new, ge := .new }
      else some p

/-- The walk down from `i`. -/
def loop : ℕ → FlagsPass → Option FlagsPass
  | 0, p => some p
  | i+1, p => (p.visit i).bind (loop i)

end FlagsPass

def flagsPass (b : Block) : Option Block :=
  (FlagsPass.loop b.instructions.length ⟨b, false, false, false, .new, .new⟩).map FlagsPass.block

/-! ### What the flag opcodes do -/

inductive Flag where
  | n | z | c | v | q | ge
deriving DecidableEq

/-- GE is kept as a byte for each of its four bits. -/
def Contents : Flag → Type
  | .ge => BitVec 32
  | _ => Bool

abbrev Guest (E : Type*) := State Contents E

def truth : Val → Bool
  | .u1 v => v
  | _ => false

def word : Val → BitVec 32
  | .u32 v => v
  | _ => 0

/-- N, Z, C and V of flags, or of the word that holds them on top. -/
def nzcvOf : Val → BitVec 4
  | .nzcv v => v
  | .u32 v => v.extractLsb' 28 4
  | _ => 0

/-- Bits 16 to 19, each as a byte. -/
def expandGE (v : BitVec 32) : BitVec 32 :=
  let lane (k : ℕ) : BitVec 8 := if v.getLsbD k then 255 else 0
  lane 19 ++ lane 18 ++ lane 17 ++ lane 16

/-- The flags that an opcode overwrites. -/
def overwrites : Opcode → List Flag
  | .a32SetCpsrNZCV | .a32SetCpsrNZCVRaw => [.n, .z, .c, .v]
  | .a32SetCpsrNZCVQ => [.n, .z, .c, .v, .q]
  | .a32SetCpsrNZ => [.n, .z]
  | .a32SetCpsrNZC => [.n, .z, .c]
  | .a32SetGEFlags | .a32SetGEFlagsCompressed => [.ge]
  | _ => []

/-- With what, from the operands. -/
def stored (op : Opcode) (x y : Val) : (l : Flag) → Contents l
  | .n => (nzcvOf x).getLsbD 3
  | .z => (nzcvOf x).getLsbD 2
  | .c => if op = .a32SetCpsrNZC then truth y else (nzcvOf x).getLsbD 1
  | .v => (nzcvOf x).getLsbD 0
  | .q => (word x).getLsbD 27
  | .ge => if op = .a32SetGEFlagsCompressed then expandGE (word x) else word x

variable {E : Type*}

def overwrite (op : Opcode) (x y : Val) (s : Guest E) : Guest E :=
  { s with cells := fun l => if l ∈ overwrites op then stored op x y l else s.cells l }

/-- Q is sticky. -/
def orQ (v : Bool) (s : Guest E) : Guest E where
  cells
    | .q => or (s.cells .q) v
    | l => s.cells l
  rest := s.rest

/-- The opcodes that the pass follows over the meaning `other` of the remaining
ones. -/
def flagExec (other : Machine (Guest E)) : Machine (Guest E) := fun op args s =>
  let x := (args.getD 0 (.plain .void)).value
  let y := (args.getD 1 (.plain .void)).value
  match op with
  | .void => (.plain .void, s)
  | .identity => (.plain x, s)
  | .getCFlagFromNZCV => (.plain (.u1 ((nzcvOf x).getLsbD 1)), s)
  | .a32GetCFlag => (.plain (.u1 (s.cells .c)), s)
  | .a32GetGEFlags => (.plain (.u32 (s.cells .ge)), s)
  | .a32OrQFlag => (.plain .void, orQ (truth x) s)
  | op => if overwrites op = [] then other op args s else (.plain .void, overwrite op x y s)

/-- The opcodes that `flagExec` gives a meaning. -/
def followed (op : Opcode) : Bool :=
  overwrites op ≠ [] || op = .void || op = .identity || op = .getCFlagFromNZCV ||
    op = .a32GetCFlag || op = .a32GetGEFlags || op = .a32OrQFlag

/-- No opcode names its flags by an operand, so there are no views: the other
opcodes touch all flags or none. -/
def flagViews : Views Flag Contents Empty where
  accesses := followed
  view _ _ := none
  covers := Empty.elim
  tracked := Empty.elim
  ty := Empty.elim
  readAs w _ := w.elim
  written w _ := w.elim
  valueArg := Empty.elim
  flagged op _ := op.readsCpsr || op.writesCpsr

end Ruzu.Ir.A32
