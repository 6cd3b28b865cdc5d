import Mathlib
import Ruzu.Ir.Registers

/-!
# The register pass of the A32 get/set elimination

One forward walk over the core registers and the 64 single-precision slots of
the extension registers. A vector set of a D register gets a `VectorZeroUpper`
behind it, so the block grows under the walk. A panic is `none`.
-/

set_option autoImplicit false

namespace Ruzu.Ir.A32

structure RegInfo where
  registerValue : Option Value
  lastSetIndex : Option ℕ

def RegInfo.new : RegInfo := ⟨none, none⟩

inductive ExtValueType where
  | empty | single | double | vectorDouble | vectorQuad
deriving DecidableEq

structure ExtRegInfo where
  valueType : ExtValueType
  registerValue : Option Value
  lastSetIndex : Option ℕ

def ExtRegInfo.new : ExtRegInfo := ⟨.empty, none, none⟩

structure RegisterPass where
  block : Block
  regInfo : Fin 15 → RegInfo
  extRegInfo : Fin 64 → ExtRegInfo

def a32Reg (args : List Value) : Option A32Reg :=
  match args.getD 0 .void with
  | .immA32Reg r => some r
  | _ => none

def a32ExtReg (args : List Value) : Option A32ExtReg :=
  match args.getD 0 .void with
  | .immA32ExtReg r => some r
  | _ => none

/-- The slots of ascending numbers, if the last one is below 64. -/
def slots (ns : List ℕ) : Option (List (Fin 64)) :=
  ns.mapM fun n => if h : n < 64 then some ⟨n, h⟩ else none

def pair (r : A32ExtReg) : List ℕ := [r.index*2, r.index*2+1]

def quadruple (r : A32ExtReg) : List ℕ :=
  [r.index*4, r.index*4+1, r.index*4+2, r.index*4+3]

def extDoGet (b : Block) (info : Fin 64 → ExtRegInfo) (expectedType : ExtValueType)
    (slots : List (Fin 64)) (get : ℕ) : Block × (Fin 64 → ExtRegInfo) :=
  if slots.all fun s => (info s).valueType = expectedType then
    match (info (slots.headD 0)).registerValue with
    | some val => (b.replaceUsesWith get val, info)
    | none => (b, info)
  else (b, fun s => if s ∈ slots then ⟨expectedType, some (.inst get), none⟩ else info s)

def extDoSet (b : Block) (info : Fin 64 → ExtRegInfo) (expectedType : ExtValueType)
    (slots : List (Fin 64)) (value : Value) (setIdx : ℕ) : Block × (Fin 64 → ExtRegInfo) :=
  (if slots.all fun s => (info s).valueType = expectedType then
      match (info (slots.headD 0)).lastSetIndex with
      | some prev => b.invalidate prev
      | none => b
    else b,
    fun s => if s ∈ slots then ⟨expectedType, some value, some setIdx⟩ else info s)

namespace RegisterPass

variable (p : RegisterPass) (i : ℕ)

def getRegister (r : A32Reg) : RegisterPass :=
  if h : r.number < 15 then
    match (p.regInfo ⟨r.number, h⟩).registerValue with
    | some val => { p with block := p.block.replaceUsesWith i val }
    | none =>
      { p with
        regInfo := Function.update p.regInfo ⟨r.number, h⟩
          ⟨some (.inst i), (p.regInfo ⟨r.number, h⟩).lastSetIndex⟩ }
  else p

def setRegister (r : A32Reg) (value : Value) : RegisterPass :=
  if h : r.number < 15 then
    { p with
      block := match (p.regInfo ⟨r.number, h⟩).lastSetIndex with
        | some prevSet => p.block.invalidate prevSet
        | none => p.block
      regInfo := Function.update p.regInfo ⟨r.number, h⟩ ⟨some value, some i⟩ }
  else p

def extGet (t : ExtValueType) (ns : List ℕ) : RegisterPass :=
  match slots ns with
  | some ss =>
    let r := extDoGet p.block p.extRegInfo t ss i
    { p with block := r.1, extRegInfo := r.2 }
  | none => p

def extSet (t : ExtValueType) (ns : List ℕ) (value : Value) : RegisterPass :=
  match slots ns with
  | some ss =>
    let r := extDoSet p.block p.extRegInfo t ss value i
    { p with block := r.1, extRegInfo := r.2 }
  | none => p

/-- A vector set of a D register: what is stored is the value with its upper
half zeroed. -/
def vectorDoubleSet (ns : List ℕ) (value : Value) : RegisterPass :=
  match slots ns with
  | some ss =>
    let r := extDoSet (p.block.insert (i+1) .vectorZeroUpper [value]) p.extRegInfo .vectorDouble ss
      (.inst (i+1)) i
    { p with block := r.1, extRegInfo := r.2 }
  | none => p

def visit : Option RegisterPass :=
  let inst := p.block.inst i
  if inst.isTombstone ∨ inst.opcode = .identity then some p else
    match inst.opcode with
    | .a32GetRegister => (a32Reg inst.args).map fun r => p.getRegister i r
    | .a32SetRegister => (a32Reg inst.args).map fun r => p.setRegister i r (inst.arg 1)
    | .a32GetExtendedRegister32 => (a32ExtReg inst.args).map fun r =>
      p.extGet i .single [r.backingIndex]
    | .a32SetExtendedRegister32 => (a32ExtReg inst.args).map fun r =>
      p.extSet i .single [r.backingIndex] (inst.arg 1)
    | .a32GetExtendedRegister64 => (a32ExtReg inst.args).map fun r => p.extGet i .double (pair r)
    | .a32SetExtendedRegister64 => (a32ExtReg inst.args).map fun r =>
      p.extSet i .double (pair r) (inst.arg 1)
    | .a32GetVector => (a32ExtReg inst.args).map fun r =>
      if r.isDouble then p.extGet i .vectorDouble (pair r)
      else p.extGet i .vectorQuad (quadruple r)
    | .a32SetVector => (a32ExtReg inst.args).map fun r =>
      if r.isDouble then p.vectorDoubleSet i (pair r) (inst.arg 1)
      else p.extSet i .vectorQuad (quadruple r) (inst.arg 1)
    | op =>
      if op.readsFromCoreRegister || op.writesToCoreRegister then
        some { p with regInfo := fun _ => .new, extRegInfo := fun _ => .new }
      else some p

/-- The loop up to the end of the growing block. -/
def loop : ℕ → ℕ → RegisterPass → Option RegisterPass
  | 0, _, _ => none
  | fuel+1, i, p =>
    if i < p.block.instructions.length then (p.visit i).bind (loop fuel (i+1)) else some p

end RegisterPass

/-- Every instruction adds at most one more. -/
def registerPass (b : Block) : Option Block :=
  (RegisterPass.loop (2*b.instructions.length+1) 0 ⟨b, fun _ => .new, fun _ => .new⟩).map
    RegisterPass.block

/-! ### What the get and set opcodes do -/

/-- The core registers and the single-precision slots. -/
inductive Loc where
  | r (n : Fin 16)
  | e (n : Fin 64)
deriving DecidableEq

inductive View where
  | core (n : Fin 16)
  | single (n : Fin 64)
  | double (n : Fin 32)
  | vectorDouble (n : Fin 32)
  | vectorQuad (n : Fin 16)
deriving DecidableEq

def slot (n : ℕ) : Loc := .e (Fin.ofNat 64 n)

/-- The value of 128 bits that a set stores, cut into slots. -/
def bits : Val → BitVec 128
  | .u32 v => v.setWidth 128
  | .u64 v => v.setWidth 128
  | .u128 v => v
  | _ => 0

def accesses : Opcode → Bool
  | .a32GetRegister | .a32SetRegister | .a32GetExtendedRegister32 | .a32SetExtendedRegister32
  | .a32GetExtendedRegister64 | .a32SetExtendedRegister64 | .a32GetVector | .a32SetVector => true
  | _ => false

/-- A 64-bit access names a D register, a vector access a D or a Q register. -/
def view : Opcode → Value → Option (Bool × View)
  | .a32GetRegister, .immA32Reg (.r n) => some (false, .core n)
  | .a32SetRegister, .immA32Reg (.r n) => some (true, .core n)
  | .a32GetExtendedRegister32, .immA32ExtReg r => some (false, .single (Fin.ofNat 64 r.backingIndex))
  | .a32SetExtendedRegister32, .immA32ExtReg r => some (true, .single (Fin.ofNat 64 r.backingIndex))
  | .a32GetExtendedRegister64, .immA32ExtReg (.double n) => some (false, .double n)
  | .a32SetExtendedRegister64, .immA32ExtReg (.double n) => some (true, .double n)
  | .a32GetVector, .immA32ExtReg (.double n) => some (false, .vectorDouble n)
  | .a32SetVector, .immA32ExtReg (.double n) => some (true, .vectorDouble n)
  | .a32GetVector, .immA32ExtReg (.quad n) => some (false, .vectorQuad n)
  | .a32SetVector, .immA32ExtReg (.quad n) => some (true, .vectorQuad n)
  | _, _ => none

/-- The first slot of an extension register view. -/
def View.base : View → ℕ
  | .core _ => 0
  | .single n => n
  | .double n | .vectorDouble n => n*2
  | .vectorQuad n => n*4

def View.covers : View → List Loc
  | .core n => [.r n]
  | .single n => [.e n]
  | .double n | .vectorDouble n => [slot (n*2), slot (n*2+1)]
  | .vectorQuad n => [slot (n*4), slot (n*4+1), slot (n*4+2), slot (n*4+3)]

def View.ty : View → Ty
  | .core _ | .single _ => .u32
  | .double _ => .u64
  | .vectorDouble _ | .vectorQuad _ => .u128

def View.readAs (w : View) (c : Loc → BitVec 32) : Val :=
  match w with
  | .core n => .u32 (c (.r n))
  | .single n => .u32 (c (.e n))
  | .double n => .u64 (c (slot (n*2+1)) ++ c (slot (n*2)))
  | .vectorDouble n => .u128 ((c (slot (n*2+1)) ++ c (slot (n*2))).setWidth 128)
  | .vectorQuad n =>
    .u128 (c (slot (n*4+3)) ++ c (slot (n*4+2)) ++ c (slot (n*4+1)) ++ c (slot (n*4)))

def View.written (w : View) (v : Val) : Loc → BitVec 32
  | .r _ => (bits v).setWidth 32
  | .e n => (bits v).extractLsb' (32*(n-w.base)) 32

/-- R15 is not followed. -/
def View.tracked : View → Bool
  | .core n => n.val < 15
  | _ => true

def views : Views Loc (fun _ => BitVec 32) View where
  accesses := accesses
  view := view
  covers := View.covers
  tracked := View.tracked
  ty := View.ty
  readAs := View.readAs
  written := View.written
  valueArg _ := 1
  flagged op _ := op.readsFromCoreRegister || op.writesToCoreRegister

/-- What the pass records for a set: its operand, or the inserted instruction. -/
def record : View → ℕ → Value → Value
  | .vectorDouble _, j, _ => .inst (j+1)
  | _, _, v => v

/-- The meaning of the opcodes outside the get and set opcodes. -/
structure Meaning {E : Type*} (other : Machine (State (fun _ : Loc => BitVec 32) E)) : Prop where
  respects : views.Respects other
  zeroUpper : ∀ o v s, o.value = .u128 v →
    other .vectorZeroUpper [o] s = (.plain (.u128 ((v.setWidth 64).setWidth 128)), s)

end Ruzu.Ir.A32
