import Mathlib
import Ruzu.Ir.Registers

/-!
# A64 get/set elimination

One forward walk. A get whose register is known under the same view becomes an
identity, and a set that a later set of the register overwrites is removed.
The second half of the module is what the get and set opcodes do to the guest
registers. A panic is `none`.
-/

set_option autoImplicit false

namespace Ruzu.Ir.A64

inductive TrackingType where
  | w | x | s | d | q | sp | nzcv | nzcvRaw
deriving DecidableEq

/-- The get and set opcodes: whether it is a set, and the view. -/
def access : Opcode → Option (Bool × TrackingType)
  | .a64GetW => some (false, .w)
  | .a64GetX => some (false, .x)
  | .a64GetS => some (false, .s)
  | .a64GetD => some (false, .d)
  | .a64GetQ => some (false, .q)
  | .a64GetSP => some (false, .sp)
  | .a64GetNZCVRaw => some (false, .nzcvRaw)
  | .a64SetW => some (true, .w)
  | .a64SetX => some (true, .x)
  | .a64SetS => some (true, .s)
  | .a64SetD => some (true, .d)
  | .a64SetQ => some (true, .q)
  | .a64SetSP => some (true, .sp)
  | .a64SetNZCV => some (true, .nzcv)
  | .a64SetNZCVRaw => some (true, .nzcvRaw)
  | _ => none

/-- The tracked registers. -/
inductive Loc where
  | x (n : Fin 31)
  | v (n : Fin 32)
  | sp
  | nzcv
deriving DecidableEq

structure RegisterInfo where
  registerValue : Option Value
  trackingType : TrackingType
  setInstructionPresent : Bool
  lastSetIndex : ℕ

def RegisterInfo.default : RegisterInfo := ⟨none, .x, false, 0⟩

/-- `reg_index`: there is no entry for the zero register. -/
def regIndex (args : List Value) : Option Loc :=
  match args.getD 0 .void with
  | .immA64Reg r => if h : r.val < 31 then some (.x ⟨r, h⟩) else none
  | _ => none

/-- `vec_index`. -/
def vecIndex (args : List Value) : Option Loc :=
  match args.getD 0 .void with
  | .immA64Vec v => some (.v v)
  | _ => none

/-- The register that an access names. -/
def slot (t : TrackingType) (args : List Value) : Option Loc :=
  match t with
  | .w | .x => regIndex args
  | .s | .d | .q => vecIndex args
  | .sp => some .sp
  | .nzcv | .nzcvRaw => some .nzcv

/-- The position of the value that a set stores. -/
def valueArg : TrackingType → ℕ
  | .sp | .nzcv | .nzcvRaw => 0
  | _ => 1

def doGet (b : Block) (info : RegisterInfo) (get : ℕ) (t : TrackingType) : Block × RegisterInfo :=
  match info.registerValue with
  | some known =>
    if info.trackingType = t then (b.replaceUsesWith get known, info)
    else (b, ⟨some (.inst get), t, false, 0⟩)
  | none => (b, ⟨some (.inst get), t, false, 0⟩)

def doSet (b : Block) (info : RegisterInfo) (value : Value) (setIdx : ℕ) (t : TrackingType) :
    Block × RegisterInfo :=
  (if info.setInstructionPresent then b.invalidate info.lastSetIndex else b,
    ⟨some value, t, true, setIdx⟩)

/-- Whether an opcode outside the get and set opcodes touches the register. -/
def flagged (op : Opcode) : Loc → Bool
  | .nzcv => op.readsCpsr || op.writesCpsr
  | _ => op.readsFromCoreRegister || op.writesToCoreRegister

abbrev Tracking := Loc → RegisterInfo

def visit (st : Block × Tracking) (i : ℕ) : Option (Block × Tracking) :=
  let inst := st.1.inst i
  if inst.isTombstone then some st else
    match access inst.opcode with
    | some (isSet, t) => (slot t inst.args).map fun l =>
      let r := if isSet then doSet st.1 (st.2 l) (inst.arg (valueArg t)) i t
        else doGet st.1 (st.2 l) i t
      (r.1, Function.update st.2 l r.2)
    | none => some (st.1, fun l => if flagged inst.opcode l then .default else st.2 l)

def a64GetSetElimination (b : Block) : Option Block :=
  ((List.range b.instructions.length).foldlM visit (b, fun _ => .default)).map Prod.fst

/-! ### What the get and set opcodes do -/

def width : Loc → ℕ
  | .x _ => 64
  | .v _ => 128
  | .sp => 64
  | .nzcv => 4

/-- What a get returns. -/
def readAs (t : TrackingType) : (l : Loc) → BitVec (width l) → Val
  | .x _, c => if t = .w then .u32 (c.setWidth 32) else .u64 (c.setWidth 64)
  | .v _, c => match t with
    | .s => .u128 ((c.setWidth 32).setWidth 128)
    | .d => .u128 ((c.setWidth 64).setWidth 128)
    | _ => .u128 (c.setWidth 128)
  | .sp, c => .u64 (c.setWidth 64)
  | .nzcv, c => .u32 (c.setWidth 32 <<< 28)

/-- What a set stores. -/
def written (t : TrackingType) (l : Loc) : Val → BitVec (width l)
  | .u32 v => match t with
    | .nzcvRaw => (v >>> 28).setWidth (width l)
    | _ => v.setWidth (width l)
  | .u64 v => v.setWidth (width l)
  | .u128 v => match t with
    | .s => (v.setWidth 32).setWidth (width l)
    | .d => (v.setWidth 64).setWidth (width l)
    | _ => v.setWidth (width l)
  | .nzcv v => v.setWidth (width l)
  | _ => 0

/-- The type that a view has as a value. -/
def viewTy : TrackingType → Ty
  | .w | .nzcvRaw => .u32
  | .x | .sp => .u64
  | .s | .d | .q => .u128
  | .nzcv => .nzcvFlags

/-- A view is a tracking type and the register. -/
def views : Views Loc (fun l => BitVec (width l)) (TrackingType × Loc) where
  accesses op := (access op).isSome
  view op v := (access op).bind fun a => (slot a.2 [v]).map fun l => (a.1, (a.2, l))
  covers w := [w.2]
  tracked _ := true
  ty w := viewTy w.1
  readAs w c := readAs w.1 w.2 (c w.2)
  written w v l := written w.1 l v
  valueArg w := valueArg w.1
  flagged := flagged

/-- A set is recorded with its operand. -/
def record : TrackingType × Loc → ℕ → Value → Value := fun _ _ v => v

end Ruzu.Ir.A64
