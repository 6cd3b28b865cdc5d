import Ruzu.Ir.Block

/-!
# The emitter

`emitter.rs`: an emitter appends instructions to a block and hands out
references to them. Of its functions there are those that the expansions of
`polyfill.rs` call, with the amounts and the element sizes they call them with.
-/

set_option autoImplicit false

namespace Ruzu.Ir

theorem Block.code_append (b : Block) (opcode : Opcode) (args : List Value) :
    (b.append opcode args).code = b.code ++ [(opcode, args)] := by
  have h := code_addUses b (args.filterMap Value.ref)
  simp only [code] at h ⊢
  rw [append, List.map_append, ← h]
  rfl

/-- What an emitter does to a block, which never takes anything away. -/
structure Emit (α : Type) where
  run : Block → α × Block
  appends : ∀ b, b.code <+: (run b).2.code

namespace Emit

instance : Monad Emit where
  pure a := ⟨fun b => (a, b), fun _ => List.prefix_rfl⟩
  bind e f := ⟨fun b => (f (e.run b).1).run (e.run b).2,
    fun b => (e.appends b).trans ((f (e.run b).1).appends (e.run b).2)⟩

variable {α β : Type}

@[simp] theorem run_pure (a : α) (b : Block) : (pure a : Emit α).run b = (a, b) := rfl

@[simp] theorem run_bind (e : Emit α) (f : α → Emit β) (b : Block) :
    (e >>= f).run b = (f (e.run b).1).run (e.run b).2 := rfl

end Emit

namespace IREmitter

def emit (opcode : Opcode) (args : List Value) : Emit Value where
  run b := (.inst b.instructions.length, b.append opcode args)
  appends b := ⟨[(opcode, args)], (b.code_append opcode args).symm⟩

/-! ### Words -/

def logicalShiftRight32 (value shift carryIn : Value) : Emit Value :=
  emit .logicalShiftRight32 [value, shift, carryIn]

def rotateRight32 (value shift carryIn : Value) : Emit Value :=
  emit .bitRotateRight32 [value, shift, carryIn]

def add32 (a b carryIn : Value) : Emit Value := emit .add32 [a, b, carryIn]

def and32 (a b : Value) : Emit Value := emit .and32 [a, b]

def eor32 (a b : Value) : Emit Value := emit .eor32 [a, b]

def or32 (a b : Value) : Emit Value := emit .or32 [a, b]

/-! ### Vectors -/

def zeroVector : Emit Value := emit .zeroVector []

def vectorGetElement32 (a : Value) (index : BitVec 8) : Emit Value :=
  emit .vectorGetElement32 [a, .immU8 index]

def vectorGetElement64 (a : Value) (index : BitVec 8) : Emit Value :=
  emit .vectorGetElement64 [a, .immU8 index]

def vectorSetElement32 (vec : Value) (index : BitVec 8) (elem : Value) : Emit Value :=
  emit .vectorSetElement32 [vec, .immU8 index, elem]

def vectorSetElement64 (vec : Value) (index : BitVec 8) (elem : Value) : Emit Value :=
  emit .vectorSetElement64 [vec, .immU8 index, elem]

def vectorAdd32 (a b : Value) : Emit Value := emit .vectorAdd32 [a, b]

def vectorEor (a b : Value) : Emit Value := emit .vectorEor [a, b]

def vectorOr (a b : Value) : Emit Value := emit .vectorOr [a, b]

def vectorZeroUpper (a : Value) : Emit Value := emit .vectorZeroUpper [a]

def vectorExtract (a b : Value) (position : BitVec 8) : Emit Value :=
  emit .vectorExtract [a, b, .immU8 position]

def vectorRotateWholeVectorRight (a : Value) (amount : BitVec 8) : Emit Value :=
  emit .vectorRotateWholeVectorRight [a, .immU8 amount]

def vectorLogicalShiftLeft32 (a : Value) (shift : BitVec 8) : Emit Value :=
  emit .vectorLogicalShiftLeft32 [a, .immU8 shift]

def vectorLogicalShiftRight32 (a : Value) (shift : BitVec 8) : Emit Value :=
  emit .vectorLogicalShiftRight32 [a, .immU8 shift]

/-- There is no opcode for it. -/
def vectorRotateRight32 (a : Value) (amount : BitVec 8) : Emit Value :=
  if amount = 0 then pure a
  else do
    let right ← vectorLogicalShiftRight32 a amount
    let left ← vectorLogicalShiftLeft32 a (32 - amount)
    vectorOr right left

/-- The element sizes that a product of twice the size exists for. -/
inductive ESize where
  | e8 | e16 | e32

namespace ESize

def bits : ESize → ℕ
  | e8 => 8
  | e16 => 16
  | e32 => 32

def signExtend : ESize → Opcode
  | e8 => .vectorSignExtend8
  | e16 => .vectorSignExtend16
  | e32 => .vectorSignExtend32

def zeroExtend : ESize → Opcode
  | e8 => .vectorZeroExtend8
  | e16 => .vectorZeroExtend16
  | e32 => .vectorZeroExtend32

/-- The product of elements of twice the size. -/
def multiplyDouble : ESize → Opcode
  | e8 => .vectorMultiply16
  | e16 => .vectorMultiply32
  | e32 => .vectorMultiply64

end ESize

def vectorSignExtend (originalEsize : ESize) (a : Value) : Emit Value :=
  emit originalEsize.signExtend [a]

def vectorZeroExtend (originalEsize : ESize) (a : Value) : Emit Value :=
  emit originalEsize.zeroExtend [a]

def vectorMultiplyDouble (esize : ESize) (a b : Value) : Emit Value :=
  emit esize.multiplyDouble [a, b]

end IREmitter

end Ruzu.Ir
