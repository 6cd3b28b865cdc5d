import Ruzu.Ir.Emitter
import Ruzu.Ir.Arithmetic

/-!
# Polyfills

`polyfill.rs`: the block is rebuilt with some instructions expanded into others,
and with every reference renamed. Behind that the use counts and the links from
an instruction to its flag pseudo-operations are computed anew.
-/

set_option autoImplicit false

namespace Ruzu.Ir

/-! ### Links to pseudo-operations -/

/-- A block with the `next_pseudoop` fields of its instructions. -/
structure LinkedBlock where
  block : Block
  nextPseudoop : List (Option ℕ)
deriving DecidableEq

def isAssociatedPseudoOpcode (opcode : Opcode) : Bool := (pseudoOf opcode).isSome

/-- The end of the chain that `current` is on. -/
def chainEnd (next : List (Option ℕ)) : ℕ → ℕ → Option ℕ
  | 0, _ => none
  | fuel + 1, current =>
    match next[current]? with
    | none => none
    | some none => some current
    | some (some following) => chainEnd next fuel following

def linkPseudoOp (b : Block) (next : List (Option ℕ)) (i : ℕ) : Option (List (Option ℕ)) :=
  if (b.inst i).isTombstone then some next
  else if !isAssociatedPseudoOpcode (b.inst i).opcode then some next
  else
    match (b.inst i).arg 0 with
    | .inst producer =>
      if producer < b.instructions.length then
        if (b.inst producer).isTombstone then some next
        else (chainEnd next (next.length + 1) producer).map fun last => next.set last (some i)
      else none
    | _ => some next

def rebuildPseudoOpLinks (b : Block) : Option (List (Option ℕ)) :=
  (List.range b.instructions.length).foldlM (linkPseudoOp b)
    (List.replicate b.instructions.length none)

namespace LinkedBlock

def findOnChain (l : LinkedBlock) (opcode : Opcode) : ℕ → Option ℕ → Option ℕ
  | 0, _ => none
  | _ + 1, none => none
  | fuel + 1, some current =>
    if (l.block.inst current).opcode = opcode then some current
    else findOnChain l opcode fuel (l.nextPseudoop.getD current none)

def getAssociatedPseudoOperation (l : LinkedBlock) (inst : ℕ) (opcode : Opcode) : Option ℕ :=
  l.findOnChain opcode (l.nextPseudoop.length + 1) (l.nextPseudoop.getD inst none)

end LinkedBlock

/-! ### Expansions -/

namespace Polyfill

open IREmitter

structure PolyfillOptions where
  sha256 : Bool
  vectorMultiplyWiden : Bool
deriving DecidableEq

/-- No polyfill. -/
def PolyfillOptions.off : PolyfillOptions := ⟨false, false⟩

def shaChoose (x y z : Value) : Emit Value := do
  let yz ← eor32 y z
  let selected ← and32 yz x
  eor32 selected z

def shaMajority (x y z : Value) : Emit Value := do
  let xy ← and32 x y
  let xOrY ← or32 x y
  let remaining ← and32 xOrY z
  or32 xy remaining

def shaHashSigma (x : Value) (r₁ r₂ r₃ : BitVec 8) : Emit Value := do
  let tmp1 ← rotateRight32 x (.immU8 r₁) (.immU1 false)
  let tmp2 ← rotateRight32 x (.immU8 r₂) (.immU1 false)
  let tmp3 ← rotateRight32 x (.immU8 r₃) (.immU1 false)
  let tail ← eor32 tmp2 tmp3
  eor32 tmp1 tail

def shaHashSigma0 (x : Value) : Emit Value := shaHashSigma x 2 13 22

def shaHashSigma1 (x : Value) : Emit Value := shaHashSigma x 6 11 25

def messageSchedule0Element (t result : Value) (index : BitVec 8) : Emit Value := do
  let element ← vectorGetElement32 t index
  let tmp1 ← rotateRight32 element (.immU8 7) (.immU1 false)
  let tmp2 ← rotateRight32 element (.immU8 18) (.immU1 false)
  let tmp3 ← logicalShiftRight32 element (.immU8 3) (.immU1 false)
  let tail ← eor32 tmp2 tmp3
  let modified ← eor32 tmp1 tail
  vectorSetElement32 result index modified

def polyfillSha256MessageSchedule0 (x y : Value) : Emit Value := do
  let t ← vectorExtract x y 32
  let result ← zeroVector
  let result ← [0, 1, 2, 3].foldlM (messageSchedule0Element t) result
  vectorAdd32 result x

/-- Rotated, rotated further and shifted. -/
def messageSchedule1Mix (t : Value) : Emit Value := do
  let tmp1 ← vectorRotateRight32 t 17
  let tmp2 ← vectorRotateRight32 t 19
  let tmp3 ← vectorLogicalShiftRight32 t 10
  let tail ← vectorEor tmp2 tmp3
  vectorEor tmp1 tail

def polyfillSha256MessageSchedule1 (x y z : Value) : Emit Value := do
  let t0 ← vectorExtract y z 32
  let t ← vectorRotateWholeVectorRight z 64
  let tmp4 ← messageSchedule1Mix t
  let xPlusT0 ← vectorAdd32 x t0
  let tmp5 ← vectorAdd32 tmp4 xPlusT0
  let lowerHalf ← vectorZeroUpper tmp5
  let tmp4 ← messageSchedule1Mix lowerHalf
  let shuffledX ← vectorRotateWholeVectorRight x 64
  let shuffledT0 ← vectorRotateWholeVectorRight t0 64
  let shuffledSum ← vectorAdd32 shuffledX shuffledT0
  let tmp5 ← vectorAdd32 tmp4 shuffledSum
  let upperHalf ← vectorGetElement64 tmp5 0
  vectorSetElement64 lowerHalf 1 upperHalf

def hashRound (w : Value) (xy : Value × Value) (index : BitVec 8) : Emit (Value × Value) := do
  let (x, y) := xy
  let lowX ← vectorGetElement32 x 0
  let afterLowX ← vectorGetElement32 x 1
  let beforeHighX ← vectorGetElement32 x 2
  let highX ← vectorGetElement32 x 3
  let lowY ← vectorGetElement32 y 0
  let afterLowY ← vectorGetElement32 y 1
  let beforeHighY ← vectorGetElement32 y 2
  let highY ← vectorGetElement32 y 3
  let choice ← shaChoose lowY afterLowY beforeHighY
  let majority ← shaMajority lowX afterLowX beforeHighX
  let wElement ← vectorGetElement32 w index
  let sigma1 ← shaHashSigma1 lowY
  let choicePlusW ← add32 choice wElement (.immU1 false)
  let inner ← add32 sigma1 choicePlusW (.immU1 false)
  let t ← add32 highY inner (.immU1 false)
  let sigma0 ← shaHashSigma0 lowX
  let sigma0PlusMajority ← add32 sigma0 majority (.immU1 false)
  let newLowX ← add32 t sigma0PlusMajority (.immU1 false)
  let newLowY ← add32 t highX (.immU1 false)
  let shuffledX ← vectorRotateWholeVectorRight x 96
  let shuffledY ← vectorRotateWholeVectorRight y 96
  let x ← vectorSetElement32 shuffledX 0 newLowX
  let y ← vectorSetElement32 shuffledY 0 newLowY
  pure (x, y)

def polyfillSha256Hash (x y w : Value) (part1 : Bool) : Emit Value := do
  let (x, y) ← [0, 1, 2, 3].foldlM (hashRound w) (x, y)
  pure (if part1 then x else y)

def polyfillVectorMultiplyWiden (esize : ESize) (signed : Bool) (n m : Value) : Emit Value := do
  let wideN ← (if signed then vectorSignExtend esize n else vectorZeroExtend esize n)
  let wideM ← (if signed then vectorSignExtend esize m else vectorZeroExtend esize m)
  vectorMultiplyDouble esize wideN wideM

/-! ### The pass -/

/-- `none` for a reference to an instruction that is still to come. -/
def remapValue (replacements : List Value) : Value → Option Value
  | .inst reference => replacements[reference]?
  | immediate => some immediate

/-- The expansion, if the options ask for one. A part selector that is no immediate fails. -/
def expansion (options : PolyfillOptions) (opcode : Opcode) (args : List Value) :
    Option (Option (Emit Value)) :=
  let arg k := args.getD k .void
  let widen esize signed := if options.vectorMultiplyWiden then
    some (some (polyfillVectorMultiplyWiden esize signed (arg 0) (arg 1))) else some none
  match opcode with
  | .sha256MessageSchedule0 =>
    if options.sha256 then some (some (polyfillSha256MessageSchedule0 (arg 0) (arg 1)))
    else some none
  | .sha256MessageSchedule1 =>
    if options.sha256 then some (some (polyfillSha256MessageSchedule1 (arg 0) (arg 1) (arg 2)))
    else some none
  | .sha256Hash =>
    if options.sha256 then
      match arg 3 with
      | .immU1 part1 => some (some (polyfillSha256Hash (arg 0) (arg 1) (arg 2) part1))
      | _ => none
    else some none
  | .vectorMultiplySignedWiden8 => widen .e8 true
  | .vectorMultiplySignedWiden16 => widen .e16 true
  | .vectorMultiplySignedWiden32 => widen .e32 true
  | .vectorMultiplyUnsignedWiden8 => widen .e8 false
  | .vectorMultiplyUnsignedWiden16 => widen .e16 false
  | .vectorMultiplyUnsignedWiden32 => widen .e32 false
  | _ => some none

def rebuildInst (options : PolyfillOptions) (state : Block × List Value) (inst : Inst) :
    Option (Block × List Value) :=
  if inst.isTombstone then some (state.1, state.2 ++ [.void])
  else do
    let args ← (inst.args.take inst.numArgs).mapM (remapValue state.2)
    let expanded ← expansion options inst.opcode args
    let (value, b) := (expanded.getD (emit inst.opcode args)).run state.1
    some (b, state.2 ++ [value])

/-- The rebuilt block and what stands for each instruction of the original one. -/
def rebuild (options : PolyfillOptions) (b : Block) : Option (Block × List Value) :=
  b.instructions.foldlM (rebuildInst options) (⟨[]⟩, [])

def polyfill (l : LinkedBlock) (options : PolyfillOptions) : Option LinkedBlock :=
  if options = .off then some l
  else do
    let (b, _) ← rebuild options l.block
    let b := b.recomputeUseCounts
    let next ← rebuildPseudoOpLinks b
    some ⟨b, next⟩

end Polyfill

end Ruzu.Ir
