import Mathlib
import Ruzu.Ir.Polyfill
import Ruzu.Ir.VectorMeaning

/-!
# What the expansions compute

Wherever the code that an emitter appends stands in a program, its result has
the value that the opcodes give it, and the state stays as it is.
-/

set_option autoImplicit false

namespace Ruzu.Ir

/-- The number of instructions that a value needs in front of it. -/
def Value.top : Value → ℕ
  | .inst r => r + 1
  | _ => 0

theorem Value.lt_of_top {v : Value} {n : ℕ} (h : v.top ≤ n) : ∀ r, v = .inst r → r < n := by
  rintro r rfl
  exact h

namespace Polyfill

open IREmitter Lanes

/-- The opcodes of the expansions. -/
def isExpansionOpcode : Opcode → Bool
  | .logicalShiftRight32 | .bitRotateRight32 | .add32 | .and32 | .eor32 | .or32 | .zeroVector
  | .vectorGetElement32 | .vectorGetElement64 | .vectorSetElement32 | .vectorSetElement64
  | .vectorAdd32 | .vectorEor | .vectorOr | .vectorZeroUpper | .vectorExtract
  | .vectorRotateWholeVectorRight | .vectorLogicalShiftLeft32 | .vectorLogicalShiftRight32
  | .vectorSignExtend8 | .vectorSignExtend16 | .vectorSignExtend32 | .vectorZeroExtend8
  | .vectorZeroExtend16 | .vectorZeroExtend32 | .vectorMultiply16 | .vectorMultiply32
  | .vectorMultiply64 => true
  | _ => false

section Means

variable {S : Type} (other : Machine S) (P : List Code) (s : S)

/-- The outcome of a value at the end of the program. -/
def outcome (v : Value) : Outcome := evalArg (runCode (vectorExec other) P s).1 v

def word (v : Value) : BitVec 32 := (outcome other P s v).value.w32

def dword (v : Value) : BitVec 64 := (outcome other P s v).value.w64

def vector (v : Value) : BitVec 128 := (outcome other P s v).value.v128

def stateAt (n : ℕ) : S := (reached (vectorExec other) P n s).2

/-- Behind `n` instructions the emitter leads to `Q`, at the length of the block by then, if
what it appends is in the program. It appends words and vectors alone. -/
def Means {α : Type} (e : Emit α) (n : ℕ) (Q : ℕ → α → Prop) : Prop :=
  ∀ b : Block, b.instructions.length = n → (e.run b).2.code <+: P →
    Q (e.run b).2.instructions.length (e.run b).1 ∧
      stateAt other P s (e.run b).2.instructions.length = stateAt other P s n ∧
      ∀ r, n ≤ r → r < (e.run b).2.instructions.length →
        ∃ c, P[r]? = some c ∧ isExpansionOpcode c.1 = true

variable {other P s} {α β : Type} {e : Emit α} {f : α → Emit β} {n : ℕ} {Q Q' : ℕ → α → Prop}
  {R : ℕ → β → Prop}

theorem length_le_of_code {b b' : Block} (h : b.code <+: b'.code) :
    b.instructions.length ≤ b'.instructions.length := by
  have := h.length_le
  rwa [Block.code, Block.code, List.length_map, List.length_map] at this

theorem Means.pure {a : α} (h : Q n a) : Means other P s (Pure.pure a) n Q := by
  intro b hb _
  rw [Emit.run_pure, hb]
  exact ⟨h, rfl, fun r hr hr' => absurd hr' (Nat.not_lt.mpr hr)⟩

theorem Means.bind (he : Means other P s e n Q)
    (hf : ∀ v k, n ≤ k → Q k v → Means other P s (f v) k R) :
    Means other P s (e >>= f) n R := by
  intro b hb hin
  rw [Emit.run_bind] at hin ⊢
  obtain ⟨hq, hstate, hops⟩ := he b hb (((f (e.run b).1).appends (e.run b).2).trans hin)
  have hle := length_le_of_code (e.appends b)
  obtain ⟨hr, hstate', hops'⟩ := hf _ _ (hb ▸ hle) hq (e.run b).2 rfl hin
  refine ⟨hr, hstate'.trans hstate, fun r hn hr => ?_⟩
  rcases Nat.lt_or_ge r (e.run b).2.instructions.length with hlt | hge
  · exact hops r hn hlt
  · exact hops' r hge hr

theorem Means.imp (he : Means other P s e n Q) (h : ∀ v k, n ≤ k → Q k v → Q' k v) :
    Means other P s e n Q' := by
  intro b hb hin
  obtain ⟨hq, hrest⟩ := he b hb hin
  exact ⟨h _ _ (hb ▸ length_le_of_code (e.appends b)) hq, hrest⟩

/-! ### One instruction -/

theorem length_append (b : Block) (opcode : Opcode) (args : List Value) :
    (b.append opcode args).instructions.length = b.instructions.length + 1 := by
  have := congrArg List.length (b.code_append opcode args)
  rwa [List.length_append, Block.code, Block.code, List.length_map, List.length_map] at this

/-- An instruction that only has a value. -/
theorem emit_means (opcode : Opcode) (args : List Value) {o : Outcome}
    (hargs : ∀ v ∈ args, v.top ≤ n)
    (hstep : ∀ s' : S, vectorExec other opcode
      ((args.take opcode.numArgs).map (outcome other P s)) s' = (o, s'))
    (hopcode : isExpansionOpcode opcode = true) : Means other P s (emit opcode args) n
      fun k v => (∃ r, v = .inst r ∧ n ≤ r ∧ r < k) ∧ outcome other P s v = o := by
  intro b hb hin
  have hat : P[n]? = some (opcode, args) := by
    obtain ⟨rest, hrest⟩ := hin
    rw [← hrest, show ((emit opcode args).run b).2 = b.append opcode args from rfl, b.code_append,
      List.append_assoc, List.getElem?_append_right (by rw [Block.code, List.length_map]; omega),
      Block.code, List.length_map, hb, Nat.sub_self]
    rfl
  have hlt := (List.getElem?_eq_some_iff.mp hat).1
  have hops : operands (reached (vectorExec other) P n s).1 (opcode, args) =
      (args.take opcode.numArgs).map (outcome other P s) := by
    refine List.map_congr_left fun v hv => ?_
    rw [outcome, ← reached_all, evalArg_reached (Nat.le_of_lt hlt) (Nat.le_of_lt hlt)
      (Value.lt_of_top (hargs v (List.mem_of_mem_take hv)))]
  have hlen : ((emit opcode args).run b).2.instructions.length = n + 1 := by
    rw [show ((emit opcode args).run b).2 = b.append opcode args from rfl, length_append, hb]
  rw [hlen]
  refine ⟨⟨⟨n, hb ▸ rfl, Nat.le_refl n, Nat.lt_succ_self n⟩, ?_⟩, ?_, fun r hr hr' => ?_⟩
  · rw [show ((emit opcode args).run b).1 = .inst b.instructions.length from rfl, hb, outcome,
      evalArg, runCode_getD hat, step, hops, hstep]
  · rw [stateAt, reached_succ hat, Ssa.next, step, hops, hstep]
    rfl
  · obtain rfl : r = n := by omega
    exact ⟨_, hat, hopcode⟩

theorem top_le {v : Value} {n k : ℕ} (h : ∃ r, v = .inst r ∧ n ≤ r ∧ r < k) : v.top ≤ k := by
  obtain ⟨r, rfl, -, hr⟩ := h
  exact hr

/-! ### The opcodes of the expansions -/

theorem args_one {x : Value} (hx : x.top ≤ n) : ∀ v ∈ [x], v.top ≤ n :=
  List.forall_mem_singleton.mpr hx

theorem args_two {x y : Value} (hx : x.top ≤ n) (hy : y.top ≤ n) : ∀ v ∈ [x, y], v.top ≤ n :=
  List.forall_mem_cons.mpr ⟨hx, args_one hy⟩

theorem args_three {x y z : Value} (hx : x.top ≤ n) (hy : y.top ≤ n) (hz : z.top ≤ n) :
    ∀ v ∈ [x, y, z], v.top ≤ n :=
  List.forall_mem_cons.mpr ⟨hx, args_two hy hz⟩

variable {x y z : Value} (hx : x.top ≤ n) (hy : y.top ≤ n)

section Words

include hx

theorem logicalShiftRight32_means (r : BitVec 8) : Means other P s
    (logicalShiftRight32 x (.immU8 r) (.immU1 false)) n fun k v =>
      v.top ≤ k ∧ word other P s v = word other P s x >>> r.toNat := by
  refine (emit_means .logicalShiftRight32 [x, .immU8 r, .immU1 false]
    (args_three hx (Nat.zero_le n) (Nat.zero_le n)) (fun _ => rfl) rfl).imp ?_
  rintro v k - ⟨hfresh, hv⟩
  exact ⟨top_le hfresh, by rw [word, hv]; rfl⟩

theorem rotateRight32_means (r : BitVec 8) : Means other P s
    (rotateRight32 x (.immU8 r) (.immU1 false)) n fun k v =>
      v.top ≤ k ∧ word other P s v = (word other P s x).rotateRight r.toNat := by
  refine (emit_means .bitRotateRight32 [x, .immU8 r, .immU1 false]
    (args_three hx (Nat.zero_le n) (Nat.zero_le n)) (fun _ => rfl) rfl).imp ?_
  rintro v k - ⟨hfresh, hv⟩
  exact ⟨top_le hfresh, by rw [word, hv]; rfl⟩

include hy

theorem add32_means : Means other P s (add32 x y (.immU1 false)) n fun k v =>
    v.top ≤ k ∧ word other P s v = word other P s x + word other P s y := by
  refine (emit_means .add32 [x, y, .immU1 false] (args_three hx hy (Nat.zero_le n))
    (fun _ => rfl) rfl).imp ?_
  rintro v k - ⟨hfresh, hv⟩
  refine ⟨top_le hfresh, ?_⟩
  rw [word, hv]
  exact BitVec.add_zero _

theorem and32_means : Means other P s (and32 x y) n fun k v =>
    v.top ≤ k ∧ word other P s v = word other P s x &&& word other P s y := by
  refine (emit_means .and32 [x, y] (args_two hx hy) (fun _ => rfl) rfl).imp ?_
  rintro v k - ⟨hfresh, hv⟩
  exact ⟨top_le hfresh, by rw [word, hv]; rfl⟩

theorem eor32_means : Means other P s (eor32 x y) n fun k v =>
    v.top ≤ k ∧ word other P s v = word other P s x ^^^ word other P s y := by
  refine (emit_means .eor32 [x, y] (args_two hx hy) (fun _ => rfl) rfl).imp ?_
  rintro v k - ⟨hfresh, hv⟩
  exact ⟨top_le hfresh, by rw [word, hv]; rfl⟩

theorem or32_means : Means other P s (or32 x y) n fun k v =>
    v.top ≤ k ∧ word other P s v = word other P s x ||| word other P s y := by
  refine (emit_means .or32 [x, y] (args_two hx hy) (fun _ => rfl) rfl).imp ?_
  rintro v k - ⟨hfresh, hv⟩
  exact ⟨top_le hfresh, by rw [word, hv]; rfl⟩

end Words

/-- The value is a vector that was made behind `n` instructions, with no flags to read off it. -/
def IsVector (other : Machine S) (P : List Code) (s : S) (n : ℕ) (a : BitVec 128) (k : ℕ)
    (v : Value) : Prop :=
  (∃ r, v = .inst r ∧ n ≤ r ∧ r < k) ∧ outcome other P s v = .plain (.u128 a)

section IsVector

variable {a : BitVec 128} {k : ℕ} {v : Value}

theorem IsVector.eq (h : IsVector other P s n a k v) : vector other P s v = a := by
  rw [vector, h.2]
  rfl

theorem IsVector.top (h : IsVector other P s n a k v) : v.top ≤ k := top_le h.1

theorem IsVector.weaken {n' k' : ℕ} (h : IsVector other P s n a k v) (hn : n' ≤ n) (hk : k ≤ k') :
    IsVector other P s n' a k' v := by
  obtain ⟨⟨r, hv, hr, hrk⟩, hout⟩ := h
  exact ⟨⟨r, hv, hn.trans hr, Nat.lt_of_lt_of_le hrk hk⟩, hout⟩

theorem Means.isVector {e : Emit Value} {n' : ℕ} (h : Means other P s e n (IsVector other P s n a))
    (hn : n' ≤ n) : Means other P s e n (IsVector other P s n' a) :=
  h.imp fun _ _ _ hv => hv.weaken hn (Nat.le_refl _)

end IsVector

theorem zeroVector_means : Means other P s zeroVector n (IsVector other P s n 0) :=
  emit_means .zeroVector [] nofun (fun _ => rfl) rfl

section Vectors

include hx

theorem vectorGetElement32_means (i : BitVec 8) : Means other P s (vectorGetElement32 x i) n
    fun k v => v.top ≤ k ∧ word other P s v = lane 32 i.toNat (vector other P s x) := by
  refine (emit_means .vectorGetElement32 [x, .immU8 i] (args_two hx (Nat.zero_le n))
    (fun _ => rfl) rfl).imp ?_
  rintro v k - ⟨hfresh, hv⟩
  exact ⟨top_le hfresh, by rw [word, hv]; rfl⟩

theorem vectorGetElement64_means (i : BitVec 8) : Means other P s (vectorGetElement64 x i) n
    fun k v => v.top ≤ k ∧ dword other P s v = lane 64 i.toNat (vector other P s x) := by
  refine (emit_means .vectorGetElement64 [x, .immU8 i] (args_two hx (Nat.zero_le n))
    (fun _ => rfl) rfl).imp ?_
  rintro v k - ⟨hfresh, hv⟩
  exact ⟨top_le hfresh, by rw [dword, hv]; rfl⟩

theorem vectorZeroUpper_means : Means other P s (vectorZeroUpper x) n
    (IsVector other P s n (0#64 ++ (vector other P s x).extractLsb' 0 64)) :=
  emit_means .vectorZeroUpper [x] (args_one hx) (fun _ => rfl) rfl

theorem vectorRotateWholeVectorRight_means (r : BitVec 8) :
    Means other P s (vectorRotateWholeVectorRight x r) n
      (IsVector other P s n ((vector other P s x).rotateRight r.toNat)) :=
  emit_means .vectorRotateWholeVectorRight [x, .immU8 r] (args_two hx (Nat.zero_le n))
    (fun _ => rfl) rfl

theorem vectorLogicalShiftLeft32_means (r : BitVec 8) :
    Means other P s (vectorLogicalShiftLeft32 x r) n
      (IsVector other P s n (lanewise 32 (· <<< r.toNat) (vector other P s x))) :=
  emit_means .vectorLogicalShiftLeft32 [x, .immU8 r] (args_two hx (Nat.zero_le n))
    (fun _ => rfl) rfl

theorem vectorLogicalShiftRight32_means (r : BitVec 8) :
    Means other P s (vectorLogicalShiftRight32 x r) n
      (IsVector other P s n (lanewise 32 (· >>> r.toNat) (vector other P s x))) :=
  emit_means .vectorLogicalShiftRight32 [x, .immU8 r] (args_two hx (Nat.zero_le n))
    (fun _ => rfl) rfl

include hy

theorem vectorSetElement32_means (i : BitVec 8) : Means other P s (vectorSetElement32 x i y) n
    (IsVector other P s n (setLane i.toNat (vector other P s x) (word other P s y))) :=
  emit_means .vectorSetElement32 [x, .immU8 i, y] (args_three hx (Nat.zero_le n) hy)
    (fun _ => rfl) rfl

theorem vectorSetElement64_means (i : BitVec 8) : Means other P s (vectorSetElement64 x i y) n
    (IsVector other P s n (setLane i.toNat (vector other P s x) (dword other P s y))) :=
  emit_means .vectorSetElement64 [x, .immU8 i, y] (args_three hx (Nat.zero_le n) hy)
    (fun _ => rfl) rfl

theorem vectorAdd32_means : Means other P s (vectorAdd32 x y) n
    (IsVector other P s n (lanewise₂ 32 (· + ·) (vector other P s x) (vector other P s y))) :=
  emit_means .vectorAdd32 [x, y] (args_two hx hy) (fun _ => rfl) rfl

theorem vectorEor_means : Means other P s (vectorEor x y) n
    (IsVector other P s n (vector other P s x ^^^ vector other P s y)) :=
  emit_means .vectorEor [x, y] (args_two hx hy) (fun _ => rfl) rfl

theorem vectorOr_means : Means other P s (vectorOr x y) n
    (IsVector other P s n (vector other P s x ||| vector other P s y)) :=
  emit_means .vectorOr [x, y] (args_two hx hy) (fun _ => rfl) rfl

theorem vectorExtract_means (r : BitVec 8) : Means other P s (vectorExtract x y r) n
    (IsVector other P s n
      ((vector other P s y ++ vector other P s x).extractLsb' r.toNat 128)) :=
  emit_means .vectorExtract [x, y, .immU8 r] (args_three hx hy (Nat.zero_le n)) (fun _ => rfl) rfl

end Vectors


/-! ### Words of the hash -/

include hx hy in
theorem shaChoose_means (hz : z.top ≤ n) : Means other P s (shaChoose x y z) n fun k v =>
    v.top ≤ k ∧ word other P s v =
      Arm.shaChoose (word other P s x) (word other P s y) (word other P s z) := by
  refine (eor32_means hy hz).bind fun yz k₁ hk₁ ⟨hyz, heor⟩ => ?_
  refine (and32_means hyz (hx.trans hk₁)).bind fun selected k₂ hk₂ ⟨hselected, hand⟩ => ?_
  refine (eor32_means hselected (hz.trans (hk₁.trans hk₂))).imp fun v k _ ⟨hv, hout⟩ => ⟨hv, ?_⟩
  rw [hout, hand, heor, Arm.shaChoose]

include hx hy in
theorem shaMajority_means (hz : z.top ≤ n) : Means other P s (shaMajority x y z) n fun k v =>
    v.top ≤ k ∧ word other P s v =
      Arm.shaMajority (word other P s x) (word other P s y) (word other P s z) := by
  refine (and32_means hx hy).bind fun xy k₁ hk₁ ⟨hxy, hand⟩ => ?_
  refine (or32_means (hx.trans hk₁) (hy.trans hk₁)).bind fun xOrY k₂ hk₂ ⟨hxOrY, hor⟩ => ?_
  refine (and32_means hxOrY (hz.trans (hk₁.trans hk₂))).bind
    fun remaining k₃ hk₃ ⟨hremaining, hand'⟩ => ?_
  refine (or32_means (hxy.trans (hk₂.trans hk₃)) hremaining).imp fun v k _ ⟨hv, hout⟩ => ⟨hv, ?_⟩
  rw [hout, hand, hand', hor, Arm.shaMajority]

include hx in
theorem shaHashSigma_means (r₁ r₂ r₃ : BitVec 8) :
    Means other P s (shaHashSigma x r₁ r₂ r₃) n fun k v => v.top ≤ k ∧ word other P s v =
      (word other P s x).rotateRight r₁.toNat ^^^ (word other P s x).rotateRight r₂.toNat ^^^
        (word other P s x).rotateRight r₃.toNat := by
  refine (rotateRight32_means hx r₁).bind fun tmp1 k₁ hk₁ ⟨h₁, hv₁⟩ => ?_
  refine (rotateRight32_means (hx.trans hk₁) r₂).bind fun tmp2 k₂ hk₂ ⟨h₂, hv₂⟩ => ?_
  refine (rotateRight32_means (hx.trans (hk₁.trans hk₂)) r₃).bind fun tmp3 k₃ hk₃ ⟨h₃, hv₃⟩ => ?_
  refine (eor32_means (h₂.trans hk₃) h₃).bind fun tail k₄ hk₄ ⟨h₄, hv₄⟩ => ?_
  refine (eor32_means (h₁.trans (hk₂.trans (hk₃.trans hk₄))) h₄).imp fun v k _ ⟨hv, hout⟩ =>
    ⟨hv, ?_⟩
  rw [hout, hv₄, hv₁, hv₂, hv₃, BitVec.xor_assoc]

/-! ### Message schedule -/

/-- Every round brings the value on by a step of `g`. -/
theorem Means.foldlM {γ δ : Type} {step : β → γ → Emit β} {g : δ → γ → δ} {I J : δ → ℕ → β → Prop}
    (hweak : ∀ a k v, J a k v → I a k v)
    (hstep : ∀ a c k v, n ≤ k → I a k v → Means other P s (step v c) k (J (g a c)))
    (cs : List γ) (c : γ) {a : δ} {v : β} (hv : I a n v) :
    Means other P s ((c :: cs).foldlM step v) n (J ((c :: cs).foldl g a)) := by
  induction cs generalizing c a v n with
  | nil => exact (hstep a c n v (Nat.le_refl n) hv).bind fun v' k _ hv' => Means.pure hv'
  | cons d cs ih =>
    refine (hstep a c n v (Nat.le_refl n) hv).bind fun v' k hk hv' => ?_
    exact ih (fun a c k' v hk' => hstep a c k' v (hk.trans hk')) d (hweak _ _ _ hv')

/-- One word of the first schedule. -/
def scheduleWord (elt : BitVec 32) : BitVec 32 :=
  elt.rotateRight 7 ^^^ elt.rotateRight 18 ^^^ elt >>> 3

def scheduleStep (t result : BitVec 128) (i : BitVec 8) : BitVec 128 :=
  setLane i.toNat result (scheduleWord (lane 32 i.toNat t))

include hx hy in
theorem messageSchedule0Element_means (i : BitVec 8) :
    Means other P s (messageSchedule0Element x y i) n (IsVector other P s n
      (scheduleStep (vector other P s x) (vector other P s y) i)) := by
  refine (vectorGetElement32_means hx i).bind fun element k₀ hk₀ ⟨h₀, hv₀⟩ => ?_
  refine (rotateRight32_means h₀ 7).bind fun tmp1 k₁ hk₁ ⟨h₁, hv₁⟩ => ?_
  refine (rotateRight32_means (h₀.trans hk₁) 18).bind fun tmp2 k₂ hk₂ ⟨h₂, hv₂⟩ => ?_
  refine (logicalShiftRight32_means (h₀.trans (hk₁.trans hk₂)) 3).bind
    fun tmp3 k₃ hk₃ ⟨h₃, hv₃⟩ => ?_
  refine (eor32_means (h₂.trans hk₃) h₃).bind fun tail k₄ hk₄ ⟨h₄, hv₄⟩ => ?_
  refine (eor32_means (h₁.trans (hk₂.trans (hk₃.trans hk₄))) h₄).bind
    fun modified k₅ hk₅ ⟨h₅, hv₅⟩ => ?_
  have hmodified : word other P s modified =
      scheduleWord (lane 32 i.toNat (vector other P s x)) := by
    rw [hv₅, hv₄, hv₁, hv₂, hv₃, hv₀, ← BitVec.xor_assoc]
    rfl
  rw [scheduleStep, ← hmodified]
  have hk := hk₀.trans (hk₁.trans (hk₂.trans (hk₃.trans (hk₄.trans hk₅))))
  exact (vectorSetElement32_means (hy.trans hk) h₅ i).isVector hk

include hx hy in
theorem messageSchedule0_means : Means other P s (polyfillSha256MessageSchedule0 x y) n
    (IsVector other P s n (lanewise₂ 32 (· + ·)
      ([0, 1, 2, 3].foldl
        (scheduleStep ((vector other P s y ++ vector other P s x).extractLsb' 32 128)) 0)
      (vector other P s x))) := by
  refine (vectorExtract_means hx hy 32).bind fun t k₁ hk₁ ht => ?_
  refine zeroVector_means.bind fun zero k₂ hk₂ hzero => ?_
  have hstep : ∀ a i k v, k₂ ≤ k → IsVector other P s k₁ a k v →
      Means other P s (messageSchedule0Element t v i) k (IsVector other P s k₁
        (scheduleStep ((vector other P s y ++ vector other P s x).extractLsb' 32 128) a i)) := by
    intro a i k v hk hv
    have hextract : vector other P s t =
        (vector other P s y ++ vector other P s x).extractLsb' 32 128 := ht.eq
    rw [← hv.eq, ← hextract]
    exact (messageSchedule0Element_means (ht.top.trans (hk₂.trans hk)) hv.top i).isVector
      (hk₂.trans hk)
  refine (Means.foldlM (fun _ _ _ h => h) hstep [1, 2, 3] 0 hzero).bind
    fun result k₃ hk₃ hresult => ?_
  rw [← hresult.eq]
  exact (vectorAdd32_means hresult.top (hx.trans (hk₁.trans (hk₂.trans hk₃)))).isVector
    (hk₁.trans (hk₂.trans hk₃))

include hx in
theorem vectorRotateRight32_means {r : BitVec 8} (hr : r ≠ 0) :
    Means other P s (vectorRotateRight32 x r) n (IsVector other P s n
      (lanewise 32 (· >>> r.toNat) (vector other P s x) |||
        lanewise 32 (· <<< (32 - r).toNat) (vector other P s x))) := by
  rw [vectorRotateRight32, if_neg hr]
  refine (vectorLogicalShiftRight32_means hx r).bind fun right k₁ hk₁ hright => ?_
  refine (vectorLogicalShiftLeft32_means (hx.trans hk₁) (32 - r)).bind fun left k₂ hk₂ hleft => ?_
  rw [← hright.eq, ← hleft.eq]
  exact (vectorOr_means (hright.top.trans hk₂) hleft.top).isVector (hk₁.trans hk₂)

/-- The words that the second schedule mixes, as the opcodes compute them. -/
def mixed (a : BitVec 128) : BitVec 128 :=
  (lanewise 32 (· >>> 17) a ||| lanewise 32 (· <<< 15) a) ^^^
    ((lanewise 32 (· >>> 19) a ||| lanewise 32 (· <<< 13) a) ^^^ lanewise 32 (· >>> 10) a)

include hx in
theorem messageSchedule1Mix_means : Means other P s (messageSchedule1Mix x) n
    (IsVector other P s n (mixed (vector other P s x))) := by
  refine (vectorRotateRight32_means hx (by decide)).bind fun tmp1 k₁ hk₁ h₁ => ?_
  refine (vectorRotateRight32_means (hx.trans hk₁) (by decide)).bind fun tmp2 k₂ hk₂ h₂ => ?_
  refine (vectorLogicalShiftRight32_means (hx.trans (hk₁.trans hk₂)) 10).bind
    fun tmp3 k₃ hk₃ h₃ => ?_
  refine (vectorEor_means (h₂.top.trans hk₃) h₃.top).bind fun tail k₄ hk₄ h₄ => ?_
  have hmixed : mixed (vector other P s x) = vector other P s tmp1 ^^^ vector other P s tail := by
    rw [h₁.eq, h₄.eq, h₂.eq, h₃.eq]
    rfl
  rw [hmixed]
  exact (vectorEor_means (h₁.top.trans (hk₂.trans (hk₃.trans hk₄))) h₄.top).isVector
    (hk₁.trans (hk₂.trans (hk₃.trans hk₄)))


/-- The second schedule, as the opcodes compute it. -/
def schedule1 (x y z : BitVec 128) : BitVec 128 :=
  let t0 := (z ++ y).extractLsb' 32 128
  let lowerHalf := 0#64 ++ (lanewise₂ 32 (· + ·) (mixed (z.rotateRight 64))
    (lanewise₂ 32 (· + ·) x t0)).extractLsb' 0 64
  let upper := lanewise₂ 32 (· + ·) (mixed lowerHalf)
    (lanewise₂ 32 (· + ·) (x.rotateRight 64) (t0.rotateRight 64))
  setLane 1 lowerHalf (lane 64 0 upper)

include hx hy in
theorem messageSchedule1_means (hz : z.top ≤ n) :
    Means other P s (polyfillSha256MessageSchedule1 x y z) n (IsVector other P s n
      (schedule1 (vector other P s x) (vector other P s y) (vector other P s z))) := by
  refine (vectorExtract_means hy hz 32).bind fun t0 k₁ hk₁ h₁ => ?_
  refine (vectorRotateWholeVectorRight_means (hz.trans hk₁) 64).bind fun t k₂ hk₂ h₂ => ?_
  refine (messageSchedule1Mix_means h₂.top).bind fun tmp4 k₃ hk₃ h₃ => ?_
  have ht0 := h₁.top.trans (hk₂.trans hk₃)
  have hx₃ := hx.trans (hk₁.trans (hk₂.trans hk₃))
  refine (vectorAdd32_means hx₃ ht0).bind fun xPlusT0 k₄ hk₄ h₄ => ?_
  refine (vectorAdd32_means (h₃.top.trans hk₄) h₄.top).bind fun tmp5 k₅ hk₅ h₅ => ?_
  refine (vectorZeroUpper_means h₅.top).bind fun lowerHalf k₆ hk₆ h₆ => ?_
  refine (messageSchedule1Mix_means h₆.top).bind fun tmp4' k₇ hk₇ h₇ => ?_
  have hk₃₇ := hk₄.trans (hk₅.trans (hk₆.trans hk₇))
  refine (vectorRotateWholeVectorRight_means (hx₃.trans hk₃₇) 64).bind
    fun shuffledX k₈ hk₈ h₈ => ?_
  refine (vectorRotateWholeVectorRight_means (ht0.trans (hk₃₇.trans hk₈)) 64).bind
    fun shuffledT0 k₉ hk₉ h₉ => ?_
  refine (vectorAdd32_means (h₈.top.trans hk₉) h₉.top).bind fun shuffledSum k₁₀ hk₁₀ h₁₀ => ?_
  refine (vectorAdd32_means (h₇.top.trans (hk₈.trans (hk₉.trans hk₁₀))) h₁₀.top).bind
    fun tmp5' k₁₁ hk₁₁ h₁₁ => ?_
  refine (vectorGetElement64_means h₁₁.top 0).bind fun upperHalf k₁₂ hk₁₂ ⟨htop, hupper⟩ => ?_
  have hresult : schedule1 (vector other P s x) (vector other P s y) (vector other P s z) =
      setLane 1 (vector other P s lowerHalf) (dword other P s upperHalf) := by
    rw [hupper, h₁₁.eq, h₁₀.eq, h₉.eq, h₈.eq, h₇.eq, h₆.eq, h₅.eq, h₄.eq, h₃.eq, h₂.eq, h₁.eq]
    rfl
  rw [hresult]
  have hk₆₁₂ := hk₇.trans (hk₈.trans (hk₉.trans (hk₁₀.trans (hk₁₁.trans hk₁₂))))
  exact (vectorSetElement64_means (h₆.top.trans hk₆₁₂) htop 1).isVector
    (hk₁.trans (hk₂.trans (hk₃.trans (hk₄.trans (hk₅.trans (hk₆.trans hk₆₁₂))))))

/-! ### Hash -/

/-- A round of the hash, as the opcodes compute it. -/
def hashRoundOf (w : BitVec 128) (xy : BitVec 128 × BitVec 128) (index : ℕ) :
    BitVec 128 × BitVec 128 :=
  let (x, y) := xy
  let t := lane 32 3 y + (Arm.shaHashSigma1 (lane 32 0 y) +
    (Arm.shaChoose (lane 32 0 y) (lane 32 1 y) (lane 32 2 y) + lane 32 index w))
  (setLane 0 (x.rotateRight 96) (t + (Arm.shaHashSigma0 (lane 32 0 x) +
      Arm.shaMajority (lane 32 0 x) (lane 32 1 x) (lane 32 2 x))),
    setLane 0 (y.rotateRight 96) (t + lane 32 3 x))

/-- Both values are the vectors. -/
def IsPair (other : Machine S) (P : List Code) (s : S) (n : ℕ) (xy : BitVec 128 × BitVec 128)
    (k : ℕ) (v : Value × Value) : Prop :=
  IsVector other P s n xy.1 k v.1 ∧ IsVector other P s n xy.2 k v.2

include hx hy in
theorem hashRound_means (hz : z.top ≤ n) (index : BitVec 8) :
    Means other P s (hashRound z (x, y) index) n (IsPair other P s n (hashRoundOf
      (vector other P s z) (vector other P s x, vector other P s y) index.toNat)) := by
  refine (vectorGetElement32_means hx 0).bind fun lowX k₁ hk₁ ⟨h₁, lowX_eq⟩ => ?_
  refine (vectorGetElement32_means (by omega) 1).bind fun afterLowX k₂ hk₂ ⟨h₂, afterLowX_eq⟩ => ?_
  refine (vectorGetElement32_means (by omega) 2).bind
    fun beforeHighX k₃ hk₃ ⟨h₃, beforeHighX_eq⟩ => ?_
  refine (vectorGetElement32_means (by omega) 3).bind fun highX k₄ hk₄ ⟨h₄, highX_eq⟩ => ?_
  refine (vectorGetElement32_means (by omega) 0).bind fun lowY k₅ hk₅ ⟨h₅, lowY_eq⟩ => ?_
  refine (vectorGetElement32_means (by omega) 1).bind fun afterLowY k₆ hk₆ ⟨h₆, afterLowY_eq⟩ => ?_
  refine (vectorGetElement32_means (by omega) 2).bind
    fun beforeHighY k₇ hk₇ ⟨h₇, beforeHighY_eq⟩ => ?_
  refine (vectorGetElement32_means (by omega) 3).bind fun highY k₈ hk₈ ⟨h₈, highY_eq⟩ => ?_
  refine (shaChoose_means (by omega) (by omega) (by omega)).bind
    fun choice k₉ hk₉ ⟨h₉, choice_eq⟩ => ?_
  refine (shaMajority_means (by omega) (by omega) (by omega)).bind
    fun majority k₁₀ hk₁₀ ⟨h₁₀, majority_eq⟩ => ?_
  refine (vectorGetElement32_means (by omega) index).bind
    fun wElement k₁₁ hk₁₁ ⟨h₁₁, wElement_eq⟩ => ?_
  refine (shaHashSigma_means (by omega) 6 11 25).bind fun sigma1 k₁₂ hk₁₂ ⟨h₁₂, sigma1_eq⟩ => ?_
  refine (add32_means (by omega) (by omega)).bind fun choicePlusW k₁₃ hk₁₃ ⟨h₁₃, cw_eq⟩ => ?_
  refine (add32_means (by omega) (by omega)).bind fun inner k₁₄ hk₁₄ ⟨h₁₄, inner_eq⟩ => ?_
  refine (add32_means (by omega) (by omega)).bind fun t k₁₅ hk₁₅ ⟨h₁₅, t_eq⟩ => ?_
  refine (shaHashSigma_means (by omega) 2 13 22).bind fun sigma0 k₁₆ hk₁₆ ⟨h₁₆, sigma0_eq⟩ => ?_
  refine (add32_means (by omega) (by omega)).bind fun sum k₁₇ hk₁₇ ⟨h₁₇, sum_eq⟩ => ?_
  refine (add32_means (by omega) (by omega)).bind fun newLowX k₁₈ hk₁₈ ⟨h₁₈, newLowX_eq⟩ => ?_
  refine (add32_means (by omega) (by omega)).bind fun newLowY k₁₉ hk₁₉ ⟨h₁₉, newLowY_eq⟩ => ?_
  refine (vectorRotateWholeVectorRight_means (by omega) 96).bind
    fun shuffledX k₂₀ hk₂₀ hshuffledX => ?_
  refine (vectorRotateWholeVectorRight_means (by omega) 96).bind
    fun shuffledY k₂₁ hk₂₁ hshuffledY => ?_
  have h₂₀ := hshuffledX.top
  have h₂₁ := hshuffledY.top
  refine (vectorSetElement32_means (by omega) (by omega) 0).bind fun x' k₂₂ hk₂₂ hx' => ?_
  refine (vectorSetElement32_means (by omega) (by omega) 0).bind fun y' k₂₃ hk₂₃ hy' => ?_
  have hround : hashRoundOf (vector other P s z) (vector other P s x, vector other P s y)
      index.toNat = (setLane 0 (vector other P s shuffledX) (word other P s newLowX),
        setLane 0 (vector other P s shuffledY) (word other P s newLowY)) := by
    rw [newLowX_eq, newLowY_eq, sum_eq, sigma0_eq, t_eq, inner_eq, cw_eq, sigma1_eq, wElement_eq,
      majority_eq, choice_eq, highY_eq, beforeHighY_eq, afterLowY_eq, lowY_eq, highX_eq,
      beforeHighX_eq, afterLowX_eq, lowX_eq, hshuffledX.eq, hshuffledY.eq]
    rfl
  rw [hround]
  exact Means.pure ⟨hx'.weaken (by omega) hk₂₃, hy'.weaken (by omega) (Nat.le_refl _)⟩


def HasPair (other : Machine S) (P : List Code) (s : S) (xy : BitVec 128 × BitVec 128) (k : ℕ)
    (v : Value × Value) : Prop :=
  (v.1.top ≤ k ∧ vector other P s v.1 = xy.1) ∧ (v.2.top ≤ k ∧ vector other P s v.2 = xy.2)

theorem IsPair.hasPair {xy : BitVec 128 × BitVec 128} {k : ℕ} {v : Value × Value}
    (h : IsPair other P s n xy k v) : HasPair other P s xy k v :=
  ⟨⟨h.1.top, h.1.eq⟩, ⟨h.2.top, h.2.eq⟩⟩

include hx hy in
theorem sha256Hash_means (hz : z.top ≤ n) (part1 : Bool) :
    Means other P s (polyfillSha256Hash x y z part1) n (IsVector other P s n
      (let (x', y') := [0, 1, 2, 3].foldl (fun xy (i : BitVec 8) =>
        hashRoundOf (vector other P s z) xy i.toNat) (vector other P s x, vector other P s y)
      if part1 then x' else y')) := by
  -- the operands may have flags to read off them, the results of a round have none
  have hstart : HasPair other P s (vector other P s x, vector other P s y) n (x, y) :=
    ⟨⟨hx, rfl⟩, ⟨hy, rfl⟩⟩
  have hstep : ∀ xy (i : BitVec 8) k v, n ≤ k → HasPair other P s xy k v →
      Means other P s (hashRound z v i) k
        (IsPair other P s n (hashRoundOf (vector other P s z) xy i.toNat)) := by
    rintro ⟨_, _⟩ i k ⟨x', y'⟩ hk ⟨⟨hx', rfl⟩, ⟨hy', rfl⟩⟩
    exact (hashRound_means hx' hy' (hz.trans hk) i).imp fun v k' _ hv =>
      ⟨hv.1.weaken hk (Nat.le_refl _), hv.2.weaken hk (Nat.le_refl _)⟩
  refine (Means.foldlM (fun _ _ _ h => h.hasPair) hstep [1, 2, 3] 0 hstart).bind
    fun v k _ hv => Means.pure ?_
  cases part1 with
  | true => exact hv.1
  | false => exact hv.2

/-! ### Widening products -/

include hx in
theorem vectorSignExtend_means (esize : ESize) : Means other P s (vectorSignExtend esize x) n
    (IsVector other P s n (extendLanes esize.bits (·.signExtend (2 * esize.bits))
      (vector other P s x))) := by
  cases esize with
  | e8 => exact emit_means .vectorSignExtend8 [x] (args_one hx) (fun _ => rfl) rfl
  | e16 => exact emit_means .vectorSignExtend16 [x] (args_one hx) (fun _ => rfl) rfl
  | e32 => exact emit_means .vectorSignExtend32 [x] (args_one hx) (fun _ => rfl) rfl

include hx in
theorem vectorZeroExtend_means (esize : ESize) : Means other P s (vectorZeroExtend esize x) n
    (IsVector other P s n (extendLanes esize.bits (·.setWidth (2 * esize.bits))
      (vector other P s x))) := by
  cases esize with
  | e8 => exact emit_means .vectorZeroExtend8 [x] (args_one hx) (fun _ => rfl) rfl
  | e16 => exact emit_means .vectorZeroExtend16 [x] (args_one hx) (fun _ => rfl) rfl
  | e32 => exact emit_means .vectorZeroExtend32 [x] (args_one hx) (fun _ => rfl) rfl

include hx hy in
theorem vectorMultiplyDouble_means (esize : ESize) :
    Means other P s (vectorMultiplyDouble esize x y) n (IsVector other P s n
      (lanewise₂ (2 * esize.bits) (· * ·) (vector other P s x) (vector other P s y))) := by
  cases esize with
  | e8 => exact emit_means .vectorMultiply16 [x, y] (args_two hx hy) (fun _ => rfl) rfl
  | e16 => exact emit_means .vectorMultiply32 [x, y] (args_two hx hy) (fun _ => rfl) rfl
  | e32 => exact emit_means .vectorMultiply64 [x, y] (args_two hx hy) (fun _ => rfl) rfl

/-- The extension of elements. -/
def extendOf (signed : Bool) (w : ℕ) (v : BitVec w) : BitVec (2 * w) :=
  if signed then v.signExtend (2 * w) else v.setWidth (2 * w)

include hx in
theorem extend_means (esize : ESize) (signed : Bool) :
    Means other P s (if signed then vectorSignExtend esize x else vectorZeroExtend esize x) n
      (IsVector other P s n (extendLanes esize.bits (extendOf signed esize.bits)
        (vector other P s x))) := by
  cases signed with
  | true => exact vectorSignExtend_means hx esize
  | false => exact vectorZeroExtend_means hx esize

include hx hy in
theorem vectorMultiplyWiden_means (esize : ESize) (signed : Bool) :
    Means other P s (polyfillVectorMultiplyWiden esize signed x y) n (IsVector other P s n
      (lanewise₂ (2 * esize.bits) (· * ·)
        (extendLanes esize.bits (extendOf signed esize.bits) (vector other P s x))
        (extendLanes esize.bits (extendOf signed esize.bits) (vector other P s y)))) := by
  refine (extend_means hx esize signed).bind fun wideN k₁ hk₁ h₁ => ?_
  refine (extend_means (hy.trans hk₁) esize signed).bind fun wideM k₂ hk₂ h₂ => ?_
  rw [← h₁.eq, ← h₂.eq]
  exact (vectorMultiplyDouble_means (h₁.top.trans hk₂) h₂.top esize).isVector (hk₁.trans hk₂)


end Means

end Polyfill

end Ruzu.Ir
