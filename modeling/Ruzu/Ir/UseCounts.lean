import Mathlib
import Ruzu.Ir.Run

/-!
# Use counts

A use count is exact when it is the number of references to the instruction in
the code. Edits that take away some references, add others and count both keep
the counts exact.
-/

set_option autoImplicit false

namespace Ruzu.Ir

/-- The instructions that the code refers to. -/
def Code.refs (c : Code) : List ℕ := (c.2.take c.1.numArgs).filterMap Value.ref

/-- How often the code refers to instruction `k`. -/
def uses (cs : List Code) (k : ℕ) : ℕ := (cs.flatMap Code.refs).count k

theorem uses_append (cs ds : List Code) (k : ℕ) : uses (cs ++ ds) k = uses cs k + uses ds k := by
  rw [uses, List.flatMap_append, List.count_append]
  rfl

theorem uses_cons (c : Code) (cs : List Code) (k : ℕ) :
    uses (c::cs) k = c.refs.count k + uses cs k := by
  rw [uses, List.flatMap_cons, List.count_append]
  rfl

theorem uses_set {cs : List Code} {i : ℕ} {c : Code} (hc : cs[i]? = some c) (c' : Code) (k : ℕ) :
    uses (cs.set i c') k + c.refs.count k = uses cs k + c'.refs.count k := by
  obtain ⟨hi, rfl⟩ := List.getElem?_eq_some_iff.mp hc
  have hcut : cs = cs.take i ++ cs[i]::cs.drop (i+1) := by
    rw [← List.drop_eq_getElem_cons hi, List.take_append_drop]
  rw [List.set_eq_take_append_cons_drop, if_pos hi]
  conv_rhs => rw [hcut]
  simp only [uses_append, uses_cons]
  omega

theorem count_le_uses {cs : List Code} {i : ℕ} {c : Code} (hc : cs[i]? = some c) (k : ℕ) :
    c.refs.count k ≤ uses cs k := by
  have h := uses_set hc (.void, []) k
  have hvoid : Code.refs (.void, []) = [] := rfl
  rw [hvoid, List.count_nil] at h
  omega

theorem uses_pos_iff {cs : List Code} {k : ℕ} :
    0 < uses cs k ↔ ∃ (j : ℕ) (c : Code), cs[j]? = some c ∧ k ∈ c.refs := by
  rw [uses, List.count_pos_iff, List.mem_flatMap]
  constructor
  · rintro ⟨c, hc, hk⟩
    obtain ⟨j, hj⟩ := List.getElem?_of_mem hc
    exact ⟨j, c, hj, hk⟩
  · rintro ⟨j, c, hj, hk⟩
    exact ⟨c, List.mem_of_getElem? hj, hk⟩

theorem Code.mem_refs {c : Code} {k : ℕ} :
    k ∈ c.refs ↔ Value.inst k ∈ c.2.take c.1.numArgs := by
  rw [Code.refs, List.mem_filterMap]
  constructor
  · rintro ⟨v, hv, hk⟩
    cases v with
    | inst r =>
      obtain rfl := Option.some.inj hk
      exact hv
    | _ => cases hk
  · exact fun h => ⟨_, h, rfl⟩

theorem count_refs_set {op : Opcode} {args : List Value} {a : ℕ} (ha : a < op.numArgs) {v : Value}
    (hv : args[a]? = some v) (w : Value) (k : ℕ) :
    (Code.refs (op, args.set a w)).count k + v.ref.toList.count k =
      (Code.refs (op, args)).count k + w.ref.toList.count k := by
  obtain ⟨hlt, rfl⟩ := List.getElem?_eq_some_iff.mp hv
  have hone (u : Value) (l : List Value) : ((u::l).filterMap Value.ref).count k =
      u.ref.toList.count k + (l.filterMap Value.ref).count k := by
    rw [List.filterMap_cons]
    cases u <;> simp [Value.ref, List.count_cons, Nat.add_comm]
  have hcut : args.take op.numArgs =
      args.take a ++ args[a]::(args.drop (a+1)).take (op.numArgs - (a+1)) := by
    conv_lhs => rw [← List.take_append_drop a args, List.drop_eq_getElem_cons hlt]
    rw [List.take_append, List.length_take_of_le (Nat.le_of_lt hlt), List.take_take,
      Nat.min_eq_right (Nat.le_of_lt ha)]
    obtain ⟨n, hn⟩ := Nat.exists_eq_add_of_lt ha
    rw [show op.numArgs - a = n+1 by omega, show op.numArgs - (a+1) = n by omega]
    rfl
  have hset : (args.set a w).take op.numArgs =
      args.take a ++ w::(args.drop (a+1)).take (op.numArgs - (a+1)) := by
    rw [List.take_set, hcut, List.set_append, if_neg (by rw [List.length_take]; omega),
      List.length_take_of_le (Nat.le_of_lt hlt), Nat.sub_self]
    rfl
  rw [Code.refs, Code.refs]
  simp only [hset, hcut, List.filterMap_append, List.count_append, hone]
  omega

namespace Block

/-! ### Instructions at their places -/

theorem getElem?_inst (b : Block) {k : ℕ} (hk : k < b.instructions.length) :
    b.instructions[k]? = some (b.inst k) := by
  rw [inst, List.getD_eq_getElem?_getD, List.getElem?_eq_getElem hk, Option.getD_some]

theorem code_inst (b : Block) {k : ℕ} (hk : k < b.instructions.length) :
    b.code[k]? = some (b.inst k).code := by
  rw [code, List.getElem?_map, b.getElem?_inst hk]
  rfl

theorem length_code (b : Block) : b.code.length = b.instructions.length := List.length_map _

theorem length_modify (b : Block) (k : ℕ) (f : Inst → Inst) :
    (b.modify k f).instructions.length = b.instructions.length := List.length_modify ..

theorem length_addUses (b : Block) (refs : List ℕ) :
    (b.addUses refs).instructions.length = b.instructions.length := by
  have h := congrArg List.length (b.code_addUses refs)
  rwa [code, code, List.length_map, List.length_map] at h

theorem length_dropUses (b : Block) (refs : List ℕ) :
    (b.dropUses refs).instructions.length = b.instructions.length := by
  have h := congrArg List.length (b.code_dropUses refs)
  rwa [code, code, List.length_map, List.length_map] at h

theorem inst_modify (b : Block) (i : ℕ) (f : Inst → Inst) {k : ℕ}
    (hk : k < b.instructions.length) :
    (b.modify i f).inst k = if i = k then f (b.inst k) else b.inst k := by
  rw [inst, modify, List.getD_eq_getElem?_getD, List.getElem?_modify, b.getElem?_inst hk]
  split
  · rfl
  · rfl

theorem code_setArg_at (b : Block) {i : ℕ} (hi : i < b.instructions.length) (a : ℕ) (w : Value) :
    (b.setArg i a w).code = b.code.set i ((b.inst i).opcode, (b.inst i).args.set a w) := by
  rw [code_setArg, List.modify_eq_set_getElem?, b.code_inst hi]
  rfl

/-! ### Counts after an edit -/

theorem useCount_modify (b : Block) (i : ℕ) {f : Inst → Inst}
    (hf : ∀ i, (f i).useCount = i.useCount) {k : ℕ} (hk : k < b.instructions.length) :
    ((b.modify i f).inst k).useCount = (b.inst k).useCount := by
  rw [inst_modify b i f hk]
  split
  · exact hf _
  · rfl

theorem useCount_addUse (b : Block) (r : ℕ) {k : ℕ} (hk : k < b.instructions.length) :
    ((b.modify r Inst.addUse).inst k).useCount =
      (b.inst k).useCount + if r = k then 1 else 0 := by
  rw [inst_modify b r _ hk]
  split <;> rfl

theorem useCount_addUses (b : Block) (refs : List ℕ) {k : ℕ} (hk : k < b.instructions.length) :
    ((b.addUses refs).inst k).useCount = (b.inst k).useCount + refs.count k := by
  induction refs generalizing b with
  | nil => rfl
  | cons r refs ih =>
    have hk' : k < (b.modify r Inst.addUse).instructions.length := by rwa [length_modify]
    rw [addUses, List.foldl_cons, ← addUses, ih _ hk', useCount_addUse b r hk, List.count_cons]
    simp only [beq_iff_eq]
    omega

theorem useCount_dropUse (b : Block) (r : ℕ) {k : ℕ} (hk : k < b.instructions.length) :
    ((b.modify r Inst.dropUse).inst k).useCount =
      (b.inst k).useCount - if r = k then 1 else 0 := by
  rw [inst_modify b r _ hk]
  split <;> rfl

theorem useCount_dropUses (b : Block) (refs : List ℕ) {k : ℕ} (hk : k < b.instructions.length) :
    ((b.dropUses refs).inst k).useCount = (b.inst k).useCount - refs.count k := by
  induction refs generalizing b with
  | nil => rfl
  | cons r refs ih =>
    have hk' : k < (b.modify r Inst.dropUse).instructions.length := by rwa [length_modify]
    rw [dropUses, List.foldl_cons, ← dropUses, ih _ hk', useCount_dropUse b r hk, List.count_cons]
    simp only [beq_iff_eq]
    omega

/-- The references of a block come from its code. -/
theorem refs_code (b : Block) : b.instructions.flatMap Inst.refs = b.code.flatMap Code.refs := by
  rw [code, List.flatMap_map]
  rfl

theorem recomputeUseCounts_counted (b : Block) {k : ℕ}
    (hk : k < b.recomputeUseCounts.instructions.length) :
    (b.recomputeUseCounts.inst k).useCount =
      (b.recomputeUseCounts.instructions.flatMap Inst.refs).count k := by
  rw [refs_code, code_recomputeUseCounts, ← refs_code, recomputeUseCounts, ← addUses]
  rw [recomputeUseCounts, ← addUses, length_addUses] at hk
  have hzero : ((⟨b.instructions.map fun i => { i with useCount := 0 }⟩ : Block).inst k).useCount =
      0 := by
    rw [List.length_map] at hk
    rw [inst, List.getD_eq_getElem?_getD, List.getElem?_map, List.getElem?_eq_getElem hk]
    rfl
  rw [useCount_addUses _ _ hk, hzero, Nat.zero_add]

/-! ### Exact counts -/

def Counted (b : Block) : Prop :=
  ∀ k < b.instructions.length, (b.inst k).useCount = uses b.code k

theorem wellFormed_iff (b : Block) : WellFormed b ↔ Typed [] b.code ∧ b.Counted := by
  constructor
  · intro h
    refine ⟨h.typed, fun k hk => ?_⟩
    rw [h.counted k hk, refs_code, uses]
  · rintro ⟨ht, hc⟩
    refine ⟨ht, fun k hk => ?_⟩
    rw [hc k hk, refs_code, uses]

variable {b b' : Block} {i : ℕ} {c c' : Code}

/-- One instruction is rewritten, and the counts follow its references. -/
theorem Counted.set (h : b.Counted) (hc : b.code[i]? = some c) (hcode : b'.code = b.code.set i c')
    (dropped added : List ℕ)
    (hcount : ∀ k < b.instructions.length,
      (b'.inst k).useCount = (b.inst k).useCount - dropped.count k + added.count k)
    (hrefs : ∀ k, c'.refs.count k + dropped.count k = c.refs.count k + added.count k)
    (hsub : ∀ k, dropped.count k ≤ c.refs.count k) : b'.Counted := by
  intro k hk
  have hlen := congrArg List.length hcode
  rw [List.length_set, length_code, length_code] at hlen
  rw [hlen] at hk
  have huses := uses_set hc c' k
  have hle := count_le_uses hc k
  have hd := hsub k
  have hr := hrefs k
  rw [hcount k hk, h k hk, hcode]
  omega

theorem Counted.replaceUsesWith (h : b.Counted) (hi : i < b.instructions.length) (v : Value) :
    (b.replaceUsesWith i v).Counted := by
  have hv : Code.refs (.identity, [v]) = v.ref.toList := by
    cases v <;> rfl
  refine h.set (b.code_inst hi) (code_replaceUsesWith b i v) (b.inst i).refs v.ref.toList
    (fun k hk => ?_) (fun k => ?_) fun k => le_rfl
  · have hk₁ : k < (b.dropUses (b.inst i).refs).instructions.length := by rwa [length_dropUses]
    rw [Block.replaceUsesWith, useCount_addUses _ _ (by rwa [length_modify]),
      useCount_modify _ _ (f := .replaceWithIdentity v) (fun _ => rfl) hk₁, useCount_dropUses _ _ hk]
  · rw [hv]
    exact Nat.add_comm _ _

theorem Counted.setArg (h : b.Counted) (hi : i < b.instructions.length) {a : ℕ}
    (ha : a < (b.inst i).numArgs) {v : Value} (hv : (b.inst i).args[a]? = some v) (w : Value) :
    (b.setArg i a w).Counted := by
  have harg : (b.inst i).arg a = v := by
    rw [Inst.arg, List.getD_eq_getElem?_getD, hv, Option.getD_some]
  refine h.set (b.code_inst hi) (code_setArg_at b hi a w) v.ref.toList w.ref.toList
    (fun k hk => ?_) (fun k => count_refs_set ha hv w k) fun k => ?_
  · have hk₁ : k < (b.dropUses v.ref.toList).instructions.length := by rwa [length_dropUses]
    have hk₂ : k < ((b.dropUses v.ref.toList).addUses w.ref.toList).instructions.length := by
      rwa [length_addUses]
    have hsame : ∀ i : Inst, ({ i with args := i.args.set a w } : Inst).useCount = i.useCount :=
      fun _ => rfl
    rw [Block.setArg, harg, useCount_modify _ _ hsame hk₂, useCount_addUses _ _ hk₁,
      useCount_dropUses _ _ hk]
  · have := count_refs_set ha hv .void k
    have hzero : (Value.ref .void).toList.count k = 0 := rfl
    rw [hzero] at this
    exact le_of_add_le_right (Nat.le_of_eq this)

/-- An instruction that goes away takes its references along. -/
theorem Counted.remove (h : b.Counted) (hi : i < b.instructions.length)
    (hcode : b'.code = b.code.set i (.void, []))
    (hcount : ∀ k < b.instructions.length,
      (b'.inst k).useCount = (b.inst k).useCount - (b.inst i).refs.count k) : b'.Counted :=
  h.set (b.code_inst hi) hcode (b.inst i).refs [] (fun k hk => hcount k hk)
    (fun _ => Nat.add_comm _ _) fun _ => le_rfl

end Block
end Ruzu.Ir
