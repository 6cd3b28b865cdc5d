import Ruzu.Shader.BasicBlock

/-!
# The logical order of a block

What a block is for: a sequence of slots, and the instruction that each slot
holds. The links of a block show the sequence in both directions.
-/

set_option autoImplicit false

namespace Ruzu.Shader

open DoublyLinked

/-- The linked slots in logical order, and the instructions of all slots. -/
structure Arrangement (I : Type) where
  order : List ℕ
  slots : List (Option I)

/-- Put `m` immediately in front of `t`. -/
def insertBefore (m t : ℕ) : List ℕ → List ℕ
  | [] => []
  | a :: l => if a = t then m :: a :: l else a :: insertBefore m t l

inductive Op (I : Type) where
  | append (inst : I)
  | insertBefore (before : ℕ) (inst : I)
  | erase (idx : ℕ)
  | unlink (idx : ℕ)
  | relinkBefore (idx : ℕ) (before : Option ℕ)

def Op.allocates {I : Type} : Op I → Bool
  | .append _ | .insertBefore _ _ => true
  | _ => false

namespace Arrangement

variable {I : Type}

def new : Arrangement I := ⟨[], []⟩

def append (s : Arrangement I) (inst : I) : Arrangement I :=
  ⟨s.order ++ [s.slots.length], s.slots ++ [some inst]⟩

def insertBefore (s : Arrangement I) (before : ℕ) (inst : I) : Arrangement I :=
  ⟨Shader.insertBefore s.slots.length before s.order, s.slots ++ [some inst]⟩

/-- The next arrangement and the slot handed out, unless the operation is refused. -/
def step (s : Arrangement I) : Op I → Option (Arrangement I × Option ℕ)
  | .append inst => some (s.append inst, some s.slots.length)
  | .insertBefore before inst =>
    if before ∈ s.order then some (s.insertBefore before inst, some s.slots.length) else none
  | .erase idx =>
    if idx ∈ s.order then some (⟨s.order.erase idx, s.slots.set idx none⟩, none) else none
  | .unlink idx => if idx ∈ s.order then some (⟨s.order.erase idx, s.slots⟩, none) else none
  | .relinkBefore idx none =>
    if (s.slots[idx]?.join).isSome ∧ idx ∉ s.order then some (⟨s.order ++ [idx], s.slots⟩, none)
    else none
  | .relinkBefore idx (some before) =>
    if (s.slots[idx]?.join).isSome ∧ idx ∉ s.order ∧ before ∈ s.order then
      some (⟨Shader.insertBefore idx before s.order, s.slots⟩, none)
    else none

end Arrangement

def Block.step {I : Type} (b : Block I) : Op I → Option (Block I × Option ℕ)
  | .append inst => (b.appendInst inst).map fun r => (r.1, some r.2)
  | .insertBefore before inst => (b.insertInstBefore before inst).map fun r => (r.1, some r.2)
  | .erase idx => (b.eraseInst idx).map fun b => (b, none)
  | .unlink idx => (b.unlinkInst idx).map fun b => (b, none)
  | .relinkBefore idx before => (b.relinkInstBefore idx before).map fun b => (b, none)

/-- Operations one after another, with the slots handed out. -/
def run {I σ : Type} (step : σ → Op I → Option (σ × Option ℕ)) (s : σ) :
    List (Op I) → Option (σ × List (Option ℕ))
  | [] => some (s, [])
  | op :: ops => (step s op).bind fun r => (run step r.1 ops).map fun q => (q.1, r.2 :: q.2)

/-! ### Lists -/

section Lists

variable {m t : ℕ} {l r : List ℕ}

theorem insertBefore_cut (ht : t ∉ l) : insertBefore m t (l ++ t :: r) = l ++ m :: t :: r := by
  induction l with
  | nil => exact if_pos rfl
  | cons a l ih =>
    rw [List.mem_cons, not_or] at ht
    rw [List.cons_append, insertBefore, if_neg (Ne.symm ht.1), ih ht.2, List.cons_append]

theorem erase_cut (ht : t ∉ l) : (l ++ t :: r).erase t = l ++ r := by
  rw [List.erase_append_right _ ht, List.erase_cons_head]

end Lists

/-! ### Links as nodes -/

namespace Block

variable {I : Type} {b b' : Block I} {slot : ℕ} {link next prev : Option ℕ}

def node (b : Block I) (slot : ℕ) : Option InstructionLink := b.instructionLinks[slot]?.join

/-- Nothing but the links that exist and the two ends differs. -/
structure SameSlots (b b' : Block I) : Prop where
  instructions : b'.instructions = b.instructions
  length : b'.instructionLinks.length = b.instructionLinks.length
  linked : ∀ k, (b'.node k).isSome = (b.node k).isSome

theorem SameSlots.trans {b'' : Block I} (h : SameSlots b b') (h' : SameSlots b' b'') :
    SameSlots b b'' :=
  ⟨h'.instructions.trans h.instructions, h'.length.trans h.length,
    fun k => (h'.linked k).trans (h.linked k)⟩

theorem node_some {e : InstructionLink} :
    b.node slot = some e ↔ b.instructionLinks[slot]? = some (some e) := by
  rw [node, Option.join_eq_some_iff]

theorem node_set {value : Option InstructionLink}
    (hslot : slot < b.instructionLinks.length)
    (hlinks : b'.instructionLinks = b.instructionLinks.set slot value) :
    b'.node = Function.update b.node slot value := by
  funext k
  rw [node, hlinks, List.getElem?_set, Function.update_apply, node]
  by_cases hk : slot = k
  · rw [if_pos hk, if_pos hslot, if_pos hk.symm]
    rfl
  · rw [if_neg hk, if_neg fun heq => hk heq.symm]

theorem modifyLink_spec (f : InstructionLink → InstructionLink) (h : (b.node slot).isSome) :
    ∃ b', b.modifyLink slot f = some b' ∧ b'.node = write b.node (some slot) f ∧
      b'.instructionHead = b.instructionHead ∧ b'.instructionTail = b.instructionTail ∧
      SameSlots b b' := by
  obtain ⟨e, he⟩ := Option.isSome_iff_exists.mp h
  have hget := node_some.1 he
  have hslot := (List.getElem?_eq_some_iff.mp hget).1
  refine ⟨{ b with instructionLinks := b.instructionLinks.set slot (some (f e)) }, ?_, ?_⟩
  · rw [modifyLink, hget]
  · have hnode : Block.node { b with instructionLinks := b.instructionLinks.set slot (some (f e)) } =
        write b.node (some slot) f := by
      rw [node_set hslot rfl]
      funext k
      rw [Function.update_apply, write]
      by_cases hk : k = slot
      · rw [if_pos hk, if_pos (congrArg some hk.symm), hk, he]
        rfl
      · rw [if_neg hk, if_neg fun heq => hk (Option.some.inj heq).symm]
    refine ⟨hnode, rfl, rfl, rfl, List.length_set, fun k => ?_⟩
    rw [hnode, write]
    split
    · rw [Option.isSome_map]
    · rfl

theorem setNextOf_spec (b : Block I) (prev next : Option ℕ) (h : ∀ k ∈ prev, (b.node k).isSome) :
    ∃ b', b.setNextOf prev next = some b' ∧ b'.node = write b.node prev (setNext next) ∧
      b'.instructionHead = (if prev = none then next else b.instructionHead) ∧
      b'.instructionTail = b.instructionTail ∧ SameSlots b b' := by
  cases prev with
  | none => exact ⟨_, rfl, rfl, rfl, rfl, rfl, rfl, fun _ => rfl⟩
  | some k => exact modifyLink_spec (fun link => { link with next := next }) (h k rfl)

theorem setPrevOf_spec (b : Block I) (next prev : Option ℕ) (h : ∀ k ∈ next, (b.node k).isSome) :
    ∃ b', b.setPrevOf next prev = some b' ∧ b'.node = write b.node next (setPrev prev) ∧
      b'.instructionTail = (if next = none then prev else b.instructionTail) ∧
      b'.instructionHead = b.instructionHead ∧ SameSlots b b' := by
  cases next with
  | none => exact ⟨_, rfl, rfl, rfl, rfl, rfl, rfl, fun _ => rfl⟩
  | some k =>
    obtain ⟨b', hb', hnode, hhead, htail, hsame⟩ :=
      modifyLink_spec (fun link => { link with prev := prev }) (h k rfl)
    exact ⟨b', hb', hnode, htail, hhead, hsame⟩

/-! ### Linking a slot -/

/-- The links show the slots in this order. -/
def Chains (b : Block I) (l : List ℕ) : Prop :=
  Shows ⟨b.instructionTail, b.instructionHead⟩ b.node l

/-- A slot outside the chain gets links of its own, and nothing else differs. -/
structure Linked (b b₁ : Block I) (m : ℕ) (e : InstructionLink) : Prop where
  node : b₁.node = Function.update b.node m (some e)
  head : b₁.instructionHead = b.instructionHead
  tail : b₁.instructionTail = b.instructionTail

section Linking

variable {b₁ : Block I} {l r : List ℕ} {m t : ℕ} {e : InstructionLink}

theorem Linked.shows (h : Linked b b₁ m e) (hl : b.Chains l) (hm : m ∉ l) :
    Shows ⟨b.instructionTail, b.instructionHead⟩ b₁.node l := by
  refine hl.congr fun a ha => ?_
  have hne : a ≠ m := fun heq => hm (heq ▸ ha)
  rw [h.node, Function.update_of_ne hne]

theorem Linked.isSome (h : Linked b b₁ m e) : (b₁.node m).isSome := by
  rw [h.node, Function.update_self]
  rfl

/-- Its links are as if they had been written last. -/
theorem Linked.write (h : Linked b b₁ m e) : write b₁.node (some m) (fun _ => e) = b₁.node := by
  funext k
  rw [DoublyLinked.write]
  split
  · rename_i hk
    obtain rfl := Option.some.inj hk
    rw [h.node, Function.update_self]
    rfl
  · rfl

theorem write_congr {node node' : ℕ → Option InstructionLink} {link : Option ℕ}
    {f : InstructionLink → InstructionLink} {a : ℕ} (h : node a = node' a) :
    DoublyLinked.write node link f a = DoublyLinked.write node' link f a := by
  rw [DoublyLinked.write, DoublyLinked.write, h]

theorem linkLast_spec (hl : b.Chains l) (hm : m ∉ l)
    (h : Linked b b₁ m ⟨b.instructionTail, none⟩) :
    ∃ b', b₁.setNextOf b.instructionTail (some m) = some b' ∧
      Chains { b' with instructionTail := some m } (l ++ [m]) ∧ SameSlots b₁ b' := by
  have hshows := h.shows hl hm
  have hlast : b.instructionTail = l.getLast? := hl.last
  obtain ⟨b', hb', hnode, hhead, -, hsame⟩ := setNextOf_spec b₁ b.instructionTail
    (some m) fun k hk => hshows.chained.isSome (List.mem_of_getLast? (hlast ▸ hk))
  refine ⟨b', hb', ?_, hsame⟩
  have hpush := hshows.pushBack hm h.isSome
  rw [pushBackNodes, h.write, ← hnode, pushBackRoot, ← h.head, ← hhead] at hpush
  exact hpush

theorem linkBefore_spec (hl : b.Chains (l ++ t :: r)) (hm : m ∉ l ++ t :: r)
    (he : b.node t = some e) (h : Linked b b₁ m ⟨e.prev, some t⟩) :
    ∃ b₂ b', b₁.setNextOf e.prev (some m) = some b₂ ∧ b₂.setPrevOf (some t) (some m) = some b' ∧
      b'.Chains (l ++ m :: t :: r) ∧ SameSlots b₁ b' := by
  have hshows := h.shows hl hm
  obtain rfl : e = ⟨l.getLast?, r.head?⟩ := by
    have hcut := hl.chained.at_cut
    rw [he, Option.some_inj, Option.or_none, Option.or_none] at hcut
    exact hcut
  have hin : ∀ k ∈ l ++ t :: r, (b₁.node k).isSome := fun k hk => hshows.chained.isSome hk
  obtain ⟨b₂, hb₂, hnode₂, hhead₂, htail₂, hsame₂⟩ := setNextOf_spec b₁ l.getLast? (some m)
    fun k hk => hin k (List.mem_append_left _ (List.mem_of_getLast? hk))
  obtain ⟨b', hb', hnode, htail, hhead, hsame⟩ := setPrevOf_spec b₂ (some t) (some m)
    fun k hk => by
      obtain rfl := Option.some.inj hk
      rw [hsame₂.linked]
      exact hin _ (List.mem_append_right _ List.mem_cons_self)
  refine ⟨b₂, b', hb₂, hb', ?_, hsame₂.trans hsame⟩
  have hinsert := hshows.insertBefore hm h.isSome
  rw [insertNodes, h.write, ← hnode₂, ← hnode, insertRoot, ← h.head, ← hhead₂, ← hhead,
    ← h.tail, ← htail₂] at hinsert
  rw [if_neg (Option.some_ne_none _)] at htail
  rw [Chains, htail]
  exact hinsert

theorem unlinkInst_spec (hl : b.Chains (l ++ m :: r)) :
    ∃ b', b.unlinkInst m = some b' ∧ b'.Chains (l ++ r) ∧ b'.instructions = b.instructions ∧
      b'.instructionLinks.length = b.instructionLinks.length ∧
      ∀ k, (b'.node k).isSome = if k = m then false else (b.node k).isSome := by
  have hcut := hl.chained.at_cut
  rw [Option.or_none, Option.or_none] at hcut
  have hget := node_some.1 hcut
  have hslot := (List.getElem?_eq_some_iff.mp hget).1
  have hout : ∀ k ∈ l ++ r, k ≠ m := by
    have hnodup := List.nodup_append.mp hl.nodup
    rintro k hk rfl
    rcases List.mem_append.mp hk with hk | hk
    · exact hnodup.2.2 k hk k List.mem_cons_self rfl
    · exact (List.nodup_cons.mp hnodup.2.1).1 hk
  -- the block without the links of the slot
  obtain ⟨b₁, hb₁⟩ : ∃ b₁ : Block I,
    b₁ = { b with instructionLinks := b.instructionLinks.set m none } := ⟨_, rfl⟩
  have hnode₁ : b₁.node = Function.update b.node m none := node_set hslot (hb₁ ▸ rfl)
  have hin : ∀ k ∈ l ++ r, (b₁.node k).isSome := by
    intro k hk
    rw [hnode₁, Function.update_of_ne (hout k hk)]
    refine hl.chained.isSome ?_
    simp only [List.mem_append, List.mem_cons] at hk ⊢
    exact hk.imp id Or.inr
  obtain ⟨b₂, hb₂, hnode₂, hhead₂, htail₂, hsame₂⟩ := setNextOf_spec b₁ l.getLast? r.head?
    fun k hk =>
      hin k (List.mem_append_left _ (List.mem_of_getLast? hk))
  obtain ⟨b', hb', hnode, htail, hhead, hsame⟩ := setPrevOf_spec b₂ r.head? l.getLast?
    fun k hk => by
      rw [hsame₂.linked]
      exact hin k (List.mem_append_right _ (List.mem_of_mem_head? hk))
  have hsame' := hsame₂.trans hsame
  refine ⟨b', ?_, ?_, ?_, ?_, fun k => ?_⟩
  · rw [unlinkInst, hget]
    dsimp only [bind, Option.bind]
    rw [← hb₁, hb₂]
    exact hb'
  · have hsame : ∀ a ∈ l ++ r, b'.node a = unlinkNodes b.node ⟨l.getLast?, r.head?⟩ a := by
      intro a ha
      rw [hnode, hnode₂, hnode₁, unlinkNodes]
      refine write_congr (write_congr ?_)
      rw [Function.update_of_ne (hout a ha)]
    have hunlink := hl.unlink.congr hsame
    rw [hhead₂] at hhead
    rw [htail₂] at htail
    rw [Chains, hhead, htail, hb₁]
    exact hunlink
  · rw [hsame'.instructions, hb₁]
  · rw [hsame'.length, hb₁]
    exact List.length_set
  · rw [hsame'.linked, hnode₁, Function.update_apply]
    split <;> rfl

end Linking

end Block

end Ruzu.Shader
