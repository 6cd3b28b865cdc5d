import Ruzu.Shader.BasicBlockOrder

/-!
# Runs of operations on a block

Each operation on a block does what it does to the arrangement that the block
shows, as long as slot indices fit into `u32`.
-/

set_option autoImplicit false

namespace Ruzu.Shader

open DoublyLinked

/-- The block shows the arrangement. -/
structure Holds {I : Type} (b : Block I) (s : Arrangement I) : Prop where
  chains : b.Chains s.order
  slots : b.instructions = s.slots
  length : b.instructionLinks.length = b.instructions.length
  linked : ∀ k, (b.node k).isSome ↔ k ∈ s.order
  live : ∀ k ∈ s.order, (s.slots[k]?.join).isSome

namespace Holds

variable {I : Type} {b : Block I} {s : Arrangement I} {k : ℕ}

theorem new : Holds (.new : Block I) .new where
  chains := ⟨rfl, rfl, trivial, List.nodup_nil⟩
  slots := rfl
  length := rfl
  linked k := by simp [Block.node, Block.new, Arrangement.new]
  live _ hk := by cases hk

theorem lt_length (h : Holds b s) (hk : k ∈ s.order) : k < s.slots.length := by
  have hlive := h.live k hk
  by_contra hge
  rw [List.getElem?_eq_none (Nat.not_lt.mp hge)] at hlive
  cases hlive

theorem fresh (h : Holds b s) : s.slots.length ∉ s.order := fun hk =>
  Nat.lt_irrefl _ (h.lt_length hk)

/-- A slot of the order, with the order cut at it. -/
theorem cut (h : Holds b s) (hk : k ∈ s.order) : ∃ l r e, s.order = l ++ k :: r ∧ k ∉ l ∧
    b.node k = some e ∧ b.instructionLinks[k]? = some (some e) := by
  obtain ⟨l, r, hlr⟩ := List.append_of_mem hk
  obtain ⟨e, he⟩ := Option.isSome_iff_exists.mp ((h.linked k).mpr hk)
  refine ⟨l, r, e, hlr, fun hin => ?_, he, Block.node_some.mp he⟩
  have hnodup := h.chains.nodup
  rw [hlr] at hnodup
  exact (List.nodup_append.mp hnodup).2.2 k hin k List.mem_cons_self rfl

theorem not_linked (h : Holds b s) (hk : k ∉ s.order) {e : InstructionLink} :
    b.instructionLinks[k]? ≠ some (some e) := by
  intro he
  rw [← Block.node_some] at he
  refine hk ((h.linked k).mp ?_)
  rw [he]
  rfl

/-- A slot joins the order. -/
theorem joined (h : Holds b s) {b₁ b' : Block I} {m : ℕ} {e : InstructionLink} {s' : Arrangement I}
    (hlink : Block.Linked b b₁ m e) (hsame : Block.SameSlots b₁ b') (hchains : b'.Chains s'.order)
    (hmem : ∀ k, k ∈ s'.order ↔ k = m ∨ k ∈ s.order) (hslots : b₁.instructions = s'.slots)
    (hlength : b₁.instructionLinks.length = b₁.instructions.length)
    (hm : (s'.slots[m]?.join).isSome) (hkept : ∀ k ∈ s.order, s'.slots[k]? = s.slots[k]?) :
    Holds b' s' where
  chains := hchains
  slots := hsame.instructions.trans hslots
  length := by rw [hsame.length, hlength, hsame.instructions]
  linked k := by
    rw [hsame.linked, hlink.node, Function.update_apply, hmem, ← h.linked]
    by_cases hk : k = m
    · simp [hk]
    · simp [hk]
  live k hk := by
    rcases (hmem k).mp hk with rfl | hk
    · exact hm
    · rw [hkept k hk]
      exact h.live k hk

/-! ### New slots -/

theorem push_live (slots : List (Option I)) (inst : I) :
    ((slots ++ [some inst])[slots.length]?.join).isSome := by
  rw [List.getElem?_concat_length]
  rfl

section New

variable (h : Holds b s) (inst : I)
include h

theorem push_linked (e : InstructionLink) : Block.Linked b (b.push inst e) s.slots.length e where
  node := by
    funext k
    rw [Block.node, Block.push, Function.update_apply, ← h.slots, ← h.length]
    rcases Nat.lt_trichotomy k b.instructionLinks.length with hk | rfl | hk
    · rw [if_neg (Nat.ne_of_lt hk), List.getElem?_append_left hk, Block.node]
    · rw [if_pos rfl, List.getElem?_concat_length]
      rfl
    · have hlast : (b.instructionLinks ++ [some e]).length ≤ k := by
        rw [List.length_append, List.length_singleton]
        exact hk
      rw [if_neg (Nat.ne_of_gt hk), List.getElem?_eq_none hlast, Block.node,
        List.getElem?_eq_none (Nat.le_of_lt hk)]
  head := rfl
  tail := rfl

theorem push_length (e : InstructionLink) :
    (b.push inst e).instructionLinks.length = (b.push inst e).instructions.length := by
  rw [Block.push, List.length_append, List.length_append, h.length]
  rfl

theorem push_slots (e : InstructionLink) : (b.push inst e).instructions = s.slots ++ [some inst] := by
  rw [Block.push, h.slots]

theorem push_kept : ∀ k ∈ s.order, (s.slots ++ [some inst])[k]? = s.slots[k]? := fun _ hk =>
  List.getElem?_append_left (h.lt_length hk)

variable (hfits : s.slots.length < 2 ^ 32)
include hfits

theorem asU32_length : asU32 b.instructions.length = s.slots.length := by
  rw [h.slots, asU32, Nat.mod_eq_of_lt hfits]

theorem append_spec : ∃ b', b.appendInst inst = some (b', s.slots.length) ∧
    Holds b' (s.append inst) := by
  have hlink := h.push_linked inst ⟨b.instructionTail, none⟩
  obtain ⟨b', hb', hchains, hsame⟩ := Block.linkLast_spec h.chains h.fresh hlink
  refine ⟨{ b' with instructionTail := some s.slots.length }, ?_, ?_⟩
  · rw [Block.appendInst, h.asU32_length hfits]
    dsimp only [bind, Option.bind]
    rw [hb']
  · exact h.joined hlink ⟨hsame.instructions, hsame.length, hsame.linked⟩ hchains
      (fun k => by simp [Arrangement.append, or_comm]) (h.push_slots inst _)
      (h.push_length inst _) (push_live s.slots inst) (h.push_kept inst)

theorem insertBefore_spec {before : ℕ} (hbefore : before ∈ s.order) :
    ∃ b', b.insertInstBefore before inst = some (b', s.slots.length) ∧
      Holds b' (s.insertBefore before inst) := by
  obtain ⟨l, r, e, hcut, hout, hnode, hget⟩ := h.cut hbefore
  have hchains := h.chains
  have hfresh := h.fresh
  rw [hcut] at hchains hfresh
  have hlink := h.push_linked inst ⟨e.prev, some before⟩
  obtain ⟨b₂, b', hb₂, hb', hchains', hsame⟩ :=
    Block.linkBefore_spec hchains hfresh hnode hlink
  have horder : (s.insertBefore before inst).order = l ++ s.slots.length :: before :: r := by
    rw [Arrangement.insertBefore, hcut, insertBefore_cut hout]
  refine ⟨b', ?_, ?_⟩
  · rw [Block.insertInstBefore, hget, h.asU32_length hfits]
    dsimp only [bind, Option.bind]
    rw [hb₂]
    dsimp only
    rw [hb']
  · have hmem : ∀ k, k ∈ (s.insertBefore before inst).order ↔ k = s.slots.length ∨ k ∈ s.order := by
      intro k
      rw [horder, hcut]
      simp only [List.mem_append, List.mem_cons]
      tauto
    rw [← horder] at hchains'
    exact h.joined hlink hsame hchains' hmem (h.push_slots inst _) (h.push_length inst _)
      (push_live s.slots inst) (h.push_kept inst)

end New

/-! ### Slots that are there -/

section Old

variable (h : Holds b s)
include h

theorem erase_nodup : ∀ j, j ∈ s.order.erase k ↔ j ≠ k ∧ j ∈ s.order := fun j => by
  rw [h.chains.nodup.mem_erase_iff]

theorem unlink_spec (hk : k ∈ s.order) :
    ∃ b', b.unlinkInst k = some b' ∧ Holds b' ⟨s.order.erase k, s.slots⟩ := by
  obtain ⟨l, r, e, hcut, hout, -, -⟩ := h.cut hk
  have hchains := h.chains
  rw [hcut] at hchains
  obtain ⟨b', hb', hchains', hinst, hlen, hlinked⟩ := Block.unlinkInst_spec hchains
  refine ⟨b', hb', ⟨?_, hinst.trans h.slots, ?_, fun j => ?_, fun j hj => ?_⟩⟩
  · rw [hcut, erase_cut hout]
    exact hchains'
  · rw [hlen, h.length, hinst]
  · rw [hlinked, h.erase_nodup]
    by_cases hj : j = k
    · simp [hj]
    · simp [hj, h.linked]
  · exact h.live j ((h.erase_nodup j).mp hj).2

theorem erase_spec (hk : k ∈ s.order) :
    ∃ b', b.eraseInst k = some b' ∧ Holds b' ⟨s.order.erase k, s.slots.set k none⟩ := by
  obtain ⟨b', hb', h'⟩ := h.unlink_spec hk
  have hlt : k < b'.instructions.length := by
    rw [h'.slots]
    exact h.lt_length hk
  refine ⟨{ b' with instructions := b'.instructions.set k none }, ?_, ⟨h'.chains, ?_, ?_, ?_, ?_⟩⟩
  · rw [Block.eraseInst, hb']
    exact if_pos hlt
  · dsimp only
    rw [h'.slots]
  · dsimp only
    rw [List.length_set]
    exact h'.length
  · exact h'.linked
  · intro j hj
    have hne := ((h.erase_nodup j).mp hj).1
    rw [List.getElem?_set_ne (Ne.symm hne)]
    exact h'.live j hj

variable {m : ℕ} (hm : (s.slots[m]?.join).isSome) (hout : m ∉ s.order)
include hm

theorem setLink_linked (e : InstructionLink) : Block.Linked b (b.setLink m e) m e where
  node := by
    refine Block.node_set ?_ rfl
    rw [h.length, h.slots]
    by_contra hge
    rw [List.getElem?_eq_none (Nat.not_lt.mp hge)] at hm
    cases hm
  head := rfl
  tail := rfl

include hout

/-- Both assertions of a relinking hold. -/
theorem unlinked : (∃ inst, b.instructions[m]? = some (some inst)) ∧
    b.instructionLinks[m]? = some none := by
  rw [h.slots]
  obtain ⟨inst, hinst⟩ := Option.isSome_iff_exists.mp hm
  rw [Option.join_eq_some_iff] at hinst
  refine ⟨⟨inst, hinst⟩, ?_⟩
  have hlt : m < b.instructionLinks.length := by
    rw [h.length, h.slots]
    exact (List.getElem?_eq_some_iff.mp hinst).1
  rw [List.getElem?_eq_getElem hlt]
  cases hlink : b.instructionLinks[m] with
  | none => rfl
  | some e => exact absurd (hlink ▸ List.getElem?_eq_getElem hlt) (h.not_linked hout)

theorem relinkLast_spec : ∃ b', b.relinkInstBefore m none = some b' ∧
    Holds b' ⟨s.order ++ [m], s.slots⟩ := by
  obtain ⟨⟨inst, hinst⟩, hnone⟩ := h.unlinked hm hout
  have hlink := h.setLink_linked hm ⟨b.instructionTail, none⟩
  obtain ⟨b', hb', hchains, hsame⟩ := Block.linkLast_spec h.chains hout hlink
  refine ⟨{ b' with instructionTail := some m }, ?_, ?_⟩
  · rw [Block.relinkInstBefore, hinst, hnone]
    dsimp only [bind, Option.bind]
    rw [hb']
  · exact h.joined hlink ⟨hsame.instructions, hsame.length, hsame.linked⟩ hchains
      (fun k => by simp [or_comm]) h.slots (by rw [Block.setLink, List.length_set, h.length])
      hm fun _ _ => rfl

theorem relinkBefore_spec {before : ℕ} (hbefore : before ∈ s.order) :
    ∃ b', b.relinkInstBefore m (some before) = some b' ∧
      Holds b' ⟨insertBefore m before s.order, s.slots⟩ := by
  obtain ⟨⟨inst, hinst⟩, hnone⟩ := h.unlinked hm hout
  obtain ⟨l, r, e, hcut, houtl, hnode, hget⟩ := h.cut hbefore
  have hchains := h.chains
  have hfresh := hout
  rw [hcut] at hchains hfresh
  have hlink := h.setLink_linked hm ⟨e.prev, some before⟩
  obtain ⟨b₂, b', hb₂, hb', hchains', hsame⟩ :=
    Block.linkBefore_spec hchains hfresh hnode hlink
  have horder : insertBefore m before s.order = l ++ m :: before :: r := by
    rw [hcut, insertBefore_cut houtl]
  refine ⟨b', ?_, ?_⟩
  · rw [Block.relinkInstBefore, hinst, hnone]
    dsimp only [bind, Option.bind]
    rw [hget]
    dsimp only
    rw [hb₂]
    exact hb'
  · have hmem : ∀ k, k ∈ insertBefore m before s.order ↔ k = m ∨ k ∈ s.order := fun k => by
      rw [horder, hcut]
      simp only [List.mem_append, List.mem_cons]
      tauto
    rw [← horder] at hchains'
    exact h.joined hlink hsame hchains' hmem h.slots
      (by rw [Block.setLink, List.length_set, h.length]) hm fun _ _ => rfl

end Old

/-! ### Every operation -/

section Step

variable (h : Holds b s)
include h

theorem insertBefore_refused {before : ℕ} (hbefore : before ∉ s.order) (inst : I) :
    b.insertInstBefore before inst = none := by
  rw [Block.insertInstBefore]
  split
  · rename_i hget
    exact absurd hget (h.not_linked hbefore)
  · rfl

theorem unlink_refused (hk : k ∉ s.order) : b.unlinkInst k = none := by
  rw [Block.unlinkInst]
  split
  · rename_i hget
    exact absurd hget (h.not_linked hk)
  · rfl

theorem relink_refused {before : Option ℕ} (hk : ¬ ((s.slots[k]?.join).isSome ∧ k ∉ s.order)) :
    b.relinkInstBefore k before = none := by
  rw [Block.relinkInstBefore.eq_def]
  split
  · rename_i inst hinst hlink
    refine absurd ⟨?_, fun hin => ?_⟩ hk
    · rw [← h.slots, hinst]
      rfl
    · have hsome := (h.linked k).mpr hin
      rw [Block.node, hlink] at hsome
      cases hsome
  · rfl

theorem relinkBefore_refused {before : ℕ} (hbefore : before ∉ s.order) :
    b.relinkInstBefore k (some before) = none := by
  rcases hget : b.instructionLinks[before]? with _ | _ | e
  · simp only [Block.relinkInstBefore, hget]
    split <;> rfl
  · simp only [Block.relinkInstBefore, hget]
    split <;> rfl
  · exact absurd hget (h.not_linked hbefore)

/-- `insertInst` is one of the other two ways to allocate. -/
theorem insertInst_eq (hfits : s.slots.length ≤ 2 ^ 32) (position : ℕ) (inst : I) :
    b.insertInst position inst = (b.step (if position ∈ s.order then .insertBefore position inst
      else .append inst)).map Prod.fst := by
  rw [Block.insertInst]
  by_cases hposition : position ∈ s.order
  · have hlt := h.lt_length hposition
    have hin : position < b.instructions.length ∧ (b.instructionLinks[position]?.join).isSome :=
      ⟨h.slots ▸ hlt, (h.linked position).mpr hposition⟩
    rw [if_pos hin, if_pos hposition, asU32, Nat.mod_eq_of_lt (Nat.lt_of_lt_of_le hlt hfits),
      Block.step, Option.map_map]
    rfl
  · have hout : ¬ (position < b.instructions.length ∧
        (b.instructionLinks[position]?.join).isSome) := fun hin =>
      hposition ((h.linked position).mp hin.2)
    rw [if_neg hout, if_neg hposition, Block.step, Option.map_map]
    rfl

end Step

end Holds

/-- Both are refused, or both hand out the same and the arrangement is still shown. -/
def Agree {I E : Type} (b : Option (Block I × E)) (s : Option (Arrangement I × E)) : Prop :=
  (b = none ∧ s = none) ∨ ∃ b' s' e, b = some (b', e) ∧ s = some (s', e) ∧ Holds b' s'

namespace Holds

variable {I : Type} {b : Block I} {s : Arrangement I} {k : ℕ}

theorem step (h : Holds b s) (op : Op I) (hfits : op.allocates = true → s.slots.length < 2 ^ 32) :
    Agree (b.step op) (s.step op) := by
  cases op with
  | append inst =>
    obtain ⟨b', hb', h'⟩ := h.append_spec inst (hfits rfl)
    exact .inr ⟨b', _, _, by rw [Block.step, hb']; rfl, rfl, h'⟩
  | insertBefore before inst =>
    rw [Block.step, Arrangement.step]
    split
    · rename_i hbefore
      obtain ⟨b', hb', h'⟩ := h.insertBefore_spec inst (hfits rfl) hbefore
      exact .inr ⟨b', _, _, by rw [hb']; rfl, rfl, h'⟩
    · rename_i hbefore
      exact .inl ⟨by rw [h.insertBefore_refused hbefore]; rfl, rfl⟩
  | erase idx =>
    rw [Block.step, Arrangement.step]
    split
    · rename_i hidx
      obtain ⟨b', hb', h'⟩ := h.erase_spec hidx
      exact .inr ⟨b', _, _, by rw [hb']; rfl, rfl, h'⟩
    · rename_i hidx
      exact .inl ⟨by rw [Block.eraseInst, h.unlink_refused hidx]; rfl, rfl⟩
  | unlink idx =>
    rw [Block.step, Arrangement.step]
    split
    · rename_i hidx
      obtain ⟨b', hb', h'⟩ := h.unlink_spec hidx
      exact .inr ⟨b', _, _, by rw [hb']; rfl, rfl, h'⟩
    · rename_i hidx
      exact .inl ⟨by rw [h.unlink_refused hidx]; rfl, rfl⟩
  | relinkBefore idx before =>
    cases before with
    | none =>
      rw [Block.step, Arrangement.step]
      split
      · rename_i hidx
        obtain ⟨b', hb', h'⟩ := h.relinkLast_spec hidx.1 hidx.2
        exact .inr ⟨b', _, _, by rw [hb']; rfl, rfl, h'⟩
      · rename_i hidx
        exact .inl ⟨by rw [h.relink_refused hidx]; rfl, rfl⟩
    | some before =>
      rw [Block.step, Arrangement.step]
      split
      · rename_i hidx
        obtain ⟨b', hb', h'⟩ := h.relinkBefore_spec hidx.1 hidx.2.1 hidx.2.2
        exact .inr ⟨b', _, _, by rw [hb']; rfl, rfl, h'⟩
      · rename_i hidx
        have hrefused : b.relinkInstBefore idx (some before) = none := by
          by_cases hbefore : before ∈ s.order
          · exact h.relink_refused fun hin => hidx ⟨hin.1, hin.2, hbefore⟩
          · exact h.relinkBefore_refused hbefore
        exact .inl ⟨by rw [hrefused]; rfl, rfl⟩

/-! ### Runs -/

end Holds

/-- How many slots the operations allocate. -/
def allocations {I : Type} (ops : List (Op I)) : ℕ := ops.countP Op.allocates

section Runs

variable {I σ : Type} {stepOf : σ → Op I → Option (σ × Option ℕ)}

theorem run_append (s : σ) (ops rest : List (Op I)) :
    run stepOf s (ops ++ rest) = (run stepOf s ops).bind fun r =>
      (run stepOf r.1 rest).map fun q => (q.1, r.2 ++ q.2) := by
  induction ops generalizing s with
  | nil =>
    rw [List.nil_append, run, Option.bind_some]
    cases run stepOf s rest <;> rfl
  | cons op ops ih =>
    rw [List.cons_append, run, run]
    cases hstep : stepOf s op with
    | none => rfl
    | some r =>
      rw [Option.bind_some, Option.bind_some, ih]
      cases run stepOf r.1 ops with
      | none => rfl
      | some q =>
        rw [Option.bind_some, Option.map_some, Option.bind_some]
        cases run stepOf q.1 rest <;> rfl

theorem run_cons_some {s s' : σ} {op : Op I} {ops : List (Op I)} {es : List (Option ℕ)}
    (h : run stepOf s (op :: ops) = some (s', es)) :
    ∃ s₁ e es₁, stepOf s op = some (s₁, e) ∧ run stepOf s₁ ops = some (s', es₁) := by
  rw [run, Option.bind_eq_some_iff] at h
  obtain ⟨⟨s₁, e⟩, hstep, hrest⟩ := h
  rw [Option.map_eq_some_iff] at hrest
  obtain ⟨⟨s₂, es₁⟩, hrest, heq⟩ := hrest
  cases heq
  exact ⟨s₁, e, es₁, hstep, hrest⟩

theorem run_append_some {s s₂ : σ} {ops rest : List (Op I)} {es : List (Option ℕ)}
    (h : run stepOf s (ops ++ rest) = some (s₂, es)) :
    ∃ s₁ es₁ es₂, run stepOf s ops = some (s₁, es₁) ∧ run stepOf s₁ rest = some (s₂, es₂) ∧
      es = es₁ ++ es₂ := by
  rw [run_append, Option.bind_eq_some_iff] at h
  obtain ⟨⟨s₁, es₁⟩, hfirst, hrest⟩ := h
  rw [Option.map_eq_some_iff] at hrest
  obtain ⟨⟨s₂, es₂⟩, hrest, heq⟩ := hrest
  cases heq
  exact ⟨s₁, es₁, es₂, hfirst, hrest, rfl⟩

end Runs

namespace Arrangement

variable {I : Type} {s s' : Arrangement I} {k : ℕ} {inst : I}

theorem step_length {op : Op I} {e : Option ℕ} (h : s.step op = some (s', e)) :
    s'.slots.length = s.slots.length + if op.allocates then 1 else 0 := by
  cases op with
  | append inst =>
    cases h
    exact List.length_append
  | insertBefore before inst =>
    rw [step, Option.ite_none_right_eq_some] at h
    cases h.2
    exact List.length_append
  | erase idx =>
    rw [step, Option.ite_none_right_eq_some] at h
    cases h.2
    exact List.length_set
  | unlink idx =>
    rw [step, Option.ite_none_right_eq_some] at h
    cases h.2
    rfl
  | relinkBefore idx before =>
    cases before with
    | none =>
      rw [step, Option.ite_none_right_eq_some] at h
      cases h.2
      rfl
    | some before =>
      rw [step, Option.ite_none_right_eq_some] at h
      cases h.2
      rfl

theorem run_length {ops : List (Op I)} {es : List (Option ℕ)}
    (h : run step s ops = some (s', es)) :
    s'.slots.length = s.slots.length + allocations ops := by
  induction ops generalizing s es with
  | nil =>
    cases h
    rfl
  | cons op ops ih =>
    obtain ⟨s₁, e, es₁, hstep, hrest⟩ := run_cons_some h
    have hlength := step_length hstep
    rw [ih hrest, hlength, allocations, allocations, List.countP_cons]
    omega

/-- Only erasing a slot changes what it holds. -/
theorem step_keeps {op : Op I} {e : Option ℕ} (h : s.step op = some (s', e)) (hop : op ≠ .erase k)
    (hk : s.slots[k]? = some (some inst)) : s'.slots[k]? = some (some inst) := by
  have hlt := (List.getElem?_eq_some_iff.mp hk).1
  cases op with
  | append inst =>
    cases h
    exact (List.getElem?_append_left hlt).trans hk
  | insertBefore before inst =>
    rw [step, Option.ite_none_right_eq_some] at h
    cases h.2
    exact (List.getElem?_append_left hlt).trans hk
  | erase idx =>
    rw [step, Option.ite_none_right_eq_some] at h
    cases h.2
    have hne : idx ≠ k := fun heq => hop (heq ▸ rfl)
    exact (List.getElem?_set_ne hne).trans hk
  | unlink idx =>
    rw [step, Option.ite_none_right_eq_some] at h
    cases h.2
    exact hk
  | relinkBefore idx before =>
    cases before with
    | none =>
      rw [step, Option.ite_none_right_eq_some] at h
      cases h.2
      exact hk
    | some before =>
      rw [step, Option.ite_none_right_eq_some] at h
      cases h.2
      exact hk

theorem run_keeps {ops : List (Op I)} {es : List (Option ℕ)} (h : run step s ops = some (s', es))
    (hops : .erase k ∉ ops) (hk : s.slots[k]? = some (some inst)) :
    s'.slots[k]? = some (some inst) := by
  induction ops generalizing s es with
  | nil =>
    cases h
    exact hk
  | cons op ops ih =>
    rw [List.mem_cons, not_or] at hops
    obtain ⟨s₁, e, es₁, hstep, hrest⟩ := run_cons_some h
    exact ih hrest hops.2 (step_keeps hstep (Ne.symm hops.1) hk)

end Arrangement

theorem Holds.run {I : Type} {b : Block I} {s : Arrangement I} (h : Holds b s) (ops : List (Op I))
    (hfits : s.slots.length + allocations ops ≤ 2 ^ 32) :
    Agree (run Block.step b ops) (run Arrangement.step s ops) := by
  induction ops generalizing b s with
  | nil => exact .inr ⟨b, s, [], rfl, rfl, h⟩
  | cons op ops ih =>
    rw [allocations, List.countP_cons, ← allocations] at hfits
    have hop : op.allocates = true → s.slots.length < 2 ^ 32 := fun hop => by
      rw [if_pos hop] at hfits
      omega
    rw [Shader.run, Shader.run]
    rcases h.step op hop with ⟨hb, hs⟩ | ⟨b₁, s₁, e, hb, hs, h₁⟩
    · rw [hb, hs]
      exact .inl ⟨rfl, rfl⟩
    · have hlength := Arrangement.step_length hs
      rw [hb, hs, Option.bind_some, Option.bind_some]
      rcases ih h₁ (by omega) with ⟨hb, hs⟩ | ⟨b', s', es, hb, hs, h'⟩
      · rw [hb, hs]
        exact .inl ⟨rfl, rfl⟩
      · rw [hb, hs]
        exact .inr ⟨b', s', e :: es, rfl, rfl, h'⟩

end Ruzu.Shader
