import Mathlib
import Ruzu.Shader.BasicBlockRuns

/-!
# Blocks keep their logical order

Both iterators of a block show the order that the operations gave it, up to the
operation that no longer finds an index of the type `u32` for its slot.
-/

set_option autoImplicit false

namespace Ruzu.Shader

open DoublyLinked

variable {I : Type}

/-- The instructions in logical order, with their slots. -/
def Arrangement.items (s : Arrangement I) : List (ℕ × I) :=
  s.order.filterMap fun k => (s.slots[k]?.join).map (Prod.mk k)

/-- What a reader of the block sees of its arrangement. -/
structure Arranged (b : Block I) (s : Arrangement I) : Prop where
  forward : b.indexedIter = some s.items
  backward : b.indexedRevIter = some s.items.reverse
  keys : s.items.map Prod.fst = s.order
  nodup : s.order.Nodup
  linked : ∀ k, (∃ link, b.instructionLinks[k]? = some (some link)) ↔ k ∈ s.order
  slots : b.instructions = s.slots

/-- Every state on the way is arranged as the operations say, and a slot denotes its
instruction until the slot is erased. -/
structure KeepsOrder (ops : List (Op I)) : Prop where
  arranged : ∀ pre, pre <+: ops → ∃ b s es, run Block.step .new pre = some (b, es) ∧
    run Arrangement.step .new pre = some (s, es) ∧ Arranged b s
  denotes : ∀ pre mid, pre ++ mid <+: ops → ∀ b₁ e₁ b₂ e₂,
    run Block.step .new pre = some (b₁, e₁) → run Block.step .new (pre ++ mid) = some (b₂, e₂) →
      ∀ k inst, .erase k ∉ mid → b₁.instructions[k]? = some (some inst) →
        b₂.instructions[k]? = some (some inst)

/-! ### Walking along the links -/

section Walk

variable {b : Block I} {s : Arrangement I} {direction : InstructionLink → Option ℕ} {l : List ℕ}
  {fuel : ℕ}

/-- A walk that finds all of a list of linked slots. -/
theorem successors_spec (hfuel : l.length ≤ fuel)
    (hlive : ∀ k ∈ l, (b.instructions[k]?.join).isSome)
    (hnext : ∀ pre a post, l = pre ++ a :: post →
      ∃ e, b.instructionLinks[a]? = some (some e) ∧ direction e = post.head?) :
    b.successors direction fuel l.head? =
      some (l.filterMap fun k => (b.instructions[k]?.join).map (Prod.mk k)) := by
  induction l generalizing fuel with
  | nil => cases fuel <;> rfl
  | cons a l ih =>
    cases fuel with
    | zero => exact absurd hfuel (Nat.not_succ_le_zero _)
    | succ fuel =>
      obtain ⟨inst, hinst⟩ := Option.isSome_iff_exists.mp (hlive a List.mem_cons_self)
      obtain ⟨e, he, hdirection⟩ := hnext [] a l rfl
      have hrest := ih (Nat.le_of_succ_le_succ hfuel)
        (fun k hk => hlive k (List.mem_cons_of_mem _ hk))
        fun pre c post hl => hnext (a :: pre) c post (by rw [hl, List.cons_append])
      rw [List.head?_cons, Block.successors, hinst, he]
      dsimp only [bind, Option.bind]
      rw [hdirection, hrest, List.filterMap_cons, hinst]
      rfl

theorem Holds.order_length (h : Holds b s) : s.order.length ≤ b.instructions.length := by
  have hsub : s.order ⊆ List.range s.slots.length := fun k hk =>
    List.mem_range.mpr (h.lt_length hk)
  have hle := (List.subperm_of_subset h.chains.nodup hsub).length_le
  rwa [List.length_range, ← h.slots] at hle

theorem Holds.instructions_live (h : Holds b s) {k : ℕ} (hk : k ∈ s.order) :
    (b.instructions[k]?.join).isSome := by
  rw [h.slots]
  exact h.live k hk

theorem Holds.forward (h : Holds b s) : b.indexedIter = some s.items := by
  have hhead : b.instructionHead = s.order.head? := h.chains.head
  rw [Block.indexedIter, hhead, successors_spec h.order_length fun k hk => h.instructions_live hk]
  · rw [Arrangement.items, h.slots]
  · intro pre a post hcut
    have hchained := h.chains.chained
    rw [hcut] at hchained
    exact ⟨_, Block.node_some.mp hchained.at_cut, Option.or_none⟩

theorem Holds.backward (h : Holds b s) : b.indexedRevIter = some s.items.reverse := by
  have hlast : b.instructionTail = s.order.reverse.head? := by
    rw [List.head?_reverse]
    exact h.chains.last
  have hlength : s.order.reverse.length ≤ b.instructions.length := by
    rw [List.length_reverse]
    exact h.order_length
  rw [Block.indexedRevIter, hlast,
    successors_spec hlength fun k hk => h.instructions_live (List.mem_reverse.mp hk)]
  · rw [Arrangement.items, h.slots, List.filterMap_reverse]
  · intro pre a post hcut
    have hcut' : s.order = post.reverse ++ a :: pre.reverse := by
      rw [← List.reverse_reverse s.order, hcut, List.reverse_append, List.reverse_cons,
        List.append_assoc, List.singleton_append]
    have hchained := h.chains.chained
    rw [hcut'] at hchained
    refine ⟨_, Block.node_some.mp hchained.at_cut, ?_⟩
    rw [Option.or_none, List.getLast?_reverse]

theorem Holds.arranged (h : Holds b s) : Arranged b s where
  forward := h.forward
  backward := h.backward
  keys := by
    rw [Arrangement.items]
    have hlive := h.live
    generalize s.order = order at hlive ⊢
    induction order with
    | nil => rfl
    | cons k order ih =>
      obtain ⟨inst, hinst⟩ := Option.isSome_iff_exists.mp (hlive k List.mem_cons_self)
      rw [List.filterMap_cons, hinst, Option.map_some]
      exact congrArg (k :: ·) (ih fun j hj => hlive j (List.mem_cons_of_mem _ hj))
  nodup := h.chains.nodup
  linked k := by
    rw [← h.linked, Option.isSome_iff_exists]
    exact exists_congr fun _ => Block.node_some.symm
  slots := h.slots

end Walk

/-! ### Without an index for a new slot -/

section Wrapped

variable {b b' : Block I} {s : Arrangement I} {prev next : Option ℕ} {n : ℕ}

/-- A walk from the head stays below `n`. -/
structure Below (b : Block I) (n : ℕ) : Prop where
  head : ∀ j ∈ b.instructionHead, j < n
  next : ∀ k e, b.node k = some e → ∀ j ∈ e.next, j < n

theorem visited_below (h : Below b n) {fuel : ℕ} {start : Option ℕ} (hstart : ∀ j ∈ start, j < n)
    {items : List (ℕ × I)} (hitems : b.successors Node.next fuel start = some items) :
    ∀ k ∈ items.map Prod.fst, k < n := by
  induction fuel generalizing start items with
  | zero =>
    cases start with
    | none =>
      cases hitems
      exact fun _ hk => nomatch hk
    | some _ => cases hitems
  | succ fuel ih =>
    cases start with
    | none =>
      cases hitems
      exact fun _ hk => nomatch hk
    | some index =>
      rw [Block.successors] at hitems
      simp only [bind, Option.bind_eq_some_iff] at hitems
      obtain ⟨inst, -, link, hlink, rest, hrest, heq⟩ := hitems
      cases heq
      have hnext : ∀ j ∈ link.bind Node.next, j < n := by
        cases link with
        | none => exact fun _ hj => nomatch hj
        | some e => exact h.next index e (Block.node_some.mpr hlink)
      intro k hk
      rcases List.mem_cons.mp hk with rfl | hk
      · exact hstart _ rfl
      · exact ih hnext hrest k hk

theorem Holds.below (h : Holds b s) : Below b s.slots.length where
  head j hj := by
    have hhead : b.instructionHead = s.order.head? := h.chains.head
    rw [hhead] at hj
    exact h.lt_length (List.mem_of_mem_head? hj)
  next k e he j hj := by
    have hk := (h.linked k).mp (he ▸ rfl)
    rcases (h.chains.chained.neighbours hk he).2 with hnone | ⟨i, hi, hsome⟩
    · rw [hnone] at hj
      cases hj
    · rw [hsome] at hj
      cases hj
      exact h.lt_length hi

theorem Below.linked (h : Below b n) {m : ℕ} {e : InstructionLink} (hlink : Block.Linked b b' m e)
    (he : ∀ j ∈ e.next, j < n) : Below b' n where
  head := by
    rw [hlink.head]
    exact h.head
  next k e' he' j hj := by
    rw [hlink.node, Function.update_apply] at he'
    split at he'
    · cases he'
      exact he j hj
    · exact h.next k e' he' j hj

theorem modifyLink_linked {slot : ℕ} {f : InstructionLink → InstructionLink}
    (h : b.modifyLink slot f = some b') : (b.node slot).isSome := by
  rw [Block.modifyLink] at h
  split at h
  · rename_i link hlink
    rw [Block.node_some.mpr hlink]
    rfl
  · cases h

theorem Below.setNextOf (h : Below b n) (hnext : ∀ j ∈ next, j < n)
    (hb : b.setNextOf prev next = some b') : Below b' n ∧ Block.SameSlots b b' := by
  have hprev : ∀ k ∈ prev, (b.node k).isSome := by
    intro k hk
    cases hk
    exact modifyLink_linked hb
  obtain ⟨b₂, hb₂, hnode, hhead, -, hsame⟩ := Block.setNextOf_spec b prev next hprev
  cases hb.symm.trans hb₂
  refine ⟨⟨?_, fun k e he j hj => ?_⟩, hsame⟩
  · rw [hhead]
    split
    · exact hnext
    · exact h.head
  · rw [hnode, write] at he
    split at he
    · obtain ⟨e, -, rfl⟩ := Option.map_eq_some_iff.mp he
      exact hnext j hj
    · exact h.next k e he j hj

theorem Below.setPrevOf (h : Below b n) (hb : b.setPrevOf next prev = some b') :
    Below b' n ∧ Block.SameSlots b b' := by
  have hnext : ∀ k ∈ next, (b.node k).isSome := by
    intro k hk
    cases hk
    exact modifyLink_linked hb
  obtain ⟨b₂, hb₂, hnode, -, hhead, hsame⟩ := Block.setPrevOf_spec b next prev hnext
  cases hb.symm.trans hb₂
  refine ⟨⟨?_, fun k e he j hj => ?_⟩, hsame⟩
  · rw [hhead]
    exact h.head
  · rw [hnode, write] at he
    split at he
    · obtain ⟨e₀, he₀, rfl⟩ := Option.map_eq_some_iff.mp he
      exact h.next k e₀ he₀ j hj
    · exact h.next k e he j hj

theorem Below.not_arranged (h : Below b n) (hn : (b.node n).isSome) (s : Arrangement I) :
    ¬ Arranged b s := by
  intro harranged
  obtain ⟨e, he⟩ := Option.isSome_iff_exists.mp hn
  have hmem := (harranged.linked n).mp ⟨e, Block.node_some.mp he⟩
  rw [← harranged.keys] at hmem
  exact Nat.lt_irrefl n (visited_below h h.head harranged.forward n hmem)

theorem asU32_lt (n : ℕ) : asU32 n < 2 ^ 32 := Nat.mod_lt _ (Nat.two_pow_pos 32)

/-- The slot after all indices of the type `u32` is linked but never found. -/
theorem Holds.wrapped (h : Holds b s) (hfull : s.slots.length = 2 ^ 32) {op : Op I}
    (hop : op.allocates = true) {e : Option ℕ} (hstep : b.step op = some (b', e))
    (s' : Arrangement I) : ¬ Arranged b' s' := by
  have hbelow := hfull ▸ h.below
  have hindex : ∀ j ∈ some (asU32 b.instructions.length), j < 2 ^ 32 := by
    intro j hj
    cases hj
    exact asU32_lt _
  cases op with
  | append inst =>
    rw [Block.step, Option.map_eq_some_iff] at hstep
    obtain ⟨r, hr, heq⟩ := hstep
    cases heq
    rw [Block.appendInst] at hr
    simp only [bind, Option.bind_eq_some_iff] at hr
    obtain ⟨b₂, hb₂, heq⟩ := hr
    cases heq
    have hlink := h.push_linked inst ⟨b.instructionTail, none⟩
    obtain ⟨hbelow₂, hsame⟩ := (hbelow.linked hlink fun _ hj => by cases hj).setNextOf hindex hb₂
    have hbelow' : Below { b₂ with instructionTail := some (asU32 b.instructions.length) }
        (2 ^ 32) := ⟨hbelow₂.head, hbelow₂.next⟩
    refine hbelow'.not_arranged ?_ s'
    rw [← hfull]
    exact (hsame.linked _).trans hlink.isSome
  | insertBefore before inst =>
    rw [Block.step, Option.map_eq_some_iff] at hstep
    obtain ⟨r, hr, heq⟩ := hstep
    cases heq
    rw [Block.insertInstBefore] at hr
    split at hr
    · rename_i beforeLink hget
      simp only [bind, Option.bind_eq_some_iff] at hr
      obtain ⟨b₂, hb₂, b₃, hb₃, heq⟩ := hr
      cases heq
      have hlink := h.push_linked inst ⟨beforeLink.prev, some before⟩
      have hbefore : ∀ j ∈ some before, j < 2 ^ 32 := by
        intro j hj
        cases hj
        have hin := (h.linked before).mp (Block.node_some.mpr hget ▸ rfl)
        exact hfull ▸ h.lt_length hin
      obtain ⟨hbelow₂, hsame₂⟩ := (hbelow.linked hlink hbefore).setNextOf hindex hb₂
      obtain ⟨hbelow₃, hsame₃⟩ := hbelow₂.setPrevOf hb₃
      refine hbelow₃.not_arranged ?_ s'
      rw [← hfull]
      exact ((hsame₂.trans hsame₃).linked _).trans hlink.isSome
    · cases hr
  | erase idx => cases hop
  | unlink idx => cases hop
  | relinkBefore idx before => cases hop

end Wrapped


/-! ### Whole runs -/

section Runs

variable {ops pre rest : List (Op I)}

theorem allocations_append : allocations (pre ++ rest) = allocations pre + allocations rest :=
  List.countP_append

theorem allocations_cut {n : ℕ} (h : n < allocations ops) : ∃ pre op post,
    ops = pre ++ op :: post ∧ allocations pre = n ∧ op.allocates = true := by
  induction ops generalizing n with
  | nil => cases h
  | cons op ops ih =>
    rw [allocations, List.countP_cons, ← allocations] at h
    by_cases hop : op.allocates
    · cases n with
      | zero => exact ⟨[], op, ops, rfl, rfl, hop⟩
      | succ n =>
        rw [if_pos hop] at h
        obtain ⟨pre, op', post, rfl, hpre, hop'⟩ := ih (Nat.lt_of_succ_lt_succ h)
        refine ⟨op :: pre, op', post, rfl, ?_, hop'⟩
        rw [allocations, List.countP_cons, ← allocations, hpre, if_pos hop]
    · rw [if_neg hop] at h
      obtain ⟨pre, op', post, rfl, hpre, hop'⟩ := ih h
      refine ⟨op :: pre, op', post, rfl, ?_, hop'⟩
      rw [allocations, List.countP_cons, ← allocations, hpre, if_neg hop]
      rfl

/-- A run that is taken is taken alike by the arrangement. -/
theorem run_arranged (hfits : allocations ops ≤ 2 ^ 32) {b : Block I} {es : List (Option ℕ)}
    (hrun : run Block.step .new ops = some (b, es)) :
    ∃ s, run Arrangement.step .new ops = some (s, es) ∧ Holds b s := by
  have hzero : (Arrangement.new : Arrangement I).slots.length + allocations ops ≤ 2 ^ 32 := by
    rwa [Arrangement.new, List.length_nil, Nat.zero_add]
  rcases Holds.new.run ops hzero with ⟨hb, -⟩ | ⟨b', s, es', hb, hs, h⟩
  · rw [hb] at hrun
    cases hrun
  · cases hrun.symm.trans hb
    exact ⟨s, hs, h⟩

theorem keepsOrder_of_allocations_le (hrun : (run Block.step (.new : Block I) ops).isSome)
    (hfits : allocations ops ≤ 2 ^ 32) : KeepsOrder ops := by
  obtain ⟨⟨b, es⟩, hrun⟩ := Option.isSome_iff_exists.mp hrun
  constructor
  · rintro pre ⟨rest, rfl⟩
    obtain ⟨b₁, es₁, -, hpre, -⟩ := run_append_some hrun
    rw [allocations_append] at hfits
    obtain ⟨s, hs, h⟩ := run_arranged (Nat.le_of_add_right_le hfits) hpre
    exact ⟨b₁, s, es₁, hpre, hs, h.arranged⟩
  · rintro pre mid ⟨rest, rfl⟩ b₁ e₁ b₂ e₂ hpre hmid k inst hkept hk
    rw [allocations_append] at hfits
    have hfits' := Nat.le_of_add_right_le hfits
    obtain ⟨s₂, hs₂, h₂⟩ := run_arranged hfits' hmid
    rw [allocations_append] at hfits'
    obtain ⟨s₁, hs₁, h₁⟩ := run_arranged (Nat.le_of_add_right_le hfits') hpre
    obtain ⟨s₁', _, _, hs₁', hrest, -⟩ := run_append_some hs₂
    cases hs₁.symm.trans hs₁'
    rw [h₁.slots] at hk
    rw [h₂.slots]
    exact Arrangement.run_keeps hrest hkept hk

theorem allocations_le_of_keepsOrder (h : KeepsOrder ops) : allocations ops ≤ 2 ^ 32 := by
  by_contra hmore
  obtain ⟨pre, op, post, rfl, hfull, hop⟩ := allocations_cut (Nat.not_le.mp hmore)
  have hpre : pre ++ [op] <+: pre ++ op :: post := ⟨post, by simp⟩
  obtain ⟨b', s', es, hb', -, harranged⟩ := h.arranged _ hpre
  obtain ⟨b, es₁, es₂, hb, hlast, -⟩ := run_append_some hb'
  obtain ⟨s, hs, hholds⟩ := run_arranged (Nat.le_of_eq hfull) hb
  have hlength := Arrangement.run_length hs
  rw [hfull, Arrangement.new, List.length_nil, Nat.zero_add] at hlength
  obtain ⟨b₂, e, es₃, hstep, hnil⟩ := run_cons_some hlast
  cases hnil
  exact hholds.wrapped hlength hop hstep s' harranged

end Runs

/-! ### As many appended instructions as there are -/

section Appended

variable {b : Block I} {s : Arrangement I}

theorem Holds.append_isSome (h : Holds b s) (inst : I) : (b.step (.append inst)).isSome := by
  have hlink := h.push_linked inst ⟨b.instructionTail, none⟩
  have hshows := hlink.shows h.chains h.fresh
  have hlast : b.instructionTail = s.order.getLast? := h.chains.last
  obtain ⟨b', hb', -⟩ := Block.setNextOf_spec (b.push inst ⟨b.instructionTail, none⟩)
    b.instructionTail (some (asU32 b.instructions.length))
    fun k hk => hshows.chained.isSome (List.mem_of_getLast? (hlast ▸ hk))
  rw [Block.step, Option.isSome_map, Block.appendInst]
  dsimp only [bind, Option.bind]
  rw [hb']
  rfl

theorem Arrangement.run_replicate_append (n : ℕ) (s : Arrangement I) (inst : I) :
    ∃ r, run Arrangement.step s (List.replicate n (.append inst)) = some r := by
  induction n generalizing s with
  | zero => exact ⟨_, rfl⟩
  | succ n ih =>
    obtain ⟨r, hr⟩ := ih (s.append inst)
    rw [List.replicate_succ, run, Arrangement.step, Option.bind_some, hr]
    exact ⟨_, rfl⟩

theorem allocations_replicate_append (n : ℕ) (inst : I) :
    allocations (List.replicate n (.append inst)) = n := by
  rw [allocations, List.countP_replicate]
  exact if_pos rfl

/-- One more than the indices of the type `u32` are appended without a fault. -/
theorem run_replicate_append {n : ℕ} (hn : n ≤ 2 ^ 32) (inst : I) :
    (run Block.step (.new : Block I) (List.replicate (n + 1) (.append inst))).isSome := by
  have hzero : (Arrangement.new : Arrangement I).slots.length +
      allocations (List.replicate n (.append inst)) ≤ 2 ^ 32 := by
    rwa [Arrangement.new, List.length_nil, Nat.zero_add, allocations_replicate_append]
  obtain ⟨r, hr⟩ := Arrangement.run_replicate_append n .new inst
  rw [List.replicate_succ', run_append]
  rcases Holds.new.run _ hzero with ⟨-, hs⟩ | ⟨b, s, es, hb, -, h⟩
  · rw [hr] at hs
    cases hs
  · obtain ⟨r', hr'⟩ := Option.isSome_iff_exists.mp (h.append_isSome inst)
    rw [hb, Option.bind_some, run, hr']
    rfl

end Appended

/-- The links keep the order exactly if the indices of the type `u32` last. -/
theorem keepsOrder_iff (ops : List (Op I)) (hrun : (run Block.step (.new : Block I) ops).isSome) :
    KeepsOrder ops ↔ allocations ops ≤ 2 ^ 32 :=
  ⟨allocations_le_of_keepsOrder, keepsOrder_of_allocations_le hrun⟩

theorem keepsOrder_relinked : KeepsOrder
    [.append 'a', .append 'b', .insertBefore 1 'c', .unlink 0, .relinkBefore 0 none, .erase 1] :=
  (keepsOrder_iff _ (by decide)).mpr (by decide)

theorem keepsOrder_wrapped :
    (run Block.step .new (List.replicate (2 ^ 32 + 1) (Op.append ()))).isSome ∧
      ¬ KeepsOrder (List.replicate (2 ^ 32 + 1) (Op.append ())) := by
  refine ⟨run_replicate_append (Nat.le_refl _) (), fun h => ?_⟩
  have hle := allocations_le_of_keepsOrder h
  rw [allocations_replicate_append] at hle
  exact Nat.not_succ_le_self _ hle

end Ruzu.Shader
