import Mathlib

/-!
# Chains of links

A finite list is the chain from a head when following the links from the head
visits exactly the list and stops at its end. A head has at most one chain,
and a chain never visits a node twice.
-/

set_option autoImplicit false

namespace Ruzu.Linked

variable {α : Type*}

def Chain (next : α → Option α) : Option α → List α → Prop
  | head, [] => head = none
  | head, i::l => head = some i ∧ Chain next (next i) l

variable {next next' : α → Option α} {head : Option α} {i : α} {l l' : List α}

theorem chain_congr (h : Chain next head l) (hn : ∀ j ∈ l, next' j = next j) :
    Chain next' head l := by
  induction l generalizing head with
  | nil => exact h
  | cons j l ih =>
    refine ⟨h.1, ?_⟩
    rw [hn j (by simp)]
    exact ih h.2 fun x hx => hn x (by simp [hx])

theorem chain_unique (h : Chain next head l) (h' : Chain next head l') : l = l' := by
  induction l generalizing head l' with
  | nil =>
    cases l' with
    | nil => rfl
    | cons j l' =>
      have hn : head = none := h
      rw [h'.1] at hn
      cases hn
  | cons j l ih =>
    cases l' with
    | nil =>
      have hn : head = none := h'
      rw [h.1] at hn
      cases hn
    | cons k l' =>
      have hjk : j = k := Option.some.inj (h.1.symm.trans h'.1)
      subst hjk
      rw [ih h.2 h'.2]

theorem chain_tail {pre post : List α} (h : Chain next head (pre ++ i::post)) :
    Chain next (next i) post := by
  induction pre generalizing head with
  | nil => exact h.2
  | cons j pre ih => exact ih h.2

/-- Following links to an end is acyclic. -/
theorem chain_nodup (h : Chain next head l) : l.Nodup := by
  induction l generalizing head with
  | nil => exact List.nodup_nil
  | cons j l ih =>
    refine List.nodup_cons.mpr ⟨fun hj => ?_, ih h.2⟩
    obtain ⟨pre, post, rfl⟩ := List.append_of_mem hj
    -- the links from `j` would end after two different lengths
    have hlen := congrArg List.length (chain_unique h.2 (chain_tail h.2))
    simp only [List.length_append, List.length_cons] at hlen
    omega

theorem chain_push (h : Chain next head l) (hn : ∀ j ∈ l, next' j = next j)
    (hnext : next' i = head) : Chain next' (some i) (i::l) :=
  ⟨rfl, by rw [hnext]; exact chain_congr h hn⟩

/-- A node linked behind the last one. -/
theorem chain_snoc {t x : α} (h : Chain next head (l ++ [t])) (hn : ∀ j ∈ l, next' j = next j)
    (ht : next' t = some x) (hx : next' x = none) : Chain next' head (l ++ [t] ++ [x]) := by
  induction l generalizing head with
  | nil => exact ⟨h.1, ht, hx⟩
  | cons j l ih =>
    refine ⟨h.1, ?_⟩
    rw [hn j (by simp)]
    exact ih h.2 fun i hi => hn i (by simp [hi])

end Ruzu.Linked
