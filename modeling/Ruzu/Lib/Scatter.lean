import Mathlib

/-!
# Counted loops that copy ranges

A counted loop may fail in its body. A loop that copies ranges from one list
into another is described by the places it has moved so far: each of them has
a source and a destination, and whatever is no destination is left alone.
Two places may share a destination when their sources agree.
-/

set_option autoImplicit false

namespace Ruzu.Scatter

variable {σ β ι : Type*}

/-- `for i in 0..n`. -/
def loop (n : ℕ) (init : σ) (body : σ → ℕ → Option σ) : Option σ :=
  (List.range n).foldlM body init

theorem loop_succ (n : ℕ) (init : σ) (body : σ → ℕ → Option σ) :
    loop (n + 1) init body = (loop n init body).bind (body · n) := by
  rw [loop, List.range_succ, List.foldlM_append]
  simp [loop]

/-- The rule for a loop: the body keeps the invariant and does not fail. -/
theorem loop_rule (I : ℕ → σ → Prop) {n : ℕ} {init : σ} {body : σ → ℕ → Option σ}
    (first : I 0 init)
    (next : ∀ i s, i < n → I i s → ∃ s', body s i = some s' ∧ I (i + 1) s') :
    ∃ s, loop n init body = some s ∧ I n s := by
  induction n with
  | zero => exact ⟨init, rfl, first⟩
  | succ n ih =>
    obtain ⟨s, hs, hi⟩ := ih fun i s hi => next i s (Nat.lt_succ_of_lt hi)
    obtain ⟨s', hs', hi'⟩ := next n s (Nat.lt_succ_self n) hi
    exact ⟨s', by rw [loop_succ, hs, Option.bind_some, hs'], hi'⟩

/-- The rule for a loop that does not fail. -/
theorem foldl_rule (I : ℕ → σ → Prop) {n : ℕ} {init : σ} {body : σ → ℕ → σ} (first : I 0 init)
    (next : ∀ i s, i < n → I i s → I (i + 1) (body s i)) :
    I n ((List.range n).foldl body init) := by
  induction n with
  | zero => exact first
  | succ n ih =>
    rw [List.range_succ, List.foldl_append]
    exact next n _ (Nat.lt_succ_self n) (ih fun i s hi => next i s (Nat.lt_succ_of_lt hi))

/-- `n` elements of `input` from `src` on replace those of `output` from `dst` on. -/
def splice (output input : List β) (dst src n : ℕ) : List β :=
  output.take dst ++ (input.drop src).take n ++ output.drop (dst + n)

/-- Both ranges are in bounds. -/
def InBounds (output input : List β) (dst src n : ℕ) : Prop :=
  dst + n ≤ output.length ∧ src + n ≤ input.length

instance (output input : List β) (dst src n : ℕ) : Decidable (InBounds output input dst src n) :=
  inferInstanceAs (Decidable (_ ∧ _))

variable {output input : List β} {dst src n : ℕ}

theorem splice_length (h : InBounds output input dst src n) :
    (splice output input dst src n).length = output.length := by
  obtain ⟨hd, hs⟩ := h
  simp only [splice, List.length_append, List.length_take, List.length_drop]
  omega

theorem splice_moved (h : InBounds output input dst src n) {k : ℕ} (hk : k < n) :
    (splice output input dst src n)[dst + k]? = input[src + k]? := by
  obtain ⟨hd, hs⟩ := h
  rw [splice, List.append_assoc, List.getElem?_append_right (by simp)]
  rw [List.length_take, Nat.min_eq_left (by omega), Nat.add_sub_cancel_left]
  rw [List.getElem?_append_left, List.getElem?_take_of_lt hk, List.getElem?_drop]
  simp
  omega

theorem splice_kept (h : InBounds output input dst src n) {i : ℕ} (hi : i < dst ∨ dst + n ≤ i) :
    (splice output input dst src n)[i]? = output[i]? := by
  obtain ⟨hd, hs⟩ := h
  rw [splice, List.append_assoc]
  rcases hi with hi | hi
  · rw [List.getElem?_append_left (by simp; omega), List.getElem?_take_of_lt hi]
  · rw [List.getElem?_append_right (by simp; omega), List.getElem?_append_right (by simp; omega),
      List.getElem?_drop]
    simp only [List.length_take, List.length_drop]
    congr 1
    omega

/-- `out` is `output` after the places of `moved` have been copied. -/
structure Copied (dest orig : ι → ℕ) (output input : List β) (moved : Set ι) (out : List β) :
    Prop where
  length : out.length = output.length
  copied : ∀ p ∈ moved, out[dest p]? = input[orig p]?
  kept : ∀ i, (∀ p ∈ moved, dest p ≠ i) → out[i]? = output[i]?

/-- Places that share a destination get the same value. -/
def Compatible (dest orig : ι → ℕ) (input : List β) (moved : Set ι) : Prop :=
  ∀ p ∈ moved, ∀ q ∈ moved, dest p = dest q → input[orig p]? = input[orig q]?

theorem Compatible.mono {dest orig : ι → ℕ} {moved moved' : Set ι}
    (h : Compatible dest orig input moved') (sub : moved ⊆ moved') :
    Compatible dest orig input moved :=
  fun p hp q hq => h p (sub hp) q (sub hq)

variable {dest orig : ι → ℕ} {moved moved' : Set ι} {out : List β}

theorem Copied.nothing : Copied dest orig output input ∅ output where
  length := rfl
  copied _ hp := absurd hp (Set.notMem_empty _)
  kept _ _ := rfl

theorem Copied.splice (h : Copied dest orig output input moved out)
    (compatible : Compatible dest orig input moved')
    (bounds : InBounds out input dst src n) (place : ℕ → ι)
    (hdest : ∀ k, k < n → dest (place k) = dst + k) (horig : ∀ k, k < n → orig (place k) = src + k)
    (hmoved : ∀ p, p ∈ moved' ↔ p ∈ moved ∨ ∃ k, k < n ∧ p = place k) :
    Copied dest orig output input moved' (splice out input dst src n) where
  length := (splice_length bounds).trans h.length
  copied p hp := by
    by_cases hin : dst ≤ dest p ∧ dest p < dst + n
    · obtain ⟨k, hk⟩ := Nat.exists_eq_add_of_le hin.1
      have hkn : k < n := by omega
      rw [hk, splice_moved bounds hkn, ← horig k hkn]
      exact compatible _ ((hmoved _).mpr (.inr ⟨k, hkn, rfl⟩)) _ hp ((hdest k hkn).trans hk.symm)
    · rcases (hmoved p).mp hp with hold | ⟨k, hk, rfl⟩
      · rw [splice_kept bounds (by omega)]
        exact h.copied p hold
      · have := hdest k hk
        omega
  kept i hi := by
    have hout : i < dst ∨ dst + n ≤ i := by
      by_contra hin
      obtain ⟨k, hk⟩ := Nat.exists_eq_add_of_le (show dst ≤ i by omega)
      have hkn : k < n := by omega
      exact hi (place k) ((hmoved _).mpr (.inr ⟨k, hkn, rfl⟩)) ((hdest k hkn).trans hk.symm)
    rw [splice_kept bounds hout]
    exact h.kept i fun p hp => hi p ((hmoved p).mpr (.inl hp))

/-- Copying there and back. -/
theorem Copied.back {back result : List β} (h : Copied dest orig output input moved out)
    (h' : Copied orig dest back out moved result) {i : ℕ} (hi : ∃ p ∈ moved, orig p = i) :
    result[i]? = input[i]? := by
  obtain ⟨p, hp, rfl⟩ := hi
  rw [h'.copied p hp, h.copied p hp]

end Ruzu.Scatter
