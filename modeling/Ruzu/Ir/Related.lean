import Mathlib
import Ruzu.Ir.UseCounts

/-!
# Codes that run alike

Two codes of the same length are compared place by place. What one place does to
types, or to outcomes and the state, follows from what the places before it did.
-/

set_option autoImplicit false

namespace Ruzu.Ir

/-! ### The types of the results -/

def typesOf (cs : List Code) : List Ty := cs.foldl (fun ts c => ts ++ [resultType ts c]) []

@[simp] theorem typesOf_snoc (cs : List Code) (c : Code) :
    typesOf (cs ++ [c]) = typesOf cs ++ [resultType (typesOf cs) c] := by
  rw [typesOf, List.foldl_append]
  rfl

@[simp] theorem typesOf_length (cs : List Code) : (typesOf cs).length = cs.length := by
  induction cs using List.reverseRecOn with
  | nil => rfl
  | append_singleton cs c ih => rw [typesOf_snoc, List.length_append, ih, List.length_append]; rfl

theorem typed_snoc {cs : List Code} {c : Code} :
    Typed [] (cs ++ [c]) ↔ Typed [] cs ∧ ArgsFit (typesOf cs) c := by
  have h (ds : List Code) (ts : List Ty) : Typed ts (ds ++ [c]) ↔
      Typed ts ds ∧ ArgsFit (ds.foldl (fun ts c => ts ++ [resultType ts c]) ts) c := by
    induction ds generalizing ts with
    | nil => simp [Typed]
    | cons d ds ih => rw [List.cons_append, Typed, ih, Typed, and_assoc, List.foldl_cons]
  exact h cs []

theorem typed_prefix {cs ds : List Code} {ts : List Ty} (h : Typed ts (cs ++ ds)) :
    Typed ts cs := by
  induction cs generalizing ts with
  | nil => trivial
  | cons c cs ih => exact ⟨h.1, ih h.2⟩

theorem take_snoc {cs : List Code} {k : ℕ} {c : Code} (hc : cs[k]? = some c) :
    cs.take (k+1) = cs.take k ++ [c] := by
  rw [List.take_add_one, hc]
  rfl

theorem typesOf_take_length {cs : List Code} {k : ℕ} (hk : k ≤ cs.length) :
    (typesOf (cs.take k)).length = k := by
  rw [typesOf_length, List.length_take_of_le hk]

/-- The arguments fit the types in front. -/
theorem Typed.fits {cs : List Code} (h : Typed [] cs) {k : ℕ} {c : Code} (hc : cs[k]? = some c) :
    ArgsFit (typesOf (cs.take k)) c := by
  have hcut : Typed [] (cs.take (k+1) ++ cs.drop (k+1)) := by rwa [List.take_append_drop]
  exact (typed_snoc.1 (take_snoc hc ▸ typed_prefix hcut)).2

theorem typesOf_take_getD {cs : List Code} {r : ℕ} {c : Code} (hc : cs[r]? = some c) {k : ℕ}
    (hk : r < k) : (typesOf (cs.take k)).getD r .void = resultType (typesOf (cs.take r)) c := by
  have hr := (List.getElem?_eq_some_iff.mp hc).1
  induction k with
  | zero => exact absurd hk (Nat.not_lt_zero r)
  | succ k ih =>
    by_cases hend : cs.length ≤ k
    · have hsame : cs.take (k+1) = cs.take k := by
        rw [List.take_of_length_le (by omega), List.take_of_length_le hend]
      rw [hsame]
      exact ih (by omega)
    obtain ⟨d, hd⟩ : ∃ d, cs[k]? = some d := ⟨_, List.getElem?_eq_getElem (Nat.not_le.mp hend)⟩
    have hlen := typesOf_take_length (Nat.le_of_not_ge hend)
    rw [take_snoc hd, typesOf_snoc]
    rcases Nat.lt_succ_iff_lt_or_eq.1 hk with hlt | rfl
    · rw [List.getD_append _ _ _ _ (by omega)]
      exact ih hlt
    · obtain rfl : c = d := Option.some.inj (hc.symm.trans hd)
      rw [List.getD_append_right _ _ _ _ (by omega), hlen, Nat.sub_self]
      rfl

/-- What an argument refers to has a result. -/
theorem Typed.ref_ne_void {cs : List Code} (h : Typed [] cs) {j k : ℕ} {c d : Code}
    (hc : cs[j]? = some c) (hk : k ∈ c.refs) (hd : cs[k]? = some d) :
    resultType (typesOf (cs.take k)) d ≠ .void := by
  have hmem := Code.mem_refs.1 hk
  have hkj := h.mem_refs hc (List.mem_of_mem_take hmem)
  obtain ⟨a, ha⟩ := List.getElem?_of_mem hmem
  have hlt : a < c.1.numArgs := by
    have := (List.getElem?_eq_some_iff.mp ha).1
    rw [List.length_take] at this
    omega
  rw [List.getElem?_take, if_pos hlt] at ha
  have hfit := (h.fits hc).arg hlt
  rw [List.getD_eq_getElem?_getD, ha, Option.getD_some] at hfit
  rw [← typesOf_take_getD hd hkj]
  exact hfit.1

/-- An argument has the same type wherever it stands behind what it refers to. -/
theorem typeOf_take {cs : List Code} {j k : ℕ} (hj : j ≤ cs.length) (hjk : j ≤ k) {v : Value}
    (hv : ∀ r, v = .inst r → r < j) :
    typeOf (typesOf (cs.take k)) v = typeOf (typesOf (cs.take j)) v := by
  cases v with
  | inst r =>
    have hr := hv r rfl
    have hc := List.getElem?_eq_getElem (hr.trans_le hj)
    exact (typesOf_take_getD hc (hr.trans_le hjk)).trans (typesOf_take_getD hc hr).symm
  | _ => rfl

/-- Places that fit as those of a typed code do make a typed code. -/
theorem typed_related {cs cs' : List Code} (hlen : cs'.length = cs.length)
    {T : ℕ → Ty → Ty → Prop}
    (hstep : ∀ k c c', cs[k]? = some c → cs'[k]? = some c' →
      (∀ i < k, T i ((typesOf (cs.take k)).getD i .void) ((typesOf (cs'.take k)).getD i .void)) →
      ArgsFit (typesOf (cs.take k)) c → ArgsFit (typesOf (cs'.take k)) c' ∧
        T k (resultType (typesOf (cs.take k)) c) (resultType (typesOf (cs'.take k)) c'))
    (h : Typed [] cs) : Typed [] cs' := by
  suffices ∀ n ≤ cs.length, Typed [] (cs'.take n) ∧
      ∀ i < n, T i ((typesOf (cs.take n)).getD i .void) ((typesOf (cs'.take n)).getD i .void) by
    have hall := (this cs.length le_rfl).1
    rwa [← hlen, List.take_length] at hall
  intro n
  induction n with
  | zero => exact fun _ => ⟨trivial, fun _ hi => absurd hi (Nat.not_lt_zero _)⟩
  | succ n ih =>
    intro hn
    obtain ⟨hty, hrel⟩ := ih (Nat.le_of_succ_le hn)
    have hc := List.getElem?_eq_getElem (l := cs) hn
    have hc' := List.getElem?_eq_getElem (l := cs') (by rwa [hlen])
    have hl := typesOf_take_length (Nat.le_of_succ_le hn)
    have hl' : (typesOf (cs'.take n)).length = n := typesOf_take_length (by omega)
    obtain ⟨hfit', hnew⟩ := hstep n _ _ hc hc' hrel (h.fits hc)
    refine ⟨?_, fun i hi => ?_⟩
    · rw [take_snoc hc', typed_snoc]
      exact ⟨hty, hfit'⟩
    · rw [take_snoc hc, take_snoc hc', typesOf_snoc, typesOf_snoc]
      rcases Nat.lt_succ_iff_lt_or_eq.1 hi with hi | rfl
      · rw [List.getD_append _ _ _ _ (by omega), List.getD_append _ _ _ _ (by omega)]
        exact hrel i hi
      · rw [List.getD_append_right _ _ _ _ (by omega), List.getD_append_right _ _ _ _ (by omega),
          hl, hl', Nat.sub_self]
        exact hnew

/-- Places with the same type, that fit where the others do, make a typed code. -/
theorem typed_same {cs cs' : List Code} (hlen : cs'.length = cs.length)
    (hstep : ∀ k c c', cs[k]? = some c → cs'[k]? = some c' →
      ArgsFit (typesOf (cs.take k)) c → ArgsFit (typesOf (cs.take k)) c' ∧
        resultType (typesOf (cs.take k)) c' = resultType (typesOf (cs.take k)) c)
    (h : Typed [] cs) : Typed [] cs' := by
  suffices ∀ n ≤ cs.length, Typed [] (cs'.take n) ∧
      typesOf (cs'.take n) = typesOf (cs.take n) by
    have hall := (this cs.length le_rfl).1
    rwa [← hlen, List.take_length] at hall
  intro n
  induction n with
  | zero => exact fun _ => ⟨trivial, rfl⟩
  | succ n ih =>
    intro hn
    obtain ⟨hty, hsame⟩ := ih (Nat.le_of_succ_le hn)
    have hc := List.getElem?_eq_getElem (l := cs) hn
    have hc' := List.getElem?_eq_getElem (l := cs') (by rwa [hlen])
    obtain ⟨hfit, hres⟩ := hstep n _ _ hc hc' (h.fits hc)
    rw [take_snoc hc, take_snoc hc', typed_snoc, typesOf_snoc, typesOf_snoc, hsame, hres]
    exact ⟨⟨hty, hfit⟩, rfl⟩

/-! ### Outcomes and the state -/

variable {S : Type*} {m : Machine S}

theorem operands_congr {env env' : List Outcome} {c : Code}
    (h : ∀ r ∈ c.refs, env.getD r (.plain .void) = env'.getD r (.plain .void)) :
    operands env c = operands env' c := by
  refine List.map_congr_left fun v hv => ?_
  cases v with
  | inst r => exact h r (Code.mem_refs.2 hv)
  | _ => rfl

/-- An outcome stays at its place. -/
theorem reached_getD {cs : List Code} {r k : ℕ} {c : Code} (hc : cs[r]? = some c) (hk : r < k)
    (s : S) (o : Outcome) : (reached m cs k s).1.getD r o =
      (step m c (reached m cs r s).1 (reached m cs r s).2).1 := by
  have hr := (List.getElem?_eq_some_iff.mp hc).1
  have hlen := reached_length (m := m) (Nat.le_of_lt hr) s
  rw [reached, Ssa.upTo_getD (j := r+1) hk, ← reached, reached_succ hc]
  · simp [Ssa.next, List.getD_eq_getElem?_getD, hlen]
  · rw [← reached, reached_length hr]
    exact Nat.lt_succ_self r

/-- The codes leave the same state and related outcomes. -/
theorem runCode_related {cs cs' : List Code} (hlen : cs'.length = cs.length)
    {R : ℕ → Outcome → Outcome → Prop} (s : S)
    (hstep : ∀ k c c', cs[k]? = some c → cs'[k]? = some c' →
      (reached m cs' k s).2 = (reached m cs k s).2 →
      (∀ i < k, R i ((reached m cs k s).1.getD i (.plain .void))
        ((reached m cs' k s).1.getD i (.plain .void))) →
      R k (step m c (reached m cs k s).1 (reached m cs k s).2).1
          (step m c' (reached m cs' k s).1 (reached m cs k s).2).1 ∧
        (step m c' (reached m cs' k s).1 (reached m cs k s).2).2 =
          (step m c (reached m cs k s).1 (reached m cs k s).2).2) :
    (runCode m cs' s).2 = (runCode m cs s).2 ∧ ∀ i < cs.length,
      R i ((runCode m cs s).1.getD i (.plain .void))
        ((runCode m cs' s).1.getD i (.plain .void)) := by
  suffices ∀ n ≤ cs.length, (reached m cs' n s).2 = (reached m cs n s).2 ∧ ∀ i < n,
      R i ((reached m cs n s).1.getD i (.plain .void))
        ((reached m cs' n s).1.getD i (.plain .void)) by
    have hall := this cs.length le_rfl
    rw [reached_all] at hall
    rwa [← hlen, reached_all, hlen] at hall
  intro n
  induction n with
  | zero => exact fun _ => ⟨rfl, fun _ hi => absurd hi (Nat.not_lt_zero _)⟩
  | succ n ih =>
    intro hn
    obtain ⟨hstate, hrel⟩ := ih (Nat.le_of_succ_le hn)
    have hc := List.getElem?_eq_getElem (l := cs) hn
    have hc' := List.getElem?_eq_getElem (l := cs') (by rwa [hlen])
    have hl := reached_length (m := m) (Nat.le_of_succ_le hn) s
    have hl' : (reached m cs' n s).1.length = n := reached_length (by omega) s
    obtain ⟨hnew, hsame⟩ := hstep n _ _ hc hc' hstate hrel
    rw [reached_succ hc, reached_succ hc', Ssa.next, Ssa.next, hstate]
    refine ⟨hsame, fun i hi => ?_⟩
    rcases Nat.lt_succ_iff_lt_or_eq.1 hi with hi | rfl
    · rw [List.getD_append _ _ _ _ (by omega), List.getD_append _ _ _ _ (by omega)]
      exact hrel i hi
    · rw [List.getD_append_right _ _ _ _ (by omega), List.getD_append_right _ _ _ _ (by omega),
        hl, hl', Nat.sub_self]
      exact hnew

/-- Places that do the same make codes that do the same. -/
theorem runCode_same {cs cs' : List Code} (hlen : cs'.length = cs.length) (s : S)
    (hstep : ∀ k c c', cs[k]? = some c → cs'[k]? = some c' →
      step m c' (reached m cs k s).1 (reached m cs k s).2 =
        step m c (reached m cs k s).1 (reached m cs k s).2) :
    runCode m cs' s = runCode m cs s := by
  suffices ∀ n ≤ cs.length, reached m cs' n s = reached m cs n s by
    have hall := this cs.length le_rfl
    rwa [reached_all, ← hlen, reached_all] at hall
  intro n
  induction n with
  | zero => exact fun _ => rfl
  | succ n ih =>
    intro hn
    have hc := List.getElem?_eq_getElem (l := cs) hn
    have hc' := List.getElem?_eq_getElem (l := cs') (by rwa [hlen])
    rw [reached_succ hc, reached_succ hc', ih (Nat.le_of_succ_le hn), Ssa.next, Ssa.next,
      hstep n _ _ hc hc']

theorem runCode_all {P : Outcome → Prop} (h : ∀ op args s, P (m op args s).1) (cs : List Code)
    (s : S) : ∀ o ∈ (runCode m cs s).1, P o := by
  induction cs using List.reverseRecOn with
  | nil => exact fun o ho => absurd ho List.not_mem_nil
  | append_singleton cs c ih =>
    intro o ho
    rw [runCode_snoc, Ssa.next, List.mem_append, List.mem_singleton] at ho
    rcases ho with ho | rfl
    · exact ih o ho
    · exact h _ _ _

/-! ### Emptied instructions -/

section Kept

variable {cs cs' : List Code} {kept : ℕ → Prop}

/-- The instructions that are not kept have been emptied, and no kept one reads them. -/
structure Emptied (cs cs' : List Code) (kept : ℕ → Prop) : Prop where
  length : cs'.length = cs.length
  stay : ∀ k c, cs[k]? = some c → kept k → cs'[k]? = some c
  emptied : ∀ k, k < cs.length → ¬kept k → cs'[k]? = some (.void, [])
  refs : ∀ k c, cs[k]? = some c → kept k → ∀ r ∈ c.refs, kept r

variable (h : Emptied cs cs' kept)
include h

theorem Emptied.typed (hty : Typed [] cs) : Typed [] cs' := by
  refine typed_related (T := fun k t t' => kept k → t = t') h.length
    (fun k c c' hc hc' hrel hfit => ?_) hty
  by_cases hk : kept k
  · rw [h.stay k c hc hk] at hc'
    obtain rfl := Option.some.inj hc'
    have htypes : ∀ v ∈ c.2, typeOf (typesOf (cs'.take k)) v = typeOf (typesOf (cs.take k)) v := by
      intro v hv
      cases v with
      | inst r =>
        have hmem : r ∈ c.refs :=
          Code.mem_refs.2 (by rwa [List.take_of_length_le (Nat.le_of_eq hfit.1)])
        exact (hrel r (hty.mem_refs hc hv) (h.refs k c hc hk r hmem)).symm
      | _ => rfl
    refine ⟨⟨hfit.1, fun p hp => ?_⟩, fun _ => ?_⟩
    · rw [htypes _ (List.of_mem_zip hp).1]
      exact hfit.2 p hp
    · rw [resultType, resultType]
      by_cases hid : c.1 = .identity
      · have hlen : c.2.length = 1 := by rw [hfit.1, hid]; rfl
        obtain ⟨v, hv⟩ := List.length_eq_one_iff.mp hlen
        rw [if_pos hid, if_pos hid, hv]
        exact (htypes v (hv ▸ List.mem_singleton_self v)).symm
      · rw [if_neg hid, if_neg hid]
  · rw [h.emptied k (List.getElem?_eq_some_iff.mp hc).1 hk] at hc'
    obtain rfl := Option.some.inj hc'
    exact ⟨⟨rfl, fun p hp => absurd hp List.not_mem_nil⟩, fun hkept => absurd hkept hk⟩

/-- When the emptied instructions left the state alone, the state and the outcomes of the
kept ones are the same. -/
theorem Emptied.runCode (hm : Sensible m)
    (hquiet : ∀ k c, cs[k]? = some c → ¬kept k → ∀ args s, (m c.1 args s).2 = s) (s : S) :
    (runCode m cs' s).2 = (runCode m cs s).2 ∧ ∀ k < cs.length, kept k →
      (runCode m cs s).1.getD k (.plain .void) = (runCode m cs' s).1.getD k (.plain .void) := by
  refine runCode_related (R := fun k o o' => kept k → o = o') h.length s
    fun k c c' hc hc' hstate hrel => ?_
  have hlt := (List.getElem?_eq_some_iff.mp hc).1
  by_cases hk : kept k
  · rw [h.stay k c hc hk] at hc'
    obtain rfl := Option.some.inj hc'
    have hops : operands (reached m cs k s).1 c = operands (reached m cs' k s).1 c := by
      refine operands_congr fun r hr => ?_
      by_cases hrk : r < k
      · exact hrel r hrk (h.refs k c hc hk r hr)
      · rw [List.getD_eq_default _ _ (by rw [reached_length hlt.le]; omega),
          List.getD_eq_default _ _ (by rw [reached_length (h.length ▸ hlt.le)]; omega)]
    rw [step, step, hops]
    exact ⟨fun _ => rfl, rfl⟩
  · rw [h.emptied k hlt hk] at hc'
    obtain rfl := Option.some.inj hc'
    refine ⟨fun hkept => absurd hkept hk, ?_⟩
    rw [step, step, hm.void, hquiet k c hc hk]

end Kept

/-- One instruction that nothing reads is emptied. -/
theorem emptied_set {cs : List Code} {i : ℕ} (hunread : uses cs i = 0) :
    Emptied cs (cs.set i (.void, [])) (· ≠ i) where
  length := List.length_set ..
  stay k c hc hk := (List.getElem?_set_ne (Ne.symm hk)).trans hc
  emptied k hk hki := by
    obtain rfl := not_not.mp hki
    exact List.getElem?_set_self hk
  refs k c hc _ r hr hri := by
    have := uses_pos_iff.2 ⟨k, c, hc, hri ▸ hr⟩
    omega

end Ruzu.Ir
