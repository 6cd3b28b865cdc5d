import Ruzu.Ir.A32RegisterMoves
import Ruzu.Ir.Rename

/-!
# What the A32 register pass keeps

The walk is a get/set elimination on the original code with the inserted
instructions put in: `P` is that code as far as it has been walked, `Q` what
has become of it, and the original code is embedded in `P`.
-/

set_option autoImplicit false

namespace Ruzu.Ir.A32

variable {E : Type*} {other : Machine (State (fun _ : Loc => BitVec 32) E)}

theorem access_rename (g : ℕ → ℕ) (c : Code) :
    views.access (Code.rename g c) = views.access c := by
  have hinst : ∀ op r, view op (.inst r) = none := by
    intro op r
    unfold view
    split <;> simp_all
  rw [Views.access, Views.access, rename_getD]
  cases h : c.2.getD 0 .void with
  | inst r => exact (hinst c.1 (g r)).trans (hinst c.1 r).symm
  | _ => rfl

theorem named_rename {g : ℕ → ℕ} {c : Code} (h : views.Named c) :
    views.Named (Code.rename g c) := by
  intro hop
  rw [access_rename]
  exact h hop

/-- What a set in the walked code stores. -/
structure Stores (other : Machine (State (fun _ : Loc => BitVec 32) E)) (P : List Code) : Prop where
  typed : ∀ j c w, P[j]? = some c → views.access c = some (true, w) → ∀ s,
    (evalArg (runCode (views.exec other) (P.take j) s).1 (views.operandOf c w)).value.ty = w.ty
  back : ∀ j c w r, P[j]? = some c → views.access c = some (true, w) →
    views.operandOf c w = .inst r → r < j
  zeroed : ∀ j c n, P[j]? = some c → views.access c = some (true, .vectorDouble n) →
    P[j+1]? = some (.vectorZeroUpper, [views.operandOf c (.vectorDouble n)])

/-- The meaning of `VectorZeroUpper`. -/
theorem step_zeroUpper (hm : Meaning other) {env : List Outcome} {v : Value} {x : BitVec 128}
    (hv : (evalArg env v).value = .u128 x) (s : State (fun _ => BitVec 32) E) :
    step (views.exec other) (.vectorZeroUpper, [v]) env s =
      (.plain (.u128 ((x.setWidth 64).setWidth 128)), s) := by
  have hview : ∀ u, views.view .vectorZeroUpper u = none := Views.view_none lawful rfl
  have hops : operands env ((.vectorZeroUpper, [v]) : Code) = [evalArg env v] := rfl
  simp only [step, Views.exec, hops, hview]
  rw [if_neg (by simp), if_neg (by simp)]
  exact hm.zeroUpper _ x s hv

section Stores

variable {P Q : List Code} (h : Stores other P)
include h

theorem Stores.recorded {j : ℕ} {c : Code} {w : View} (hc : P[j]? = some c)
    (hacc : views.access c = some (true, w)) :
    (views.recorded record P j w = views.operandOf c w ∧ ∀ n, w ≠ .vectorDouble n) ∨
      ∃ n, w = .vectorDouble n ∧ views.recorded record P j w = .inst (j+1) ∧
        j+1 < P.length := by
  have hget : P.getD j (.void, []) = c := by
    rw [List.getD_eq_getElem?_getD, hc, Option.getD_some]
  rw [Views.recorded, hget]
  cases w with
  | vectorDouble n =>
    exact Or.inr ⟨n, rfl, rfl, (List.getElem?_eq_some_iff.mp (h.zeroed j c n hc hacc)).1⟩
  | _ => exact Or.inl ⟨rfl, by simp⟩

/-- What is known of a register refers to the walked code. -/
theorem Stores.entry_back {info : Views.Tracking Loc View} (ht : views.Traced record P Q info)
    {l : Loc} {e : Views.Entry View} (he : info l = some e) {r : ℕ} (hr : e.value = .inst r) :
    r < P.length := by
  cases hlast : e.lastSet with
  | none =>
    obtain ⟨r', hlt, hval⟩ := ht.fromGet l e he hlast
    rw [hr] at hval
    cases hval
    exact hlt
  | some j =>
    have hf := ht.fromSet l e j he hlast
    obtain ⟨c, hc, hset, -⟩ := hf.live.source
    have hj := (List.getElem?_eq_some_iff.mp hc).1
    rw [hf.value] at hr
    rcases h.recorded hc hset with ⟨hrec, -⟩ | ⟨n, -, hrec, hlt⟩
    · rw [hrec] at hr
      exact (h.back j c _ r hc hset hr).trans hj
    · rw [hrec] at hr
      cases hr
      exact hlt

/-- A move only writes references to the walked code. -/
theorem Stores.move_back {R : List Code} {info info' : Views.Tracking Loc View} {c : Code}
    (ht : views.Traced record P Q info) (hm : views.Move record P Q info c R info')
    (hQ : ∀ d ∈ Q, ∀ r, Value.inst r ∈ d.2 → r < Q.length)
    (hc : ∀ r, Value.inst r ∈ c.2 → r < Q.length) :
    ∀ d ∈ R, ∀ r, Value.inst r ∈ d.2 → r < Q.length := by
  have hsnoc : ∀ Q' : List Code, (∀ d ∈ Q', ∀ r, Value.inst r ∈ d.2 → r < Q.length) → ∀ d' : Code,
      (∀ r, Value.inst r ∈ d'.2 → r < Q.length) →
      ∀ d ∈ Q' ++ [d'], ∀ r, Value.inst r ∈ d.2 → r < Q.length := by
    intro Q' hQ' d' hd' d hd
    rcases List.mem_append.mp hd with hold | hlast
    · exact hQ' d hold
    · rw [List.mem_singleton.mp hlast]
      exact hd'
  cases hm with
  | pass hacc => exact hsnoc Q hQ c hc
  | skip isSet w hacc htr hnone => exact hsnoc Q hQ c hc
  | forward w l e hacc htr hk hl he =>
    refine hsnoc Q hQ _ fun r hr => ?_
    rw [← ht.length]
    exact h.entry_back ht he (List.mem_singleton.mp hr).symm
  | newGet w hacc hk => exact hsnoc Q hQ c hc
  | newSet w Q' hacc hd =>
    refine hsnoc Q' ?_ c hc
    cases hd with
    | none => exact hQ
    | dead e j hek hdead =>
      intro d hd r hr
      rcases List.mem_or_eq_of_mem_set hd with hold | rfl
      · exact hQ d hold r hr
      · cases hr

/-- The value recorded for a forwarded set is what a get of its view returns. -/
theorem Stores.exact (hm : Meaning other) {j i : ℕ} {w : View} (hf : views.Forwards P j i w)
    (s : State (fun _ => BitVec 32) E) :
    views.Exact record (views.exec other) (P.take i) j w s := by
  obtain ⟨-, hlive, d, hd, hget⟩ := hf
  have hi := (List.getElem?_eq_some_iff.mp hd).1
  obtain ⟨l, hl⟩ := List.exists_mem_of_ne_nil _ (lawful.proper w).1
  obtain ⟨c, hc, hset, -⟩ := (hlive l hl).source
  have hj := (List.getElem?_eq_some_iff.mp hc).1
  rw [List.length_take, Nat.min_eq_left (Nat.le_of_lt hi)] at hj
  rw [List.getElem?_take_of_lt hj] at hc
  have hjP : j < P.length := by omega
  have hget' : P.getD j (.void, []) = c := by
    rw [List.getD_eq_getElem?_getD, hc, Option.getD_some]
  have hrec : views.recorded record (P.take i) j w = views.recorded record P j w := by
    simp [Views.recorded, List.getD_eq_getElem?_getD, hj]
  have hstored : views.stored (views.exec other) (P.take i) j w s =
      (evalArg (runCode (views.exec other) (P.take j) s).1 (views.operandOf c w)).value := by
    simp [Views.stored, List.take_take, Nat.min_eq_left (Nat.le_of_lt hj),
      List.getD_eq_getElem?_getD, hj, hc]
  have htake : (P.take i).take j = P.take j := by
    rw [List.take_take, Nat.min_eq_left (Nat.le_of_lt hj)]
  have hty := h.typed j c w hc hset s
  rw [Views.Exact, hrec, hstored]
  rcases h.recorded hc hset with ⟨hval, hw⟩ | ⟨n, rfl, hval, -⟩
  · rw [hval, evalArg_take (j := j) (by rw [List.length_take]; omega)
      (fun r hr => h.back j c w r hc hset hr), htake]
    exact (readAs_written hw hty).symm
  · -- the instruction behind the set is not a get, so it comes before `i`
    have hz := h.zeroed j c n hc hset
    have hji : j+1 ≠ i := by
      rintro rfl
      rw [hd] at hz
      cases hz
      cases hget
    obtain ⟨x, hx⟩ := Val.of_ty_u128 hty
    have hzi : (P.take i)[j+1]? = some (.vectorZeroUpper, [views.operandOf c (.vectorDouble n)]) := by
      rw [List.getElem?_take_of_lt (by omega), hz]
    have hout := runCode_getD (m := views.exec other) hzi s (.plain .void)
    rw [reached_eq_take] at hout
    have hop : evalArg (runCode (views.exec other) ((P.take i).take (j+1)) s).1
        (views.operandOf c (.vectorDouble n)) =
        evalArg (runCode (views.exec other) (P.take j) s).1 (views.operandOf c (.vectorDouble n)) := by
      rw [evalArg_take (j := j) (by simp; omega) (fun r hr => h.back j c _ r hc hset hr),
        List.take_take, Nat.min_eq_left (by omega), htake]
    rw [← hop] at hx hty ⊢
    rw [hval, evalArg, hout, step_zeroUpper hm hx, hx]
    exact (readAs_written_vectorDouble n x).symm

end Stores

theorem behind_cases (c : Code) : (behind c = [] ∧ ∀ n, views.access c ≠ some (true, .vectorDouble n)) ∨
    ∃ n, views.access c = some (true, .vectorDouble n) ∧
      behind c = [(.vectorZeroUpper, [views.operandOf c (.vectorDouble n)])] := by
  unfold behind
  split
  · rename_i n hacc
    exact Or.inr ⟨n, hacc, rfl⟩
  · rename_i hne
    exact Or.inl ⟨rfl, hne⟩

theorem access_zeroUpper (v : Value) :
    views.access ((.vectorZeroUpper, [v]) : Code) = none := Views.view_none lawful rfl _

theorem Stores.snoc {P : List Code} (h : Stores other P) {c : Code}
    (hc : ∀ w, views.access c = some (true, w) →
      (∀ s, (evalArg (runCode (views.exec other) P s).1 (views.operandOf c w)).value.ty = w.ty) ∧
        ∀ r, views.operandOf c w = .inst r → r < P.length) :
    Stores other (P ++ c :: behind c) := by
  have hcases : ∀ j d, (P ++ c :: behind c)[j]? = some d →
      P[j]? = some d ∨ (j = P.length ∧ d = c) ∨ views.access d = none := by
    intro j d hd
    rcases Nat.lt_trichotomy j P.length with hj | rfl | hj
    · rw [List.getElem?_append_left hj] at hd
      exact Or.inl hd
    · rw [List.getElem?_append_right (Nat.le_refl _), Nat.sub_self] at hd
      exact Or.inr (Or.inl ⟨rfl, (Option.some.inj hd).symm⟩)
    · have hd' := List.mem_of_getElem? hd
      rw [List.getElem?_append_right (Nat.le_of_lt hj), ← Nat.succ_pred_eq_of_pos
        (Nat.sub_pos_of_lt hj), List.getElem?_cons_succ] at hd
      rcases behind_cases c with ⟨hnil, -⟩ | ⟨n, -, hz⟩
      · rw [hnil] at hd
        cases hd
      · rw [hz] at hd
        have hmem := List.mem_singleton.mp (List.mem_of_getElem? hd)
        rw [hmem]
        exact Or.inr (Or.inr (access_zeroUpper _))
  refine ⟨fun j d w hd hacc s => ?_, fun j d w r hd hacc hr => ?_, fun j d n hd hacc => ?_⟩
  · rcases hcases j d hd with hold | ⟨rfl, rfl⟩ | hnone
    · rw [List.take_append_of_le_length (Nat.le_of_lt (List.getElem?_eq_some_iff.mp hold).1)]
      exact h.typed j d w hold hacc s
    · rw [List.take_append_of_le_length (Nat.le_refl _), List.take_length]
      exact (hc w hacc).1 s
    · rw [hacc] at hnone
      cases hnone
  · rcases hcases j d hd with hold | ⟨rfl, rfl⟩ | hnone
    · exact h.back j d w r hold hacc hr
    · exact (hc w hacc).2 r hr
    · rw [hacc] at hnone
      cases hnone
  · rcases hcases j d hd with hold | ⟨rfl, rfl⟩ | hnone
    · have hz := h.zeroed j d n hold hacc
      rw [List.getElem?_append_left (List.getElem?_eq_some_iff.mp hz).1, hz]
    · rcases behind_cases d with ⟨-, hne⟩ | ⟨n', hacc', hz⟩
      · exact absurd hacc (hne n)
      · rw [hacc] at hacc'
        cases hacc'
        rw [List.getElem?_append_right (by omega), Nat.add_sub_cancel_left, hz]
        rfl
    · rw [hacc] at hnone
      cases hnone

/-! ### The walk -/

/-- The pass in front of instruction `n` of the original code. -/
structure Walked (other : Machine (State (fun _ : Loc => BitVec 32) E)) (cs : List Code) (n : ℕ)
    (p : RegisterPass) (P Q : List Code) (g : ℕ → ℕ) : Prop where
  code : p.block.code = Q ++ (cs.drop n).map (Code.rename g)
  kept : views.Kept record other P Q (entry p)
  full : Full p
  back : ∀ d ∈ Q, ∀ r, Value.inst r ∈ d.2 → r < Q.length
  embeds : Embeds (views.exec other) (cs.take n) P g
  stores : Stores other P
  extra : ∀ i d, P[i]? = some d → (∀ k < n, g k ≠ i) → ∃ v, d = (.vectorZeroUpper, [v])

theorem walked_start (b : Block) (cs : List Code) (hb : b.code = cs) :
    Walked other cs 0 ⟨b, fun _ => .new, fun _ => .new⟩ [] [] id where
  code := by
    have hid : ∀ c : Code, Code.rename id c = c := by
      intro c
      have hargs : c.2.map (Value.mapRef id) = c.2 :=
        (List.map_congr_left fun v _ => by cases v <;> rfl).trans (List.map_id _)
      rw [Code.rename, hargs]
    rw [hb, List.nil_append, List.drop_zero, List.map_congr_left fun c _ => hid c, List.map_id']
  kept := by
    have hentry : entry ⟨b, fun _ => .new, fun _ => .new⟩ = fun _ => none := by
      funext l
      cases l with
      | r n => simp [entry, RegInfo.new]
      | e s => simp [entry, ExtRegInfo.new, viewAt]
    rw [hentry]
    exact Views.kept_nil lawful
  full := ⟨fun _ h => absurd rfl h, fun _ h => absurd rfl h⟩
  back := by simp
  embeds := Embeds.nil _
  stores := ⟨fun _ _ _ h => (by cases h), fun _ _ _ _ h => (by cases h), fun _ _ _ h => (by cases h)⟩
  extra _ _ h := by cases h

section Step

variable {cs P Q : List Code} {n : ℕ} {p : RegisterPass} {g : ℕ → ℕ}
  (h : Walked other cs n p P Q g) (hn : n < cs.length) (hm : Meaning other) (hty : Typed [] cs)
  (hnamed : ∀ c ∈ cs, views.Named c)
include h hn hm hty

/-- What the next set stores, seen from the walked code. -/
theorem Walked.next_stores (w : View) (hacc : views.access (Code.rename g cs[n]) = some (true, w)) :
    (∀ s, (evalArg (runCode (views.exec other) P s).1
      (views.operandOf (Code.rename g cs[n]) w)).value.ty = w.ty) ∧
      ∀ r, views.operandOf (Code.rename g cs[n]) w = .inst r → r < P.length := by
  have hc : cs[n]? = some cs[n] := List.getElem?_eq_getElem hn
  have hlen : (cs.take n).length = n := by rw [List.length_take]; omega
  rw [access_rename] at hacc
  have hget : cs.getD n (.void, []) = cs[n] := by
    rw [List.getD_eq_getElem?_getD, hc, Option.getD_some]
  have hop : views.operandOf (Code.rename g cs[n]) w = (views.operandOf cs[n] w).mapRef g :=
    rename_getD g cs[n] _
  refine ⟨fun s => ?_, fun r hr => ?_⟩
  · obtain ⟨hval, hrefs⟩ := Views.stored_ty (s := s) lawful hm.respects hty hc hacc
    rw [Views.stored, hget] at hval
    rw [hop, h.embeds.evalArg_mapRef (by rw [hlen]; exact hrefs)]
    exact hval
  · obtain ⟨r', hr', rfl⟩ := mapRef_ref (hop ▸ hr)
    have hback := hty.refs hc _ r' hr'
    exact h.embeds.place_lt (by rw [hlen]; exact hback)

omit hm in
theorem Walked.next_refs : ∀ r, Value.inst r ∈ (Code.rename g cs[n]).2 → r < Q.length := by
  intro r hr
  obtain ⟨v, hv, hmap⟩ := List.mem_map.mp hr
  obtain ⟨r', rfl, rfl⟩ := mapRef_ref hmap
  have hlt := hty.mem_refs (List.getElem?_eq_getElem hn) hv
  rw [← h.kept.traced.length]
  exact h.embeds.place_lt (by rw [List.length_take]; omega)

include hnamed in
/-- One instruction of the original code takes one visit, or two where an
instruction is inserted. -/
theorem Walked.next : ∃ v p' P' Q' g', v ≤ 2 ∧
    (∀ fuel, RegisterPass.loop (fuel+v) Q.length p = RegisterPass.loop fuel Q'.length p') ∧
    Walked other cs (n+1) p' P' Q' g' := by
  have hc : cs[n]? = some cs[n] := List.getElem?_eq_getElem hn
  have htake : cs.take (n+1) = cs.take n ++ [cs[n]] := List.take_succ_eq_append_getElem hn
  have hlenT : (cs.take n).length = n := by rw [List.length_take]; omega
  have hlen := h.kept.traced.length
  have hcode : p.block.code = Q ++ Code.rename g cs[n] :: (cs.drop (n+1)).map (Code.rename g) := by
    rw [h.code, List.drop_eq_getElem_cons hn, List.map_cons]
  have hnc := named_rename (g := g) (hnamed cs[n] (List.getElem_mem hn))
  have hrefs := h.next_refs hn hty
  have hbelow : ∀ d ∈ Q ++ [Code.rename g cs[n]], ∀ r, Value.inst r ∈ d.2 → r < Q.length+1 := by
    intro d hd r hr
    rcases List.mem_append.mp hd with hold | hlast
    · exact Nat.lt_succ_of_lt (h.back d hold r hr)
    · rw [List.mem_singleton.mp hlast] at hr
      exact Nat.lt_succ_of_lt (hrefs r hr)
  obtain ⟨p', hvisit, hfull', R, hmove, hres⟩ :=
    visit_move h.full hnc hlen h.kept.traced hcode hbelow
  have hkept := h.kept.move lawful hm.respects hnc hmove
  have hback := h.stores.move_back h.kept.traced hmove h.back hrefs
  have hR : R.length = Q.length+1 := by
    rw [← hkept.traced.length, List.length_append, List.length_singleton, hlen]
  have hembeds := h.embeds.snoc (c := cs[n]) fun r hr => by
    rw [hlenT]
    exact hty.mem_refs hc hr
  rw [← htake] at hembeds
  have hstores := h.stores.snoc (h.next_stores hn hm hty)
  have hloop : ∀ fuel, RegisterPass.loop (fuel+1) Q.length p =
      RegisterPass.loop fuel (Q.length+1) p' := by
    intro fuel
    have hlt : Q.length < p.block.instructions.length := by
      have := congrArg List.length hcode
      simp only [Block.code, List.length_map, List.length_append, List.length_cons] at this
      omega
    rw [RegisterPass.loop, if_pos hlt, hvisit]
    rfl
  rcases hres with ⟨hnil, hcode'⟩ | ⟨z, hz, hcode'⟩
  · rw [hnil] at hstores
    refine ⟨1, p', P ++ [Code.rename g cs[n]], R, g, by omega, fun fuel => by rw [hloop, hR],
      hcode', hkept, hfull', fun d hd r hr => ?_, hembeds, hstores, fun i d hd hne => ?_⟩
    · have := hback d hd r hr
      omega
    · rcases Views.snoc_getElem?.mp hd with hold | ⟨rfl, -⟩
      · exact h.extra i d hold fun k hk => hne k (by omega)
      · have hself := h.embeds.next_self
        rw [hlenT] at hself
        exact absurd hself (hne n (by omega))
  · -- the inserted instruction is visited next, and left alone
    obtain ⟨w, hacc, hz'⟩ := (behind_cases (Code.rename g cs[n])).resolve_left (by simp [hz])
    have hzeq : z = (.vectorZeroUpper, [views.operandOf (Code.rename g cs[n]) (.vectorDouble w)]) := by
      rw [hz] at hz'
      exact List.singleton_inj.mp hz'
    have haccz : views.access z = none := by rw [hzeq]; exact access_zeroUpper _
    have hnz : views.Named z := by
      rw [hzeq]
      intro hop
      cases hop
    have hzback : ∀ r, Value.inst r ∈ z.2 → r < Q.length := by
      intro r hr
      rw [hzeq] at hr
      rw [← hlen]
      exact (h.next_stores hn hm hty _ hacc).2 r (List.mem_singleton.mp hr).symm
    have hbelow' : ∀ d ∈ R ++ [z], ∀ r, Value.inst r ∈ d.2 → r < R.length+1 := by
      intro d hd r hr
      rcases List.mem_append.mp hd with hold | hlast
      · have := hback d hold r hr
        omega
      · rw [List.mem_singleton.mp hlast] at hr
        have := hzback r hr
        omega
    obtain ⟨p'', hvisit', hfull'', R', hmove', hres'⟩ :=
      visit_move hfull' hnz (by rw [hkept.traced.length]) hkept.traced hcode' hbelow'
    have hkept' := hkept.move lawful hm.respects hnz hmove'
    have hR' : R' = R ++ [z] := by
      generalize entry p'' = info at hmove'
      cases hmove' with
      | pass _ => rfl
      | skip _ _ hacc' => exact absurd (haccz.symm.trans hacc') (by simp)
      | forward _ _ _ hacc' => exact absurd (haccz.symm.trans hacc') (by simp)
      | newGet _ hacc' => exact absurd (haccz.symm.trans hacc') (by simp)
      | newSet _ _ hacc' => exact absurd (haccz.symm.trans hacc') (by simp)
    have hbehind : behind z = [] := by simp [behind, haccz]
    have hcode'' : p''.block.code = R' ++
        ((cs.drop (n+1)).map (Code.rename g)).map (Code.renumber (Q.length+1)) := by
      rcases hres' with ⟨-, hcode''⟩ | ⟨z', hz'', -⟩
      · exact hcode''
      · rw [hbehind] at hz''
        cases hz''
    have hlenP : (P ++ [Code.rename g cs[n]]).length = Q.length+1 := by
      rw [List.length_append, List.length_singleton, hlen]
    have hlenT' : (cs.take (n+1)).length = n+1 := by rw [List.length_take]; omega
    have hinsert := hembeds.insert (z := z) fun s => by
      obtain ⟨x, hx⟩ := Val.of_ty_u128 ((h.next_stores hn hm hty _ hacc).1 s)
      have hop : evalArg (runCode (views.exec other) (P ++ [Code.rename g cs[n]]) s).1
          (views.operandOf (Code.rename g cs[n]) (.vectorDouble w)) = _ :=
        evalArg_snoc (h.next_stores hn hm hty _ hacc).2 s
      rw [← hop] at hx
      rw [hzeq, step_zeroUpper hm hx]
    rw [hlenT'] at hinsert
    refine ⟨2, p'', P ++ [Code.rename g cs[n]] ++ [z], R', moved (n+1) g, by omega, fun fuel => ?_,
      ?_, hkept', hfull'', fun d hd r hr => ?_, hinsert, ?_, fun i d hd hne => ?_⟩
    · have hlt : Q.length+1 < p'.block.instructions.length := by
        have := congrArg List.length hcode'
        simp only [Block.code, List.length_map, List.length_append, List.length_cons] at this
        omega
      rw [hloop (fuel+1), RegisterPass.loop, if_pos hlt, ← hR, hvisit', hR', List.length_append,
        List.length_singleton, hR]
      rfl
    · rw [hcode'', ← hlenP, List.map_map]
      refine congrArg (R' ++ ·) (List.map_congr_left fun c _ => ?_)
      rw [Function.comp_apply, hembeds.renumber_rename c, hlenT']
    · rw [hR'] at hd ⊢
      rw [List.length_append, List.length_singleton]
      exact hbelow' d hd r hr
    · rw [List.append_assoc]
      rw [hz] at hstores
      exact hstores
    · rcases Views.snoc_getElem?.mp hd with hold | ⟨-, rfl⟩
      · rcases Views.snoc_getElem?.mp hold with hfirst | ⟨rfl, -⟩
        · refine h.extra i d hfirst fun k hk => ?_
          have := hne k (by omega)
          rwa [moved, if_neg (by omega)] at this
        · have hself := h.embeds.next_self
          rw [hlenT] at hself
          have := hne n (by omega)
          rw [moved, if_neg (by omega)] at this
          exact absurd hself this
      · exact ⟨_, hzeq⟩

include hnamed in
omit hn in
theorem Walked.finish : ∀ fuel, 2*(cs.length-n) < fuel → n ≤ cs.length →
    ∃ p' P' Q' g', RegisterPass.loop fuel Q.length p = some p' ∧
      Walked other cs cs.length p' P' Q' g' := by
  intro fuel hfuel hle
  induction hk : cs.length-n generalizing n p P Q g fuel with
  | zero =>
    have hn : n = cs.length := by omega
    subst hn
    obtain ⟨fuel, rfl⟩ : ∃ f, fuel = f+1 := ⟨fuel-1, by omega⟩
    refine ⟨p, P, Q, g, ?_, h⟩
    have hlen : Q.length = p.block.instructions.length := by
      have := congrArg List.length h.code
      simp only [Block.code, List.length_map, List.drop_length, List.map_nil,
        List.append_nil] at this
      exact this.symm
    rw [RegisterPass.loop, if_neg (by omega)]
  | succ k ih =>
    have hn : n < cs.length := by omega
    obtain ⟨v, p', P', Q', g', hv, hloop, hnext⟩ := h.next hn hm hty hnamed
    obtain ⟨fuel, rfl⟩ : ∃ f, fuel = f+v := ⟨fuel-v, by omega⟩
    rw [hloop]
    exact ih hnext fuel (by omega) (by omega) (by omega)

end Step

/-- The new block does what the original one does. Sets are removed, gets turned
into identities and `VectorZeroUpper` instructions put in, and nothing else;
from every guest state it ends in the same state, and gives every instruction
of the original block the same result at its new place. -/
structure Rewrites (other : Machine (State (fun _ : Loc => BitVec 32) E)) (b b' : Block)
    (g : ℕ → ℕ) : Prop where
  mono : StrictMono g
  edited : ∀ k c, b.code[k]? = some c →
    ∃ c', b'.code[g k]? = some c' ∧ views.Edited (Code.rename g c) c'
  inserted : ∀ i c', b'.code[i]? = some c' → (∀ k < b.code.length, g k ≠ i) →
    ∃ v, c' = (.vectorZeroUpper, [v])
  state : ∀ s, (runCode (views.exec other) b'.code s).2 = (runCode (views.exec other) b.code s).2
  value : ∀ s k o, k < b.code.length → (runCode (views.exec other) b'.code s).1.getD (g k) o =
    (runCode (views.exec other) b.code s).1.getD k o

/-- The register pass never panics, and it ends. -/
theorem registerPass_runs (hm : Meaning other) {b : Block} (hwf : WellFormed b)
    (hn : ∀ c ∈ b.code, views.Named c) :
    ∃ b' g, registerPass b = some b' ∧ Rewrites other b b' g := by
  have hlen : b.code.length = b.instructions.length := by simp [Block.code]
  obtain ⟨p, P, Q, g, hloop, hwalk⟩ := (walked_start b b.code rfl).finish hm hwf.typed hn
    (2*b.instructions.length+1) (by omega) (by omega)
  have hcode : p.block.code = Q := by
    rw [hwalk.code, List.drop_length, List.map_nil, List.append_nil]
  have hembeds := hwalk.embeds
  rw [List.take_length] at hembeds
  have hsame : ∀ s, runCode (views.exec other) Q s = runCode (views.exec other) P s :=
    fun s => hwalk.kept.same s fun j i w hf => hwalk.stores.exact hm hf s
  have hedit := hwalk.kept.traced.edited
  refine ⟨p.block, g, ?_, hembeds.mono, fun k c hc => ?_, fun i c' hc' hne => ?_, fun s => ?_,
    fun s k o hk => ?_⟩
  · rw [registerPass]
    have hloop' : RegisterPass.loop (2*b.instructions.length+1) 0
        ⟨b, fun _ => .new, fun _ => .new⟩ = some p := hloop
    rw [hloop']
    rfl
  · have hP := hembeds.placed k c hc
    obtain ⟨hi, hget⟩ := List.getElem?_eq_some_iff.mp hP
    have hiQ : g k < Q.length := hedit.length_eq ▸ hi
    rw [hcode]
    refine ⟨Q[g k], List.getElem?_eq_getElem hiQ, ?_⟩
    have := hedit.get hi hiQ
    simpa [hget] using this
  · rw [hcode] at hc'
    obtain ⟨hi, hget⟩ := List.getElem?_eq_some_iff.mp hc'
    have hiP : i < P.length := hedit.length_eq ▸ hi
    obtain ⟨v, hv⟩ := hwalk.extra i P[i] (List.getElem?_eq_getElem hiP) hne
    have hed := hedit.get hiP hi
    simp only [List.get_eq_getElem, hget, hv] at hed
    have hnone := access_zeroUpper v
    rcases hed with rfl | ⟨w, v', hacc, -⟩ | ⟨w, hacc, -⟩
    · exact ⟨v, rfl⟩
    · rw [hnone] at hacc
      cases hacc
    · rw [hnone] at hacc
      cases hacc
  · rw [hcode, hsame s]
    exact hembeds.state s
  · rw [hcode, hsame s]
    exact hembeds.value s k o hk

/-- Opcodes outside the get and set opcodes that leave the state alone. -/
def idle : Machine (State (fun _ : Loc => BitVec 32) Unit) := fun op args s =>
  match op, (args.getD 0 (.plain .void)).value with
  | .vectorZeroUpper, .u128 v => (.plain (.u128 ((v.setWidth 64).setWidth 128)), s)
  | op, _ => (.plain (Val.zero op.returnType), s)

theorem meaning_idle : Meaning idle where
  respects := by
    refine ⟨fun op l _ _ args s c => ?_, fun op args s => ?_⟩
    · unfold idle
      split <;> rfl
    · unfold idle
      split
      · exact Or.inr (Or.inr rfl)
      · exact Val.zero_hasTy _
  zeroUpper o v s hv := by
    have hfirst : (([o] : List Outcome).getD 0 (.plain .void)).value = .u128 v := hv
    simp only [idle, hfirst]

theorem quad_neZero : NeZero 16 := ⟨by decide⟩

theorem double_neZero : NeZero 32 := ⟨by decide⟩

attribute [local instance] quad_neZero double_neZero in
/-- A D register is stored as a vector, read back, and partly overwritten
through an S register before it is stored again. -/
def mixedBlock : Block :=
  ((((((Block.mk []).append .a32GetVector [.immA32ExtReg (.quad 1)]).append .a32SetVector
    [.immA32ExtReg (.double 1), .inst 0]).append .a32GetVector
    [.immA32ExtReg (.double 1)]).append .a32SetExtendedRegister32
    [.immA32ExtReg (.single 2), .immU32 7]).append .a32SetVector
    [.immA32ExtReg (.double 1), .inst 2]).append .a32SetVector
    [.immA32ExtReg (.double 1), .inst 0]

theorem registerPass_runs_mixed :
    ∃ b' g, registerPass mixedBlock = some b' ∧ Rewrites idle mixedBlock b' g :=
  registerPass_runs meaning_idle (by decide) (by decide)

end Ruzu.Ir.A32
