import Ruzu.Ir.A32RegisterPass
import Ruzu.Ir.GetSetRuns

/-!
# One step of the A32 register pass

A visit is a move of a get/set elimination over the A32 views. Views of
different widths alias the same slots: what is known of a slot is the last view
it was accessed through, and a view is known when all its slots are.
-/

set_option autoImplicit false

namespace Ruzu.Ir.A32

variable {E : Type*} {other : Machine (State (fun _ : Loc => BitVec 32) E)}

/-! ### The views -/

theorem lawful : views.Lawful where
  named op v a h := by
    simp only [views] at h
    unfold view at h
    split at h <;> cases h <;> exact ⟨rfl, fun _ => rfl, fun h => by cases h⟩
  opcode op v isSet w h := by
    simp only [views] at h
    unfold view at h
    split at h <;> cases h
    all_goals first
      | exact ⟨rfl, fun _ => ⟨Nat.lt_succ_self 1, rfl⟩⟩
      | exact ⟨rfl, fun h => by cases h⟩
  ordinary := ⟨rfl, rfl, fun _ => rfl, fun _ => rfl⟩
  proper w := by cases w <;> simp [views, View.covers, View.ty]
  reads w c d h := by
    cases w <;> simp_all [views, View.covers, View.readAs]
  readTy op v w c _ := by cases w <;> rfl

theorem slot_val {n : ℕ} (h : n < 64) : slot n = .e ⟨n, h⟩ := by
  simp [slot, Fin.ofNat, Nat.mod_eq_of_lt h]

/-- The two halves of the 64 low bits. -/
theorem halves (x : BitVec 128) :
    (x.extractLsb' 32 32 ++ x.extractLsb' 0 32 : BitVec 64) = x.setWidth 64 := by
  refine BitVec.eq_of_getLsbD_eq fun i hi => ?_
  simp only [BitVec.getLsbD_append, BitVec.getLsbD_extractLsb', BitVec.getLsbD_setWidth]
  by_cases h : i < 32
  · simp [h, hi]
  · have h1 : i-32 < 32 := by omega
    have h2 : 32+(i-32) = i := by omega
    simp [h, h1, h2, hi]

theorem quarters (x : BitVec 128) :
    (x.extractLsb' 96 32 ++ x.extractLsb' 64 32 ++ x.extractLsb' 32 32 ++
      x.extractLsb' 0 32 : BitVec 128) = x := by
  refine BitVec.eq_of_getLsbD_eq fun i hi => ?_
  simp only [BitVec.getLsbD_append, BitVec.getLsbD_extractLsb']
  by_cases h : i < 32
  · simp [h]
  · by_cases h1 : i-32 < 32
    · have h2 : 32+(i-32) = i := by omega
      simp [h, h1, h2]
    · by_cases h2 : i-32-32 < 32
      · have h3 : 64+(i-32-32) = i := by omega
        simp [h, h1, h2, h3]
      · have h3 : i-32-32-32 < 32 := by omega
        have h4 : 96+(i-32-32-32) = i := by omega
        simp [h, h1, h2, h3, h4]

theorem written_slot {w : View} {v : Val} {n k : ℕ} (hn : n < 64) (hk : n-w.base = k) :
    w.written v (slot n) = (bits v).extractLsb' (32*k) 32 := by
  rw [slot_val hn, View.written, hk]

/-- Every view but the vector view of a D register gives back what was stored. -/
theorem readAs_written {w : View} (hw : ∀ n, w ≠ .vectorDouble n) {v : Val} (hv : v.ty = w.ty) :
    w.readAs (w.written v) = v := by
  cases w with
  | core n =>
    obtain ⟨x, rfl⟩ := Val.of_ty_u32 hv
    simp [View.readAs, View.written, bits]
  | single n =>
    obtain ⟨x, rfl⟩ := Val.of_ty_u32 hv
    have hlow : (x.setWidth 128).extractLsb' 0 32 = x := by
      rw [← BitVec.setWidth_eq_extractLsb' (by omega)]
      simp
    simp [View.readAs, View.written, bits, View.base, hlow]
  | double n =>
    obtain ⟨x, rfl⟩ := Val.of_ty_u64 hv
    have hn := n.isLt
    rw [View.readAs, written_slot (k := 1) (by omega) (by simp only [View.base]; omega),
      written_slot (k := 0) (by omega) (by simp only [View.base]; omega), halves]
    simp [bits]
  | vectorDouble n => exact absurd rfl (hw n)
  | vectorQuad n =>
    obtain ⟨x, rfl⟩ := Val.of_ty_u128 hv
    have hn := n.isLt
    rw [View.readAs, written_slot (k := 3) (by omega) (by simp only [View.base]; omega),
      written_slot (k := 2) (by omega) (by simp only [View.base]; omega),
      written_slot (k := 1) (by omega) (by simp only [View.base]; omega),
      written_slot (k := 0) (by omega) (by simp only [View.base]; omega), quarters]
    rfl

theorem readAs_written_vectorDouble (n : Fin 32) (x : BitVec 128) :
    (View.vectorDouble n).readAs ((View.vectorDouble n).written (.u128 x)) =
      .u128 ((x.setWidth 64).setWidth 128) := by
  have hn := n.isLt
  rw [View.readAs, written_slot (k := 1) (by omega) (by simp only [View.base]; omega),
    written_slot (k := 0) (by omega) (by simp only [View.base]; omega), halves]
  rfl

/-! ### What the walk knows -/

/-- The view of a type that covers a slot. -/
def viewAt : ExtValueType → Fin 64 → Option View
  | .empty, _ => none
  | .single, s => some (.single s)
  | .double, s => some (.double ⟨s.val/2, by omega⟩)
  | .vectorDouble, s => some (.vectorDouble ⟨s.val/2, by omega⟩)
  | .vectorQuad, s => some (.vectorQuad ⟨s.val/4, by omega⟩)

/-- What the walk knows of a register. -/
def entry (p : RegisterPass) : Views.Tracking Loc View
  | .r n =>
    if h : n.val < 15 then
      (p.regInfo ⟨n, h⟩).registerValue.map fun v => ⟨v, .core n, (p.regInfo ⟨n, h⟩).lastSetIndex⟩
    else none
  | .e s => (viewAt (p.extRegInfo s).valueType s).bind fun w =>
      (p.extRegInfo s).registerValue.map fun v => ⟨v, w, (p.extRegInfo s).lastSetIndex⟩

/-- A slot that is known has a value. -/
structure Full (p : RegisterPass) : Prop where
  reg : ∀ n, (p.regInfo n).lastSetIndex ≠ none → (p.regInfo n).registerValue ≠ none
  ext : ∀ s, (p.extRegInfo s).valueType ≠ .empty → (p.extRegInfo s).registerValue ≠ none

/-- The slots of a view of some type. -/
structure Slots (t : ExtValueType) (ss : List (Fin 64)) (w : View) : Prop where
  covers : w.covers = ss.map .e
  ne : ss ≠ []
  tracked : w.tracked = true
  type : ∀ s t', viewAt t' s = some w ↔ t' = t ∧ s ∈ ss

theorem slots_backing (r : A32ExtReg) :
    slots [r.backingIndex] = some [Fin.ofNat 64 r.backingIndex] := by
  have h : r.backingIndex < 64 := by
    cases r <;> simp only [A32ExtReg.backingIndex] <;> omega
  simp [slots, h, Fin.ofNat, Nat.mod_eq_of_lt h]

theorem slots_single (n : Fin 64) : Slots .single [n] (.single n) where
  covers := rfl
  ne := by simp
  tracked := rfl
  type s t' := by cases t' <;> simp [viewAt]

theorem slots_pair {n : Fin 32} {ss : List (Fin 64)}
    (hss : ss = [⟨n*2, by omega⟩, ⟨n*2+1, by omega⟩]) :
    slots [n.val*2, n.val*2+1] = some ss ∧ Slots .double ss (.double n) ∧
      Slots .vectorDouble ss (.vectorDouble n) := by
  have hn := n.isLt
  have h0 : n.val*2 < 64 := by omega
  have h1 : n.val*2+1 < 64 := by omega
  have hmem : ∀ s : Fin 64, (⟨s.val/2, by omega⟩ : Fin 32) = n ↔ s ∈ ss := by
    intro s
    simp only [hss, List.mem_cons, List.not_mem_nil, or_false, Fin.ext_iff]
    omega
  subst hss
  refine ⟨by simp [slots, h0, h1], ⟨?_, by simp, rfl, fun s t' => ?_⟩,
    ⟨?_, by simp, rfl, fun s t' => ?_⟩⟩
  · simp [View.covers, slot_val h0, slot_val h1]
  · cases t' <;> simp only [viewAt, Option.some.injEq, View.double.injEq, hmem] <;> simp
  · simp [View.covers, slot_val h0, slot_val h1]
  · cases t' <;> simp only [viewAt, Option.some.injEq, View.vectorDouble.injEq, hmem] <;> simp

theorem slots_quadruple {n : Fin 16} {ss : List (Fin 64)}
    (hss : ss = [⟨n*4, by omega⟩, ⟨n*4+1, by omega⟩, ⟨n*4+2, by omega⟩, ⟨n*4+3, by omega⟩]) :
    slots [n.val*4, n.val*4+1, n.val*4+2, n.val*4+3] = some ss ∧
      Slots .vectorQuad ss (.vectorQuad n) := by
  have hn := n.isLt
  have h0 : n.val*4 < 64 := by omega
  have h1 : n.val*4+1 < 64 := by omega
  have h2 : n.val*4+2 < 64 := by omega
  have h3 : n.val*4+3 < 64 := by omega
  have hmem : ∀ s : Fin 64, (⟨s.val/4, by omega⟩ : Fin 16) = n ↔ s ∈ ss := by
    intro s
    simp only [hss, List.mem_cons, List.not_mem_nil, or_false, Fin.ext_iff]
    omega
  subst hss
  refine ⟨by simp [slots, h0, h1, h2, h3], ?_, by simp, rfl, fun s t' => ?_⟩
  · simp [View.covers, slot_val h0, slot_val h1, slot_val h2, slot_val h3]
  · cases t' <;> simp only [viewAt, Option.some.injEq, View.vectorQuad.injEq, hmem] <;> simp

section Ext

variable {p : RegisterPass} {t : ExtValueType} {ss : List (Fin 64)} {w : View}
  (hs : Slots t ss w)
include hs

theorem Slots.not_empty : t ≠ .empty := by
  rintro rfl
  obtain ⟨s, hmem⟩ := List.exists_mem_of_ne_nil _ hs.ne
  have := (hs.type s .empty).mpr ⟨rfl, hmem⟩
  cases this

theorem entry_known (hfull : Full p) :
    views.Known (entry p) w ↔ ∀ s ∈ ss, (p.extRegInfo s).valueType = t := by
  constructor
  · intro hk s hmem
    have hl : Loc.e s ∈ views.covers w := by
      simp only [views, hs.covers]
      exact List.mem_map_of_mem hmem
    obtain ⟨e, he, hview⟩ := hk _ hl
    obtain ⟨w', hw', hmap⟩ := Option.bind_eq_some_iff.mp he
    obtain ⟨v, -, rfl⟩ := Option.map_eq_some_iff.mp hmap
    simp only at hview
    rw [hview] at hw'
    exact ((hs.type s _).mp hw').1
  · intro hall l hl
    simp only [views, hs.covers] at hl
    obtain ⟨s, hmem, rfl⟩ := List.mem_map.mp hl
    have htype := hall s hmem
    have hne : (p.extRegInfo s).valueType ≠ .empty := by
      rw [htype]
      exact hs.not_empty
    obtain ⟨v, hv⟩ := Option.ne_none_iff_exists'.mp (hfull.ext s hne)
    refine ⟨⟨v, w, (p.extRegInfo s).lastSetIndex⟩, ?_, rfl⟩
    simp [entry, htype, (hs.type s t).mpr ⟨rfl, hmem⟩, hv]

/-- An entry for all slots of a view. -/
theorem entry_assign (b : Block) (v : Value) (last : Option ℕ) :
    entry { p with
        block := b
        extRegInfo := fun s => if s ∈ ss then ⟨t, some v, last⟩ else p.extRegInfo s } =
      Views.assign (views.covers w) ⟨v, w, last⟩ (entry p) := by
  funext l
  cases l with
  | r n =>
    have hr : Loc.r n ∉ views.covers w := by simp [views, hs.covers]
    simp [Views.assign, hr, entry]
  | e s =>
    have hmem : Loc.e s ∈ views.covers w ↔ s ∈ ss := by simp [views, hs.covers]
    by_cases h : s ∈ ss
    · simp [Views.assign, hmem, h, entry, (hs.type s t).mpr ⟨rfl, h⟩]
    · simp [Views.assign, hmem, h, entry]

omit hs in
theorem full_assign (hfull : Full p) (b : Block) (v : Value) (last : Option ℕ) :
    Full { p with
        block := b
        extRegInfo := fun s => if s ∈ ss then ⟨t, some v, last⟩ else p.extRegInfo s } where
  reg := hfull.reg
  ext s hne := by
    simp only at hne ⊢
    split
    · simp
    · rename_i h
      rw [if_neg h] at hne
      exact hfull.ext s hne

end Ext

/-! ### One step of the walk -/

section Move

variable {P Q T : List Code} {c : Code} {p : RegisterPass} (hfull : Full p)
include hfull

section Ext

variable {t : ExtValueType} {ss : List (Fin 64)} {w : View} (hs : Slots t ss w)
include hs

/-- The entry of the first slot. -/
theorem entry_first {s : Fin 64} (hmem : s ∈ ss) (htype : (p.extRegInfo s).valueType = t) :
    ∃ v, (p.extRegInfo s).registerValue = some v ∧
      entry p (.e s) = some ⟨v, w, (p.extRegInfo s).lastSetIndex⟩ := by
  have hne : (p.extRegInfo s).valueType ≠ .empty := by
    rw [htype]
    exact hs.not_empty
  obtain ⟨v, hv⟩ := Option.ne_none_iff_exists'.mp (hfull.ext s hne)
  exact ⟨v, hv, by simp [entry, htype, (hs.type s t).mpr ⟨rfl, hmem⟩, hv]⟩

variable (hlen : P.length = Q.length)
include hlen

theorem extGet_move {ns : List ℕ} (hns : slots ns = some ss)
    (hacc : views.access c = some (false, w)) (hb : p.block.code = Q ++ c::T) :
    Full (p.extGet Q.length t ns) ∧ ∃ R, (p.extGet Q.length t ns).block.code = R ++ T ∧
      views.Move record P Q (entry p) c R (entry (p.extGet Q.length t ns)) := by
  obtain ⟨s, ss', rfl⟩ := List.exists_cons_of_ne_nil hs.ne
  by_cases hk : ∀ s' ∈ s::ss', (p.extRegInfo s').valueType = t
  · have hall : (s::ss').all (fun s => decide ((p.extRegInfo s).valueType = t)) = true := by
      simpa [List.all_eq_true] using hk
    obtain ⟨v, hv, he⟩ := entry_first hfull hs (by simp) (hk s (by simp))
    have hres : p.extGet Q.length t ns =
        { p with block := p.block.replaceUsesWith Q.length v } := by
      simp only [RegisterPass.extGet, hns, extDoGet, hall, if_true, List.headD_cons, hv]
    rw [hres]
    refine ⟨⟨hfull.reg, hfull.ext⟩, Q ++ [(.identity, [v])], ?_, .forward w (.e s) _ hacc
      hs.tracked ((entry_known hs hfull).mpr hk) ?_ he⟩
    · rw [Block.code_replaceUsesWith, hb]
      simp
    · simp [views, hs.covers]
  · have hall : (s::ss').all (fun s => decide ((p.extRegInfo s).valueType = t)) = false := by
      rw [Bool.eq_false_iff]
      intro h
      exact hk (by simpa [List.all_eq_true] using h)
    have hres : p.extGet Q.length t ns = { p with
        block := p.block
        extRegInfo := fun s' => if s' ∈ s::ss' then ⟨t, some (.inst Q.length), none⟩
          else p.extRegInfo s' } := by
      simp only [RegisterPass.extGet, hns, extDoGet, hall, Bool.false_eq_true, if_false]
    rw [hres, entry_assign hs]
    refine ⟨full_assign hfull _ _ _, Q ++ [c], by rw [hb]; simp, ?_⟩
    rw [← hlen]
    exact .newGet w hacc fun hknown => hk ((entry_known hs hfull).mp hknown)

/-- The set that an extension register set removes is dead. -/
theorem extDoSet_dropped (hkept : views.Traced record P Q (entry p)) {b : Block} {U : List Code}
    (hb : b.code = Q ++ U) (value : Value) (i : ℕ) :
    ∃ Q', (extDoSet b p.extRegInfo t ss value i).1.code = Q' ++ U ∧
      views.Dropped (entry p) w Q Q' := by
  obtain ⟨s, ss', rfl⟩ := List.exists_cons_of_ne_nil hs.ne
  unfold extDoSet
  simp only [List.headD_cons]
  split
  · rename_i hall
    have hk : ∀ s' ∈ s::ss', (p.extRegInfo s').valueType = t := by
      simpa [List.all_eq_true] using hall
    obtain ⟨v, hv, he⟩ := entry_first hfull hs (by simp) (hk s (by simp))
    split
    · rename_i prev hprev
      rw [hprev] at he
      have hj := (hkept.fromSet _ _ _ he rfl).live.earlier
      refine ⟨Q.set prev (.void, []), ?_, .dead ⟨v, w, some prev⟩ prev rfl fun l hl => ⟨hl, ?_⟩⟩
      · rw [Block.code_invalidate, hb, List.set_append_left _ _ (by omega)]
      · obtain ⟨e, hew, hall⟩ := hkept.known_entry lawful ((entry_known hs hfull).mpr hk)
        have hfirst : entry p (.e s) = some e := hall _ (by simp [views, hs.covers])
        rw [he] at hfirst
        cases hfirst
        exact hall l hl
    · exact ⟨Q, hb, .none⟩
  · exact ⟨Q, hb, .none⟩

theorem extSet_move (hkept : views.Traced record P Q (entry p)) {ns : List ℕ}
    (hns : slots ns = some ss) (hacc : views.access c = some (true, w))
    (hw : ∀ n, w ≠ .vectorDouble n) (hb : p.block.code = Q ++ c::T) :
    Full (p.extSet Q.length t ns (views.operandOf c w)) ∧
      ∃ R, (p.extSet Q.length t ns (views.operandOf c w)).block.code = R ++ T ∧
        views.Move record P Q (entry p) c R
          (entry (p.extSet Q.length t ns (views.operandOf c w))) := by
  obtain ⟨Q', hcode, hdrop⟩ := extDoSet_dropped hfull hs hlen hkept hb
    (views.operandOf c w) Q.length
  have hrec : record w P.length (views.operandOf c w) = views.operandOf c w := by
    cases w with
    | vectorDouble n => exact absurd rfl (hw n)
    | _ => rfl
  have hres : p.extSet Q.length t ns (views.operandOf c w) = { p with
      block := (extDoSet p.block p.extRegInfo t ss (views.operandOf c w) Q.length).1
      extRegInfo := fun s => if s ∈ ss then ⟨t, some (views.operandOf c w), some Q.length⟩
        else p.extRegInfo s } := by
    simp only [RegisterPass.extSet, hns, extDoSet]
  rw [hres, entry_assign hs]
  refine ⟨full_assign hfull _ _ _, Q' ++ [c], by rw [hcode]; simp, ?_⟩
  have hmove : views.Move record P Q (entry p) c (Q' ++ [c]) _ := .newSet w Q' hacc hdrop
  rw [hrec, hlen] at hmove
  exact hmove

theorem vectorDoubleSet_move (hkept : views.Traced record P Q (entry p)) {ns : List ℕ}
    (hns : slots ns = some ss) (hacc : views.access c = some (true, w)) (ht : t = .vectorDouble)
    {n : Fin 32} (hw : w = .vectorDouble n) (hb : p.block.code = Q ++ c::T)
    (hbelow : ∀ d ∈ Q ++ [c], ∀ r, Value.inst r ∈ d.2 → r < Q.length+1)
    (hop : ∀ r, views.operandOf c w = .inst r → r < Q.length+1) :
    Full (p.vectorDoubleSet Q.length ns (views.operandOf c w)) ∧
      ∃ R, (p.vectorDoubleSet Q.length ns (views.operandOf c w)).block.code =
          R ++ (.vectorZeroUpper, [views.operandOf c w]) ::
            T.map (Code.renumber (Q.length+1)) ∧
        views.Move record P Q (entry p) c R
          (entry (p.vectorDoubleSet Q.length ns (views.operandOf c w))) := by
  subst ht
  have hinsert : (p.block.insert (Q.length+1) .vectorZeroUpper [views.operandOf c w]).code =
      Q ++ c :: (.vectorZeroUpper, [views.operandOf c w]) ::
        T.map (Code.renumber (Q.length+1)) := by
    have hsplit : p.block.code = (Q ++ [c]) ++ T := by rw [hb]; simp
    have hbehind := code_insert_behind hsplit
      (by simpa using hbelow) .vectorZeroUpper
      fun r (hr : Value.inst r ∈ [views.operandOf c w]) => by
        simpa using hop r (List.mem_singleton.mp hr).symm
    simpa using hbehind
  obtain ⟨Q', hcode, hdrop⟩ := extDoSet_dropped hfull hs hlen hkept hinsert
    (.inst (Q.length+1)) Q.length
  have hrec : record w P.length (views.operandOf c w) = .inst (Q.length+1) := by
    rw [hw, hlen]
    rfl
  have hres : p.vectorDoubleSet Q.length ns (views.operandOf c w) = { p with
      block := (extDoSet (p.block.insert (Q.length+1) .vectorZeroUpper [views.operandOf c w])
        p.extRegInfo .vectorDouble ss (.inst (Q.length+1)) Q.length).1
      extRegInfo := fun s => if s ∈ ss then
          ⟨.vectorDouble, some (.inst (Q.length+1)), some Q.length⟩
        else p.extRegInfo s } := by
    simp only [RegisterPass.vectorDoubleSet, hns, extDoSet]
  rw [hres, entry_assign hs]
  refine ⟨full_assign hfull _ _ _, Q' ++ [c], by rw [hcode]; simp, ?_⟩
  have hmove : views.Move record P Q (entry p) c (Q' ++ [c]) _ := .newSet w Q' hacc hdrop
  rw [hrec, hlen] at hmove
  exact hmove

end Ext

section Core

variable {n : Fin 16} (hn : n.val < 15)
include hn

omit hfull in
theorem entry_assign_core (b : Block) (v : Value) (last : Option ℕ) :
    entry { p with
        block := b
        regInfo := Function.update p.regInfo ⟨n, hn⟩ ⟨some v, last⟩ } =
      Views.assign (views.covers (.core n)) ⟨v, .core n, last⟩ (entry p) := by
  funext l
  cases l with
  | r m =>
    by_cases hm : m = n
    · subst hm
      simp [entry, Views.assign, views, View.covers, hn]
    · by_cases hm15 : m.val < 15
      · have hne : (⟨m, hm15⟩ : Fin 15) ≠ ⟨n, hn⟩ := by simpa [Fin.ext_iff] using hm
        simp [entry, Views.assign, views, View.covers, hm, hm15, Function.update_of_ne hne]
      · simp [entry, Views.assign, views, View.covers, hm, hm15]
  | e s => simp [entry, Views.assign, views, View.covers]

theorem full_assign_core (b : Block) (v : Value) (last : Option ℕ) :
    Full { p with
        block := b
        regInfo := Function.update p.regInfo ⟨n, hn⟩ ⟨some v, last⟩ } where
  reg m hm := by
    by_cases hmn : m = ⟨n, hn⟩
    · subst hmn
      simp
    · simp only [Function.update_of_ne hmn] at hm ⊢
      exact hfull.reg m hm
  ext := hfull.ext

theorem getRegister_move (hlen : P.length = Q.length)
    (hacc : views.access c = some (false, .core n)) (hb : p.block.code = Q ++ c::T) :
    Full (p.getRegister Q.length (.r n)) ∧
      ∃ R, (p.getRegister Q.length (.r n)).block.code = R ++ T ∧
        views.Move record P Q (entry p) c R (entry (p.getRegister Q.length (.r n))) := by
  have hmem : Loc.r n ∈ views.covers (.core n) := by simp [views, View.covers]
  cases hv : (p.regInfo ⟨n, hn⟩).registerValue with
  | some v =>
    have he : entry p (.r n) = some ⟨v, .core n, (p.regInfo ⟨n, hn⟩).lastSetIndex⟩ := by
      simp [entry, hn, hv]
    have hres : p.getRegister Q.length (.r n) =
        { p with block := p.block.replaceUsesWith Q.length v } := by
      simp [RegisterPass.getRegister, A32Reg.number, hn, hv]
    rw [hres]
    refine ⟨⟨hfull.reg, hfull.ext⟩, Q ++ [(.identity, [v])], ?_,
      .forward (View.core n) (Loc.r n) _ hacc (decide_eq_true hn) (fun l hl => ?_) hmem he⟩
    · rw [Block.code_replaceUsesWith, hb]
      simp
    · rw [List.mem_singleton.mp hl]
      exact ⟨_, he, rfl⟩
  | none =>
    have hlast : (p.regInfo ⟨n, hn⟩).lastSetIndex = none := by
      by_contra hne
      exact hfull.reg _ hne hv
    have hres : p.getRegister Q.length (.r n) = { p with
        block := p.block
        regInfo := Function.update p.regInfo ⟨n, hn⟩ ⟨some (.inst Q.length), none⟩ } := by
      simp [RegisterPass.getRegister, A32Reg.number, hn, hv, hlast]
    rw [hres, entry_assign_core hn, ← hlen]
    refine ⟨full_assign_core hfull hn _ _ _, Q ++ [c], by rw [hb]; simp,
      .newGet (View.core n) hacc fun hk => ?_⟩
    obtain ⟨e, he, -⟩ := hk _ hmem
    simp [entry, hn, hv] at he

theorem setRegister_move (hlen : P.length = Q.length)
    (hkept : views.Traced record P Q (entry p)) (hacc : views.access c = some (true, .core n))
    (hb : p.block.code = Q ++ c::T) :
    Full (p.setRegister Q.length (.r n) (views.operandOf c (.core n))) ∧
      ∃ R, (p.setRegister Q.length (.r n) (views.operandOf c (.core n))).block.code = R ++ T ∧
        views.Move record P Q (entry p) c R
          (entry (p.setRegister Q.length (.r n) (views.operandOf c (.core n)))) := by
  obtain ⟨b, hres⟩ : ∃ b, p.setRegister Q.length (.r n) (views.operandOf c (.core n)) = { p with
      block := b
      regInfo := Function.update p.regInfo ⟨n, hn⟩
        ⟨some (views.operandOf c (.core n)), some Q.length⟩ } := by
    refine ⟨(p.setRegister Q.length (.r n) (views.operandOf c (.core n))).block, ?_⟩
    simp [RegisterPass.setRegister, A32Reg.number, hn]
  obtain ⟨Q', hcode, hdrop⟩ : ∃ Q', (p.setRegister Q.length (.r n)
      (views.operandOf c (.core n))).block.code = Q' ++ c::T ∧
      views.Dropped (entry p) (.core n) Q Q' := by
    cases hlast : (p.regInfo ⟨n, hn⟩).lastSetIndex with
    | none =>
      exact ⟨Q, by simp [RegisterPass.setRegister, A32Reg.number, hn, hlast, hb], .none⟩
    | some j =>
      obtain ⟨v, hv⟩ := Option.ne_none_iff_exists'.mp (hfull.reg ⟨n, hn⟩ (by simp [hlast]))
      have he : entry p (.r n) = some ⟨v, .core n, some j⟩ := by simp [entry, hn, hv, hlast]
      have hj := (hkept.fromSet _ _ _ he rfl).live.earlier
      refine ⟨Q.set j (.void, []), ?_, .dead ⟨v, .core n, some j⟩ j rfl fun l hl => ⟨hl, ?_⟩⟩
      · simp only [RegisterPass.setRegister, A32Reg.number, hn, hlast, dif_pos]
        rw [Block.code_invalidate, hb, List.set_append_left _ _ (by omega)]
      · rw [List.mem_singleton.mp hl]
        exact he
  rw [hres] at hcode ⊢
  rw [entry_assign_core hn]
  refine ⟨full_assign_core hfull hn _ _ _, Q' ++ [c], by rw [hcode]; simp, ?_⟩
  have hmove : views.Move record P Q (entry p) c (Q' ++ [c]) _ :=
    .newSet (View.core n) Q' hacc hdrop
  rw [hlen] at hmove
  exact hmove

end Core

end Move

/-- What the walk inserts behind an instruction. -/
def behind (c : Code) : List Code :=
  match views.access c with
  | some (true, .vectorDouble _) => [(.vectorZeroUpper, [c.2.getD 1 .void])]
  | _ => []

section Visit

variable {P Q T : List Code} {c : Code} {p : RegisterPass} {i : ℕ}

/-- The outcome of a visit at `c`. -/
def Visited (P Q T : List Code) (c : Code) (p p' : RegisterPass) : Prop :=
  Full p' ∧ ∃ R, views.Move record P Q (entry p) c R (entry p') ∧
    ((behind c = [] ∧ p'.block.code = R ++ T) ∨
      ∃ z, behind c = [z] ∧ p'.block.code = R ++ z :: T.map (Code.renumber (Q.length+1)))

theorem visited_of_move {p' : RegisterPass} (hc : behind c = [])
    (h : Full p' ∧ ∃ R, p'.block.code = R ++ T ∧
      views.Move record P Q (entry p) c R (entry p')) : Visited P Q T c p p' := by
  obtain ⟨hfull, R, hR, hmove⟩ := h
  exact ⟨hfull, R, hmove, Or.inl ⟨hc, hR⟩⟩

/-- An instruction outside the get and set opcodes. -/
theorem visit_pass (hfull : Full p) (hn : views.Named c) (hacc : views.access c = none)
    (hb : p.block.code = Q ++ c::T) :
    ∃ p', p.visit Q.length = some p' ∧ Visited P Q T c p p' := by
  have hc : p.block.code[Q.length]? = some c := by rw [hb]; simp
  have hcode := Block.inst_code hc
  have hop : (p.block.inst Q.length).opcode = c.1 := congrArg Prod.fst hcode
  have hother := Views.named_none hn hacc
  have hbehind : behind c = [] := by simp [behind, hacc]
  have hpass : views.Move record P Q (entry p) c (Q ++ [c]) _ := .pass hacc
  by_cases hflag : (c.1.readsFromCoreRegister || c.1.writesToCoreRegister) = true
  · refine ⟨{ p with regInfo := fun _ => .new, extRegInfo := fun _ => .new }, ?_,
      visited_of_move hbehind ⟨⟨fun _ h => absurd rfl h, fun _ h => absurd rfl h⟩,
        Q ++ [c], by rw [hb]; simp, ?_⟩⟩
    · have hvoid : c.1 ≠ .void := by
        intro h
        rw [h] at hflag
        cases hflag
      have hid : c.1 ≠ .identity := by
        intro h
        rw [h] at hflag
        cases hflag
      have hskip : ¬ ((p.block.inst Q.length).isTombstone = true ∨ c.1 = .identity) := by
        simp [Inst.isTombstone, hop, hvoid, hid]
      simp only [RegisterPass.visit, hop, if_neg hskip]
      split <;> first
        | (rename_i h; rw [h] at hother; cases hother)
        | rw [if_pos hflag]
    · have hnone : entry { p with regInfo := fun _ => .new, extRegInfo := fun _ => .new } =
          fun l => if views.flagged c.1 l then none else entry p l := by
        funext l
        have hf : views.flagged c.1 l = true := hflag
        rw [if_pos hf]
        cases l with
        | r n => simp [entry, RegInfo.new]
        | e s => simp [entry, ExtRegInfo.new, viewAt]
      rw [hnone]
      exact hpass
  · refine ⟨p, ?_, visited_of_move hbehind ⟨hfull, Q ++ [c], by rw [hb]; simp, ?_⟩⟩
    · simp only [RegisterPass.visit, hop]
      split
      · rfl
      · split <;> first
          | (rename_i h; rw [h] at hother; cases hother)
          | rw [if_neg hflag]
    · have hsame : (fun l => if views.flagged c.1 l then none else entry p l) = entry p := by
        funext l
        have hf : ¬ views.flagged c.1 l = true := hflag
        rw [if_neg hf]
      rw [hsame] at hpass
      exact hpass

theorem a32ExtReg_of {args : List Value} {r : A32ExtReg} (h : args.getD 0 .void = .immA32ExtReg r) :
    a32ExtReg args = some r := by
  rw [a32ExtReg, h]

theorem a32Reg_of {args : List Value} {r : A32Reg} (h : args.getD 0 .void = .immA32Reg r) :
    a32Reg args = some r := by
  rw [a32Reg, h]

/-- R15 is left alone. -/
theorem visited_skip {n : Fin 16} (hn : ¬ n.val < 15) (hfull : Full p) {isSet : Bool}
    (hacc : views.access c = some (isSet, .core n)) (hb : p.block.code = Q ++ c::T) :
    Visited P Q T c p p := by
  refine visited_of_move (by simp [behind, hacc]) ⟨hfull, Q ++ [c], by rw [hb]; simp,
    .skip isSet (View.core n) hacc (decide_eq_false hn) fun l hl => ?_⟩
  rw [List.mem_singleton.mp hl]
  simp [entry, hn]

theorem visit_access (hfull : Full p) (hlen : P.length = Q.length)
    (hkept : views.Traced record P Q (entry p)) {a : Bool × View}
    (hacc : views.access c = some a) (hb : p.block.code = Q ++ c::T)
    (hbelow : ∀ d ∈ Q ++ [c], ∀ r, Value.inst r ∈ d.2 → r < Q.length+1) :
    ∃ p', p.visit Q.length = some p' ∧ Visited P Q T c p p' := by
  have hc : p.block.code[Q.length]? = some c := by rw [hb]; simp
  have hcode := Block.inst_code hc
  have hop : (p.block.inst Q.length).opcode = c.1 := congrArg Prod.fst hcode
  have hargs : (p.block.inst Q.length).args = c.2 := congrArg Prod.snd hcode
  have harg : (p.block.inst Q.length).arg 1 = c.2.getD 1 .void := by rw [Inst.arg, hargs]
  have hvisit : ∀ op, c.1 = op → op ≠ .void → op ≠ .identity →
      ¬ ((p.block.inst Q.length).isTombstone = true ∨ op = .identity) := by
    intro op h hvoid hid
    simp [Inst.isTombstone, hop, h, hvoid, hid]
  obtain ⟨op, args⟩ := c
  have hview : view op (args.getD 0 .void) = some a := hacc
  unfold view at hview
  split at hview
  · rename_i n hreg
    cases hview
    refine ⟨p.getRegister Q.length (.r n), ?_, ?_⟩
    · simp only [RegisterPass.visit, hop, hargs, a32Reg_of hreg]
      rw [if_neg (hvisit _ rfl (by simp) (by simp))]
      rfl
    · by_cases hn : n.val < 15
      · exact visited_of_move (by simp [behind, hacc]) (getRegister_move hfull hn hlen hacc hb)
      · have hskip : p.getRegister Q.length (.r n) = p := by
          simp [RegisterPass.getRegister, A32Reg.number, hn]
        rw [hskip]
        exact visited_skip hn hfull hacc hb
  · rename_i n hreg
    cases hview
    refine ⟨p.setRegister Q.length (.r n) (args.getD 1 .void), ?_, ?_⟩
    · simp only [RegisterPass.visit, hop, hargs, harg, a32Reg_of hreg]
      rw [if_neg (hvisit _ rfl (by simp) (by simp))]
      rfl
    · by_cases hn : n.val < 15
      · exact visited_of_move (by simp [behind, hacc]) (setRegister_move hfull hn hlen hkept hacc hb)
      · have hskip : p.setRegister Q.length (.r n) (args.getD 1 .void) = p := by
          simp [RegisterPass.setRegister, A32Reg.number, hn]
        rw [hskip]
        exact visited_skip hn hfull hacc hb
  · rename_i r hreg
    cases hview
    refine ⟨p.extGet Q.length .single [r.backingIndex], ?_, visited_of_move (by simp [behind, hacc])
      (extGet_move hfull (slots_single _) hlen (slots_backing r) hacc hb)⟩
    simp only [RegisterPass.visit, hop, hargs, a32ExtReg_of hreg]
    rw [if_neg (hvisit _ rfl (by simp) (by simp))]
    rfl
  · rename_i r hreg
    cases hview
    refine ⟨p.extSet Q.length .single [r.backingIndex] (args.getD 1 .void), ?_,
      visited_of_move (by simp [behind, hacc])
        (extSet_move hfull (slots_single _) hlen hkept (slots_backing r) hacc (by simp) hb)⟩
    simp only [RegisterPass.visit, hop, hargs, harg, a32ExtReg_of hreg]
    rw [if_neg (hvisit _ rfl (by simp) (by simp))]
    rfl
  · rename_i n hreg
    cases hview
    obtain ⟨hslots, hdouble, -⟩ := slots_pair (n := n) rfl
    refine ⟨p.extGet Q.length .double (pair (.double n)), ?_, visited_of_move (by simp [behind, hacc])
      (extGet_move hfull hdouble hlen hslots hacc hb)⟩
    simp only [RegisterPass.visit, hop, hargs, a32ExtReg_of hreg]
    rw [if_neg (hvisit _ rfl (by simp) (by simp))]
    rfl
  · rename_i n hreg
    cases hview
    obtain ⟨hslots, hdouble, -⟩ := slots_pair (n := n) rfl
    refine ⟨p.extSet Q.length .double (pair (.double n)) (args.getD 1 .void), ?_,
      visited_of_move (by simp [behind, hacc])
        (extSet_move hfull hdouble hlen hkept hslots hacc (by simp) hb)⟩
    simp only [RegisterPass.visit, hop, hargs, harg, a32ExtReg_of hreg]
    rw [if_neg (hvisit _ rfl (by simp) (by simp))]
    rfl
  · rename_i n hreg
    cases hview
    obtain ⟨hslots, -, hvector⟩ := slots_pair (n := n) rfl
    refine ⟨p.extGet Q.length .vectorDouble (pair (.double n)), ?_,
      visited_of_move (by simp [behind, hacc]) (extGet_move hfull hvector hlen hslots hacc hb)⟩
    simp only [RegisterPass.visit, hop, hargs, a32ExtReg_of hreg]
    rw [if_neg (hvisit _ rfl (by simp) (by simp))]
    rfl
  · rename_i n hreg
    cases hview
    obtain ⟨hslots, -, hvector⟩ := slots_pair (n := n) rfl
    refine ⟨p.vectorDoubleSet Q.length (pair (.double n)) (args.getD 1 .void), ?_, ?_⟩
    · simp only [RegisterPass.visit, hop, hargs, harg, a32ExtReg_of hreg]
      rw [if_neg (hvisit _ rfl (by simp) (by simp))]
      rfl
    · have hop : ∀ r, args.getD 1 .void = .inst r → r < Q.length+1 := by
        intro r hr
        refine hbelow (.a32SetVector, args) (by simp) r ?_
        rw [← hr, List.getD_eq_getElem?_getD]
        cases hget : args[1]? with
        | none =>
          rw [List.getD_eq_getElem?_getD, hget] at hr
          cases hr
        | some v => exact List.mem_of_getElem? hget
      obtain ⟨hfull', R, hR, hmove⟩ :=
        vectorDoubleSet_move hfull hvector hlen hkept hslots hacc rfl rfl hb hbelow hop
      exact ⟨hfull', R, hmove, Or.inr ⟨_, by simp only [behind, hacc]; rfl, hR⟩⟩
  · rename_i n hreg
    cases hview
    obtain ⟨hslots, hquad⟩ := slots_quadruple (n := n) rfl
    refine ⟨p.extGet Q.length .vectorQuad (quadruple (.quad n)), ?_,
      visited_of_move (by simp [behind, hacc]) (extGet_move hfull hquad hlen hslots hacc hb)⟩
    simp only [RegisterPass.visit, hop, hargs, a32ExtReg_of hreg]
    rw [if_neg (hvisit _ rfl (by simp) (by simp))]
    rfl
  · rename_i n hreg
    cases hview
    obtain ⟨hslots, hquad⟩ := slots_quadruple (n := n) rfl
    refine ⟨p.extSet Q.length .vectorQuad (quadruple (.quad n)) (args.getD 1 .void), ?_,
      visited_of_move (by simp [behind, hacc])
        (extSet_move hfull hquad hlen hkept hslots hacc (by simp) hb)⟩
    simp only [RegisterPass.visit, hop, hargs, harg, a32ExtReg_of hreg]
    rw [if_neg (hvisit _ rfl (by simp) (by simp))]
    rfl
  · cases hview

theorem visit_move (hfull : Full p) (hn : views.Named c) (hlen : P.length = Q.length)
    (hkept : views.Traced record P Q (entry p)) (hb : p.block.code = Q ++ c::T)
    (hbelow : ∀ d ∈ Q ++ [c], ∀ r, Value.inst r ∈ d.2 → r < Q.length+1) :
    ∃ p', p.visit Q.length = some p' ∧ Visited P Q T c p p' := by
  cases hacc : views.access c with
  | none => exact visit_pass hfull hn hacc hb
  | some a => exact visit_access hfull hlen hkept hacc hb hbelow

end Visit

end Ruzu.Ir.A32
