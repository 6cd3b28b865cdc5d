import Ruzu.Ir.PolyfillLanes
import Ruzu.Ir.Rename

/-!
# What the rebuilt block computes

Each instruction of the original block has a place in the rebuilt one, where the
same outcome stands. The instructions that no option expands are there as they
were, with their references renamed to places.
-/

set_option autoImplicit false

namespace Ruzu.Ir.Polyfill

/-! ### Which instructions are expanded -/

def PolyfillOptions.expands (options : PolyfillOptions) : Opcode → Bool
  | .sha256MessageSchedule0 | .sha256MessageSchedule1 | .sha256Hash => options.sha256
  | .vectorMultiplySignedWiden8 | .vectorMultiplySignedWiden16 | .vectorMultiplySignedWiden32
  | .vectorMultiplyUnsignedWiden8 | .vectorMultiplyUnsignedWiden16
  | .vectorMultiplyUnsignedWiden32 => options.vectorMultiplyWiden
  | _ => false

/-- The part selector of a hash is an immediate. -/
def SelectorFits (op : Opcode) (args : List Value) : Prop :=
  op = .sha256Hash → ∃ part1, args.getD 3 .void = .immU1 part1

instance (op : Opcode) (args : List Value) : Decidable (SelectorFits op args) :=
  decidable_of_iff (op = .sha256Hash → args.getD 3 .void = .immU1 true ∨
      args.getD 3 .void = .immU1 false)
    ⟨fun h hop => (h hop).elim (fun ht => ⟨true, ht⟩) fun hf => ⟨false, hf⟩,
      fun h hop => by
        obtain ⟨part1, hpart⟩ := h hop
        cases part1 with
        | true => exact .inl hpart
        | false => exact .inr hpart⟩

variable {options : PolyfillOptions} {op : Opcode} {args : List Value}

theorem expansion_kept (h : options.expands op = false) :
    expansion options op args = some none := by
  unfold PolyfillOptions.expands at h
  split at h <;> simp [expansion, h]

theorem expansion_expanded (h : options.expands op = true) (hselector : SelectorFits op args) :
    ∃ e, expansion options op args = some (some e) := by
  unfold PolyfillOptions.expands at h
  split at h
  case h_3 =>
    obtain ⟨part1, hpart⟩ := hselector rfl
    simp only [expansion, h, hpart]
    exact ⟨_, rfl⟩
  case h_10 => cases h
  all_goals
    simp only [expansion, h]
    exact ⟨_, rfl⟩

section Means

variable {S : Type} {other : Machine S} {P : List Code} {s : S} {n : ℕ}

theorem outcome_getD (args : List Value) (k : ℕ) :
    (args.map (outcome other P s)).getD k (.plain .void) =
      outcome other P s (args.getD k .void) := by
  simp only [List.getD_eq_getElem?_getD, List.getElem?_map]
  cases args[k]? <;> rfl

theorem top_getD (hargs : ∀ v ∈ args, v.top ≤ n) (k : ℕ) : (args.getD k .void).top ≤ n := by
  rw [List.getD_eq_getElem?_getD]
  cases hv : args[k]? with
  | none => exact Nat.zero_le n
  | some v => exact hargs v (List.mem_of_getElem? hv)

theorem if_some {α : Type} {c : Prop} [Decidable c] {a b : α}
    (h : (if c then some (some a) else some none) = some (some b)) : c ∧ a = b := by
  by_cases hc : c
  · rw [if_pos hc, Option.some_inj, Option.some_inj] at h
    exact ⟨hc, h⟩
  · rw [if_neg hc, Option.some_inj] at h
    cases h

/-- The code of an expansion computes what the expanded opcode means. -/
def Expands (other : Machine S) (P : List Code) (s : S) (n : ℕ) (op : Opcode) (args : List Value)
    (e : Emit Value) : Prop :=
  ∃ a, Means other P s e n (IsVector other P s n a) ∧
    ∀ s', vectorExec other op (args.map (outcome other P s)) s' = (.plain (.u128 a), s')

theorem widen_expands (esize : IREmitter.ESize) (signed : Bool) (hargs : ∀ v ∈ args, v.top ≤ n)
    (hop : ∀ operands s', vectorExec other op operands s' = (.plain (.u128
      (Arm.multiplyWiden esize.bits (!signed) (operands.getD 0 (.plain .void)).value.v128
        (operands.getD 1 (.plain .void)).value.v128)), s')) :
    Expands other P s n op args
      (polyfillVectorMultiplyWiden esize signed (args.getD 0 .void) (args.getD 1 .void)) := by
  refine ⟨_, vectorMultiplyWiden_means (top_getD hargs 0) (top_getD hargs 1) esize signed, ?_⟩
  intro s'
  rw [hop, outcome_getD, outcome_getD, widened_eq]
  rfl

theorem hash_means {x y w : Value} (hx : x.top ≤ n) (hy : y.top ≤ n) (hw : w.top ≤ n)
    (part1 : Bool) : Means other P s (polyfillSha256Hash x y w part1) n (IsVector other P s n
      (Arm.sha256Hash (vector other P s x) (vector other P s y) (vector other P s w) part1)) := by
  rw [← sha256Hash_eq]
  exact sha256Hash_means hx hy hw part1

theorem expansion_expands {e : Emit Value} (h : expansion options op args = some (some e))
    (hargs : ∀ v ∈ args, v.top ≤ n) : Expands other P s n op args e := by
  have top := top_getD hargs
  unfold expansion at h
  dsimp only at h
  split at h
  case h_1 =>
    obtain rfl := (if_some h).2
    refine ⟨_, messageSchedule0_means (top 0) (top 1), fun s' => ?_⟩
    rw [schedule0_eq, vector, vector, ← outcome_getD, ← outcome_getD]
    rfl
  case h_2 =>
    obtain rfl := (if_some h).2
    refine ⟨_, messageSchedule1_means (top 0) (top 1) (top 2), fun s' => ?_⟩
    rw [schedule1_eq, vector, vector, vector, ← outcome_getD, ← outcome_getD, ← outcome_getD]
    rfl
  case h_3 =>
    split at h
    · split at h
      · rename_i part1 hpart
        rw [Option.some_inj, Option.some_inj] at h
        subst h
        refine ⟨_, hash_means (top 0) (top 1) (top 2) part1, fun s' => ?_⟩
        have hselector : ((args.map (outcome other P s)).getD 3 (.plain .void)).value.b1 =
            part1 := by
          rw [outcome_getD, hpart]
          rfl
        rw [← hselector, vector, vector, vector, ← outcome_getD, ← outcome_getD, ← outcome_getD]
        rfl
      · cases h
    · cases h
  case h_10 => cases h
  all_goals
    obtain rfl := (if_some h).2
    exact widen_expands _ _ hargs fun _ _ => rfl

end Means

/-! ### Places -/

/-- An instruction that has not been removed. -/
def LiveAt (cs : List Code) (k : ℕ) (c : Code) : Prop := cs[k]? = some c ∧ c.1 ≠ .void

theorem LiveAt.lt {cs : List Code} {k : ℕ} {c : Code} (h : LiveAt cs k c) : k < cs.length :=
  (List.getElem?_eq_some_iff.mp h.1).1

theorem liveAt_snoc {cs : List Code} {k : ℕ} {c d : Code} :
    LiveAt (cs ++ [d]) k c ↔ LiveAt cs k c ∨ k = cs.length ∧ c = d ∧ d.1 ≠ .void := by
  rcases Nat.lt_trichotomy k cs.length with hk | rfl | hk
  · rw [LiveAt, LiveAt, List.getElem?_append_left hk]
    simp [Nat.ne_of_lt hk]
  · simp only [LiveAt, List.getElem?_concat_length, Option.some_inj, List.getElem?_length,
      reduceCtorEq, false_and, true_and, false_or]
    refine ⟨?_, ?_⟩
    · rintro ⟨rfl, h⟩
      exact ⟨rfl, h⟩
    · rintro ⟨rfl, h⟩
      exact ⟨rfl, h⟩
  · have hnone : (cs ++ [d])[k]? = none := by
      rw [List.getElem?_eq_none_iff, List.length_append, List.length_singleton]
      exact hk
    have hnone' : cs[k]? = none := List.getElem?_eq_none_iff.mpr (Nat.le_of_lt hk)
    simp [LiveAt, hnone, hnone', Nat.ne_of_gt hk]

/-- The instruction that stands for another one. -/
def place (replacements : List Value) (k : ℕ) : ℕ :=
  match replacements.getD k .void with
  | .inst r => r
  | _ => 0

theorem place_old {ρ : List Value} {k : ℕ} (hk : k < ρ.length) (v : Value) :
    place (ρ ++ [v]) k = place ρ k := by
  rw [place, place, List.getD_append _ _ _ _ hk]

theorem place_new (ρ : List Value) (p : ℕ) : place (ρ ++ [.inst p]) ρ.length = p := by
  simp [place, List.getD_eq_getElem?_getD]

/-- How the code of the rebuilt block relates to the code behind it. -/
structure Rebuilt (options : PolyfillOptions) (cs P : List Code) (ρ : List Value) : Prop where
  length : ρ.length = cs.length
  back : ∀ k c, cs[k]? = some c → ∀ r, Value.inst r ∈ c.2 → r < k
  placed : ∀ k c, LiveAt cs k c → ρ[k]? = some (.inst (place ρ k)) ∧ place ρ k < P.length
  order : ∀ j c k d, LiveAt cs j c → LiveAt cs k d → j < k → place ρ j < place ρ k
  kept : ∀ k c, LiveAt cs k c → options.expands c.1 = false →
    P[place ρ k]? = some (Code.rename (place ρ) c)
  new : ∀ r d, P[r]? = some d → isExpansionOpcode d.1 = true ∨
    ∃ k c, LiveAt cs k c ∧ options.expands c.1 = false ∧ place ρ k = r
  state : ∀ (S : Type) (other : Machine S) (s : S),
    (runCode (vectorExec other) P s).2 = (runCode (vectorExec other) cs s).2
  value : ∀ (S : Type) (other : Machine S) (s : S) k c, LiveAt cs k c →
    outcome other P s (.inst (place ρ k)) = outcome other cs s (.inst k)

namespace Rebuilt

variable {cs P P' : List Code} {ρ : List Value}

theorem nil (options : PolyfillOptions) : Rebuilt options [] [] [] where
  length := rfl
  back _ _ h := by cases h
  placed _ _ h := by cases h.1
  order _ _ _ _ h := by cases h.1
  kept _ _ h := by cases h.1
  new _ _ h := by cases h
  state _ _ _ := rfl
  value _ _ _ _ _ h := by cases h.1

theorem prefix_getElem? (hP : P <+: P') {r : ℕ} (hr : r < P.length) : P'[r]? = P[r]? := by
  obtain ⟨rest, rfl⟩ := hP
  exact List.getElem?_append_left hr

theorem outcome_before {S : Type} (other : Machine S) (s : S) (hP : P <+: P') {v : Value}
    (hv : v.top ≤ P.length) : outcome other P' s v = outcome other P s v := by
  obtain ⟨rest, rfl⟩ := hP
  rw [outcome, evalArg_take (List.length_append ▸ Nat.le_add_right _ _) (Value.lt_of_top hv),
    List.take_left]
  rfl

section Snoc

variable {S : Type} (other : Machine S) (cs : List Code) (c : Code) (s : S)

theorem state_snoc : (runCode (vectorExec other) (cs ++ [c]) s).2 =
    (vectorExec other c.1 ((c.2.take c.1.numArgs).map (outcome other cs s))
      (runCode (vectorExec other) cs s).2).2 := by
  rw [runCode_snoc]
  rfl

theorem outcome_last : outcome other (cs ++ [c]) s (.inst cs.length) =
    (vectorExec other c.1 ((c.2.take c.1.numArgs).map (outcome other cs s))
      (runCode (vectorExec other) cs s).2).1 := by
  rw [outcome, runCode_snoc, Ssa.next, evalArg, ← runCode_length (m := vectorExec other) cs s,
    List.getD_eq_getElem?_getD, List.getElem?_concat_length]
  rfl

end Snoc

/-- What has to hold of the code that is appended for an instruction. -/
structure Extension (options : PolyfillOptions) (cs P P' : List Code) (ρ : List Value) (c : Code)
    (v : Value) : Prop where
  appends : P <+: P'
  back : ∀ r, Value.inst r ∈ c.2 → r < cs.length
  placed : c.1 ≠ .void → ∃ p, v = .inst p ∧ P.length ≤ p ∧ p < P'.length
  kept : c.1 ≠ .void → options.expands c.1 = false → ∃ p, v = .inst p ∧
    P'[p]? = some (Code.rename (place ρ) c)
  new : ∀ r d, P.length ≤ r → P'[r]? = some d → isExpansionOpcode d.1 = true ∨
    c.1 ≠ .void ∧ options.expands c.1 = false ∧ v = .inst r
  state : ∀ (S : Type) (other : Machine S) (s : S),
    (runCode (vectorExec other) P' s).2 = (runCode (vectorExec other) (cs ++ [c]) s).2
  value : ∀ (S : Type) (other : Machine S) (s : S), c.1 ≠ .void →
    outcome other P' s v = outcome other (cs ++ [c]) s (.inst cs.length)

theorem snoc (h : Rebuilt options cs P ρ) {c : Code} {v : Value}
    (hc : Extension options cs P P' ρ c v) : Rebuilt options (cs ++ [c]) P' (ρ ++ [v]) := by
  have hle := hc.appends.length_le
  have hold : ∀ {k d}, LiveAt cs k d → place (ρ ++ [v]) k = place ρ k := fun hk =>
    place_old (h.length ▸ hk.lt) v
  have hnew : ∀ {p}, v = .inst p → place (ρ ++ [v]) cs.length = p := by
    rintro p rfl
    rw [← h.length, place_new]
  have hrename : ∀ d : Code, (∀ r, Value.inst r ∈ d.2 → r < cs.length) →
      Code.rename (place (ρ ++ [v])) d = Code.rename (place ρ) d := fun d hd =>
    rename_congr fun r hr => place_old (h.length ▸ hd r hr) v
  constructor
  case length => rw [List.length_append, List.length_append, h.length]; rfl
  case back =>
    intro k d hd r hr
    rcases Nat.lt_or_ge k cs.length with hk | hk
    · rw [List.getElem?_append_left hk] at hd
      exact h.back k d hd r hr
    · have hlt := (List.getElem?_eq_some_iff.mp hd).1
      rw [List.length_append, List.length_singleton] at hlt
      obtain rfl : k = cs.length := by omega
      rw [List.getElem?_concat_length, Option.some_inj] at hd
      exact hc.back r (hd ▸ hr)
  case placed =>
    intro k d hk
    rcases liveAt_snoc.1 hk with hk | ⟨rfl, rfl, hlive⟩
    · obtain ⟨hat, hlt⟩ := h.placed k d hk
      rw [hold hk, List.getElem?_append_left (h.length ▸ hk.lt)]
      exact ⟨hat, Nat.lt_of_lt_of_le hlt hle⟩
    · obtain ⟨p, rfl, -, hlt⟩ := hc.placed hlive
      rw [hnew rfl, ← h.length, List.getElem?_concat_length]
      exact ⟨rfl, hlt⟩
  case order =>
    intro j d k e hj hk hjk
    rcases liveAt_snoc.1 hk with hk | ⟨rfl, rfl, hlive⟩
    · have hj' := (liveAt_snoc.1 hj).resolve_right fun hj => absurd hk.lt (by omega)
      rw [hold hj', hold hk]
      exact h.order j d k e hj' hk hjk
    · have hj' := (liveAt_snoc.1 hj).resolve_right fun hj => absurd hjk (by omega)
      obtain ⟨p, hp, hle, -⟩ := hc.placed hlive
      rw [hold hj', hnew hp]
      exact Nat.lt_of_lt_of_le (h.placed j d hj').2 hle
  case kept =>
    intro k d hk hexpands
    rcases liveAt_snoc.1 hk with hk | ⟨rfl, rfl, hlive⟩
    · have hkept := h.kept k d hk hexpands
      rw [hold hk, hrename d fun r hr => Nat.lt_trans (h.back k d hk.1 r hr) hk.lt]
      rwa [prefix_getElem? hc.appends (h.placed k d hk).2]
    · obtain ⟨p, hp, hkept⟩ := hc.kept hlive hexpands
      rw [hnew hp, hrename d hc.back, hkept]
  case new =>
    intro r d hd
    rcases Nat.lt_or_ge r P.length with hr | hr
    · rw [prefix_getElem? hc.appends hr] at hd
      refine (h.new r d hd).imp id fun ⟨k, e, hk, hexpands, hplace⟩ => ?_
      exact ⟨k, e, liveAt_snoc.2 (.inl hk), hexpands, hold hk ▸ hplace⟩
    · rcases hc.new r d hr hd with hexp | ⟨hlive, hexpands, hv⟩
      · exact .inl hexp
      · exact .inr ⟨_, c, liveAt_snoc.2 (.inr ⟨rfl, rfl, hlive⟩), hexpands, hnew hv⟩
  case state => exact hc.state
  case value =>
    intro S other s k d hk
    rcases liveAt_snoc.1 hk with hk | ⟨rfl, rfl, hlive⟩
    · have htop : (Value.inst (place ρ k)).top ≤ P.length := (h.placed k d hk).2
      have htop' : (Value.inst k).top ≤ cs.length := hk.lt
      rw [hold hk, outcome_before other s hc.appends htop, h.value S other s k d hk,
        outcome_before other s (List.prefix_append cs [c]) htop']
    · obtain ⟨p, rfl, -, -⟩ := hc.placed hlive
      rw [hnew rfl]
      exact hc.value S other s hlive

/-! ### One instruction -/

section Step

variable (h : Rebuilt options cs P ρ) {c : Code}
  (hback : ∀ r, Value.inst r ∈ c.2 → ∃ d, LiveAt cs r d)
include h

theorem remapValue_live {v : Value} (hv : ∀ r, v = .inst r → ∃ d, LiveAt cs r d) :
    remapValue ρ v = some (v.mapRef (place ρ)) := by
  cases v with
  | inst r =>
    obtain ⟨d, hd⟩ := hv r rfl
    exact (h.placed r d hd).1
  | _ => rfl

theorem outcome_mapRef {S : Type} (other : Machine S) (s : S) {v : Value}
    (hv : ∀ r, v = .inst r → ∃ d, LiveAt cs r d) :
    outcome other P s (v.mapRef (place ρ)) = outcome other cs s v := by
  cases v with
  | inst r =>
    obtain ⟨d, hd⟩ := hv r rfl
    exact h.value S other s r d hd
  | _ => rfl

theorem mapRef_top {v : Value} (hv : ∀ r, v = .inst r → ∃ d, LiveAt cs r d) :
    (v.mapRef (place ρ)).top ≤ P.length := by
  cases v with
  | inst r =>
    obtain ⟨d, hd⟩ := hv r rfl
    exact (h.placed r d hd).2
  | _ => exact Nat.zero_le _

theorem removed (hvoid : c.1 = .void) (hlt : ∀ r, Value.inst r ∈ c.2 → r < cs.length) :
    Extension options cs P P ρ c .void where
  appends := List.prefix_rfl
  back := hlt
  placed hlive := absurd hvoid hlive
  kept hlive := absurd hvoid hlive
  new r d hr hd := absurd (List.getElem?_eq_some_iff.mp hd).1 (Nat.not_lt.mpr hr)
  state S other s := by
    rw [state_snoc, hvoid]
    exact h.state S other s
  value _ _ _ hlive := absurd hvoid hlive

include hback

theorem remap_args : (c.2.take c.1.numArgs).mapM (remapValue ρ) =
    some ((c.2.take c.1.numArgs).map (Value.mapRef (place ρ))) := by
  have hlive : ∀ v ∈ c.2.take c.1.numArgs, remapValue ρ v = some (v.mapRef (place ρ)) := by
    refine fun v hv => h.remapValue_live ?_
    rintro r rfl
    exact hback r (List.mem_of_mem_take hv)
  generalize c.2.take c.1.numArgs = vs at hlive
  induction vs with
  | nil => rfl
  | cons v vs ih =>
    rw [List.mapM_cons, hlive v List.mem_cons_self,
      ih fun w hw => hlive w (List.mem_cons_of_mem _ hw)]
    rfl

omit h hback in
theorem rename_take (g : ℕ → ℕ) (c : Code) : (Code.rename g c).2.take (Code.rename g c).1.numArgs =
    (c.2.take c.1.numArgs).map (Value.mapRef g) := List.map_take.symm

theorem outcomes_args {S : Type} (other : Machine S) (s : S) :
    ((c.2.take c.1.numArgs).map (Value.mapRef (place ρ))).map (outcome other P s) =
      (c.2.take c.1.numArgs).map (outcome other cs s) := by
  rw [List.map_map]
  refine List.map_congr_left fun v hv => h.outcome_mapRef other s ?_
  rintro r rfl
  exact hback r (List.mem_of_mem_take hv)

theorem args_top : ∀ v ∈ (c.2.take c.1.numArgs).map (Value.mapRef (place ρ)), v.top ≤ P.length := by
  intro v hv
  obtain ⟨w, hw, rfl⟩ := List.mem_map.mp hv
  refine h.mapRef_top ?_
  rintro r rfl
  exact hback r (List.mem_of_mem_take hw)

theorem copied (hlive : c.1 ≠ .void) (hexpands : options.expands c.1 = false) :
    Extension options cs P (P ++ [Code.rename (place ρ) c]) ρ c (.inst P.length) where
  appends := List.prefix_append _ _
  back r hr := (hback r hr).elim fun _ hd => hd.lt
  placed _ := ⟨_, rfl, Nat.le_refl _, by rw [List.length_append, List.length_singleton]; omega⟩
  kept _ _ := ⟨_, rfl, List.getElem?_concat_length⟩
  new r d hr hd := by
    have hlt := (List.getElem?_eq_some_iff.mp hd).1
    rw [List.length_append, List.length_singleton] at hlt
    obtain rfl : r = P.length := by omega
    exact .inr ⟨hlive, hexpands, rfl⟩
  state S other s := by
    rw [state_snoc, state_snoc, rename_take, h.outcomes_args hback, h.state]
    rfl
  value S other s _ := by
    rw [outcome_last, outcome_last, rename_take, h.outcomes_args hback, h.state]
    rfl

theorem expanded (hexpands : options.expands c.1 = true) {b : Block} (hb : b.code = P)
    {e : Emit Value} (he : expansion options c.1
      ((c.2.take c.1.numArgs).map (Value.mapRef (place ρ))) = some (some e)) :
    Extension options cs P (e.run b).2.code ρ c (e.run b).1 := by
  subst hb
  have hmeans : ∀ (S : Type) (other : Machine S) (s : S), Expands other (e.run b).2.code s
      b.code.length c.1 ((c.2.take c.1.numArgs).map (Value.mapRef (place ρ))) e :=
    fun S other s => expansion_expands he (h.args_top hback)
  have hlen : ∀ b : Block, b.instructions.length = b.code.length := fun b =>
    (List.length_map _).symm
  have hrun : ∀ (S : Type) (other : Machine S) (s : S),
      (runCode (vectorExec other) (e.run b).2.code s).2 =
        (runCode (vectorExec other) (cs ++ [c]) s).2 ∧
      outcome other (e.run b).2.code s (e.run b).1 =
        outcome other (cs ++ [c]) s (.inst cs.length) := by
    intro S other s
    obtain ⟨a, ha, hexec⟩ := hmeans S other s
    obtain ⟨hvalue, hstate, -⟩ := ha b (hlen b) List.prefix_rfl
    have hargs : ((c.2.take c.1.numArgs).map (Value.mapRef (place ρ))).map
        (outcome other (e.run b).2.code s) = (c.2.take c.1.numArgs).map (outcome other cs s) := by
      rw [← h.outcomes_args hback]
      exact List.map_congr_left fun v hv =>
        outcome_before other s (e.appends b) (h.args_top hback v hv)
    rw [hargs] at hexec
    rw [stateAt, stateAt, hlen, reached_all, reached_eq_take,
      ← List.prefix_iff_eq_take.mp (e.appends b), h.state] at hstate
    rw [state_snoc, outcome_last, hexec]
    exact ⟨hstate, hvalue.2⟩
  obtain ⟨a, ha, -⟩ := hmeans Unit (fun _ _ _ => (.plain .void, ())) ()
  obtain ⟨⟨⟨p, hp, hle, hlt⟩, -⟩, -, hops⟩ := ha b (hlen b) List.prefix_rfl
  rw [hlen] at hlt hops
  exact {
    appends := e.appends b
    back := fun r hr => (hback r hr).elim fun _ hd => hd.lt
    placed := fun _ => ⟨p, hp, hle, hlt⟩
    kept := fun _ hkept => by rw [hexpands] at hkept; cases hkept
    new := fun r d hr hd => by
      obtain ⟨d', hd', hop⟩ := hops r hr (List.getElem?_eq_some_iff.mp hd).1
      rw [hd, Option.some_inj] at hd'
      exact .inl (hd' ▸ hop)
    state := fun S other s => (hrun S other s).1
    value := fun S other s _ => (hrun S other s).2 }

end Step


end Rebuilt


/-! ### The whole block -/

theorem typed_live {ts : List Ty} {cs ds : List Code} (h : Typed ts cs)
    (hts : ∀ r, ts.getD r .void ≠ .void → ∃ d, LiveAt ds r d) (hlen : ds.length = ts.length)
    {k : ℕ} {c : Code} (hc : cs[k]? = some c) {r : ℕ} (hr : Value.inst r ∈ c.2) :
    ∃ d, LiveAt (ds ++ cs.take k) r d := by
  induction cs generalizing ts ds k with
  | nil => cases hc
  | cons e cs ih =>
    cases k with
    | zero =>
      rw [List.getElem?_cons_zero, Option.some_inj] at hc
      subst hc
      rw [List.take_zero, List.append_nil]
      obtain ⟨a, ha⟩ := List.getElem?_of_mem hr
      have hlt : a < e.1.numArgs := h.1.1 ▸ (List.getElem?_eq_some_iff.mp ha).1
      have hfits := h.1.arg hlt
      rw [List.getD_eq_getElem?_getD, ha] at hfits
      exact hts r hfits.1
    | succ k =>
      rw [List.take_succ_cons, List.append_cons]
      refine ih h.2 (fun r hne => ?_) (by simp [hlen]) hc
      rcases Nat.lt_trichotomy r ts.length with hlt | rfl | hgt
      · rw [List.getD_append _ _ _ _ hlt] at hne
        obtain ⟨d, hd⟩ := hts r hne
        exact ⟨d, liveAt_snoc.2 (.inl hd)⟩
      · refine ⟨e, liveAt_snoc.2 (.inr ⟨hlen.symm, rfl, fun hvoid => ?_⟩)⟩
        rw [List.getD_eq_getElem?_getD, List.getElem?_concat_length, Option.getD_some, resultType,
          hvoid] at hne
        exact hne rfl
      · rw [List.getD_eq_default _ _ (by simp; omega)] at hne
        exact absurd rfl hne

/-- An argument refers to an earlier instruction that has not been removed. -/
theorem live_of_ref {cs : List Code} (h : Typed [] cs) {k : ℕ} {c : Code} (hc : cs[k]? = some c)
    {r : ℕ} (hr : Value.inst r ∈ c.2) : ∃ d, LiveAt (cs.take k) r d :=
  show ∃ d, LiveAt ([] ++ cs.take k) r d from
    typed_live h (fun _ hne => absurd List.getD_nil hne) rfl hc hr

theorem isTombstone_iff {b : Block} (hb : WellFormed b) {k : ℕ} {i : Inst}
    (hi : b.instructions[k]? = some i) : i.isTombstone = true ↔ i.opcode = .void := by
  have hk := (List.getElem?_eq_some_iff.mp hi).1
  have hinst : b.inst k = i := by rw [Block.inst, List.getD_eq_getElem?_getD, hi, Option.getD_some]
  rw [Inst.isTombstone, decide_eq_true_iff]
  refine ⟨And.left, fun hvoid => ⟨hvoid, ?_⟩⟩
  rw [← hinst, hb.counted k hk, List.count_eq_zero]
  intro hmem
  obtain ⟨j, hj, hk⟩ := List.mem_flatMap.mp hmem
  obtain ⟨v, hv, hvk⟩ := List.mem_filterMap.mp hk
  obtain ⟨d, hd, hdvoid⟩ : ∃ d, LiveAt b.code k d := by
    obtain rfl : v = .inst k := by
      cases v with
      | inst r =>
        cases hvk
        rfl
      | _ => cases hvk
    obtain ⟨n, hn⟩ := List.getElem?_of_mem hj
    have hcode : b.code[n]? = some j.code := by rw [Block.code, List.getElem?_map, hn]; rfl
    obtain ⟨d, hd⟩ := live_of_ref hb.typed hcode (List.mem_of_mem_take hv)
    exact ⟨d, (Rebuilt.prefix_getElem? (List.take_prefix n _) hd.lt).trans hd.1, hd.2⟩
  rw [Block.code, List.getElem?_map, hi] at hd
  cases hd
  exact hdvoid hvoid

theorem rebuildInst_spec {cs : List Code} {b : Block} {ρ : List Value} {i : Inst}
    (h : Rebuilt options cs b.code ρ) (htomb : i.isTombstone = true ↔ i.opcode = .void)
    (hlen : i.args.length = i.numArgs) (hselector : SelectorFits i.opcode i.args)
    (hback : ∀ r, Value.inst r ∈ i.args → ∃ d, LiveAt cs r d) :
    ∃ b' ρ', rebuildInst options (b, ρ) i = some (b', ρ') ∧
      Rebuilt options (cs ++ [i.code]) b'.code ρ' := by
  have htake : i.args.take i.numArgs = i.args := List.take_of_length_le (Nat.le_of_eq hlen)
  have hremap := h.remap_args (c := i.code) hback
  unfold rebuildInst
  split
  · rename_i hremoved
    exact ⟨b, _, rfl, h.snoc (h.removed (c := i.code) (htomb.mp hremoved) fun r hr =>
      (hback r hr).elim fun _ hd => hd.lt)⟩
  · rename_i hlive
    have hvoid : i.code.1 ≠ .void := fun hvoid => hlive (htomb.mpr hvoid)
    simp only [Inst.code, show i.opcode.numArgs = i.numArgs from rfl] at hremap
    rw [hremap]
    dsimp only [bind, Option.bind]
    cases hexpands : options.expands i.opcode with
    | false =>
      rw [expansion_kept hexpands]
      refine ⟨_, _, rfl, ?_⟩
      have hcode : ((IREmitter.emit i.opcode ((i.args.take i.numArgs).map
          (Value.mapRef (place ρ)))).run b).2.code = b.code ++ [Code.rename (place ρ) i.code] := by
        rw [htake]
        exact b.code_append _ _
      dsimp only [Option.getD_none]
      rw [hcode]
      have hnext := h.copied (c := i.code) hback hvoid hexpands
      rw [show b.code.length = b.instructions.length from List.length_map _] at hnext
      exact h.snoc hnext
    | true =>
      have hselector' : SelectorFits i.opcode
          ((i.args.take i.numArgs).map (Value.mapRef (place ρ))) := by
        intro hop
        obtain ⟨part1, hpart⟩ := hselector hop
        have hrename := rename_getD (place ρ) i.code 3
        rw [show i.code.2.getD 3 .void = .immU1 part1 from hpart] at hrename
        exact ⟨part1, htake.symm ▸ hrename⟩
      obtain ⟨e, he⟩ := expansion_expanded hexpands hselector'
      rw [he]
      exact ⟨_, _, rfl, h.snoc (h.expanded (c := i.code) hback hexpands rfl he)⟩

/-- The pass goes through, and rebuilds the block. -/
theorem rebuild_spec (options : PolyfillOptions) {b : Block} (hb : WellFormed b)
    (hselectors : ∀ c ∈ b.code, SelectorFits c.1 c.2) :
    ∃ b' ρ, rebuild options b = some (b', ρ) ∧ Rebuilt options b.code b'.code ρ := by
  have hrun : ∀ rest before : List Inst, b.instructions = before ++ rest → ∀ (b' : Block) ρ,
      Rebuilt options (before.map Inst.code) b'.code ρ →
      ∃ b'' ρ', rest.foldlM (rebuildInst options) (b', ρ) = some (b'', ρ') ∧
        Rebuilt options b.code b''.code ρ' := by
    intro rest
    induction rest with
    | nil =>
      intro before hbefore b' ρ h
      rw [List.append_nil] at hbefore
      rw [Block.code, hbefore]
      exact ⟨b', ρ, rfl, h⟩
    | cons i rest ih =>
      intro before hbefore b' ρ h
      have hi : b.instructions[before.length]? = some i := by
        rw [hbefore, List.getElem?_append_right (Nat.le_refl _), Nat.sub_self]
        rfl
      have hcode : b.code[before.length]? = some i.code := by
        rw [Block.code, List.getElem?_map, hi]
        rfl
      have hcs : b.code.take before.length = before.map Inst.code := by
        rw [Block.code, hbefore, List.map_append, ← List.length_map Inst.code, List.take_left]
      obtain ⟨us, -, hfit⟩ := hb.typed.at hcode
      obtain ⟨b₁, ρ₁, hstep, h₁⟩ := rebuildInst_spec h (isTombstone_iff hb hi) hfit.1
        (hselectors _ (List.mem_of_getElem? hcode)) fun r hr => hcs ▸ live_of_ref hb.typed hcode hr
      rw [List.foldlM_cons, hstep]
      refine ih (before ++ [i]) (by rw [hbefore]; simp) b₁ ρ₁ ?_
      rw [List.map_append]
      exact h₁
  exact hrun b.instructions [] rfl ⟨[]⟩ [] (.nil options)


end Ruzu.Ir.Polyfill
