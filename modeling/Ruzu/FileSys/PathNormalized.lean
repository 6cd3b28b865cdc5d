import Ruzu.FileSys.PathNormalizer

/-!
# Normalized paths

The checker accepts the root and the paths of names alone, and the normalizer
writes the names that resolving the components of its path leaves.
-/

set_option autoImplicit false

namespace Ruzu.FsPath

open PathComponents

namespace PathNormalizer

/-- No terminator, and no invalid character where these are not allowed. -/
structure Clean (allow : Bool) (s : Bytes) : Prop where
  bytes : nullTerminator ∉ s
  valid : allow = true ∨ ∀ c ∈ s, isInvalidCharacter c = false

variable {allow : Bool} {s t c v rest junk : Bytes} {len : ℕ} {names : List Bytes}

theorem valid_of_all (h : (s.all fun c => !isInvalidCharacter c) = true) :
    ∀ c ∈ s, isInvalidCharacter c = false := by
  simpa only [List.all_eq_true, Bool.not_eq_true'] using h

theorem Clean.append : Clean allow (s ++ t) ↔ Clean allow s ∧ Clean allow t := by
  constructor
  · rintro ⟨hbytes, hvalid⟩
    rw [List.mem_append, not_or] at hbytes
    exact ⟨⟨hbytes.1, hvalid.imp_right fun h c hc => h c (List.mem_append_left t hc)⟩,
      ⟨hbytes.2, hvalid.imp_right fun h c hc => h c (List.mem_append_right s hc)⟩⟩
  · rintro ⟨hs, ht⟩
    refine ⟨fun h => (List.mem_append.mp h).elim hs.bytes ht.bytes, ?_⟩
    rcases hs.valid with hallow | hs
    · exact .inl hallow
    · exact ht.valid.imp_right fun ht c hc => (List.mem_append.mp hc).elim (hs c) (ht c)

theorem Clean.cons {a : UInt8} (h : Clean allow (a :: t)) : Clean allow t :=
  (Clean.append.1 (show Clean allow ([a] ++ t) from h)).2

theorem Clean.head {a : UInt8} (h : Clean allow (a :: t)) :
    a ≠ nullTerminator ∧ (allow = true ∨ isInvalidCharacter a = false) :=
  ⟨fun heq => h.bytes (heq ▸ List.mem_cons_self),
    h.valid.imp_right fun hv => hv a List.mem_cons_self⟩

/-! ### The checker -/

theorem check_end (state : PathState) : check allow state len (nullTerminator :: rest) =
    state.finish len := by
  rw [check, if_pos rfl]

/-- One byte of a clean path. -/
theorem check_cons {a : UInt8} (h : Clean allow (a :: t)) (state : PathState) (rest : Bytes) :
    check allow state len (a :: rest) = (state.step a).bind fun
      | none => .ok (false, len + 1)
      | some state => check allow state (len + 1) rest := by
  obtain ⟨hne, hvalid⟩ := h.head
  have hok : (!allow && state ≠ .start && isInvalidCharacter a) = false := by
    rcases hvalid with rfl | hvalid
    · rfl
    · rw [hvalid, Bool.and_false]
  rw [check, if_neg hne, hok]
  rfl

theorem check_normal (h : Clean allow c) (hc : directorySeparator ∉ c) :
    check allow .normal len (c ++ rest) = check allow .normal (len + c.length) rest := by
  induction c generalizing len with
  | nil => rfl
  | cons a c ih =>
    have hne : a ≠ directorySeparator := fun heq => hc (heq ▸ List.mem_cons_self)
    rw [List.cons_append, check_cons h, PathState.step, if_neg hne]
    rw [show len + (a :: c).length = len + 1 + c.length by rw [List.length_cons]; omega]
    exact ih h.cons fun hmem => hc (List.mem_cons_of_mem a hmem)

/-- Behind a separator a name leads to the state of a name. -/
theorem check_name (h : Clean allow c) (hc : directorySeparator ∉ c) (hname : IsName dot c) :
    check allow .separator len (c ++ rest) = check allow .normal (len + c.length) rest := by
  have hne : ∀ a ∈ c, ¬ a = directorySeparator := fun a ha heq => hc (heq ▸ ha)
  have htail : ∀ a t, c = a :: t → directorySeparator ∉ t := fun a t heq hmem =>
    hc (heq ▸ List.mem_cons_of_mem a hmem)
  cases c with
  | nil => exact absurd rfl hname.1
  | cons a c =>
    have ha := hne a List.mem_cons_self
    rw [List.cons_append, check_cons h, PathState.step, if_neg ha]
    by_cases hdot : a = dot
    · rw [if_pos hdot]
      cases c with
      | nil => exact absurd (congrArg (· :: []) hdot) hname.2.1
      | cons b c =>
        have hb := hne b (by simp)
        change check allow .currentDir (len + 1) (b :: (c ++ rest)) = _
        rw [check_cons h.cons, PathState.step, if_neg hb]
        by_cases hdot' : b = dot
        · rw [if_pos hdot']
          cases c with
          | nil => exact absurd (by rw [hdot, hdot']) hname.2.2
          | cons d c =>
            have hd := hne d (by simp)
            change check allow .parentDir (len + 1 + 1) (d :: (c ++ rest)) = _
            rw [check_cons h.cons.cons, PathState.step, if_neg hd]
            rw [show len + (a :: b :: d :: c).length = len + 1 + 1 + 1 + c.length by
              simp only [List.length_cons]; omega]
            exact check_normal h.cons.cons.cons fun hmem => hc (by simp [hmem])
        · rw [if_neg hdot']
          rw [show len + (a :: b :: c).length = len + 1 + 1 + c.length by
            simp only [List.length_cons]; omega]
          exact check_normal h.cons.cons fun hmem => hc (by simp [hmem])
    · rw [if_neg hdot]
      rw [show len + (a :: c).length = len + 1 + c.length by rw [List.length_cons]; omega]
      exact check_normal h.cons (htail a c rfl)

/-- Behind a separator a path is accepted if it consists of names. -/
theorem check_components (h : Clean allow t) (junk : Bytes) (len : ℕ) :
    ∃ b n, check allow .separator len (t ++ nullTerminator :: junk) = .ok (b, n) ∧
      (b = true ↔ ∀ c ∈ t.splitOn directorySeparator, IsName dot c) ∧
      (b = true → n = len + t.length) := by
  induction hn : t.length using Nat.strongRecOn generalizing t len with
  | ind n ih =>
    obtain ⟨c, v, rfl, hc, hv⟩ := exists_first directorySeparator t
    obtain ⟨hclean, hcleanv⟩ := Clean.append.1 h
    have hfirst : c ∈ (c ++ v).splitOn directorySeparator := by
      rcases hv with rfl | ⟨t', rfl⟩
      · rw [List.append_nil, List.splitOn_eq_singleton hc]
        exact List.mem_singleton_self c
      · rw [splitOn_first hc]
        exact List.mem_cons_self
    have hreject : ¬ IsName dot c → ∀ n, ((false = true) ↔
        ∀ d ∈ (c ++ v).splitOn directorySeparator, IsName dot d) ∧
        (false = true → n = len + (c ++ v).length) := fun hnot n =>
      ⟨⟨nofun, fun hall => absurd (hall c hfirst) hnot⟩, nofun⟩
    rw [List.append_assoc]
    by_cases hname : IsName dot c
    · rw [check_name hclean hc hname]
      rcases hv with rfl | ⟨t', rfl⟩
      · rw [List.nil_append, check_end, List.append_nil, List.splitOn_eq_singleton hc]
        refine ⟨true, _, rfl, iff_of_true rfl fun d hd => ?_, fun _ => hn ▸ by simp⟩
        rwa [List.mem_singleton.mp hd]
      · obtain ⟨b, m, hrun, hb, hm⟩ := ih t'.length (by rw [← hn]; simp; omega) hcleanv.cons
          (len + c.length + 1) rfl
        rw [List.cons_append, check_cons hcleanv, PathState.step, if_pos rfl, splitOn_first hc]
        refine ⟨b, m, hrun, ?_, fun htrue => ?_⟩
        · rw [hb, List.forall_mem_cons]
          exact (and_iff_right hname).symm
        · rw [hm htrue, ← hn, List.length_append, List.length_cons]
          omega
    · -- an empty component, `.` or `..` is found out by the byte behind it
      have hcases : c = [] ∨ c = [dot] ∨ c = [dot, dot] := by
        rcases component_cases dot c with (hnil | hdot) | hparent | hgood
        · exact .inl hnil
        · exact .inr (.inl hdot)
        · exact .inr (.inr hparent)
        · exact absurd hgood hname
      obtain ⟨state, hrun, hfinish, hstep⟩ : ∃ state : PathState,
          (∀ rest, check allow .separator len (c ++ rest) = check allow state (len + c.length) rest) ∧
          (∀ len, state.finish len = .ok (false, len)) ∧
          state.step directorySeparator = .ok none := by
        rcases hcases with rfl | rfl | rfl
        · exact ⟨.separator, fun _ => rfl, fun _ => rfl, rfl⟩
        · exact ⟨.currentDir, fun rest => check_cons hclean _ _, fun _ => rfl, rfl⟩
        · refine ⟨.parentDir, fun rest => ?_, fun _ => rfl, rfl⟩
          exact (check_cons hclean _ _).trans (check_cons hclean.cons _ _)
      rw [hrun]
      rcases hv with rfl | ⟨t', rfl⟩
      · rw [List.nil_append, check_end, hfinish]
        exact ⟨false, _, rfl, hn ▸ hreject hname _⟩
      · rw [List.cons_append, check_cons hcleanv, hstep]
        exact ⟨false, _, rfl, hn ▸ hreject hname _⟩

/-- A path behind its first separator. -/
theorem isNormalized_eq (h : Clean allow (directorySeparator :: t)) (junk : Bytes) :
    ∃ b n, isNormalized (directorySeparator :: t ++ nullTerminator :: junk) allow = .ok (b, n) ∧
      (b = true ↔ t = [] ∨ ∀ c ∈ t.splitOn directorySeparator, IsName dot c) ∧
      (b = true → n = (directorySeparator :: t).length) := by
  rw [isNormalized, List.cons_append, check_cons h, PathState.step, if_neg (not_not_intro rfl)]
  change ∃ b n, check allow .firstSeparator (0 + 1) (t ++ nullTerminator :: junk) = _ ∧ _
  cases t with
  | nil => exact ⟨true, 1, check_end _, iff_of_true rfl (.inl rfl), fun _ => rfl⟩
  | cons a t =>
    obtain ⟨b, n, hrun, hb, hn⟩ := check_components h.cons junk (0 + 1)
    rw [List.cons_append, check_cons h.cons] at hrun
    refine ⟨b, n, ?_, ?_, fun htrue => ?_⟩
    · rw [List.cons_append, check_cons h.cons]
      exact hrun
    · rw [hb]
      exact (or_iff_right nofun).symm
    · rw [hn htrue]
      simp only [List.length_cons]
      omega

/-! ### Components of the path -/

/-- A separator or the terminator. -/
def Stops (path : Bytes) : Prop :=
  ∃ a rest, path = a :: rest ∧ (a = directorySeparator ∨ a = nullTerminator)

theorem component_eq (h : Clean allow c) (hc : directorySeparator ∉ c) {w : Bytes}
    (hw : Stops w) : component (c ++ w) = c := by
  obtain ⟨a, rest, rfl, ha⟩ := hw
  have hin : ∀ b ∈ c, (b ≠ directorySeparator && b ≠ nullTerminator : Bool) = true := by
    intro b hb
    have h₁ : b ≠ directorySeparator := fun heq => hc (heq ▸ hb)
    have h₂ : b ≠ nullTerminator := fun heq => h.bytes (heq ▸ hb)
    simp [h₁, h₂]
  rw [component, List.takeWhile_append_of_pos hin, List.takeWhile_cons_of_neg, List.append_nil]
  rcases ha with rfl | rfl <;> decide

theorem isCurrentDirectory_iff (h : Clean allow c) (hc : directorySeparator ∉ c) (hne : c ≠ [])
    {w : Bytes} (hw : Stops w) : isCurrentDirectory (c ++ w) = true ↔ c = [dot] := by
  obtain ⟨e, rest, rfl, he⟩ := hw
  cases c with
  | nil => exact absurd rfl hne
  | cons a c =>
    cases c with
    | nil =>
      have hstop : (e == nullTerminator || e == directorySeparator) = true := by
        rcases he with rfl | rfl <;> rfl
      rw [List.cons_append, List.nil_append, isCurrentDirectory, hstop, Bool.and_true, beq_iff_eq]
      simp
    | cons b c =>
      have h₁ : ¬ b = directorySeparator := fun heq => hc (by simp [heq])
      have h₂ : ¬ b = nullTerminator := fun heq => h.bytes (by simp [heq])
      rw [List.cons_append, List.cons_append, isCurrentDirectory]
      simp [h₁, h₂]

theorem isParentDirectory_iff (h : Clean allow c) (hc : directorySeparator ∉ c) (hne : c ≠ [])
    {w : Bytes} (hw : Stops w) : isParentDirectory (c ++ w) = true ↔ c = [dot, dot] := by
  obtain ⟨e, rest, rfl, he⟩ := hw
  cases c with
  | nil => exact absurd rfl hne
  | cons a c =>
    cases c with
    | nil =>
      have hdot : (e == dot) = false := by rcases he with rfl | rfl <;> rfl
      cases rest <;> simp [isParentDirectory, hdot]
    | cons b c =>
      cases c with
      | nil =>
        have hstop : (e == nullTerminator || e == directorySeparator) = true := by
          rcases he with rfl | rfl <;> rfl
        rw [List.cons_append, List.cons_append, List.nil_append, isParentDirectory, hstop,
          Bool.and_true, Bool.and_eq_true, beq_iff_eq, beq_iff_eq]
        simp
      | cons d c =>
        have h₁ : ¬ d = directorySeparator := fun heq => hc (by simp [heq])
        have h₂ : ¬ d = nullTerminator := fun heq => h.bytes (by simp [heq])
        rw [List.cons_append, List.cons_append, List.cons_append, isParentDirectory]
        simp [h₁, h₂]

/-! ### The output -/

/-- The output shows the names, with a separator behind them if it skips the next one. -/
structure Shows (out : Output) (names : List Bytes) (size : ℕ) : Prop where
  written : out.dst.take out.totalLen =
    join directorySeparator names ++ if out.skipNextSep then [directorySeparator] else []
  length : out.totalLen = (join directorySeparator names ++
    if out.skipNextSep then [directorySeparator] else []).length
  size : out.dst.length = size

/-- The output shows the names and the separator of the next one. -/
structure Open (out : Output) (names : List Bytes) (size : ℕ) : Prop where
  written : out.dst.take out.totalLen = join directorySeparator names ++ [directorySeparator]
  length : out.totalLen = (join directorySeparator names).length + 1
  skip : out.skipNextSep = false
  size : out.dst.length = size

variable {out : Output} {size maxOutSize : ℕ}

theorem take_set_concat {dst : Bytes} {n : ℕ} (hn : n < dst.length) (a : UInt8) :
    (dst.set n a).take (n + 1) = dst.take n ++ [a] := by
  rw [List.take_add_one, List.take_set_of_le (Nat.le_refl n), List.getElem?_set_self hn]
  rfl

theorem separatorStep_eq (h : Shows out names size) (hmax : out.totalLen + 1 < maxOutSize)
    (hsize : out.totalLen < size) :
    ∃ out', separatorStep maxOutSize out = .ok out' ∧ Open out' names size ∧
      out'.totalLen ≤ out.totalLen + 1 := by
  rw [separatorStep]
  have hwritten := h.written
  have hlength := h.length
  cases hskip : out.skipNextSep with
  | true =>
    rw [hskip, if_pos rfl] at hwritten hlength
    refine ⟨{ out with skipNextSep := false }, if_pos rfl, ⟨hwritten, ?_, rfl, h.size⟩,
      Nat.le_succ _⟩
    rw [hlength, List.length_append]
    rfl
  | false =>
    rw [hskip, if_neg nofun, List.append_nil] at hwritten hlength
    rw [if_neg nofun, if_neg (Nat.ne_of_lt hmax)]
    refine ⟨_, rfl, ⟨?_, ?_, rfl, ?_⟩, Nat.le_refl _⟩
    · dsimp only
      rw [take_set_concat (h.size ▸ hsize), hwritten]
    · dsimp only
      rw [hlength]
    · dsimp only
      rw [List.length_set, h.size]

theorem copyAt_eq (c dst : Bytes) {n : ℕ} (hn : n + c.length ≤ dst.length) :
    (copyAt dst n c).take (n + c.length) = dst.take n ++ c ∧
      (copyAt dst n c).length = dst.length := by
  induction c generalizing dst n with
  | nil => exact ⟨(List.append_nil _).symm, rfl⟩
  | cons a c ih =>
    rw [List.length_cons] at hn ⊢
    have hlen : (dst.set n a).length = dst.length := List.length_set
    obtain ⟨htake, hlength⟩ := ih (dst.set n a) (n := n + 1) (by omega)
    refine ⟨?_, hlength.trans hlen⟩
    rw [show n + (c.length + 1) = n + 1 + c.length by omega, copyAt, htake,
      take_set_concat (by omega), List.append_assoc]
    rfl

theorem walkUp_eq {dst : Bytes} {k n : ℕ} (hk : dst[k]? = some directorySeparator) (hkn : k ≤ n)
    (hbetween : ∀ j, k < j → j ≤ n → ∃ a, dst[j]? = some a ∧ a ≠ directorySeparator) :
    walkUp dst n = .ok k := by
  induction n with
  | zero =>
    obtain rfl : k = 0 := by omega
    exact if_pos (List.getElem?_eq_some_iff.mp hk).1
  | succ n ih =>
    rw [walkUp]
    rcases Nat.lt_or_ge k (n + 1) with hlt | hge
    · obtain ⟨a, ha, hne⟩ := hbetween (n + 1) hlt (Nat.le_refl _)
      rw [ha]
      dsimp only
      rw [if_neg hne]
      exact ih (by omega) fun j hj hjn => hbetween j hj (by omega)
    · obtain rfl : k = n + 1 := by omega
      rw [hk]
      exact if_pos rfl

theorem parentStep_root (h : Open out [] size) :
    parentStep maxOutSize false out = .error (.result .directoryUnobtainable) := by
  have htotal : out.totalLen = 1 := h.length
  have hfirst : out.dst[0]? = some directorySeparator := by
    have := congrArg (·[0]?) h.written
    rwa [htotal, List.getElem?_take_of_lt Nat.one_pos] at this
  rw [parentStep, htotal, hfirst]
  rfl

theorem parentStep_eq {name : Bytes} (h : Open out (names ++ [name]) size)
    (hname : directorySeparator ∉ name) (hmax : out.totalLen < maxOutSize) :
    ∃ out', parentStep maxOutSize false out = .ok out' ∧ Shows out' names size ∧
      out'.totalLen ≤ out.totalLen := by
  obtain ⟨base, hbase⟩ : ∃ base, base = (join directorySeparator names).length := ⟨_, rfl⟩
  have hwritten := h.written
  rw [join_concat, List.append_assoc, List.cons_append] at hwritten
  have htotal : out.totalLen = base + name.length + 2 := by
    rw [h.length, join_concat, List.length_append, List.length_cons, hbase]
    omega
  have hread : ∀ j < out.totalLen, out.dst[j]? = (join directorySeparator names ++
      directorySeparator :: (name ++ [directorySeparator]))[j]? := by
    intro j hj
    rw [← hwritten, List.getElem?_take_of_lt hj]
  have hsep : out.dst[base]? = some directorySeparator := by
    rw [hread base (by omega), List.getElem?_append_right (by omega), hbase, Nat.sub_self]
    rfl
  have hlast : out.dst[out.totalLen - 1]? = some directorySeparator := by
    rw [hread _ (by omega), htotal, List.getElem?_append_right (by omega),
      show base + name.length + 2 - 1 - (join directorySeparator names).length = name.length + 1 by
        omega, List.getElem?_cons_succ, List.getElem?_append_right (Nat.le_refl _), Nat.sub_self]
    rfl
  have hfirst : out.dst[0]? = some directorySeparator := by
    rw [hread 0 (by omega)]
    cases names with
    | nil => rfl
    | cons d names => rfl
  have hwalk : walkUp out.dst (out.totalLen - 2) = .ok base := by
    refine walkUp_eq hsep (by omega) fun j hj hjn => ?_
    obtain ⟨i, rfl⟩ : ∃ i, j = base + 1 + i := ⟨j - base - 1, by omega⟩
    have hin : i < name.length := by omega
    refine ⟨name[i], ?_, fun heq => hname (heq ▸ List.getElem_mem hin)⟩
    rw [hread _ (by omega), List.getElem?_append_right (by omega), ← hbase,
      show base + 1 + i - base = i + 1 by omega, List.getElem?_cons_succ,
      List.getElem?_append_left hin, List.getElem?_eq_getElem hin]
  refine ⟨{ out with totalLen := base }, ?_, ⟨?_, ?_, h.size⟩, by dsimp only; omega⟩
  · rw [parentStep, hlast, hfirst, removeComponent, if_neg (by omega), hwalk]
    have hpos : decide (0 < out.totalLen) = true := decide_eq_true (by omega)
    have hbound : decide (base < maxOutSize) = true := decide_eq_true (by omega)
    simp only [hpos, require, beq_self_eq_true, Bool.and_self, Bool.or_true, if_true, bind,
      Except.bind, hsep, hbound]
  · dsimp only
    rw [h.skip, if_neg nofun, List.append_nil]
    have := congrArg (List.take base) hwritten
    rw [List.take_take, Nat.min_eq_left (by omega), List.take_append_of_le_length (by omega),
      hbase, List.take_length, ← hbase] at this
    exact this
  · dsimp only
    rw [h.skip, if_neg nofun, List.append_nil, hbase]

/-! ### The loop -/

/-- The path from a component on that is behind its separator. -/
theorem componentStep_eq (h : Open out names size) (hc : directorySeparator ∉ c) (hne : c ≠ [])
    (hclean : Clean allow c) (hnames : ∀ d ∈ names, directorySeparator ∉ d) {w : Bytes}
    (hw : Stops w) (hmax : out.totalLen + c.length < maxOutSize)
    (hsize : out.totalLen + c.length ≤ size) :
    match resolve dot names [c] with
    | none => componentStep maxOutSize false allow (c ++ w) out =
        .error (.result .directoryUnobtainable)
    | some names' => ∃ out', componentStep maxOutSize false allow (c ++ w) out = .ok out' ∧
        Shows out' names' size ∧ out'.totalLen ≤ out.totalLen + c.length := by
  have hvalid : (!allow && c.any isInvalidCharacter) = false := by
    rcases hclean.valid with rfl | hv
    · rfl
    · rw [List.any_eq_false.mpr fun a ha => by rw [hv a ha]; exact Bool.false_ne_true,
        Bool.and_false]
  rw [componentStep, component_eq hclean hc hw, hvalid, if_neg nofun]
  rcases component_cases dot c with hskip | rfl | hname
  · obtain rfl : c = [dot] := hskip.resolve_left hne
    rw [resolve_skip (.inr rfl), if_pos ((isCurrentDirectory_iff hclean hc hne hw).mpr rfl)]
    refine ⟨_, rfl, ⟨?_, ?_, h.size⟩, Nat.le_add_right _ _⟩
    · exact h.written
    · rw [List.length_append]
      exact h.length
  · rw [resolve_parent, if_neg (mt (isCurrentDirectory_iff hclean hc hne hw).mp (by simp)),
      if_pos ((isParentDirectory_iff hclean hc hne hw).mpr rfl)]
    rcases List.eq_nil_or_concat' names with rfl | ⟨names, last, rfl⟩
    · exact parentStep_root h
    · rw [if_neg (by simp), List.dropLast_concat]
      obtain ⟨out', hrun, hshows, hle⟩ := parentStep_eq h (hnames last (by simp))
        (show out.totalLen < maxOutSize by omega)
      exact ⟨out', hrun, hshows, by omega⟩
  · rw [resolve_name hname, if_neg (mt (isCurrentDirectory_iff hclean hc hne hw).mp hname.2.1),
      if_neg (mt (isParentDirectory_iff hclean hc hne hw).mp hname.2.2), if_neg (by omega)]
    obtain ⟨htake, hlength⟩ := copyAt_eq c out.dst (n := out.totalLen) (by
      rw [h.size]
      exact hsize)
    refine ⟨_, rfl, ⟨?_, ?_, hlength.trans h.size⟩, Nat.le_refl _⟩
    · dsimp only
      rw [htake, h.written, h.skip, if_neg nofun, List.append_nil, join_concat, List.append_assoc]
      rfl
    · dsimp only
      rw [h.length, h.skip, if_neg nofun, List.append_nil, join_concat, List.length_append,
        List.length_cons]
      omega

/-- A run of separators stands for none. -/
theorem resolve_separators (t : Bytes) :
    resolve dot names (t.splitOn directorySeparator) =
      resolve dot names ((t.dropWhile (· = directorySeparator)).splitOn directorySeparator) := by
  induction t with
  | nil => rfl
  | cons a t ih =>
    by_cases ha : a = directorySeparator
    · rw [List.dropWhile_cons_of_pos (by simpa using ha), ha, splitOn_sep, resolve_skip (.inl rfl),
        ih]
    · rw [List.dropWhile_cons_of_neg (by simpa using ha)]

theorem dropWhile_separators (t junk : Bytes) :
    (t ++ nullTerminator :: junk).dropWhile (· = directorySeparator) =
      t.dropWhile (· = directorySeparator) ++ nullTerminator :: junk := by
  induction t with
  | nil => rfl
  | cons a t ih =>
    by_cases ha : a = directorySeparator
    · rw [List.cons_append, List.dropWhile_cons_of_pos (by simpa using ha),
        List.dropWhile_cons_of_pos (by simpa using ha), ih]
    · rw [List.cons_append, List.dropWhile_cons_of_neg (by simpa using ha),
        List.dropWhile_cons_of_neg (by simpa using ha)]
      rfl

/-- From a separator or the end of the path on, the loop resolves what is left. -/
theorem normalizeLoop_eq {fuel : ℕ} (junk : Bytes) (h : Shows out names size)
    (hnames : ∀ d ∈ names, directorySeparator ∉ d) (hclean : Clean allow t)
    (ht : t = [] ∨ ∃ t', t = directorySeparator :: t') (hfuel : t.length < fuel)
    (hmax : out.totalLen + t.length < maxOutSize) (hsize : out.totalLen + t.length < size) :
    match resolve dot names (t.splitOn directorySeparator) with
    | none => normalizeLoop maxOutSize false allow fuel (t ++ nullTerminator :: junk) out =
        .error (.result .directoryUnobtainable)
    | some names' => ∃ out',
        normalizeLoop maxOutSize false allow fuel (t ++ nullTerminator :: junk) out = .ok out' ∧
        Shows out' names' size ∧ out'.totalLen ≤ out.totalLen + t.length := by
  induction fuel generalizing t names out with
  | zero => exact absurd hfuel (Nat.not_lt_zero _)
  | succ fuel ih =>
    rcases ht with rfl | ⟨t', rfl⟩
    · rw [List.splitOn_nil, resolve_skip (.inl rfl)]
      exact ⟨out, rfl, h, Nat.le_add_right _ _⟩
    · have hsuffix := List.dropWhile_suffix (l := directorySeparator :: t')
        (· = directorySeparator)
      have hlength : ((directorySeparator :: t').dropWhile (· = directorySeparator)).length ≤
          t'.length := (List.dropWhile_suffix (l := t') _).length_le
      have hhead := List.head?_dropWhile_not (· = directorySeparator) (directorySeparator :: t')
      have hclean' : Clean allow ((directorySeparator :: t').dropWhile (· = directorySeparator)) := by
        obtain ⟨front, hfront⟩ := hsuffix
        rw [← hfront] at hclean
        exact (Clean.append.1 hclean).2
      rw [List.length_cons] at hfuel hmax hsize
      rw [normalizeLoop, if_neg nofun, List.cons_append, List.head?_cons, if_pos rfl,
        ← List.cons_append, dropWhile_separators, resolve_separators]
      generalize (directorySeparator :: t').dropWhile (· = directorySeparator) = u
        at hlength hhead hclean' ⊢
      obtain ⟨c, v, rfl, hc, hv⟩ := exists_first directorySeparator u
      obtain ⟨hcleanc, hcleanv⟩ := Clean.append.1 hclean'
      cases c with
      | nil =>
        rcases hv with rfl | ⟨t', rfl⟩
        · rw [List.nil_append, List.splitOn_nil, resolve_skip (.inl rfl)]
          exact ⟨out, rfl, h, Nat.le_add_right _ _⟩
        · exact absurd hhead (by simp)
      | cons a c =>
        have hstops : Stops (v ++ nullTerminator :: junk) := by
          rcases hv with rfl | ⟨t', rfl⟩
          · exact ⟨_, junk, rfl, .inr rfl⟩
          · exact ⟨_, t' ++ nullTerminator :: junk, rfl, .inl rfl⟩
        have hend : atEnd (a :: c ++ (v ++ nullTerminator :: junk)) = false :=
          beq_false_of_ne hcleanc.head.1
        have hdrop : (a :: c ++ (v ++ nullTerminator :: junk)).drop
            (component (a :: c ++ (v ++ nullTerminator :: junk))).length =
            v ++ nullTerminator :: junk := by
          rw [component_eq hcleanc hc hstops, List.drop_left]
        rw [List.length_append] at hlength
        obtain ⟨out₁, hrun₁, hopen, hle₁⟩ := separatorStep_eq h
          (show out.totalLen + 1 < maxOutSize by omega) (by omega)
        have hstep := componentStep_eq hopen hc nofun hcleanc hnames hstops
          (show out₁.totalLen + (a :: c).length < maxOutSize by omega) (by omega)
        rw [resolve_first hc hv, resolve_cons, List.append_assoc]
        dsimp only
        rw [hend, if_neg nofun, hrun₁, hdrop]
        dsimp only [bind, Except.bind]
        cases hres : resolve dot names [a :: c] with
        | none =>
          rw [hres] at hstep
          rw [hstep]
          exact rfl
        | some names' =>
          rw [hres] at hstep
          obtain ⟨out', hrun', hshows, hle'⟩ := hstep
          rw [hrun']
          have hnames' : ∀ d ∈ names', directorySeparator ∉ d := fun d hd =>
            (mem_resolve hres d hd).elim (hnames d) fun hmem =>
              List.mem_singleton.mp hmem.1 ▸ hc
          have hrest := ih hshows hnames' hcleanv hv (by omega) (by omega) (by omega)
          dsimp only [Option.bind]
          cases hlast : resolve dot names' (v.splitOn directorySeparator) with
          | none =>
            rw [hlast] at hrest
            exact hrest
          | some names'' =>
            rw [hlast] at hrest
            obtain ⟨out'', hrun'', hshows'', hle''⟩ := hrest
            exact ⟨out'', hrun'', hshows'', by rw [List.length_cons]; omega⟩

end PathNormalizer

end Ruzu.FsPath
