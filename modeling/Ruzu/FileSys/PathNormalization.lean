import Ruzu.FileSys.PathReplacement

/-!
# Normalization

What the normalizer writes shows the names that its path resolves to, and it
fails for the paths that climb above the root.
-/

set_option autoImplicit false

namespace Ruzu.FsPath

open PathComponents

namespace PathNormalizer

/-- The root for no name. -/
def rendered (names : List Bytes) : Bytes :=
  if names = [] then [directorySeparator] else join directorySeparator names

variable {allow : Bool} {s dst junk : Bytes} {names : List Bytes} {out : Output}
  {size maxOutSize : ℕ}

theorem mem_components {t c : Bytes} (hc : c ∈ t.splitOn directorySeparator) {a : UInt8}
    (ha : a ∈ c) : a ∈ t := by
  have hjoin : a ∈ join directorySeparator (t.splitOn directorySeparator) :=
    List.mem_flatMap.mpr ⟨c, hc, List.mem_cons_of_mem _ ha⟩
  rw [join_splitOn] at hjoin
  rcases List.mem_cons.mp hjoin with rfl | hmem
  · exact absurd ha (not_mem_splitOn t c hc)
  · exact hmem

theorem Clean.component {t c : Bytes} (h : Clean allow t)
    (hc : c ∈ t.splitOn directorySeparator) : Clean allow c :=
  ⟨fun hmem => h.bytes (mem_components hc hmem),
    h.valid.imp_right fun hvalid _ ha => hvalid _ (mem_components hc ha)⟩

theorem Clean.rendered (h : ∀ c ∈ names, Clean allow c) : Clean allow (rendered names) := by
  have hsep : Clean allow [directorySeparator] := ⟨by decide, .inr (valid_of_all (by decide))⟩
  rw [PathNormalizer.rendered]
  split
  · exact hsep
  · clear * - h hsep
    induction names with
    | nil => exact ⟨List.not_mem_nil, .inr nofun⟩
    | cons c names ih =>
      rw [show join directorySeparator (c :: names) =
        [directorySeparator] ++ (c ++ join directorySeparator names) from rfl, Clean.append,
        Clean.append]
      exact ⟨hsep, h c List.mem_cons_self, ih fun d hd => h d (List.mem_cons_of_mem c hd)⟩

/-- The checker accepts what is rendered. -/
theorem isNormalized_rendered (hclean : ∀ c ∈ names, Clean allow c)
    (hnames : ∀ c ∈ names, IsName dot c) (hsep : ∀ c ∈ names, directorySeparator ∉ c) :
    isNormalized (rendered names ++ nullTerminator :: junk) allow =
      .ok (true, (rendered names).length) := by
  have hall := Clean.rendered hclean
  obtain ⟨t, ht, hgood⟩ : ∃ t, rendered names = directorySeparator :: t ∧
      (t = [] ∨ ∀ c ∈ t.splitOn directorySeparator, IsName dot c) := by
    cases names with
    | nil => exact ⟨[], rfl, .inl rfl⟩
    | cons c names =>
      refine ⟨c ++ join directorySeparator names, rfl, .inr ?_⟩
      rwa [splitOn_join hsep]
  rw [ht] at hall ⊢
  obtain ⟨b, n, hrun, hb, hn⟩ := isNormalized_eq hall junk
  obtain rfl := hb.mpr hgood
  rw [hrun, hn rfl]

theorem finishOutput_eq (h : Shows out names size) (hmax : maxOutSize ≠ 0) (hsize : 0 < size) :
    ∃ out', finishOutput maxOutSize out = .ok out' ∧
      out'.dst.take out'.totalLen = rendered names ∧ out'.totalLen = (rendered names).length ∧
      out'.dst.length = size ∧ out'.totalLen ≤ max 1 out.totalLen := by
  have hwritten := h.written
  have hlength := h.length
  -- the separator behind the last name goes
  obtain ⟨n, hn, htake, hnlen, hle⟩ : ∃ n,
      (if (out.skipNextSep && decide (0 < out.totalLen)) = true then out.totalLen - 1
        else out.totalLen) = n ∧ out.dst.take n = join directorySeparator names ∧
      n = (join directorySeparator names).length ∧ n ≤ out.totalLen := by
    refine ⟨(join directorySeparator names).length, ?_, ?_, rfl, ?_⟩
    · cases hskip : out.skipNextSep with
      | true =>
        rw [hskip, if_pos rfl, List.length_append, List.length_singleton] at hlength
        rw [Bool.true_and, if_pos (decide_eq_true (by omega)), hlength, Nat.add_sub_cancel]
      | false =>
        rw [hskip, if_neg nofun, List.append_nil] at hlength
        rw [Bool.false_and, if_neg nofun, hlength]
    · have := congrArg (List.take (join directorySeparator names).length) hwritten
      rw [List.take_left, List.take_take, Nat.min_eq_left (by
        rw [hlength, List.length_append]
        exact Nat.le_add_right _ _)] at this
      exact this
    · rw [hlength, List.length_append]
      exact Nat.le_add_right _ _
  rw [finishOutput, hn]
  cases names with
  | nil =>
    obtain rfl : n = 0 := hnlen
    rw [if_pos (by simpa using hmax), write_ok (h.size ▸ hsize)]
    refine ⟨_, rfl, ?_, rfl, ?_, Nat.le_max_left _ _⟩
    · dsimp only
      rw [take_set_concat (h.size ▸ hsize), List.take_zero]
      rfl
    · dsimp only
      rw [List.length_set, h.size]
  | cons c names =>
    have hpos : n ≠ 0 := by
      rw [hnlen]
      exact Nat.succ_ne_zero _
    rw [if_neg (by simp [hpos])]
    exact ⟨_, rfl, htake, hnlen, h.size, Nat.le_trans hle (Nat.le_max_right _ _)⟩


/-! ### The whole path -/

/-- A path that starts with a separator, as the normalizer resolves it. -/
theorem normalize_eq (junk : Bytes) (hhead : s.head? = some directorySeparator) (hclean : Clean allow s)
    (hlen : s.length ≤ entryNameLengthMax) (hmax : s.length < maxOutSize)
    (hdst : s.length < dst.length) :
    match resolve dot [] ((replaced s).splitOn directorySeparator) with
    | none => normalize dst (s ++ nullTerminator :: junk) maxOutSize false false allow =
        .error (.result .directoryUnobtainable)
    | some names => ∃ out, normalize dst (s ++ nullTerminator :: junk) maxOutSize false false allow =
        .ok ((rendered names).length, out) ∧
        out.take (rendered names).length = rendered names ∧
        out[(rendered names).length]? = some nullTerminator ∧
        isNormalized out allow = .ok (true, (rendered names).length) := by
  obtain ⟨junk', hreplaced⟩ := replacedPath_eq junk hhead hclean.bytes hlen
  have hstart : startOutput dst (s ++ nullTerminator :: junk) maxOutSize false =
      .ok ⟨dst, 0, false⟩ := by
    rw [startOutput, List.head?_append, hhead]
    rfl
  have hpos : 0 < s.length := List.length_pos_iff.mpr (by rintro rfl; cases hhead)
  have hsep : ∃ t', replaced s = directorySeparator :: t' := by
    have hhead' := head_replaced hhead
    cases hs : replaced s with
    | nil =>
      rw [hs] at hhead'
      cases hhead'
    | cons a t =>
      rw [hs] at hhead'
      exact ⟨t, by rw [Option.some.inj hhead']⟩
  have hlength := length_replaced (s := s)
  have hempty : Shows ⟨dst, 0, false⟩ [] dst.length := ⟨rfl, rfl, rfl⟩
  have hfuel : (replaced s).length < (replaced s ++ nullTerminator :: junk').length + 1 := by
    rw [List.length_append]
    omega
  have hloop := normalizeLoop_eq junk' hempty nofun hclean.replaced (.inr hsep) hfuel
    (show 0 + (replaced s).length < maxOutSize by omega)
    (show 0 + (replaced s).length < dst.length by omega)
  rw [normalize, hstart]
  dsimp only [bind, Except.bind]
  rw [hreplaced]
  dsimp only
  cases hres : resolve dot [] ((replaced s).splitOn directorySeparator) with
  | none =>
    rw [hres] at hloop
    rw [hloop]
  | some names =>
    rw [hres] at hloop
    obtain ⟨out, hrun, hshows, hle⟩ := hloop
    dsimp only at hle
    obtain ⟨out', hfinish, htake, hlen', hsize', hle'⟩ :=
      finishOutput_eq hshows (show maxOutSize ≠ 0 by omega) (by omega)
    have hcomponents : ∀ c ∈ names, c ∈ (replaced s).splitOn directorySeparator ∧ IsName dot c :=
      fun c hc => (mem_resolve hres c hc).resolve_left List.not_mem_nil
    have hin : (rendered names).length < out'.dst.length := by omega
    have hset : out'.dst.set out'.totalLen nullTerminator =
        rendered names ++ nullTerminator :: out'.dst.drop (out'.totalLen + 1) := by
      rw [List.set_eq_take_append_cons_drop, if_pos (by omega), htake]
    have hnorm : isNormalized (out'.dst.set out'.totalLen nullTerminator) allow =
        .ok (true, (rendered names).length) := by
      rw [hset]
      exact isNormalized_rendered (fun c hc => hclean.replaced.component (hcomponents c hc).1)
        (fun c hc => (hcomponents c hc).2) fun c hc =>
          not_mem_splitOn _ c (hcomponents c hc).1
    rw [hrun]
    dsimp only
    rw [hfinish]
    dsimp only
    rw [if_neg (by omega), hnorm]
    refine ⟨_, congrArg (fun n => Except.ok (n, _)) hlen', ?_, ?_, hnorm⟩
    · rw [hset, List.take_left]
    · rw [hset, path_end]

/-- Without backslashes the path itself is checked against the same components. -/
theorem isNormalized_iff_self (hhead : s.head? = some directorySeparator) (hclean : Clean allow s)
    (hlen : s.length ≤ entryNameLengthMax) (hmax : s.length < maxOutSize)
    (hdst : s.length < dst.length) (hback : alternateDirectorySeparator ∉ s) :
    (∃ n, isNormalized (s ++ nullTerminator :: junk) allow = .ok (true, n)) ↔
      ∃ out, normalize dst (s ++ nullTerminator :: junk) maxOutSize false false allow =
        .ok (s.length, out) ∧ out.take s.length = s := by
  have hrun := normalize_eq junk hhead hclean hlen hmax hdst
  rw [replaced_of_forward hback] at hrun
  obtain ⟨t, rfl⟩ : ∃ t, s = directorySeparator :: t := by
    cases s with
    | nil => cases hhead
    | cons a t => exact ⟨t, by rw [Option.some.inj hhead]⟩
  constructor
  · rintro ⟨n, hnorm⟩
    obtain ⟨b, m, hcheck, hb, -⟩ := isNormalized_eq hclean junk
    obtain ⟨rfl, rfl⟩ : b = true ∧ m = n := by
      rw [hcheck, Except.ok.injEq, Prod.mk.injEq] at hnorm
      exact hnorm
    -- a path of names resolves to itself
    obtain ⟨names, hres, hself⟩ : ∃ names,
        resolve dot [] ((directorySeparator :: t).splitOn directorySeparator) = some names ∧
        rendered names = directorySeparator :: t := by
      rw [splitOn_sep, resolve_skip (.inl rfl)]
      rcases hb.mp rfl with rfl | hnames
      · exact ⟨[], rfl, rfl⟩
      · refine ⟨t.splitOn directorySeparator, resolve_names hnames, ?_⟩
        rw [rendered, if_neg (List.splitOn_ne_nil _ _), join_splitOn]
    rw [hres] at hrun
    obtain ⟨out, hout, htake, -⟩ := hrun
    rw [hself] at hout htake
    exact ⟨out, hout, htake⟩
  · rintro ⟨out, hout, hself⟩
    cases hres : resolve dot [] ((directorySeparator :: t).splitOn directorySeparator) with
    | none =>
      rw [hres, hout] at hrun
      cases hrun
    | some names =>
      rw [hres, hout] at hrun
      obtain ⟨out', heq, -, hend, hnorm⟩ := hrun
      rw [Except.ok.injEq, Prod.mk.injEq] at heq
      obtain ⟨hlength, rfl⟩ := heq
      rw [← hlength] at hend hnorm
      -- what is behind the terminator does not matter to the checker
      have hsplit : out = directorySeparator :: t ++
          nullTerminator :: out.drop ((directorySeparator :: t).length + 1) := by
        obtain ⟨hin, hget⟩ := List.getElem?_eq_some_iff.mp hend
        conv_lhs => rw [← List.take_append_drop (directorySeparator :: t).length out, hself,
          List.drop_eq_getElem_cons hin, hget]
      rw [hsplit] at hnorm
      obtain ⟨b, m, hcheck, hb, -⟩ := isNormalized_eq hclean
        (out.drop ((directorySeparator :: t).length + 1))
      obtain ⟨b', m', hcheck', hb', -⟩ := isNormalized_eq hclean junk
      rw [hcheck, Except.ok.injEq, Prod.mk.injEq] at hnorm
      obtain rfl := hb'.mpr (hb.mp hnorm.1)
      exact ⟨m', hcheck'⟩

/-- The normalizer against the components of its path. -/
theorem normalize_resolves (s junk dst : Bytes) (allow : Bool) (maxOutSize : ℕ)
    (hhead : s.head? = some directorySeparator)
    (hnull : nullTerminator ∉ s) (hvalid : allow = true ∨ ∀ c ∈ s, isInvalidCharacter c = false)
    (hlen : s.length ≤ entryNameLengthMax) (hmax : s.length < maxOutSize)
    (hdst : s.length < dst.length) :
    (Climbs dot ((replaced s).splitOn directorySeparator) ∧
        normalize dst (s ++ nullTerminator :: junk) maxOutSize false false allow =
          .error (.result .directoryUnobtainable) ∨
      ¬ Climbs dot ((replaced s).splitOn directorySeparator) ∧ ∃ names n out,
        resolve dot [] ((replaced s).splitOn directorySeparator) = some names ∧
        normalize dst (s ++ nullTerminator :: junk) maxOutSize false false allow = .ok (n, out) ∧
        out.take n = rendered names ∧ out[n]? = some nullTerminator ∧
        isNormalized out allow = .ok (true, n)) ∧
    (alternateDirectorySeparator ∉ s → replaced s = s ∧
      ((∃ n, isNormalized (s ++ nullTerminator :: junk) allow = .ok (true, n)) ↔
        ∃ out, normalize dst (s ++ nullTerminator :: junk) maxOutSize false false allow =
          .ok (s.length, out) ∧ out.take s.length = s)) := by
  have hclean : Clean allow s := ⟨hnull, hvalid⟩
  refine ⟨?_, fun hback => ⟨replaced_of_forward hback,
    isNormalized_iff_self hhead hclean hlen hmax hdst hback⟩⟩
  have hrun := normalize_eq junk hhead hclean hlen hmax hdst
  cases hres : resolve dot [] ((replaced s).splitOn directorySeparator) with
  | none =>
    rw [hres] at hrun
    exact .inl ⟨resolve_eq_none_iff.mp hres, hrun⟩
  | some names =>
    rw [hres] at hrun
    obtain ⟨out, hout, htake, hend, hnorm⟩ := hrun
    refine .inr ⟨fun hclimbs => ?_, names, _, out, rfl, hout, htake, hend, hnorm⟩
    rw [resolve_eq_none_iff.mpr hclimbs] at hres
    cases hres

/-- `/a\..\b/./c`, with backslashes around the parent -/
theorem normalize_resolves_backslashes :
    let s : Bytes := [0x2f, 0x61, 0x5c, 0x2e, 0x2e, 0x5c, 0x62, 0x2f, 0x2e, 0x2f, 0x63]
    replaced s = [0x2f, 0x61, 0x2f, 0x2e, 0x2e, 0x2f, 0x62, 0x2f, 0x2e, 0x2f, 0x63] ∧
    ∃ n out, normalize (List.replicate 16 7) (s ++ [0]) 16 false false false = .ok (n, out) ∧
      out.take n = rendered [[0x62], [0x63]] ∧ isNormalized out false = .ok (true, n) := by
  intro s
  have hres : resolve dot [] ((replaced s).splitOn directorySeparator) =
      some [[0x62], [0x63]] := by decide
  refine ⟨by decide, ?_⟩
  obtain ⟨⟨hclimbs, -⟩ | ⟨-, names, n, out, hnames, hout, htake, -, hnorm⟩, -⟩ :=
    normalize_resolves s [] (List.replicate 16 7) false 16 rfl (by decide)
      (.inr (valid_of_all (by decide))) (by decide) (by decide) (by decide)
  · rw [resolve_eq_none_iff.mpr hclimbs] at hres
    cases hres
  · rw [hnames] at hres
    rw [← Option.some.inj hres]
    exact ⟨n, out, hout, htake, hnorm⟩

end PathNormalizer

end Ruzu.FsPath
