import Ruzu.FileSys.PathNormalized

/-!
# Parents between backslashes

The copy that the normalizer works on differs from the path at the separators
around some parents, and a path that has none of these is its own copy.
-/

set_option autoImplicit false

namespace Ruzu.FsPath

open PathComponents

namespace PathNormalizer

/-- The path ends with a parent behind the backslash at `k`. -/
def isEndingParent (s : Bytes) (k : ℕ) : Bool :=
  s[k]? == some alternateDirectorySeparator && s[k + 1]? == some dot && s[k + 2]? == some dot &&
    s[k + 3]? == none

/-- The byte at `k` is a separator next to a parent that the replacement rule is for. -/
def delimits (s : Bytes) (k : ℕ) : Bool :=
  isEnclosedParent s (k + 1) || isEnclosedParent s (k - 2) || isEndingParent s k

/-- What the replacement rule makes of a path. -/
def replaced (s : Bytes) : Bytes :=
  s.mapIdx fun k c => if delimits s k then directorySeparator else c

variable {allow : Bool} {s dst junk : Bytes} {i j k fuel : ℕ}

theorem enclosed_iff : isEnclosedParent s i = true ↔ isSeparator s[i - 1]? = true ∧
    s[i]? = some dot ∧ s[i + 1]? = some dot ∧ isSeparator s[i + 2]? = true := by
  simp only [isEnclosedParent, Bool.and_eq_true, beq_iff_eq, and_assoc]

theorem ending_iff : isEndingParent s k = true ↔ s[k]? = some alternateDirectorySeparator ∧
    s[k + 1]? = some dot ∧ s[k + 2]? = some dot ∧ s[k + 3]? = none := by
  simp only [isEndingParent, Bool.and_eq_true, beq_iff_eq, and_assoc]

theorem not_separator_dot : ¬ isSeparator (some dot) = true := nofun

/-- A dot of an enclosed parent is not a separator of another one. -/
theorem enclosed_apart (hi : isEnclosedParent s i = true) (hj : isEnclosedParent s j = true)
    (hij : i < j) : i + 3 ≤ j := by
  obtain ⟨-, hdot, hdot', -⟩ := enclosed_iff.1 hi
  obtain ⟨hsep, -⟩ := enclosed_iff.1 hj
  by_contra hlt
  obtain rfl | rfl : j = i + 1 ∨ j = i + 2 := by omega
  · rw [Nat.add_sub_cancel, hdot] at hsep
    exact not_separator_dot hsep
  · rw [show i + 2 - 1 = i + 1 by omega, hdot'] at hsep
    exact not_separator_dot hsep

theorem enclosed_bound (h : isEnclosedParent s i = true) : i + 2 < s.length := by
  obtain ⟨-, -, -, hsep⟩ := enclosed_iff.1 h
  by_contra hge
  rw [List.getElem?_eq_none (Nat.le_of_not_lt hge)] at hsep
  cases hsep

/-! ### The path and its terminator -/

theorem path_get (h : k < s.length) : (s ++ nullTerminator :: junk)[k]? = s[k]? :=
  List.getElem?_append_left h

theorem path_end : (s ++ nullTerminator :: junk)[s.length]? = some nullTerminator := by
  rw [List.getElem?_append_right (Nat.le_refl _), Nat.sub_self]
  rfl

theorem get_ne_null (h : nullTerminator ∉ s) : s[k]? ≠ some nullTerminator := fun heq =>
  h (List.mem_of_getElem? heq)

theorem atEnd_drop (h : nullTerminator ∉ s) (hi : i ≤ s.length) :
    atEnd ((s ++ nullTerminator :: junk).drop i) = decide (i = s.length) := by
  rcases Nat.lt_or_ge i s.length with hlt | hge
  · rw [decide_eq_false (Nat.ne_of_lt hlt), List.drop_append_of_le_length hi,
      List.drop_eq_getElem_cons hlt]
    exact beq_false_of_ne fun heq => h (heq ▸ List.getElem_mem hlt)
  · obtain rfl : i = s.length := Nat.le_antisymm hi hge
    rw [decide_eq_true rfl, List.drop_left]
    rfl

theorem enclosed_path (hi : i < s.length) :
    isEnclosedParent (s ++ nullTerminator :: junk) i = isEnclosedParent s i := by
  have h₀ : (s ++ nullTerminator :: junk)[i - 1]? = s[i - 1]? := path_get (by omega)
  rw [isEnclosedParent, isEnclosedParent, h₀, path_get hi]
  rcases Nat.lt_trichotomy (i + 2) s.length with hlt | heq | hgt
  · rw [path_get (by omega), path_get hlt]
  · have hnone : s[i + 2]? = none := List.getElem?_eq_none (Nat.le_of_eq heq.symm)
    rw [hnone, heq, path_end]
    exact (Bool.and_false _).trans (Bool.and_false _).symm
  · have hend : i + 1 = s.length := by omega
    have hnone : s[i + 1]? = none := List.getElem?_eq_none (Nat.le_of_eq hend.symm)
    rw [hnone, hend, path_end, show (some nullTerminator == some dot) = false from rfl,
      show ((none : Option UInt8) == some dot) = false from rfl, Bool.and_false, Bool.false_and,
      Bool.false_and]

theorem last_path (hnull : nullTerminator ∉ s) (hi : i + 1 < s.length) :
    isLastParent (s ++ nullTerminator :: junk) (i + 1) = isEndingParent s i := by
  rw [isLastParent, isEndingParent, Nat.add_sub_cancel, path_get (by omega), path_get hi]
  rcases Nat.lt_trichotomy (i + 3) s.length with hlt | heq | hgt
  · have hsome : s[i + 3]? = some s[i + 3] := List.getElem?_eq_getElem hlt
    have hne : ¬ s[i + 3] = nullTerminator := fun heq =>
      get_ne_null hnull (hsome.trans (congrArg some heq))
    rw [path_get (by omega), path_get hlt, hsome]
    simp [hne]
  · have hnone : s[i + 3]? = none := List.getElem?_eq_none (Nat.le_of_eq heq.symm)
    rw [path_get (by omega), hnone, heq, path_end]
    rfl
  · have hend : i + 2 = s.length := by omega
    have hnone : s[i + 2]? = none := List.getElem?_eq_none (Nat.le_of_eq hend.symm)
    rw [hnone, show i + 1 + 1 = s.length from hend, path_end,
      show (some nullTerminator == some dot) = false from rfl,
      show ((none : Option UInt8) == some dot) = false from rfl, Bool.and_false, Bool.false_and,
      Bool.false_and]

/-! ### The copy -/

theorem write_ok (h : i < dst.length) (c : UInt8) : write dst i c = .ok (dst.set i c) := if_pos h

/-- The copy is done below `i`, up to a separator at `i - 1` that a parent at `i` replaces. -/
structure Replacing (s dst : Bytes) (i : ℕ) : Prop where
  pos : 0 < i
  le : i ≤ s.length
  size : dst.length = entryNameLengthMax + 1
  apart : ∀ j, j < i → isEnclosedParent s j = true → j + 3 ≤ i
  ending : ∀ k, k + 1 < i → isEndingParent s k = false
  written : ∀ k, k + 1 < i → dst[k]? = (replaced s)[k]?
  last : dst[i - 1]? =
    if isEnclosedParent s (i - 1 - 2) then some directorySeparator else s[i - 1]?

theorem get_replaced (k : ℕ) : (replaced s)[k]? =
    if delimits s k then s[k]?.map fun _ => directorySeparator else s[k]? := by
  rw [replaced, List.getElem?_mapIdx]
  split
  · rfl
  · exact Option.map_id'

theorem length_replaced : (replaced s).length = s.length := List.length_mapIdx

/-- A dot is copied. -/
theorem get_replaced_dot (h : s[k]? = some dot) : (replaced s)[k]? = some dot := by
  have hnext : ¬ isEnclosedParent s (k + 1) = true := fun henc => by
    obtain ⟨hsep, -⟩ := enclosed_iff.1 henc
    rw [Nat.add_sub_cancel, h] at hsep
    exact not_separator_dot hsep
  have hprev : ¬ isEnclosedParent s (k - 2) = true := fun henc => by
    obtain ⟨hsep, hdot, hdot', hsep'⟩ := enclosed_iff.1 henc
    rcases Nat.lt_or_ge k 2 with hlt | hge
    · rw [show k - 2 - 1 = k - 2 by omega, hdot] at hsep
      exact not_separator_dot hsep
    · rw [Nat.sub_add_cancel hge, h] at hsep'
      exact not_separator_dot hsep'
  have hending : ¬ isEndingParent s k = true := fun hend =>
    absurd (h.symm.trans (ending_iff.1 hend).1) (by decide)
  rw [get_replaced, if_neg, h]
  simp only [delimits, Bool.or_eq_true, not_or]
  exact ⟨⟨hnext, hprev⟩, hending⟩

/-- A separator of an enclosed parent is replaced. -/
theorem get_replaced_sep (h : delimits s k = true) (hk : k < s.length) :
    (replaced s)[k]? = some directorySeparator := by
  rw [get_replaced, if_pos h, List.getElem?_eq_getElem hk]
  rfl

theorem delimits_front (h : isEnclosedParent s (k + 1) = true) : delimits s k = true := by
  rw [delimits, h, Bool.true_or, Bool.true_or]

theorem delimits_back (h : isEnclosedParent s k = true) : delimits s (k + 2) = true := by
  rw [delimits, Nat.add_sub_cancel, h, Bool.or_true, Bool.true_or]

theorem delimits_ending (h : isEndingParent s k = true) : delimits s k = true := by
  rw [delimits, h, Bool.or_true]

theorem Replacing.start (h : s.head? = some directorySeparator) :
    Replacing s ((List.replicate (entryNameLengthMax + 1) 0).set 0 directorySeparator) 1 where
  pos := Nat.one_pos
  le := by
    cases s with
    | nil => cases h
    | cons a s => exact Nat.le_add_left 1 _
  size := by rw [List.length_set, List.length_replicate]
  apart := by
    intro j hj henc
    obtain rfl : j = 0 := by omega
    obtain ⟨hsep, hdot, -⟩ := enclosed_iff.1 henc
    rw [Nat.zero_sub, hdot] at hsep
    exact absurd hsep not_separator_dot
  ending := fun k hk => absurd hk (by omega)
  written := fun k hk => absurd hk (by omega)
  last := by
    rw [show s[1 - 1]? = some directorySeparator by rw [← List.head?_eq_getElem?, h], ite_self,
      List.getElem?_set_self (by rw [List.length_replicate]; decide)]

/-- Behind the last byte everything is copied. -/
theorem Replacing.finish (h : Replacing s dst s.length) : dst.take s.length = replaced s := by
  apply List.ext_getElem?
  intro k
  rcases Nat.lt_trichotomy (k + 1) s.length with hlt | heq | hgt
  · rw [List.getElem?_take_of_lt (by omega), h.written k hlt]
  · have hlast := h.last
    have hnext : isEnclosedParent s (k + 1) = false := by
      rw [Bool.eq_false_iff]
      intro henc
      obtain ⟨-, hdot, -⟩ := enclosed_iff.1 henc
      rw [heq, List.getElem?_eq_none (Nat.le_refl _)] at hdot
      cases hdot
    have hending : isEndingParent s k = false := by
      rw [Bool.eq_false_iff]
      intro hend
      obtain ⟨-, hdot, -⟩ := ending_iff.1 hend
      rw [heq, List.getElem?_eq_none (Nat.le_refl _)] at hdot
      cases hdot
    rw [List.getElem?_take_of_lt (by omega), get_replaced, delimits, hnext, hending, Bool.false_or,
      Bool.or_false, ← show s.length - 1 = k by omega, hlast]
    rw [List.getElem?_eq_getElem (show s.length - 1 < s.length by omega)]
    rfl
  · rw [List.getElem?_eq_none (by rw [List.length_take]; omega),
      List.getElem?_eq_none (by rw [length_replaced]; omega)]

/-- An ordinary byte. -/
theorem Replacing.copy (h : Replacing s dst i) (hi : i < s.length)
    (hlen : s.length ≤ entryNameLengthMax) (henc : isEnclosedParent s i = false)
    (hend : isEndingParent s (i - 1) = false) : Replacing s (dst.set i (s.getD i 0)) (i + 1) where
  pos := Nat.succ_pos i
  le := hi
  size := by rw [List.length_set, h.size]
  apart := by
    intro j hj hj'
    rcases Nat.lt_or_ge j i with hlt | hge
    · exact Nat.le_succ_of_le (h.apart j hlt hj')
    · obtain rfl : j = i := by omega
      rw [henc] at hj'
      cases hj'
  ending := by
    intro k hk
    rcases Nat.lt_or_ge (k + 1) i with hlt | hge
    · exact h.ending k hlt
    · rwa [show k = i - 1 by omega]
  written := by
    intro k hk
    rw [List.getElem?_set_ne (by omega)]
    rcases Nat.lt_or_ge (k + 1) i with hlt | hge
    · exact h.written k hlt
    · obtain ⟨hpos, rfl⟩ : 0 < i ∧ k = i - 1 := ⟨h.pos, by omega⟩
      have hlast := h.last
      rw [hlast, get_replaced, delimits, Nat.sub_add_cancel hpos, henc, hend, Bool.false_or,
        Bool.or_false]
      rw [List.getElem?_eq_getElem (show i - 1 < s.length by omega)]
      rfl
  last := by
    have hprev : isEnclosedParent s (i - 2) = false := by
      rw [Bool.eq_false_iff]
      intro henc'
      have := h.pos
      rcases Nat.lt_or_ge i 2 with hlt | hge
      · obtain ⟨hsep, hdot, -⟩ := enclosed_iff.1 henc'
        rw [show i - 2 - 1 = i - 2 by omega, hdot] at hsep
        exact not_separator_dot hsep
      · have := h.apart (i - 2) (by omega) henc'
        omega
    rw [Nat.add_sub_cancel, hprev, if_neg nofun, List.getElem?_set_self (by rw [h.size]; omega),
      List.getD_eq_getElem?_getD, List.getElem?_eq_getElem hi]
    rfl

/-- An enclosed parent and the separators around it. -/
theorem Replacing.parent (h : Replacing s dst i) (hlen : s.length ≤ entryNameLengthMax)
    (henc : isEnclosedParent s i = true) :
    Replacing s ((((dst.set (i - 1) directorySeparator).set i dot).set (i + 1) dot).set (i + 2)
      directorySeparator) (i + 3) := by
  obtain ⟨hsep, hdot, hdot', hsep'⟩ := enclosed_iff.1 henc
  have hpos := h.pos
  have hin := enclosed_bound henc
  constructor
  · omega
  · omega
  · simp only [List.length_set, h.size]
  · intro j hj hj'
    rcases Nat.lt_trichotomy j i with hlt | rfl | hgt
    · exact Nat.le_trans (h.apart j hlt hj') (by omega)
    · exact Nat.le_refl _
    · exact absurd (enclosed_apart henc hj' hgt) (by omega)
  · intro k hk
    rcases Nat.lt_or_ge (k + 1) i with hlt | hge
    · exact h.ending k hlt
    · rw [Bool.eq_false_iff]
      intro hend
      obtain ⟨hback, hd₁, hd₂, hnone⟩ := ending_iff.1 hend
      obtain rfl | rfl | rfl : k = i - 1 ∨ k = i ∨ k = i + 1 := by omega
      · rw [show i - 1 + 3 = i + 2 by omega] at hnone
        rw [hnone] at hsep'
        cases hsep'
      · exact absurd (hdot.symm.trans hback) (by decide)
      · exact absurd (hdot'.symm.trans hback) (by decide)
  · intro k hk
    rw [List.getElem?_set_ne (by omega)]
    rcases Nat.lt_or_ge (k + 1) i with hlt | hge
    · rw [List.getElem?_set_ne (by omega), List.getElem?_set_ne (by omega),
        List.getElem?_set_ne (by omega), h.written k hlt]
    · have hsize := h.size
      obtain rfl | rfl | rfl : k = i - 1 ∨ k = i ∨ k = i + 1 := by omega
      · rw [List.getElem?_set_ne (by omega), List.getElem?_set_ne (by omega),
          List.getElem?_set_self (by omega),
          get_replaced_sep (delimits_front (by rwa [Nat.sub_add_cancel hpos])) (by omega)]
      · rw [List.getElem?_set_ne (by omega),
          List.getElem?_set_self (by rw [List.length_set]; omega), get_replaced_dot hdot]
      · rw [List.getElem?_set_self (by simp only [List.length_set]; omega), get_replaced_dot hdot']
  · have hsize := h.size
    rw [show i + 3 - 1 - 2 = i by omega, henc, if_pos rfl, show i + 3 - 1 = i + 2 by omega,
      List.getElem?_set_self (by simp only [List.length_set]; omega)]


/-- A parent at the end, with the backslash in front of it. -/
theorem Replacing.close (h : Replacing s dst i) (hlen : s.length ≤ entryNameLengthMax)
    (hend : isEndingParent s (i - 1) = true) :
    (((dst.set (i - 1) directorySeparator).set i dot).set (i + 1) dot).take s.length =
      replaced s := by
  have hpos := h.pos
  have hsize := h.size
  obtain ⟨hback, hdot, hdot', hnone⟩ := ending_iff.1 hend
  rw [Nat.sub_add_cancel hpos] at hdot
  rw [show i - 1 + 2 = i + 1 by omega] at hdot'
  rw [List.getElem?_eq_none_iff] at hnone
  have hin : i + 1 < s.length := (List.getElem?_eq_some_iff.mp hdot').1
  apply List.ext_getElem?
  intro k
  rcases Nat.lt_or_ge k s.length with hlt | hge
  · rw [List.getElem?_take_of_lt hlt]
    rcases Nat.lt_or_ge (k + 1) i with hlt | hge
    · rw [List.getElem?_set_ne (by omega), List.getElem?_set_ne (by omega),
        List.getElem?_set_ne (by omega), h.written k hlt]
    · obtain rfl | rfl | rfl : k = i - 1 ∨ k = i ∨ k = i + 1 := by omega
      · rw [List.getElem?_set_ne (by omega), List.getElem?_set_ne (by omega),
          List.getElem?_set_self (by omega), get_replaced_sep (delimits_ending hend) hlt]
      · rw [List.getElem?_set_ne (by omega),
          List.getElem?_set_self (by rw [List.length_set]; omega), get_replaced_dot hdot]
      · rw [List.getElem?_set_self (by simp only [List.length_set]; omega), get_replaced_dot hdot']
  · rw [List.getElem?_eq_none (by rw [List.length_take]; omega),
      List.getElem?_eq_none (by rw [length_replaced]; omega)]

theorem replaceLoop_eq (junk : Bytes) (h : Replacing s dst i) (hnull : nullTerminator ∉ s)
    (hlen : s.length ≤ entryNameLengthMax) (hfuel : s.length < i + fuel) :
    ∃ dst', replaceLoop (s ++ nullTerminator :: junk) fuel i dst = .ok (s.length, dst') ∧
      dst'.take s.length = replaced s ∧ dst'.length = entryNameLengthMax + 1 := by
  induction fuel generalizing i dst with
  | zero =>
    have := h.le
    omega
  | succ fuel ih =>
    have hsize := h.size
    have hpos := h.pos
    rw [replaceLoop, atEnd_drop hnull h.le]
    rcases Nat.eq_or_lt_of_le h.le with rfl | hi
    · rw [decide_eq_true rfl, if_pos rfl]
      exact ⟨dst, rfl, h.finish, hsize⟩
    · rw [decide_eq_false (Nat.ne_of_lt hi), if_neg nofun, enclosed_path hi]
      have hlast : isLastParent (s ++ nullTerminator :: junk) i = isEndingParent s (i - 1) := by
        rw [← last_path hnull (show i - 1 + 1 < s.length by omega), Nat.sub_add_cancel hpos]
      cases henc : isEnclosedParent s i with
      | true =>
        have hin := enclosed_bound henc
        rw [if_pos rfl, write_ok (by omega)]
        dsimp only [bind, Except.bind]
        rw [write_ok (by rw [List.length_set]; omega)]
        dsimp only
        rw [write_ok (by simp only [List.length_set]; omega)]
        dsimp only
        rw [write_ok (by simp only [List.length_set]; omega)]
        exact ih (h.parent hlen henc) (by omega)
      | false =>
        rw [if_neg nofun, hlast]
        cases hend : isEndingParent s (i - 1) with
        | true =>
          obtain ⟨hback, hdot, hdot', hnone⟩ := ending_iff.1 hend
          rw [Nat.sub_add_cancel hpos] at hdot
          rw [show i - 1 + 2 = i + 1 by omega] at hdot'
          rw [show i - 1 + 3 = i + 2 by omega, List.getElem?_eq_none_iff] at hnone
          have hlt : i + 1 < s.length := (List.getElem?_eq_some_iff.mp hdot').1
          rw [if_pos rfl, write_ok (by omega)]
          dsimp only [bind, Except.bind]
          rw [write_ok (by rw [List.length_set]; omega)]
          dsimp only
          rw [write_ok (by simp only [List.length_set]; omega)]
          refine ⟨_, congrArg (fun n => Except.ok (n, _))
            (show i + 2 = s.length by omega), ?_, ?_⟩
          · exact h.close hlen hend
          · simp only [List.length_set, hsize]
        | false =>
          rw [if_neg nofun, write_ok (by omega)]
          dsimp only [bind, Except.bind]
          rw [show (s ++ nullTerminator :: junk).getD i 0 = s.getD i 0 by
            rw [List.getD_eq_getElem?_getD, List.getD_eq_getElem?_getD, path_get hi]]
          exact ih (h.copy hi hlen henc hend) (by omega)

theorem replaceParentDirectoryPath_eq (hhead : s.head? = some directorySeparator)
    (hnull : nullTerminator ∉ s) (hlen : s.length ≤ entryNameLengthMax) :
    ∃ junk', replaceParentDirectoryPath (List.replicate (entryNameLengthMax + 1) 0)
      (s ++ nullTerminator :: junk) = .ok (replaced s ++ nullTerminator :: junk') := by
  obtain ⟨dst, hrun, htake, hsize⟩ := replaceLoop_eq junk (Replacing.start hhead) hnull hlen
    (show s.length < 1 + ((s ++ nullTerminator :: junk).length + 1) by
      rw [List.length_append]
      omega)
  refine ⟨dst.drop (s.length + 1), ?_⟩
  rw [replaceParentDirectoryPath, write_ok (by rw [List.length_replicate]; decide)]
  dsimp only [bind, Except.bind]
  rw [hrun]
  dsimp only
  rw [List.set_eq_take_append_cons_drop, if_pos (by omega), htake]

/-! ### When nothing is replaced -/

/-- A parent that the rule replaces is found where it starts. -/
theorem needed_loop (hnull : nullTerminator ∉ s) {q : ℕ} (hq : q + 3 ≤ s.length)
    (hneeded : isReplacementNeededAt (s ++ nullTerminator :: junk) q = true ∨
      isEndingParent s q = true) (p fuel : ℕ) (hp : p ≤ q) (hfuel : q < p + fuel) :
    replacementNeededLoop (s ++ nullTerminator :: junk) fuel p = true := by
  induction fuel generalizing p with
  | zero => omega
  | succ fuel ih =>
    rw [replacementNeededLoop, atEnd_drop hnull (by omega)]
    rcases Nat.eq_or_lt_of_le hp with rfl | hlt
    · rcases Nat.eq_or_lt_of_le hq with heq | hlt
      · rw [decide_eq_true heq, if_pos rfl, path_get (by omega), path_get (by omega),
          path_get (by omega)]
        rcases hneeded with hat | hend
        · rw [isReplacementNeededAt, heq, path_end, path_get (by omega), path_get (by omega),
            path_get (by omega)] at hat
          simp only [Bool.and_eq_true, Bool.or_eq_true] at hat
          obtain ⟨⟨hdot, hdot'⟩, ⟨hback, -⟩ | ⟨hback, -⟩⟩ := hat
          · rw [hback, hdot, hdot']
            rfl
          · exact absurd hback (by decide)
        · rw [isEndingParent, Bool.and_eq_true] at hend
          exact hend.1
      · rw [decide_eq_false (Nat.ne_of_lt hlt), if_neg nofun]
        rcases hneeded with hat | hend
        · rw [hat, Bool.true_or]
        · obtain ⟨-, -, -, hnone⟩ := ending_iff.1 hend
          rw [List.getElem?_eq_none_iff] at hnone
          omega
    · rw [decide_eq_false (by omega), if_neg nofun, ih (p + 1) hlt (by omega), Bool.or_true]


theorem replacement_needed (hhead : s.head? = some directorySeparator) (hnull : nullTerminator ∉ s)
    {q : ℕ} (hq : q + 3 ≤ s.length)
    (hneeded : isReplacementNeededAt (s ++ nullTerminator :: junk) q = true ∨
      isEndingParent s q = true) :
    isParentDirectoryPathReplacementNeeded (s ++ nullTerminator :: junk) = true := by
  have hlength : (s ++ nullTerminator :: junk).length = s.length + 1 + junk.length := by
    rw [List.length_append, List.length_cons]
    omega
  have hfirst : isSeparator (s ++ nullTerminator :: junk)[0]? = true := by
    rw [path_get (by omega), ← List.head?_eq_getElem?, hhead]
    rfl
  have hfour : decide ((s ++ nullTerminator :: junk).length ≥ 4) = true :=
    decide_eq_true (by omega)
  rw [isParentDirectoryPathReplacementNeeded, hfirst, hfour,
    needed_loop hnull hq hneeded 0 _ (Nat.zero_le q) (by omega)]
  rfl

theorem separator_cases {c : Option UInt8} (h : isSeparator c = true) :
    c = some directorySeparator ∨ c = some alternateDirectorySeparator := by
  rwa [isSeparator, Bool.or_eq_true, beq_iff_eq, beq_iff_eq] at h

/-- A backslash next to a parent that the rule replaces shows up in the test. -/
theorem delimits_needed (hhead : s.head? = some directorySeparator) (hnull : nullTerminator ∉ s)
    (hdelim : delimits s k = true) : s[k]? = some directorySeparator ∨
      isParentDirectoryPathReplacementNeeded (s ++ nullTerminator :: junk) = true := by
  simp only [delimits, Bool.or_eq_true] at hdelim
  obtain (henc | henc) | hend := hdelim
  · have hin := enclosed_bound henc
    obtain ⟨hsep, hdot, hdot', hsep'⟩ := enclosed_iff.1 henc
    rw [Nat.add_sub_cancel] at hsep
    refine (separator_cases hsep).imp_right fun hback => replacement_needed hhead hnull
      (q := k) (by omega) (.inl ?_)
    rw [isReplacementNeededAt, path_get (by omega), path_get (by omega), path_get (by omega),
      path_get (by omega), hback, hdot, hdot', hsep']
    rfl
  · have hin := enclosed_bound henc
    obtain ⟨hsep, hdot, hdot', hsep'⟩ := enclosed_iff.1 henc
    rcases Nat.lt_or_ge k 3 with hlt | hge
    · -- the first byte is the separator in front of everything
      rw [show k - 2 - 1 = 0 by omega] at hsep
      obtain heq | heq : k - 2 = 0 ∨ k - 2 = 1 := by omega
      · rw [heq] at hdot
        rw [hdot] at hsep
        exact absurd hsep not_separator_dot
      · omega
    · rw [show k - 2 + 2 = k by omega] at hsep'
      refine (separator_cases hsep').imp_right fun hback => replacement_needed hhead hnull
        (q := k - 3) (by omega) (.inl ?_)
      rw [show k - 2 - 1 = k - 3 by omega] at hsep
      rw [isReplacementNeededAt, path_get (by omega), path_get (by omega), path_get (by omega),
        path_get (by omega), show k - 3 + 1 = k - 2 by omega,
        show k - 3 + 2 = k - 2 + 1 by omega, show k - 3 + 3 = k by omega, hsep, hdot, hdot', hback]
      exact Bool.or_true _
  · obtain ⟨-, -, hdot', -⟩ := ending_iff.1 hend
    have hlt := (List.getElem?_eq_some_iff.mp hdot').1
    exact .inr (replacement_needed hhead hnull (by omega) (.inr hend))

theorem replaced_eq (h : ∀ k, delimits s k = true → s[k]? = some directorySeparator) :
    replaced s = s := by
  apply List.ext_getElem?
  intro k
  rw [get_replaced]
  split
  case isTrue hdelim =>
    rw [h k hdelim]
    rfl
  case isFalse => rfl

/-- A path without backslashes is its own copy. -/
theorem replaced_of_forward (hback : alternateDirectorySeparator ∉ s) : replaced s = s := by
  have hne : ∀ k, s[k]? ≠ some alternateDirectorySeparator := fun k heq =>
    hback (List.mem_of_getElem? heq)
  apply replaced_eq
  intro k hdelim
  simp only [delimits, Bool.or_eq_true] at hdelim
  obtain (henc | henc) | hend := hdelim
  · obtain ⟨hsep, -⟩ := enclosed_iff.1 henc
    rw [Nat.add_sub_cancel] at hsep
    exact (separator_cases hsep).resolve_right (hne k)
  · obtain ⟨hsep, hdot, -, hsep'⟩ := enclosed_iff.1 henc
    rcases Nat.lt_or_ge k 2 with hlt | hge
    · rw [show k - 2 - 1 = k - 2 by omega, hdot] at hsep
      exact absurd hsep not_separator_dot
    · rw [Nat.sub_add_cancel hge] at hsep'
      exact (separator_cases hsep').resolve_right (hne k)
  · exact absurd (ending_iff.1 hend).1 (hne k)

theorem replacedPath_eq (junk : Bytes) (hhead : s.head? = some directorySeparator) (hnull : nullTerminator ∉ s)
    (hlen : s.length ≤ entryNameLengthMax) :
    ∃ junk', replacedPath (s ++ nullTerminator :: junk) =
      .ok (replaced s ++ nullTerminator :: junk') := by
  rw [replacedPath]
  cases hneeded : isParentDirectoryPathReplacementNeeded (s ++ nullTerminator :: junk) with
  | true => exact replaceParentDirectoryPath_eq hhead hnull hlen
  | false =>
    refine ⟨junk, ?_⟩
    rw [replaced_eq fun k hdelim => (delimits_needed hhead hnull hdelim).resolve_right (by
      rw [hneeded]
      exact Bool.false_ne_true)]
    rfl

theorem mem_replaced {c : UInt8} (h : c ∈ replaced s) : c = directorySeparator ∨ c ∈ s := by
  obtain ⟨k, hk⟩ := List.mem_iff_getElem?.mp h
  rw [get_replaced] at hk
  split at hk
  · rw [Option.map_eq_some_iff] at hk
    obtain ⟨-, -, rfl⟩ := hk
    exact .inl rfl
  · exact .inr (List.mem_of_getElem? hk)

theorem Clean.replaced (h : Clean allow s) : Clean allow (replaced s) := by
  refine ⟨fun hmem => ?_, h.valid.imp_right fun hvalid c hc => ?_⟩
  · rcases mem_replaced hmem with heq | hmem
    · exact absurd heq (by decide)
    · exact h.bytes hmem
  · rcases mem_replaced hc with rfl | hmem
    · decide
    · exact hvalid c hmem

theorem head_replaced (h : s.head? = some directorySeparator) :
    (replaced s).head? = some directorySeparator := by
  rw [List.head?_eq_getElem?] at h ⊢
  rw [get_replaced, h, Option.map_some, ite_self]

end PathNormalizer

end Ruzu.FsPath
