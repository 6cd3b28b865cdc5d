import Mathlib

/-!
# Byte positions in texts

A text is a list of characters, and its positions are counted in bytes of its
UTF-8 form. A cut inside a character is not possible.
-/

set_option autoImplicit false

namespace Ruzu.Text

def bytes (s : List Char) : List UInt8 := s.flatMap String.utf8EncodeChar

def len (s : List Char) : ℕ := (bytes s).length

/-- The text in front of a position and the text from it on. -/
def splitAt : List Char → ℕ → Option (List Char × List Char)
  | s, 0 => some ([], s)
  | [], _ + 1 => none
  | c::s, n + 1 =>
    if c.utf8Size ≤ n + 1 then
      (splitAt s (n + 1 - c.utf8Size)).map fun parts => (c::parts.1, parts.2)
    else none

/-- `s[..n]`. -/
def sliceTo (s : List Char) (n : ℕ) : Option (List Char) := (splitAt s n).map Prod.fst

/-- `s[n..]`. -/
def sliceFrom (s : List Char) (n : ℕ) : Option (List Char) := (splitAt s n).map Prod.snd

def IsCharBoundary (s : List Char) (n : ℕ) : Prop := (splitAt s n).isSome

instance (s : List Char) (n : ℕ) : Decidable (IsCharBoundary s n) :=
  inferInstanceAs (Decidable ((splitAt s n).isSome = true))

/-- The position of the first character of a kind. -/
def find (p : Char → Bool) : List Char → Option ℕ
  | [] => none
  | c::s => if p c then some 0 else (find p s).map (c.utf8Size + ·)

variable {s s' a b : List Char} {c : Char} {n m : ℕ}

theorem bytes_append : bytes (s ++ s') = bytes s ++ bytes s' := List.flatMap_append

theorem len_append : len (s ++ s') = len s + len s' := by
  rw [len, bytes_append, List.length_append]
  rfl

theorem len_cons : len (c::s) = c.utf8Size + len s := by
  rw [len, bytes, List.flatMap_cons, List.length_append, String.length_utf8EncodeChar]
  rfl

theorem splitAt_eq_some_iff : splitAt s n = some (a, b) ↔ s = a ++ b ∧ len a = n := by
  induction s, n using splitAt.induct generalizing a with
  | case1 s =>
    rw [splitAt, Option.some_inj, Prod.mk.injEq]
    constructor
    · rintro ⟨rfl, rfl⟩
      exact ⟨rfl, rfl⟩
    · rintro ⟨rfl, hlen⟩
      cases a with
      | nil => exact ⟨rfl, rfl⟩
      | cons c a =>
        have hpos := c.utf8Size_pos
        rw [len_cons] at hlen
        omega
  | case2 n =>
    refine iff_of_false (by rw [splitAt]; nofun) ?_
    rintro ⟨hnil, hlen⟩
    obtain ⟨rfl, -⟩ := List.append_eq_nil_iff.mp hnil.symm
    exact absurd hlen (Nat.succ_ne_zero n).symm
  | case3 c s n hle ih =>
    rw [splitAt, if_pos hle, Option.map_eq_some_iff]
    constructor
    · rintro ⟨⟨a', b'⟩, hsplit, hparts⟩
      obtain ⟨rfl, rfl⟩ := Prod.mk.inj hparts
      obtain ⟨rfl, hlen⟩ := ih.mp hsplit
      refine ⟨rfl, ?_⟩
      rw [len_cons, hlen]
      omega
    · rintro ⟨hs, hlen⟩
      cases a with
      | nil => exact absurd hlen (Nat.succ_ne_zero n).symm
      | cons c' a =>
        obtain ⟨rfl, rfl⟩ := List.cons.inj hs
        rw [len_cons] at hlen
        exact ⟨(a, b), ih.mpr ⟨rfl, by omega⟩, rfl⟩
  | case4 c s n hgt =>
    refine iff_of_false (by rw [splitAt, if_neg hgt]; nofun) ?_
    rintro ⟨hs, hlen⟩
    cases a with
    | nil => exact absurd hlen (Nat.succ_ne_zero n).symm
    | cons c' a =>
      obtain ⟨rfl, -⟩ := List.cons.inj hs
      rw [len_cons] at hlen
      omega

theorem isCharBoundary_iff : IsCharBoundary s n ↔ ∃ a b, s = a ++ b ∧ len a = n := by
  rw [IsCharBoundary, Option.isSome_iff_exists]
  constructor
  · rintro ⟨⟨a, b⟩, h⟩
    exact ⟨a, b, splitAt_eq_some_iff.1 h⟩
  · rintro ⟨a, b, h⟩
    exact ⟨(a, b), splitAt_eq_some_iff.2 h⟩

theorem isCharBoundary_zero (s : List Char) : IsCharBoundary s 0 :=
  isCharBoundary_iff.2 ⟨[], s, rfl, rfl⟩

theorem sliceTo_append : sliceTo (a ++ b) (len a) = some a := by
  rw [sliceTo, splitAt_eq_some_iff.2 ⟨rfl, rfl⟩]
  rfl

theorem sliceFrom_append : sliceFrom (a ++ b) (len a) = some b := by
  rw [sliceFrom, splitAt_eq_some_iff.2 ⟨rfl, rfl⟩]
  rfl

theorem sliceFrom_eq_some_iff : sliceFrom s n = some b ↔ ∃ a, s = a ++ b ∧ len a = n := by
  rw [sliceFrom, Option.map_eq_some_iff]
  constructor
  · rintro ⟨⟨a, _⟩, h, rfl⟩
    exact ⟨a, splitAt_eq_some_iff.1 h⟩
  · rintro ⟨a, h⟩
    exact ⟨(a, b), splitAt_eq_some_iff.2 h, rfl⟩

theorem sliceTo_isSome : (∃ piece, sliceTo s n = some piece) ↔ IsCharBoundary s n := by
  rw [IsCharBoundary, ← Option.isSome_iff_exists, sliceTo, Option.isSome_map]

theorem sliceFrom_isSome : (∃ piece, sliceFrom s n = some piece) ↔ IsCharBoundary s n := by
  rw [IsCharBoundary, ← Option.isSome_iff_exists, sliceFrom, Option.isSome_map]

theorem isCharBoundary_cons : IsCharBoundary (c::s) (c.utf8Size + n) ↔ IsCharBoundary s n := by
  obtain ⟨k, hk⟩ := Nat.exists_eq_add_of_lt c.utf8Size_pos
  have hsum : c.utf8Size + n = (k + n) + 1 := by omega
  rw [IsCharBoundary, IsCharBoundary, hsum, splitAt, if_pos (by omega), Option.isSome_map,
    show k + n + 1 - c.utf8Size = n by omega]

theorem isCharBoundary_append : IsCharBoundary (a ++ b) (len a + n) ↔ IsCharBoundary b n := by
  induction a with
  | nil =>
    rw [show len [] + n = n from Nat.zero_add n]
    rfl
  | cons c a ih => rw [List.cons_append, len_cons, Nat.add_assoc, isCharBoundary_cons, ih]

/-- `s[n..n + m]` lies between two characters. -/
theorem range_isSome : (∃ piece, (sliceFrom s n).bind (sliceTo · m) = some piece) ↔
    IsCharBoundary s n ∧ IsCharBoundary s (n + m) := by
  constructor
  · rintro ⟨piece, h⟩
    obtain ⟨rest, hrest, hpiece⟩ := Option.bind_eq_some_iff.mp h
    refine ⟨sliceFrom_isSome.1 ⟨rest, hrest⟩, ?_⟩
    obtain ⟨a, rfl, rfl⟩ := sliceFrom_eq_some_iff.1 hrest
    exact isCharBoundary_append.2 (sliceTo_isSome.1 ⟨piece, hpiece⟩)
  · rintro ⟨hn, hm⟩
    obtain ⟨rest, hrest⟩ := sliceFrom_isSome.2 hn
    obtain ⟨a, rfl, rfl⟩ := sliceFrom_eq_some_iff.1 hrest
    obtain ⟨piece, hpiece⟩ := sliceTo_isSome.2 (isCharBoundary_append.1 hm)
    exact ⟨piece, Option.bind_eq_some_iff.mpr ⟨rest, hrest, hpiece⟩⟩

theorem find_eq_some {p : Char → Bool} (h : find p s = some n) :
    ∃ a c b, s = a ++ c::b ∧ len a = n ∧ p c = true := by
  induction s generalizing n with
  | nil => cases h
  | cons c s ih =>
    rw [find] at h
    split at h
    case isTrue hp =>
      obtain rfl := Option.some.inj h
      exact ⟨[], c, s, rfl, rfl, hp⟩
    case isFalse =>
      obtain ⟨m, hm, rfl⟩ := Option.map_eq_some_iff.mp h
      obtain ⟨a, c', b, rfl, rfl, hp⟩ := ih hm
      exact ⟨c::a, c', b, rfl, len_cons, hp⟩

/-! ### Bytes below 128 -/

theorem utf8EncodeChar_ascii {x : UInt8} (hx : x < 128)
    (h : x ∈ String.utf8EncodeChar c) : String.utf8EncodeChar c = [x] := by
  have hhigh : ∀ k r : ℕ, r < 128 → 128 ≤ k → k + r < 256 → x ≠ UInt8.ofNat (r + k) := by
    rintro k r hr hk hlt rfl
    have hlow := UInt8.lt_iff_toNat_lt.mp hx
    rw [UInt8.toNat_ofNat'] at hlow
    change _ < 128 at hlow
    omega
  rw [String.utf8EncodeChar] at h ⊢
  split at h
  case isTrue hsmall =>
    rw [if_pos hsmall, List.mem_singleton.mp h]
  case isFalse =>
    refine absurd h ?_
    split
    · simp only [List.mem_cons, List.not_mem_nil, or_false, not_or]
      exact ⟨hhigh 192 _ (by omega) (by omega) (by omega),
        hhigh 128 _ (by omega) (by omega) (by omega)⟩
    · split
      · simp only [List.mem_cons, List.not_mem_nil, or_false, not_or]
        exact ⟨hhigh 224 _ (by omega) (by omega) (by omega),
          hhigh 128 _ (by omega) (by omega) (by omega),
          hhigh 128 _ (by omega) (by omega) (by omega)⟩
      · simp only [List.mem_cons, List.not_mem_nil, or_false, not_or]
        exact ⟨hhigh 240 _ (by omega) (by omega) (by omega),
          hhigh 128 _ (by omega) (by omega) (by omega),
          hhigh 128 _ (by omega) (by omega) (by omega),
          hhigh 128 _ (by omega) (by omega) (by omega)⟩

/-- A byte below 128 is a character of its own. -/
theorem bytes_ascii {x : UInt8} (hx : x < 128) (h : (bytes s)[n]? = some x) :
    ∃ a c b, s = a ++ c::b ∧ len a = n ∧ String.utf8EncodeChar c = [x] := by
  induction s generalizing n with
  | nil => cases h
  | cons c s ih =>
    rw [bytes, List.flatMap_cons] at h
    rcases Nat.lt_or_ge n (String.utf8EncodeChar c).length with hlt | hge
    · rw [List.getElem?_append_left hlt] at h
      have hone := utf8EncodeChar_ascii hx (List.mem_of_getElem? h)
      rw [hone, List.length_singleton] at hlt
      obtain rfl : n = 0 := by omega
      exact ⟨[], c, s, rfl, rfl, hone⟩
    · rw [List.getElem?_append_right hge] at h
      obtain ⟨a, c', b, rfl, hlen, hone⟩ := ih h
      refine ⟨c::a, c', b, rfl, ?_, hone⟩
      rw [len_cons, hlen, ← String.length_utf8EncodeChar]
      omega

theorem isCharBoundary_of_ascii {x : UInt8} (hx : x < 128) (h : (bytes s)[n]? = some x) :
    IsCharBoundary s n ∧ IsCharBoundary s (n + 1) := by
  obtain ⟨a, c, b, rfl, rfl, hone⟩ := bytes_ascii hx h
  refine ⟨isCharBoundary_iff.2 ⟨a, c::b, rfl, rfl⟩,
    isCharBoundary_iff.2 ⟨a ++ [c], b, by rw [List.append_assoc]; rfl, ?_⟩⟩
  rw [len_append, len_cons, ← String.length_utf8EncodeChar, hone]
  rfl

end Ruzu.Text
