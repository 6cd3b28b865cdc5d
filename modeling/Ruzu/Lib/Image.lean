import Mathlib

/-!
# Pieces of an image

An image is a list of bytes that holds pieces at positions. A write puts a
piece at its position and keeps every piece that it does not overlap. Numbers
are stored with the lowest byte first.
-/

set_option autoImplicit false

namespace Ruzu.Image

variable {α : Type*}

/-- The image holds the piece at a position. -/
def Holds (image : List α) (pos : ℕ) (piece : List α) : Prop :=
  ∀ k < piece.length, image[pos + k]? = piece[k]?

/-- `image[pos..pos + n]`. -/
def slice (image : List α) (pos n : ℕ) : Option (List α) :=
  if pos + n ≤ image.length then some ((image.drop pos).take n) else none

/-- `image[pos..pos + piece.len()].copy_from_slice(piece)`. -/
def write (image : List α) (pos : ℕ) (piece : List α) : Option (List α) :=
  if pos + piece.length ≤ image.length then
    some (image.take pos ++ piece ++ image.drop (pos + piece.length))
  else none

variable {image image' piece piece' : List α} {pos pos' : ℕ}

theorem holds_append :
    Holds image pos (piece ++ piece') ↔
      Holds image pos piece ∧ Holds image (pos + piece.length) piece' := by
  constructor
  · intro h
    refine ⟨fun k hk => ?_, fun k hk => ?_⟩
    · rw [h k (by rw [List.length_append]; omega), List.getElem?_append_left hk]
    · rw [Nat.add_assoc, h _ (by rw [List.length_append]; omega),
        List.getElem?_append_right (Nat.le_add_right _ _), Nat.add_sub_cancel_left]
  · rintro ⟨h, h'⟩ k hk
    rw [List.length_append] at hk
    rcases Nat.lt_or_ge k piece.length with hlt | hge
    · rw [h k hlt, List.getElem?_append_left hlt]
    · obtain ⟨i, rfl⟩ := Nat.exists_eq_add_of_le hge
      rw [← Nat.add_assoc, h' i (by omega), List.getElem?_append_right hge,
        Nat.add_sub_cancel_left]

theorem Holds.le_length (h : Holds image pos piece) (hne : piece ≠ []) :
    pos + piece.length ≤ image.length := by
  have hpos := List.length_pos_iff.mpr hne
  have hlast := h (piece.length - 1) (by omega)
  rw [List.getElem?_eq_getElem (by omega : piece.length - 1 < piece.length)] at hlast
  have hlt := (List.getElem?_eq_some_iff.mp hlast).1
  omega

theorem slice_of_holds (h : Holds image pos piece) (hle : pos + piece.length ≤ image.length) :
    slice image pos piece.length = some piece := by
  rw [slice, if_pos hle]
  refine congrArg some (List.ext_getElem? fun k => ?_)
  rcases Nat.lt_or_ge k piece.length with hlt | hge
  · rw [List.getElem?_take_of_lt hlt, List.getElem?_drop, h k hlt]
  · rw [List.getElem?_eq_none_iff.mpr (by simp; omega), List.getElem?_eq_none_iff.mpr hge]

theorem holds_of_append {pre post : List α} : Holds (pre ++ piece ++ post) pre.length piece := by
  intro k hk
  rw [List.append_assoc, List.getElem?_append_right (Nat.le_add_right _ _),
    Nat.add_sub_cancel_left, List.getElem?_append_left hk]

theorem getElem?_write (h : write image pos piece = some image') (i : ℕ) :
    image'[i]? =
      if pos ≤ i ∧ i < pos + piece.length then piece[i - pos]? else image[i]? := by
  rw [write] at h
  split at h
  case isTrue hle =>
    obtain rfl := Option.some.inj h
    rw [List.append_assoc]
    split
    case isTrue hin =>
      rw [List.getElem?_append_right (by simp; omega), List.getElem?_append_left]
      · congr 1
        simp
        omega
      · simp
        omega
    case isFalse hout =>
      rcases Nat.lt_or_ge i pos with hlt | hge
      · rw [List.getElem?_append_left (by simp; omega), List.getElem?_take_of_lt hlt]
      · rw [List.getElem?_append_right (by simp; omega),
          List.getElem?_append_right (by simp; omega), List.getElem?_drop]
        congr 1
        simp
        omega
  case isFalse => cases h

theorem length_write (h : write image pos piece = some image') : image'.length = image.length := by
  rw [write] at h
  split at h
  case isTrue hle =>
    obtain rfl := Option.some.inj h
    simp only [List.length_append, List.length_take, List.length_drop]
    omega
  case isFalse => cases h

theorem write_eq_some (image : List α) (pos : ℕ) (piece : List α)
    (h : pos + piece.length ≤ image.length) :
    ∃ image', write image pos piece = some image' :=
  ⟨_, if_pos h⟩

theorem holds_write (h : write image pos piece = some image') : Holds image' pos piece := by
  intro k hk
  rw [getElem?_write h, if_pos ⟨Nat.le_add_right _ _, by omega⟩, Nat.add_sub_cancel_left]

/-- A write keeps the pieces that it does not overlap. -/
theorem Holds.write (hold : Holds image pos' piece') (h : write image pos piece = some image')
    (hdisj : pos' + piece'.length ≤ pos ∨ pos + piece.length ≤ pos') :
    Holds image' pos' piece' := by
  intro k hk
  rw [getElem?_write h, if_neg (by omega), hold k hk]

theorem slice_eq_some (image : List α) (pos n : ℕ) (h : pos + n ≤ image.length) :
    ∃ piece, slice image pos n = some piece :=
  ⟨_, if_pos h⟩

theorem length_slice {n : ℕ} (h : slice image pos n = some piece) : piece.length = n := by
  rw [slice] at h
  split at h
  case isTrue hle =>
    obtain rfl := Option.some.inj h
    rw [List.length_take, List.length_drop]
    omega
  case isFalse => cases h

theorem getElem?_slice {n : ℕ} (h : slice image pos n = some piece) {i : ℕ} (hi : i < n) :
    piece[i]? = image[pos + i]? := by
  rw [slice] at h
  split at h
  case isTrue hle =>
    obtain rfl := Option.some.inj h
    rw [List.getElem?_take_of_lt hi, List.getElem?_drop]
  case isFalse => cases h

/-- `image[dst..dst + n].copy_from_slice(&source[src..src + n])`. -/
def copy (image : List α) (dst : ℕ) (source : List α) (src n : ℕ) : Option (List α) :=
  (slice source src n).bind fun piece => write image dst piece

theorem copy_eq_some {source : List α} {dst src n : ℕ} (hsrc : src + n ≤ source.length)
    (hdst : dst + n ≤ image.length) : ∃ image', copy image dst source src n = some image' := by
  obtain ⟨piece, hpiece⟩ := slice_eq_some source src n hsrc
  obtain ⟨image', himage'⟩ :=
    write_eq_some image dst piece ((length_slice hpiece).symm ▸ hdst)
  exact ⟨image', by rw [copy, hpiece, Option.bind_some, himage']⟩

theorem length_copy {source : List α} {dst src n : ℕ} (h : copy image dst source src n = some image') :
    image'.length = image.length := by
  obtain ⟨piece, -, hwrite⟩ := Option.bind_eq_some_iff.mp h
  exact length_write hwrite

theorem getElem?_copy {source : List α} {dst src n : ℕ} (h : copy image dst source src n = some image')
    (i : ℕ) : image'[i]? =
      if dst ≤ i ∧ i < dst + n then source[src + (i - dst)]? else image[i]? := by
  obtain ⟨piece, hpiece, hwrite⟩ := Option.bind_eq_some_iff.mp h
  rw [getElem?_write hwrite, length_slice hpiece]
  split
  case isTrue hin => exact getElem?_slice hpiece (by omega)
  case isFalse => rfl

/-! ### Numbers -/

/-- The `k` bytes of a number, lowest first. -/
def le : ℕ → ℕ → List UInt8
  | 0, _ => []
  | k + 1, n => UInt8.ofNat n :: le k (n / 256)

def fromLe : List UInt8 → ℕ
  | [] => 0
  | b :: bytes => b.toNat + 256 * fromLe bytes

@[simp] theorem length_le (k n : ℕ) : (le k n).length = k := by
  induction k generalizing n with
  | zero => rfl
  | succ k ih => rw [le, List.length_cons, ih]

theorem fromLe_le (k n : ℕ) (h : n < 256 ^ k) : fromLe (le k n) = n := by
  induction k generalizing n with
  | zero =>
    rw [pow_zero] at h
    rw [le, fromLe]
    omega
  | succ k ih =>
    rw [pow_succ] at h
    rw [le, fromLe, ih _ (Nat.div_lt_of_lt_mul (by rwa [Nat.mul_comm])), UInt8.toNat_ofNat']
    exact Nat.mod_add_div n 256

theorem le_fromLe (bytes : List UInt8) : le bytes.length (fromLe bytes) = bytes := by
  induction bytes with
  | nil => rfl
  | cons b bytes ih =>
    have hlt : b.toNat < 256 := b.toNat_lt
    rw [List.length_cons, le, fromLe, Nat.add_mul_div_left _ _ (by decide), Nat.div_eq_of_lt hlt,
      Nat.zero_add, ih]
    congr 1
    refine UInt8.toNat_inj.mp ?_
    rw [UInt8.toNat_ofNat']
    omega

/-- Only the lowest `k` bytes of the number matter. -/
theorem le_mod (k n : ℕ) : le k (n % 256 ^ k) = le k n := by
  induction k generalizing n with
  | zero => rfl
  | succ k ih =>
    rw [le, le, pow_succ', Nat.mod_mul_right_div_self, ih]
    congr 1
    refine UInt8.toNat_inj.mp ?_
    rw [UInt8.toNat_ofNat', UInt8.toNat_ofNat']
    exact Nat.mod_mod_of_dvd n (Dvd.intro _ rfl)

/-- A number of `k` bytes at a position. -/
def readLe (k : ℕ) (image : List UInt8) (pos : ℕ) : Option ℕ := (slice image pos k).map fromLe

theorem readLe_of_holds {image : List UInt8} {k n : ℕ} (h : Holds image pos (le k n))
    (hn : n < 256 ^ k) (hle : pos + k ≤ image.length) : readLe k image pos = some n := by
  have hslice := slice_of_holds h (by rwa [length_le])
  rw [length_le] at hslice
  rw [readLe, hslice, Option.map_some, fromLe_le k n hn]

end Ruzu.Image
