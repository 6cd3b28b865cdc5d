import Ruzu.Kernel.MemoryBlockCalls

/-!
# Searching a free area

`find_free_area` looks at the blocks in order and takes the first FREE one with
room for an aligned area between its guards. Sums are machine words: one that
does not fit is a fault.
-/

set_option autoImplicit false

namespace Ruzu.MemoryBlockFreeArea
open MemoryBlock MemoryBlockManager MemoryBlockTiling Tiling

def usize (n : ℕ) : Option ℕ := if n < 2 ^ 64 then some n else none

def alignDown (value size : ℕ) : ℕ := value - value % size

section

variable (regionStart regionNumPages numPages alignment offset guardPages : ℕ)

/-- The aligned area from `area` on. -/
def offsetArea (area : ℕ) : Option ℕ := do
  let offsetArea ← usize (alignDown area alignment + offset)
  if area ≤ offsetArea then some offsetArea else usize (offsetArea + alignment)

/-- What the loop finds in a FREE block. -/
def areaIn (info : KMemoryBlock) (regionLast : ℕ) : Option (Option ℕ) := do
  let area := if info.mAddress ≤ regionStart then regionStart else info.mAddress
  let area ← usize (area + guardPages * pageSize)
  let area ← offsetArea alignment offset area
  let areaEnd ← usize (area + numPages * pageSize + guardPages * pageSize)
  let areaLast := areaEnd - 1
  return if info.mAddress ≤ area ∧ area < areaLast ∧ areaLast ≤ regionLast ∧
    areaLast ≤ info.getEndAddress - 1 then some area else none

def findLoop (regionLast : ℕ) : List KMemoryBlock → Option (Option ℕ)
  | [] => some none
  | info::blocks =>
    if regionLast < info.mAddress then some none
    else if info.mMemoryState ≠ KMemoryState.free then findLoop regionLast blocks
    else
      match areaIn regionStart numPages alignment offset guardPages info regionLast with
      | none => none
      | some (some area) => some (some area)
      | some none => findLoop regionLast blocks

def findFreeArea (m : KMemoryBlockManager) : Option (Option ℕ) :=
  if numPages = 0 then some none
  else do
    let regionEnd ← usize (regionStart + regionNumPages * pageSize)
    if regionEnd = 0 then none
    else
      findLoop regionStart numPages alignment offset guardPages (regionEnd - 1)
        (m.memoryBlockTree.entries.map Prod.snd)

/-! ### What is searched for -/

/-- The area starts at the offset of its alignment, and with its guards it lies in a FREE
block and in the region. -/
structure Admits (b : KMemoryBlock) (a : ℕ) : Prop where
  free : b.mMemoryState = KMemoryState.free
  congruent : a % alignment = offset % alignment
  start_le : b.mAddress + guardPages * pageSize ≤ a
  le_end : a + numPages * pageSize + guardPages * pageSize ≤ b.getEndAddress
  regionStart_le : regionStart + guardPages * pageSize ≤ a
  le_regionEnd :
    a + numPages * pageSize + guardPages * pageSize ≤ regionStart + regionNumPages * pageSize

/-- The least number from `base` on at the offset of the alignment. -/
def leastFrom (base : ℕ) : ℕ :=
  if base ≤ alignDown base alignment + offset then alignDown base alignment + offset
  else alignDown base alignment + offset + alignment

/-- Where an area in a block can start at the lowest. -/
def lowest (b : KMemoryBlock) : ℕ :=
  leastFrom alignment offset (max b.mAddress regionStart + guardPages * pageSize)

/-- The region has a last address, and the areas that are tried end below the last word. -/
structure NoOverflow (m : KMemoryBlockManager) : Prop where
  region_pos : 0 < regionStart + regionNumPages * pageSize
  region_lt : regionStart + regionNumPages * pageSize < 2 ^ 64
  area_lt : ∀ e ∈ m.memoryBlockTree.entries, e.2.mMemoryState = KMemoryState.free →
    e.1 < regionStart + regionNumPages * pageSize →
      lowest regionStart alignment offset guardPages e.2 + numPages * pageSize +
        guardPages * pageSize < 2 ^ 64

end

section

variable {regionStart regionNumPages numPages alignment offset guardPages : ℕ}

theorem alignDown_le (value size : ℕ) : alignDown value size ≤ value := Nat.sub_le _ _

theorem lt_alignDown_add (value : ℕ) {size : ℕ} (h : 0 < size) :
    value < alignDown value size + size := by
  have := Nat.mod_lt value h
  have := Nat.mod_le value size
  rw [alignDown]
  omega

theorem alignDown_eq (value size : ℕ) : alignDown value size = size * (value / size) := by
  have := Nat.div_add_mod value size
  rw [alignDown]
  omega

theorem leastFrom_mod (base : ℕ) :
    leastFrom alignment offset base % alignment = offset % alignment := by
  rw [leastFrom, alignDown_eq]
  split
  · exact Nat.mul_add_mod _ _ _
  · rw [Nat.add_mod_right]
    exact Nat.mul_add_mod _ _ _

theorem le_leastFrom (offset base : ℕ) (h : 0 < alignment) : base ≤ leastFrom alignment offset base := by
  have := lt_alignDown_add base h
  rw [leastFrom]
  split
  · assumption
  · omega

/-- Nothing below is at the offset. -/
theorem leastFrom_le {base a : ℕ} (hoffset : offset < alignment) (hbase : base ≤ a)
    (ha : a % alignment = offset % alignment) : leastFrom alignment offset base ≤ a := by
  have hpos : 0 < alignment := Nat.zero_lt_of_lt hoffset
  rw [Nat.mod_eq_of_lt hoffset] at ha
  have hquot : base / alignment ≤ a / alignment := Nat.div_le_div_right hbase
  have hform := Nat.div_add_mod a alignment
  have hlow := Nat.mul_le_mul_left alignment hquot
  rw [leastFrom, alignDown_eq]
  split
  · omega
  case isFalse hbelow =>
    -- the area lies in a later stride of the alignment than the base
    have hnext : base / alignment + 1 ≤ a / alignment := by
      refine Nat.lt_of_le_of_ne hquot fun heq => hbelow ?_
      rw [heq]
      omega
    have hlow' := Nat.mul_le_mul_left alignment hnext
    rw [Nat.mul_add, Nat.mul_one] at hlow'
    omega

theorem offsetArea_eq {area : ℕ} (h : leastFrom alignment offset area < 2 ^ 64) :
    offsetArea alignment offset area = some (leastFrom alignment offset area) := by
  rw [leastFrom] at h ⊢
  rw [offsetArea, usize]
  split at h
  case isTrue hle =>
    rw [if_pos h, Option.bind_eq_bind, Option.bind_some, if_pos hle, if_pos hle]
  case isFalse hgt =>
    rw [if_pos (by omega), Option.bind_eq_bind, Option.bind_some, if_neg hgt, if_neg hgt, usize,
      if_pos h]

/-- A block gives its lowest area, if that fits. -/
theorem areaIn_eq {info : KMemoryBlock} {regionLast : ℕ} (hpos : 0 < alignment)
    (h : lowest regionStart alignment offset guardPages info + numPages * pageSize +
      guardPages * pageSize < 2 ^ 64) (hpages : 0 < numPages) :
    areaIn regionStart numPages alignment offset guardPages info regionLast =
      some (if lowest regionStart alignment offset guardPages info + numPages * pageSize +
          guardPages * pageSize - 1 ≤ min regionLast (info.getEndAddress - 1) then
        some (lowest regionStart alignment offset guardPages info) else none) := by
  have hmax : (if info.mAddress ≤ regionStart then regionStart else info.mAddress) =
      max info.mAddress regionStart := by
    split <;> omega
  have hle := le_leastFrom offset (max info.mAddress regionStart + guardPages * pageSize) hpos
  rw [← lowest] at hle
  have hsize : 2 ≤ numPages * pageSize := by
    rw [pageSize]
    omega
  rw [areaIn, hmax, usize, if_pos (by omega), Option.bind_eq_bind, Option.bind_some,
    offsetArea_eq (by rw [← lowest]; omega), ← lowest, Option.bind_some, usize, if_pos h,
    Option.bind_some]
  refine congrArg some (if_congr ?_ rfl rfl)
  omega

/-- A block admits an area exactly when its lowest one fits. -/
theorem admits_iff {b : KMemoryBlock} {a : ℕ} (hoffset : offset < alignment) :
    Admits regionStart regionNumPages numPages alignment offset guardPages b a ↔
      b.mMemoryState = KMemoryState.free ∧ a % alignment = offset % alignment ∧
        lowest regionStart alignment offset guardPages b ≤ a ∧
        a + numPages * pageSize + guardPages * pageSize ≤
          min b.getEndAddress (regionStart + regionNumPages * pageSize) := by
  have hpos : 0 < alignment := Nat.zero_lt_of_lt hoffset
  have hle := le_leastFrom offset (max b.mAddress regionStart + guardPages * pageSize) hpos
  rw [← lowest] at hle
  constructor
  · intro h
    refine ⟨h.free, h.congruent, leastFrom_le hoffset ?_ h.congruent,
      le_min h.le_end h.le_regionEnd⟩
    have := h.start_le
    have := h.regionStart_le
    omega
  · rintro ⟨hfree, hcongr, hlow, hend⟩
    exact ⟨hfree, hcongr, by omega, by omega, by omega, by omega⟩

end

/-- What a search returns: the lowest area of the first block that admits one. -/
def Found (admits : KMemoryBlock → ℕ → Prop) (entries : List Entry) : Option ℕ → Prop
  | some a => ∃ pre e post, entries = pre ++ e::post ∧ admits e.2 a ∧
      (∀ a', admits e.2 a' → a ≤ a') ∧ ∀ e' ∈ pre, ∀ a', ¬admits e'.2 a'
  | none => ∀ e ∈ entries, ∀ a, ¬admits e.2 a

theorem found_cons {admits : KMemoryBlock → ℕ → Prop} {entries : List Entry} {e : Entry}
    (he : ∀ a, ¬admits e.2 a) {r : Option ℕ} (h : Found admits entries r) :
    Found admits (e::entries) r := by
  cases r with
  | none => exact List.forall_mem_cons.mpr ⟨he, h⟩
  | some a =>
    obtain ⟨pre, e', post, rfl, hadmits, hleast, hpre⟩ := h
    exact ⟨e::pre, e', post, rfl, hadmits, hleast, List.forall_mem_cons.mpr ⟨he, hpre⟩⟩

section

variable {regionStart regionNumPages numPages alignment offset guardPages : ℕ}

/-- The loop over blocks that are sorted by their addresses. -/
theorem findLoop_found {entries : List Entry} (hpages : 0 < numPages)
    (hoffset : offset < alignment) (hkeyed : ∀ e ∈ entries, e.2.mAddress = e.1)
    (hsorted : entries.Pairwise fun e e' => e.1 ≤ e'.1)
    (hregion : 0 < regionStart + regionNumPages * pageSize)
    (harea : ∀ e ∈ entries, e.2.mMemoryState = KMemoryState.free →
      e.1 < regionStart + regionNumPages * pageSize →
        lowest regionStart alignment offset guardPages e.2 + numPages * pageSize +
          guardPages * pageSize < 2 ^ 64) :
    ∃ r, findLoop regionStart numPages alignment offset guardPages
        (regionStart + regionNumPages * pageSize - 1) (entries.map Prod.snd) = some r ∧
      Found (Admits regionStart regionNumPages numPages alignment offset guardPages) entries r := by
  have hpos : 0 < alignment := Nat.zero_lt_of_lt hoffset
  have hsize : 2 ≤ numPages * pageSize := by
    rw [pageSize]
    omega
  induction entries with
  | nil => exact ⟨none, rfl, fun _ h => absurd h List.not_mem_nil⟩
  | cons e entries ih =>
    obtain ⟨hkey, hkeys⟩ := List.forall_mem_cons.mp hkeyed
    obtain ⟨hfirst, hrest⟩ := List.pairwise_cons.mp hsorted
    obtain ⟨hhere, hlater⟩ := List.forall_mem_cons.mp harea
    obtain ⟨r, hr, hfound⟩ := ih hkeys hrest hlater
    rw [List.map_cons, findLoop]
    split
    case isTrue hbeyond =>
      -- no later block starts in the region either
      refine ⟨none, rfl, fun e' he' a ha => ?_⟩
      have hstart := ha.start_le
      have hend := ha.le_regionEnd
      have hkey' := hkeyed e' he'
      have hle : e.1 ≤ e'.1 := by
        rcases List.mem_cons.mp he' with rfl | he'
        · exact Nat.le_refl _
        · exact hfirst e' he'
      omega
    case isFalse hin =>
      split
      case isTrue hused => exact ⟨r, hr, found_cons (fun a ha => hused ha.free) hfound⟩
      case isFalse hunused =>
        have hfree := not_not.mp hunused
        rw [areaIn_eq hpos (hhere hfree (by omega)) hpages]
        split
        case h_1 heq => cases heq
        case h_2 area heq =>
          split at heq
          case isTrue hle =>
            obtain rfl := Option.some.inj (Option.some.inj heq)
            refine ⟨_, rfl, [], e, entries, rfl, ?_, fun a' ha' => ?_, fun _ h => absurd h List.not_mem_nil⟩
            · exact (admits_iff hoffset).mpr ⟨hfree, leastFrom_mod _, Nat.le_refl _, by omega⟩
            · exact ((admits_iff hoffset).mp ha').2.2.1
          case isFalse => cases heq
        case h_3 heq =>
          split at heq
          case isTrue => cases heq
          case isFalse hgt =>
            -- any area in the block would lie above the lowest
            refine ⟨r, hr, found_cons (fun a ha => hgt ?_) hfound⟩
            obtain ⟨-, -, hlow, hend⟩ := (admits_iff hoffset).mp ha
            omega

theorem entries_sorted {m : KMemoryBlockManager} (h : Tiled m) :
    m.memoryBlockTree.entries.Pairwise fun e e' => e.1 ≤ e'.1 :=
  (tiles_ordered h.tiles).imp_of_mem fun he _ hle =>
    (Nat.le_of_lt (tiles_mem h.tiles he).2.1).trans hle

/-- The search finds the lowest area of the first FREE block with room for one, and nothing only
when no block has room. -/
theorem find_free_area_lowest {m : KMemoryBlockManager} (htiled : Tiled m) (hpages : 0 < numPages)
    (hoffset : offset < alignment)
    (hflow : NoOverflow regionStart regionNumPages numPages alignment offset guardPages m) :
    ∃ r, findFreeArea regionStart regionNumPages numPages alignment offset guardPages m = some r ∧
      Found (Admits regionStart regionNumPages numPages alignment offset guardPages)
        m.memoryBlockTree.entries r := by
  obtain ⟨r, hr, hfound⟩ := findLoop_found hpages hoffset htiled.keyed
    (entries_sorted htiled) hflow.region_pos hflow.area_lt
  have hpos := hflow.region_pos
  refine ⟨r, ?_, hfound⟩
  rw [findFreeArea, if_neg (by omega), usize, if_pos hflow.region_lt, Option.bind_eq_bind,
    Option.bind_some, if_neg (by omega), hr]

end

/-- Two pages between guards in a region of 256 pages that is free. -/
theorem find_free_area_initial :
    ∃ r, findFreeArea 0x200000 256 2 0x2000 0x1000 1
        (KMemoryBlockManager.new.initializeManager 0x200000 0x300000 KMemoryBlock.new) = some r ∧
      Found (Admits 0x200000 256 2 0x2000 0x1000 1)
        (KMemoryBlockManager.new.initializeManager 0x200000 0x300000
          KMemoryBlock.new).memoryBlockTree.entries r := by
  refine find_free_area_lowest (MemoryBlockCalls.initialize_tiled (by decide) (by decide)
    (by decide) _) (by decide) (by decide) ⟨by decide, by decide, fun e he _ _ => ?_⟩
  rw [MemoryBlockCalls.initialize_entries, List.mem_singleton] at he
  rw [he]
  decide

end Ruzu.MemoryBlockFreeArea
