import Mathlib
import Ruzu.Lib.BTreeMap
import Ruzu.Lib.Tiling

/-!
# Memory regions

`k_memory_region.rs`: a tree of regions by address. An insertion replaces one
region by up to three, in one of which attributes and type are new; the pair
addresses of the others are moved with their starts.
-/

set_option autoImplicit false

namespace Ruzu.MemoryRegion

open Tiling

def u64Max : ℕ := 2 ^ 64 - 1

structure KMemoryRegion where
  address : ℕ
  lastAddress : ℕ
  pairAddress : ℕ
  attributes : BitVec 32
  typeId : BitVec 32
  deriving DecidableEq

namespace KMemoryRegion

def newWithAttr (address lastAddress : ℕ) (attributes typeId : BitVec 32) : KMemoryRegion :=
  ⟨address, lastAddress, u64Max, attributes, typeId⟩

def contains (r : KMemoryRegion) (addr : ℕ) : Bool := r.address ≤ addr ∧ addr ≤ r.lastAddress

def canDerive (r : KMemoryRegion) (typeId : BitVec 32) : Bool := r.typeId ||| typeId = typeId

/-- The address that is paired with an address of the region. -/
def pairOf (r : KMemoryRegion) (x : ℕ) : ℕ := (r.pairAddress + (x - r.address)) % 2 ^ 64

end KMemoryRegion

structure KMemoryRegionTree where
  regions : BTreeMap ℕ KMemoryRegion

namespace KMemoryRegionTree

/-- The last region from `address` downwards, when it contains the address. -/
def find (t : KMemoryRegionTree) (address : ℕ) : Option (ℕ × KMemoryRegion) :=
  (t.regions.floor address).filter fun e => e.2.contains address

def insertDirectly (t : KMemoryRegionTree) (address lastAddress : ℕ) (attr typeId : BitVec 32) :
    KMemoryRegionTree :=
  ⟨t.regions.insert address (.newWithAttr address lastAddress attr typeId)⟩

/-- `old_pair + offset`, unless there is no pair address. -/
def movedPair (oldPair offset : ℕ) : ℕ :=
  if oldPair ≠ u64Max then (oldPair + offset) % 2 ^ 64 else oldPair

def insert (t : KMemoryRegionTree) (address size : ℕ) (typeId newAttr oldAttr : BitVec 32) :
    Bool × KMemoryRegionTree :=
  match t.find address with
  | none => (false, t)
  | some (foundKey, found) =>
    if found.attributes ≠ oldAttr then (false, t)
    else
      let insertedEnd := (address + size) % 2 ^ 64
      let insertedLast := (insertedEnd + 2 ^ 64 - 1) % 2 ^ 64
      if found.lastAddress < insertedLast then (false, t)
      else if ¬ found.canDerive typeId then (false, t)
      else
        let regions := t.regions.remove foundKey
        let regions :=
          if found.address = address then
            regions.insert address ⟨address, insertedLast, found.pairAddress, newAttr, typeId⟩
          else
            let regions := regions.insert found.address
              ⟨found.address, address - 1, found.pairAddress, oldAttr, found.typeId⟩
            regions.insert address ⟨address, insertedLast,
              movedPair found.pairAddress (address - found.address), newAttr, typeId⟩
        let regions :=
          if found.lastAddress ≠ insertedLast then
            regions.insert insertedEnd ⟨insertedEnd, found.lastAddress,
              movedPair found.pairAddress (insertedEnd - found.address), oldAttr, found.typeId⟩
          else regions
        (true, ⟨regions⟩)

abbrev first (e : ℕ × KMemoryRegion) : ℕ := e.2.address

abbrev beyond (e : ℕ × KMemoryRegion) : ℕ := e.2.lastAddress + 1

/-- The regions are keyed by their addresses and tile the interval; pair addresses are words. -/
structure Tiled (t : KMemoryRegionTree) (start last : ℕ) : Prop where
  keyed : ∀ e ∈ t.regions.entries, e.1 = e.2.address
  words : ∀ e ∈ t.regions.entries, e.2.pairAddress < 2 ^ 64
  tiles : Tiles first beyond start (last + 1) t.regions.entries

/-- The region that the range can be inserted into. -/
def Takes (t : KMemoryRegionTree) (address size : ℕ) (typeId oldAttr : BitVec 32) : Prop :=
  ∃ e ∈ t.regions.entries, e.2.address ≤ address ∧ address + size ≤ e.2.lastAddress + 1 ∧
    e.2.attributes = oldAttr ∧ e.2.canDerive typeId = true

/-- What an insertion does to each address, seen from its regions before and after. -/
def Rewrites (t t' : KMemoryRegionTree) (address size : ℕ) (typeId newAttr : BitVec 32) : Prop :=
  ∀ x, ∀ e ∈ t.regions.entries, ∀ e' ∈ t'.regions.entries, e.2.contains x → e'.2.contains x →
    (if address ≤ x ∧ x < address + size then e'.2.attributes = newAttr ∧ e'.2.typeId = typeId
      else e'.2.attributes = e.2.attributes ∧ e'.2.typeId = e.2.typeId) ∧
    (e.2.pairAddress ≠ u64Max → e'.2.pairOf x = e.2.pairOf x)

/-! ### Insertions -/

section Insert

variable {t : KMemoryRegionTree} {start last address size : ℕ} {typeId newAttr oldAttr : BitVec 32}

theorem contains_iff {r : KMemoryRegion} {x : ℕ} :
    r.contains x = true ↔ r.address ≤ x ∧ x < r.lastAddress + 1 := by
  rw [KMemoryRegion.contains, decide_eq_true_eq]
  omega

theorem find_some {e : ℕ × KMemoryRegion} (h : t.find address = some e) :
    e ∈ t.regions.entries ∧ e.2.contains address = true := by
  rw [find, Option.filter_eq_some_iff] at h
  exact ⟨(BTreeMap.floor_eq_some h.1).1, h.2⟩

/-- A region over the address is found: in a tiling it is the last one that starts at or below. -/
theorem Tiled.find_mem (h : Tiled t start last) {e : ℕ × KMemoryRegion}
    (he : e ∈ t.regions.entries) (hin : e.2.contains address = true) : t.find address = some e := by
  obtain ⟨hle, hlt⟩ := contains_iff.1 hin
  have hkey := h.keyed e he
  cases hf : t.regions.floor address with
  | none =>
    have hnone := BTreeMap.floor_eq_none hf e he
    omega
  | some f =>
    obtain ⟨hmem, hfle⟩ := BTreeMap.floor_eq_some hf
    have hfkey := h.keyed f hmem
    have hlast := BTreeMap.floor_last hf he (by omega)
    have hspan := (tiles_mem h.tiles hmem).2.1
    have hover : e.2.address ≤ f.2.address ∧ f.2.address < e.2.lastAddress + 1 := by omega
    have hsame : f = e := tiles_unique h.tiles hmem he ⟨le_rfl, hspan⟩ hover
    rw [find, hf, hsame, Option.filter_some, if_pos hin]

theorem post_above {pre post : List (ℕ × KMemoryRegion)} {found : ℕ × KMemoryRegion}
    (h : Tiled t start last) (hcut : t.regions.entries = pre ++ found :: post) :
    ∀ e ∈ post, found.2.lastAddress < e.1 := by
  intro e he
  have htiles := h.tiles
  rw [hcut] at htiles
  have hle : found.2.lastAddress + 1 ≤ e.2.address := (tiles_mem (tiles_cut htiles).2.2 he).1
  have hkey := h.keyed e (by simp [hcut, he])
  omega

/-- What stands in front of the inserted range, in it and behind it. -/
def before (found : KMemoryRegion) (address : ℕ) : List (ℕ × KMemoryRegion) :=
  if found.address = address then []
  else [(found.address,
    ⟨found.address, address - 1, found.pairAddress, found.attributes, found.typeId⟩)]

def inserted (found : KMemoryRegion) (address size : ℕ) (typeId newAttr : BitVec 32) :
    ℕ × KMemoryRegion :=
  (address, ⟨address, address + size - 1, movedPair found.pairAddress (address - found.address),
    newAttr, typeId⟩)

def after (found : KMemoryRegion) (stop : ℕ) : List (ℕ × KMemoryRegion) :=
  if found.lastAddress + 1 = stop then []
  else [(stop, ⟨stop, found.lastAddress, movedPair found.pairAddress (stop - found.address),
    found.attributes, found.typeId⟩)]

theorem movedPair_zero {oldPair : ℕ} (h : oldPair < 2 ^ 64) : movedPair oldPair 0 = oldPair := by
  rw [movedPair, Nat.add_zero, Nat.mod_eq_of_lt h, ite_self]

/-- The found region gives way to up to three. -/
theorem insert_entries (newAttr : BitVec 32) {pre post : List (ℕ × KMemoryRegion)} {found : KMemoryRegion}
    (h : Tiled t start last) (hcut : t.regions.entries = pre ++ (found.address, found) :: post)
    (hfind : t.find address = some (found.address, found)) (hpair : found.pairAddress < 2 ^ 64)
    (hattr : found.attributes = oldAttr) (hderive : found.canDerive typeId = true)
    (hsize : 0 < size) (hwrap : address + size < 2 ^ 64) (hlow : found.address ≤ address)
    (hhigh : address + size ≤ found.lastAddress + 1) :
    ∃ t', t.insert address size typeId newAttr oldAttr = (true, t') ∧
      t'.regions.entries = pre ++ (before found address ++
        inserted found address size typeId newAttr :: after found (address + size)) ++ post := by
  have hend : (address + size) % 2 ^ 64 = address + size := Nat.mod_eq_of_lt hwrap
  have hlast : (address + size + 2 ^ 64 - 1) % 2 ^ 64 = address + size - 1 := by omega
  have hpre : ∀ e ∈ pre, e.1 < found.address := BTreeMap.cut_below hcut
  have hpost : ∀ e ∈ post, found.lastAddress < e.1 := post_above h hcut
  have hgone : (t.regions.remove found.address).entries = pre ++ post := BTreeMap.remove_cut hcut
  have hbefore : ∀ e ∈ before found address, e.1 < address := by
    intro e he
    rw [before] at he
    split at he
    · cases he
    · rw [List.mem_singleton.mp he]
      dsimp only
      omega
  -- the regions up to the inserted one
  obtain ⟨middle, hmiddle, hentries⟩ : ∃ middle,
      (if found.address = address then (t.regions.remove found.address).insert address
          ⟨address, address + size - 1, found.pairAddress, newAttr, typeId⟩
        else ((t.regions.remove found.address).insert found.address
          ⟨found.address, address - 1, found.pairAddress, oldAttr, found.typeId⟩).insert address
            ⟨address, address + size - 1,
              movedPair found.pairAddress (address - found.address), newAttr, typeId⟩) = middle ∧
      middle.entries =
        (pre ++ before found address) ++ inserted found address size typeId newAttr :: post := by
    refine ⟨_, rfl, ?_⟩
    by_cases heq : found.address = address
    · rw [if_pos heq, before, if_pos heq, List.append_nil, inserted, heq, Nat.sub_self,
        movedPair_zero hpair]
      rw [heq] at hgone hpre
      exact BTreeMap.insert_gap hgone hpre fun e he => by
        have habove := hpost e he
        omega
    · rw [if_neg heq, before, if_neg heq, hattr]
      have hfirst := BTreeMap.insert_gap (v := (⟨found.address, address - 1, found.pairAddress,
        oldAttr, found.typeId⟩ : KMemoryRegion)) hgone hpre fun e he => by
          have hspan := (tiles_mem h.tiles (x := (found.address, found)) (by simp [hcut])).2.1
          have hspan' : found.address < found.lastAddress + 1 := hspan
          have habove := hpost e he
          omega
      rw [List.append_cons] at hfirst
      refine BTreeMap.insert_gap hfirst (fun e he => ?_) fun e he => ?_
      · rcases List.mem_append.mp he with he | he
        · exact (hpre e he).trans_le hlow
        · rw [List.mem_singleton.mp he]
          dsimp only
          omega
      · have habove := hpost e he
        omega
  rw [insert, hfind]
  dsimp only
  rw [if_neg (not_not_intro hattr), hend, hlast, if_neg (by omega),
    if_neg (not_not_intro hderive), hmiddle]
  refine ⟨_, rfl, ?_⟩
  dsimp only
  by_cases hfull : found.lastAddress + 1 = address + size
  · rw [if_neg (not_not_intro (by omega)), hentries, after, if_pos hfull]
    simp
  · rw [if_pos (by omega), after, if_neg hfull, ← hattr]
    rw [List.append_cons] at hentries
    have hback := BTreeMap.insert_gap (k := address + size) (v := (⟨address + size,
      found.lastAddress, movedPair found.pairAddress (address + size - found.address),
      found.attributes, found.typeId⟩ : KMemoryRegion)) hentries (fun e he => by
        rcases List.mem_append.mp he with he | he
        · rcases List.mem_append.mp he with he | he
          · have hfar := hpre e he
            omega
          · have hfar := hbefore e he
            omega
        · rw [List.mem_singleton.mp he, inserted]
          dsimp only
          omega) fun e he => by
        have hfar := hpost e he
        omega
    rw [hback]
    simp

/-- The three places: what a region there looks like and which addresses it has. -/
theorem mem_pieces {found : KMemoryRegion} {p : ℕ × KMemoryRegion} (hlow : found.address ≤ address)
    (hpair : found.pairAddress < 2 ^ 64) (hp : p ∈ before found address ++
      inserted found address size typeId newAttr :: after found (address + size)) :
    p.1 = p.2.address ∧ found.address ≤ p.2.address ∧
      p.2.pairAddress = movedPair found.pairAddress (p.2.address - found.address) ∧
      ((p.2.attributes = newAttr ∧ p.2.typeId = typeId ∧ p.2.address = address ∧
          p.2.lastAddress = address + size - 1) ∨
        (p.2.attributes = found.attributes ∧ p.2.typeId = found.typeId ∧
          (p.2.lastAddress = address - 1 ∧ p.2.address < address ∨
            p.2.address = address + size ∧ p.2.lastAddress = found.lastAddress))) := by
  rcases List.mem_append.mp hp with hp | hp
  · rw [before] at hp
    split at hp
    case isTrue => cases hp
    case isFalse hne =>
      rw [List.mem_singleton.mp hp]
      dsimp only
      rw [Nat.sub_self, movedPair_zero hpair]
      exact ⟨rfl, le_rfl, rfl, .inr ⟨rfl, rfl, .inl ⟨rfl, by omega⟩⟩⟩
  · rcases List.mem_cons.mp hp with rfl | hp
    · exact ⟨rfl, hlow, rfl, .inl ⟨rfl, rfl, rfl, rfl⟩⟩
    · rw [after] at hp
      split at hp
      case isTrue => cases hp
      case isFalse =>
        rw [List.mem_singleton.mp hp]
        exact ⟨rfl, by dsimp only; omega, rfl, .inr ⟨rfl, rfl, .inr ⟨rfl, rfl⟩⟩⟩

theorem pieces_tile {found : KMemoryRegion} (hsize : 0 < size) (hlow : found.address ≤ address)
    (hhigh : address + size ≤ found.lastAddress + 1) :
    Tiles first beyond found.address (found.lastAddress + 1) (before found address ++
      inserted found address size typeId newAttr :: after found (address + size)) := by
  have hafter : Tiles first beyond (address + size) (found.lastAddress + 1)
      (after found (address + size)) := by
    rw [after]
    split
    case isTrue heq => exact heq.symm
    case isFalse hne => exact ⟨rfl, by dsimp only [beyond]; omega, rfl⟩
  have hmiddle : Tiles first beyond address (found.lastAddress + 1)
      (inserted found address size typeId newAttr :: after found (address + size)) := by
    refine ⟨rfl, ?_, ?_⟩
    · dsimp only [beyond, inserted]
      omega
    · have hstop : beyond (inserted found address size typeId newAttr) = address + size := by
        dsimp only [beyond, inserted]
        omega
      rw [hstop]
      exact hafter
  rw [before]
  split
  case isTrue heq => exact heq ▸ hmiddle
  case isFalse hne =>
    refine ⟨rfl, by dsimp only [beyond]; omega, ?_⟩
    have hstop : address - 1 + 1 = address := by omega
    change Tiles first beyond (address - 1 + 1) _ _
    rw [hstop]
    exact hmiddle

/-- A pair address moved with its region pairs the same addresses. -/
theorem pairOf_moved {r found : KMemoryRegion} {x : ℕ} (hstart : found.address ≤ r.address)
    (hx : r.address ≤ x) (hne : found.pairAddress ≠ u64Max)
    (hpair : r.pairAddress = movedPair found.pairAddress (r.address - found.address)) :
    r.pairOf x = found.pairOf x := by
  rw [KMemoryRegion.pairOf, KMemoryRegion.pairOf, hpair, movedPair, if_pos hne, Nat.mod_add_mod]
  congr 1
  omega

theorem movedPair_lt {oldPair offset : ℕ} (h : oldPair < 2 ^ 64) :
    movedPair oldPair offset < 2 ^ 64 := by
  rw [movedPair]
  split
  · exact Nat.mod_lt _ (Nat.two_pow_pos 64)
  · exact h

/-- The tree with the pieces in the place of the found region. -/
theorem replaced_spec {t' : KMemoryRegionTree} {pre post : List (ℕ × KMemoryRegion)}
    {found : KMemoryRegion} (h : Tiled t start last)
    (hcut : t.regions.entries = pre ++ (found.address, found) :: post) (hsize : 0 < size)
    (hlow : found.address ≤ address) (hhigh : address + size ≤ found.lastAddress + 1)
    (hentries : t'.regions.entries = pre ++ (before found address ++
      inserted found address size typeId newAttr :: after found (address + size)) ++ post) :
    Tiled t' start last ∧ Rewrites t t' address size typeId newAttr := by
  generalize hpieces : before found address ++
    inserted found address size typeId newAttr :: after found (address + size) = pieces at hentries
  have hfound : (found.address, found) ∈ t.regions.entries := by simp [hcut]
  have hpair : found.pairAddress < 2 ^ 64 := h.words _ hfound
  have hmem : ∀ p ∈ pieces, _ := fun p hp => mem_pieces hlow hpair (hpieces ▸ hp)
  have htile : Tiles first beyond found.address (found.lastAddress + 1) pieces :=
    hpieces ▸ pieces_tile hsize hlow hhigh
  have hold : ∀ e, e ∈ pre ∨ e ∈ post → e ∈ t.regions.entries := by
    intro e he
    rw [hcut]
    rcases he with he | he <;> simp [he]
  have hnew : ∀ e, e ∈ t'.regions.entries ↔ (e ∈ pre ∨ e ∈ post) ∨ e ∈ pieces := by
    intro e
    rw [hentries]
    simp only [List.mem_append]
    tauto
  have htiles := h.tiles
  rw [hcut] at htiles
  obtain ⟨hbefore, -, hbehind⟩ := tiles_cut htiles
  refine ⟨⟨fun e he => ?_, fun e he => ?_, ?_⟩, fun x e he e' he' hx hx' => ?_⟩
  · rcases (hnew e).mp he with he | he
    · exact h.keyed e (hold e he)
    · exact (hmem e he).1
  · rcases (hnew e).mp he with he | he
    · exact h.words e (hold e he)
    · rw [(hmem e he).2.2.1]
      exact movedPair_lt hpair
  · rw [hentries, tiles_append]
    exact ⟨found.lastAddress + 1, (tiles_append _ _ _ _).mpr ⟨found.address, hbefore, htile⟩,
      hbehind⟩
  · have hx := contains_iff.1 hx
    have hx' := contains_iff.1 hx'
    by_cases hin : found.address ≤ x ∧ x < found.lastAddress + 1
    · -- the address belongs to the found region, so now to one of the pieces
      obtain rfl : e = (found.address, found) := tiles_unique h.tiles he hfound hx hin
      have hpiece : e' ∈ pieces := by
        rcases (hnew e').mp he' with he' | he'
        · obtain rfl : e' = (found.address, found) :=
            tiles_unique h.tiles (hold e' he') hfound hx' hin
          rcases he' with he' | he'
          · exact absurd (BTreeMap.cut_below hcut _ he') (lt_irrefl _)
          · exact absurd (BTreeMap.cut_above hcut _ he') (lt_irrefl _)
        · exact he'
      obtain ⟨-, hstart, hmoved, hplace⟩ := hmem e' hpiece
      refine ⟨?_, fun hne => pairOf_moved hstart hx'.1 hne hmoved⟩
      rcases hplace with ⟨hattr, htype, haddr, hlast⟩ | ⟨hattr, htype, hside⟩
      · rw [if_pos (by omega)]
        exact ⟨hattr, htype⟩
      · rw [if_neg (by omega)]
        exact ⟨hattr, htype⟩
    · have hkept : e' ∈ t.regions.entries := by
        rcases (hnew e').mp he' with he' | he'
        · exact hold e' he'
        · have hspan := tiles_mem htile he'
          dsimp only [first, beyond] at hspan
          omega
      obtain rfl : e' = e := tiles_unique h.tiles hkept he hx' hx
      rw [if_neg (by omega)]
      exact ⟨⟨rfl, rfl⟩, fun _ => rfl⟩

/-- An insertion fails without a trace or rewrites the addresses of its range and no others. -/
theorem insert_spec (typeId newAttr oldAttr : BitVec 32) (h : Tiled t start last) (hsize : 0 < size) (hwrap : address + size < 2 ^ 64) :
    (¬ t.Takes address size typeId oldAttr →
      t.insert address size typeId newAttr oldAttr = (false, t)) ∧
    (t.Takes address size typeId oldAttr →
      ∃ t', t.insert address size typeId newAttr oldAttr = (true, t') ∧ Tiled t' start last ∧
        Rewrites t t' address size typeId newAttr) := by
  constructor
  · intro hnot
    have hend : (address + size) % 2 ^ 64 = address + size := Nat.mod_eq_of_lt hwrap
    have hlast : (address + size + 2 ^ 64 - 1) % 2 ^ 64 = address + size - 1 := by omega
    rw [insert]
    cases hfind : t.find address with
    | none => rfl
    | some e =>
      obtain ⟨hmem, hin⟩ := find_some hfind
      obtain ⟨hlow, -⟩ := contains_iff.1 hin
      dsimp only
      by_cases hattr : e.2.attributes = oldAttr
      · rw [if_neg (not_not_intro hattr), hend, hlast]
        by_cases hshort : e.2.lastAddress < address + size - 1
        · rw [if_pos hshort]
        · rw [if_neg hshort]
          by_cases hderive : e.2.canDerive typeId = true
          · exact absurd ⟨e, hmem, hlow, by omega, hattr, hderive⟩ hnot
          · rw [if_pos hderive]
      · rw [if_pos hattr]
  · rintro ⟨⟨k, found⟩, hmem, hlow, hhigh, hattr, hderive⟩
    obtain rfl : k = found.address := h.keyed _ hmem
    obtain ⟨pre, post, hcut⟩ := BTreeMap.cut_of_mem hmem
    have hfind := h.find_mem hmem (contains_iff.2 ⟨hlow, show address < found.lastAddress + 1 by
      change _ ≤ found.lastAddress + 1 at hhigh
      omega⟩)
    obtain ⟨t', hrun, hentries⟩ := insert_entries newAttr h hcut hfind (h.words _ hmem) hattr
      hderive hsize hwrap hlow hhigh
    exact ⟨t', hrun, replaced_spec h hcut hsize hlow hhigh hentries⟩

end Insert

/-! ### Runs -/

structure Call where
  address : ℕ
  size : ℕ
  typeId : BitVec 32
  newAttr : BitVec 32
  oldAttr : BitVec 32

/-- The range is not empty and does not wrap. -/
def Call.Legal (c : Call) : Prop := 0 < c.size ∧ c.address + c.size < 2 ^ 64

/-- Along the calls the regions tile the interval, and each call fails without a trace or rewrites
its range, as the regions before it decide. -/
def Followed (start last : ℕ) : KMemoryRegionTree → List Call → Prop
  | t, [] => Tiled t start last
  | t, c :: calls => Tiled t start last ∧
    ∃ ok t', t.insert c.address c.size c.typeId c.newAttr c.oldAttr = (ok, t') ∧
      (ok = true ↔ t.Takes c.address c.size c.typeId c.oldAttr) ∧ (ok = false → t' = t) ∧
      (ok = true → Rewrites t t' c.address c.size c.typeId c.newAttr) ∧
      Followed start last t' calls

theorem edits_followed {t : KMemoryRegionTree} {start last : ℕ} (h : Tiled t start last)
    (calls : List Call) (hlegal : ∀ c ∈ calls, c.Legal) : Followed start last t calls := by
  induction calls generalizing t with
  | nil => exact h
  | cons c calls ih =>
    obtain ⟨hsize, hwrap⟩ := hlegal c List.mem_cons_self
    have hrest : ∀ d ∈ calls, d.Legal := fun d hd => hlegal d (List.mem_cons_of_mem c hd)
    obtain ⟨hfail, hdone⟩ := insert_spec c.typeId c.newAttr c.oldAttr h hsize hwrap
    refine ⟨h, ?_⟩
    by_cases htakes : t.Takes c.address c.size c.typeId c.oldAttr
    · obtain ⟨t', hrun, htiled, hrewrites⟩ := hdone htakes
      exact ⟨true, t', hrun, iff_of_true rfl htakes, nofun, fun _ => hrewrites, ih htiled hrest⟩
    · exact ⟨false, t, hfail htakes, iff_of_false Bool.false_ne_true htakes, fun _ => rfl, nofun,
        ih h hrest⟩

def layout : KMemoryRegionTree :=
  (⟨BTreeMap.empty⟩ : KMemoryRegionTree).insertDirectly 0 0xFFFF 0 0

theorem layout_tiled : Tiled layout 0 0xFFFF where
  keyed := by decide
  words := by decide
  tiles := ⟨rfl, by decide, rfl⟩

theorem edits_followed_layout :
    Followed 0 0xFFFF layout [⟨0x1000, 0x2000, 1, 7, 0⟩, ⟨0x2000, 0x2000, 1, 7, 7⟩,
      ⟨0x2000, 0x1000, 3, 8, 7⟩] :=
  edits_followed layout_tiled _ (by
    intro c hc
    simp only [List.mem_cons, List.not_mem_nil, or_false] at hc
    rcases hc with rfl | rfl | rfl <;> exact ⟨by decide, by decide⟩)

end KMemoryRegionTree

end Ruzu.MemoryRegion
