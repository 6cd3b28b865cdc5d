import Mathlib
import Ruzu.VideoCore.GpuMemoryTables

/-!
# The calls on an address space

What an address is backed by is what the last call that covers it says. A call
covers the pages of its table that its range meets; a granule of a big page
belongs to one of the tables for good.
-/

set_option autoImplicit false

namespace Ruzu.Gpu

inductive Call
  | mapEx (gpuAddr devAddr size : ℕ) (kind : UInt8) (isBigPages : Bool)
  | mapSparseEx (gpuAddr size : ℕ) (isBigPages : Bool)
  | unmap (gpuAddr size : ℕ)
  deriving DecidableEq

def Geometry.pageSizeOf (g : Geometry) (isBigPages : Bool) : ℕ :=
  if isBigPages then g.bigPageSize else g.pageSize

namespace Call

variable (g : Geometry) (d : DeviceMemory) (owner : ℕ → Bool)

def gpuAddr : Call → ℕ
  | .mapEx gpuAddr .. => gpuAddr
  | .mapSparseEx gpuAddr .. => gpuAddr
  | .unmap gpuAddr _ => gpuAddr

def size : Call → ℕ
  | .mapEx _ _ size .. => size
  | .mapSparseEx _ size _ => size
  | .unmap _ size => size

def kind : Call → UInt8
  | .mapEx _ _ _ kind _ => kind
  | _ => invalidKind

def apply (m : MemoryManager) : Call → Option MemoryManager
  | .mapEx gpuAddr devAddr size kind isBigPages => m.mapEx g d gpuAddr devAddr size kind isBigPages
  | .mapSparseEx gpuAddr size isBigPages => m.mapSparseEx g d gpuAddr size isBigPages
  | .unmap gpuAddr size => m.unmap g d gpuAddr size

/-- The range of the call has an address among `n` from `first` on. -/
def Meets (c : Call) (first n : ℕ) : Prop :=
  max c.gpuAddr first < min (c.gpuAddr + c.size) (first + n)

instance (c : Call) (first n : ℕ) : Decidable (c.Meets first n) := Nat.decLt _ _

/-- The table that the call uses at an address. An unmap uses the one that the granule of the
address belongs to. -/
def usesBig (c : Call) (a : ℕ) : Bool :=
  match c with
  | .mapEx _ _ _ _ isBigPages => isBigPages
  | .mapSparseEx _ _ isBigPages => isBigPages
  | .unmap .. => owner (a / g.bigPageSize)

/-- The range of the call, rounded up to whole pages of its table. -/
def Covers (c : Call) (a : ℕ) : Prop :=
  c.Meets (a / g.pageSizeOf (c.usesBig g owner a) * g.pageSizeOf (c.usesBig g owner a))
    (g.pageSizeOf (c.usesBig g owner a))

instance (c : Call) (a : ℕ) : Decidable (c.Covers g owner a) :=
  inferInstanceAs (Decidable (c.Meets _ _))

/-- The exact range of the call. -/
def Contains (c : Call) (a : ℕ) : Prop := c.gpuAddr ≤ a ∧ a < c.gpuAddr + c.size

instance (c : Call) (a : ℕ) : Decidable (c.Contains a) := inferInstanceAs (Decidable (_ ∧ _))

/-- What the call puts behind an address that it covers. The tables keep device pages. -/
def backing (c : Call) (a : ℕ) : Backing :=
  match c with
  | .mapEx gpuAddr devAddr .. =>
    .mapped (devAddr / devicePageSize * devicePageSize + (a - gpuAddr))
  | .mapSparseEx .. => .reserved
  | .unmap .. => .free

/-- A call in the address space: aligned to the pages of its tables, of whole small pages, to
device addresses that the tables can hold, and in the granules of the tables that it uses. -/
structure Allowed (c : Call) : Prop where
  inside : c.gpuAddr + c.size ≤ g.addressSpaceSize
  pages : g.pageSize ∣ c.size
  start : ∀ p, c.Meets (p * g.bigPageSize) g.bigPageSize → g.pageSizeOf (owner p) ∣ c.gpuAddr
  split : ∀ p, c.Meets (p * g.bigPageSize) g.bigPageSize →
    c.usesBig g owner (p * g.bigPageSize) = owner p
  device : ∀ gpuAddr devAddr size kind isBigPages,
    c = .mapEx gpuAddr devAddr size kind isBigPages → devAddr + size ≤ 2 ^ 44

/-- A range that is mapped in the small table ends below the top of the address space. -/
def BelowTop : Call → Prop
  | .mapEx gpuAddr _ size _ false => gpuAddr + size < g.addressSpaceSize
  | _ => True

end Call

section

variable (g : Geometry) (owner : ℕ → Bool)

/-- A run from the constructor on; the device memory may change between the calls. -/
def exec (run : List (DeviceMemory × Call)) : Option MemoryManager :=
  run.foldlM (fun m s => s.2.apply g s.1 m) (.new g)

def backingAt (calls : List Call) (a : ℕ) : Backing :=
  match calls.reverse.find? fun c => decide (c.Covers g owner a) with
  | some c => c.backing a
  | none => .free

def kindAt (calls : List Call) (a : ℕ) : UInt8 :=
  match calls.reverse.find? fun c => decide (c.Contains a) with
  | some c => c.kind
  | none => invalidKind

def Backing.translation : Backing → Option ℕ
  | .mapped devAddr => some devAddr
  | _ => none

def translationAt (calls : List Call) (a : ℕ) : Option ℕ := (backingAt g owner calls a).translation

end

variable {g : Geometry} {d : DeviceMemory} {owner : ℕ → Bool} {c : Call} {calls : List Call}

theorem backingAt_append (a : ℕ) : backingAt g owner (calls ++ [c]) a =
    if c.Covers g owner a then c.backing a else backingAt g owner calls a := by
  rw [backingAt, List.reverse_append, List.reverse_singleton, List.singleton_append,
    List.find?_cons]
  by_cases h : c.Covers g owner a
  · rw [if_pos h, decide_eq_true h]
  · rw [if_neg h, decide_eq_false h]
    rfl

theorem kindAt_append (a : ℕ) : kindAt (calls ++ [c]) a =
    if c.Contains a then c.kind else kindAt calls a := by
  rw [kindAt, List.reverse_append, List.reverse_singleton, List.singleton_append,
    List.find?_cons]
  by_cases h : c.Contains a
  · rw [if_pos h, decide_eq_true h]
  · rw [if_neg h, decide_eq_false h]
    rfl

/-! ### Pages and granules -/

namespace Geometry

theorem pageSizeOf_pos (b : Bool) : 0 < g.pageSizeOf b := by
  cases b
  · exact pageSize_pos
  · exact bigPageSize_pos

theorem WellFormed.pageSizeOf_dvd (h : g.WellFormed) (b : Bool) :
    g.pageSizeOf b ∣ g.bigPageSize := by
  cases b
  · exact h.pageSize_dvd
  · exact Nat.dvd_refl _

theorem WellFormed.dvd_pageSizeOf (h : g.WellFormed) (b : Bool) :
    g.pageSize ∣ g.pageSizeOf b := by
  cases b
  · exact Nat.dvd_refl _
  · exact h.pageSize_dvd

end Geometry

/-- A page lies in its granule. -/
theorem page_in_granule {n k : ℕ} (hn : 0 < n) (h : k ∣ n) (a : ℕ) :
    a / n * n ≤ a / k * k ∧ a / k * k + k ≤ a / n * n + n := by
  obtain ⟨q, rfl⟩ := h
  have hdiv : a / (k * q) = a / k / q := (Nat.div_div_eq_div_mul a k q).symm
  have hmul : a / (k * q) * (k * q) = (a / k / q * q) * k := by
    rw [hdiv, Nat.mul_comm k q, Nat.mul_assoc]
  have hlow : a / k / q * q ≤ a / k := Nat.div_mul_le_self _ _
  have hhigh : a / k + 1 ≤ a / k / q * q + q :=
    Nat.lt_div_mul_add (Nat.pos_of_mul_pos_left hn)
  have h₁ := Nat.mul_le_mul_right k hlow
  have h₂ := Nat.mul_le_mul_right k hhigh
  rw [Nat.add_mul, Nat.add_mul, Nat.one_mul, Nat.mul_comm q k] at h₂
  exact ⟨hmul.le.trans h₁, h₂.trans_eq (by rw [hmul])⟩

namespace Call

theorem Meets.mono {first n first' n' : ℕ} (h : c.Meets first n) (hfirst : first' ≤ first)
    (hn : first + n ≤ first' + n') : c.Meets first' n' := by
  rw [Meets] at h ⊢
  omega

/-- A range inside a granule meets no other. -/
theorem Meets.granule_eq {p n : ℕ} (h : c.Meets (p * n) n) (q : ℕ) (hstart : q * n ≤ c.gpuAddr)
    (hstop : c.gpuAddr + c.size ≤ q * n + n) : p = q := by
  rw [Meets] at h
  rcases Nat.lt_trichotomy p q with hlt | heq | hgt
  · have hmul := Nat.mul_le_mul_right n (Nat.succ_le_of_lt hlt)
    rw [Nat.succ_mul] at hmul
    omega
  · exact heq
  · have hmul := Nat.mul_le_mul_right n (Nat.succ_le_of_lt hgt)
    rw [Nat.succ_mul] at hmul
    omega

theorem Meets.granule (hg : g.WellFormed) {b : Bool} {a : ℕ}
    (h : c.Meets (a / g.pageSizeOf b * g.pageSizeOf b) (g.pageSizeOf b)) :
    c.Meets (a / g.bigPageSize * g.bigPageSize) g.bigPageSize := by
  obtain ⟨hlow, hhigh⟩ := page_in_granule Geometry.bigPageSize_pos (hg.pageSizeOf_dvd b) a
  exact h.mono hlow hhigh

theorem usesBig_granule (a : ℕ) :
    c.usesBig g owner (a / g.bigPageSize * g.bigPageSize) = c.usesBig g owner a := by
  cases c with
  | mapEx | mapSparseEx => rfl
  | unmap => rw [usesBig, usesBig, Nat.mul_div_cancel _ Geometry.bigPageSize_pos]

theorem Allowed.uses (hg : g.WellFormed) (h : c.Allowed g owner) {b : Bool} {a : ℕ}
    (hb : c.Meets (a / g.pageSizeOf b * g.pageSizeOf b) (g.pageSizeOf b)) :
    c.usesBig g owner a = owner (a / g.bigPageSize) :=
  (usesBig_granule a).symm.trans (h.split _ (hb.granule hg))

/-- An allowed call covers the pages of the tables that the granules belong to. -/
theorem Allowed.covers_iff (hg : g.WellFormed) (h : c.Allowed g owner) (a : ℕ) :
    c.Covers g owner a ↔
      c.Meets (a / g.pageSizeOf (owner (a / g.bigPageSize)) *
        g.pageSizeOf (owner (a / g.bigPageSize))) (g.pageSizeOf (owner (a / g.bigPageSize))) := by
  rw [Covers]
  constructor
  · exact fun hc => h.uses hg hc ▸ hc
  · intro hc
    rw [h.uses hg hc]
    exact hc

/-- A page inside the filled run meets the range. -/
theorem meets_of_fill {n j : ℕ} (hn : 0 < n)
    (h : c.gpuAddr / n ≤ j ∧ j < c.gpuAddr / n + MemoryManager.pageCount c.size n) :
    c.Meets (j * n) n := by
  obtain ⟨i, rfl⟩ := Nat.exists_eq_add_of_le h.1
  have hi : i * n < c.size := (MemoryManager.pageCount_spec hn i).mp (by omega)
  have hlow := Nat.div_mul_le_self c.gpuAddr n
  have hhigh := Nat.lt_div_mul_add (a := c.gpuAddr) hn
  rw [Meets, Nat.add_mul]
  omega

/-- From an aligned start on, the filled run is what the range meets. -/
theorem fill_iff {n j : ℕ} (hn : 0 < n) (hstart : c.Meets (j * n) n → n ∣ c.gpuAddr) :
    (c.gpuAddr / n ≤ j ∧ j < c.gpuAddr / n + MemoryManager.pageCount c.size n) ↔
      c.Meets (j * n) n := by
  refine ⟨meets_of_fill hn, fun h => ?_⟩
  obtain ⟨q, hq⟩ := hstart h
  rw [Meets] at h
  have hle : q ≤ j := by
    by_contra hlt
    have hmul := Nat.mul_le_mul_right n (Nat.succ_le_of_lt (not_le.mp hlt))
    rw [Nat.succ_mul, Nat.mul_comm q n] at hmul
    omega
  obtain ⟨i, rfl⟩ := Nat.exists_eq_add_of_le hle
  rw [hq, Nat.mul_div_cancel_left q hn]
  rw [hq, Nat.add_mul, Nat.mul_comm q n] at h
  have hi := (MemoryManager.pageCount_spec hn i).mpr (show i * n < c.size by omega)
  omega

/-! ### Device pages -/

theorem devicePage_eq {devAddr : ℕ} (h : devAddr < 2 ^ 44) :
    devicePage devAddr = devAddr / devicePageSize * devicePageSize := by
  rw [devicePage, Nat.shiftRight_eq_div_pow, Nat.shiftLeft_eq, cpuPageBits, devicePageSize]
  omega

theorem devicePage_add {devAddr k : ℕ} (hk : devicePageSize ∣ k) (h : devAddr + k < 2 ^ 44) :
    devicePage (devAddr + k) = devAddr / devicePageSize * devicePageSize + k := by
  rw [devicePage_eq h, devicePageSize]
  rw [devicePageSize] at hk
  omega

def entryType : Call → EntryType
  | .mapEx .. => .mapped
  | .mapSparseEx .. => .reserved
  | .unmap .. => .free

def devAddr : Call → ℕ
  | .mapEx _ devAddr .. => devAddr
  | _ => 0

/-- What the filled pages hold is what the call says about them. -/
theorem Allowed.filled (h : c.Allowed g owner) {n i : ℕ} (hn : devicePageSize ∣ n)
    (hi : i * n < c.size) {first : ℕ} (hfirst : first = c.gpuAddr + i * n) :
    c.entryType.backing (devicePage (c.devAddr + i * n)) = c.backing first := by
  subst hfirst
  cases c with
  | mapEx gpuAddr devAddr size kind isBigPages =>
    have hdevice := h.device _ _ _ _ _ rfl
    rw [entryType, EntryType.backing, Call.devAddr, devicePage_add (Nat.dvd_mul_left_of_dvd hn i)
      (by rw [Call.size] at hi; omega), Call.backing, Call.gpuAddr, Nat.add_sub_cancel_left]
  | mapSparseEx => rfl
  | unmap => rfl

end Call

/-! ### The state after a run -/

/-- The table of big pages or of small ones. -/
def MemoryManager.table (m : MemoryManager) (isBigPages : Bool) : Table :=
  if isBigPages then m.big else m.small

def Geometry.tableSizeOf (g : Geometry) (isBigPages : Bool) : ℕ :=
  if isBigPages then g.bigPageTableSize else g.pageTableSize

/-- The table that the granule of an address belongs to. -/
def ownerAt (g : Geometry) (owner : ℕ → Bool) (a : ℕ) : Bool := owner (a / g.bigPageSize)

/-- Each granule is described by the table it belongs to; the other table is free there. -/
structure Agrees (g : Geometry) (owner : ℕ → Bool) (calls : List Call) (m : MemoryManager) :
    Prop where
  shape : m.Shape g
  started : m.kindMap.Started
  nullValue : m.kindMap.nullValue = invalidKind
  tables : ∀ b, ∀ j < g.tableSizeOf b, (m.table b).backing j =
    if ownerAt g owner (j * g.pageSizeOf b) = b then
      backingAt g owner calls (j * g.pageSizeOf b) else .free
  kinds : ∀ a < 2 ^ 63, m.getPageKind a = kindAt calls a

variable {m m' : MemoryManager}

theorem agrees_new (owner : ℕ → Bool) (hg : g.WellFormed) : Agrees g owner [] (.new g) where
  shape :=
    { small := Table.new_sized hg.pageTableSize_dvd
      big := Table.new_sized hg.bigPageTableSize_dvd
      continuous := by
        rw [MemoryManager.new, List.length_replicate]
        exact Nat.div_mul_cancel hg.words_dvd
      levels := List.length_replicate }
  started := RangeMap.new_started _
  nullValue := rfl
  tables b j hj := by
    rw [show backingAt g owner [] (j * g.pageSizeOf b) = .free from rfl, ite_self]
    cases b with
    | false => exact Table.new_backing hg.pageTableSize_dvd hj
    | true => exact Table.new_backing hg.bigPageTableSize_dvd hj
  kinds _ ha := RangeMap.new_getValueAt _ ha

section

variable {b : Bool} {j : ℕ}

theorem Call.Allowed.covers_page (hg : g.WellFormed) (hc : c.Allowed g owner)
    (hb : ownerAt g owner (j * g.pageSizeOf b) = b) :
    c.Covers g owner (j * g.pageSizeOf b) ↔ c.Meets (j * g.pageSizeOf b) (g.pageSizeOf b) := by
  rw [hc.covers_iff hg, show owner (j * g.pageSizeOf b / g.bigPageSize) = b from hb,
    Nat.mul_div_cancel _ (Geometry.pageSizeOf_pos b)]

theorem Call.Allowed.start_page (hg : g.WellFormed) (hc : c.Allowed g owner)
    (hm : c.Meets (j * g.pageSizeOf b) (g.pageSizeOf b)) :
    g.pageSizeOf (ownerAt g owner (j * g.pageSizeOf b)) ∣ c.gpuAddr := by
  refine hc.start _ (Call.Meets.granule hg (b := b) ?_)
  rwa [Nat.mul_div_cancel _ (Geometry.pageSizeOf_pos b)]

/-- The table that a call fills, page by page. -/
theorem Agrees.filled (hg : g.WellFormed) (h : Agrees g owner calls m) (hc : c.Allowed g owner)
    (hfree : (∀ a, c.usesBig g owner a = b) ∨ c.entryType = .free) (hj : j < g.tableSizeOf b) :
    fill (m.table b).backing (c.gpuAddr / g.pageSizeOf b)
        (MemoryManager.pageCount c.size (g.pageSizeOf b))
        (fun i => c.entryType.backing (devicePage (c.devAddr + i * g.pageSizeOf b))) j =
      if ownerAt g owner (j * g.pageSizeOf b) = b then
        backingAt g owner (calls ++ [c]) (j * g.pageSizeOf b) else .free := by
  have hpos := Geometry.pageSizeOf_pos (g := g) b
  have hold := h.tables b j hj
  by_cases hb : ownerAt g owner (j * g.pageSizeOf b) = b
  · have hstart := fun hm => hb ▸ hc.start_page hg hm
    rw [if_pos hb] at hold ⊢
    rw [backingAt_append, fill]
    by_cases hm : c.Meets (j * g.pageSizeOf b) (g.pageSizeOf b)
    · have hin := (Call.fill_iff hpos hstart).mpr hm
      rw [if_pos hin, if_pos ((hc.covers_page hg hb).mpr hm)]
      obtain ⟨i, rfl⟩ := Nat.exists_eq_add_of_le hin.1
      rw [Nat.add_sub_cancel_left]
      refine hc.filled (Nat.dvd_trans hg.devicePage_dvd (hg.dvd_pageSizeOf b))
        ((MemoryManager.pageCount_spec hpos i).mp (by omega)) ?_
      rw [Nat.add_mul, Nat.div_mul_cancel (hstart hm)]
    · rw [if_neg fun hin => hm (Call.meets_of_fill hpos hin),
        if_neg fun hcov => hm ((hc.covers_page hg hb).mp hcov)]
      exact hold
  · rw [if_neg hb] at hold ⊢
    rw [fill]
    split
    case isTrue hin =>
      -- a granule of the other table is met by an unmap only
      rcases hfree with huses | hentry
      · have hm := Call.meets_of_fill hpos hin
        rw [← Nat.mul_div_cancel j hpos] at hm
        exact absurd ((hc.uses hg hm).symm.trans (huses _)) hb
      · rw [hentry]
        rfl
    case isFalse => exact hold

/-- The other table. -/
theorem Agrees.unfilled (hg : g.WellFormed) (h : Agrees g owner calls m)
    (hc : c.Allowed g owner) (huses : ∀ a, c.usesBig g owner a ≠ b) (hj : j < g.tableSizeOf b) :
    (m.table b).backing j = if ownerAt g owner (j * g.pageSizeOf b) = b then
      backingAt g owner (calls ++ [c]) (j * g.pageSizeOf b) else .free := by
  rw [h.tables b j hj]
  by_cases hb : ownerAt g owner (j * g.pageSizeOf b) = b
  · have hout : ¬ c.Covers g owner (j * g.pageSizeOf b) := fun hcov =>
      huses _ ((hc.uses hg hcov).trans hb)
    rw [if_pos hb, if_pos hb, backingAt_append, if_neg hout]
  · rw [if_neg hb, if_neg hb]

end

end Ruzu.Gpu
