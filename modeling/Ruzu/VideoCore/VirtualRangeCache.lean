import Mathlib
import Ruzu.Lib.BTreeMap

/-!
# The cache of segment lists

`virtual_range_cache.rs`: the host-contiguous segments behind a range of a GPU
address space, kept under a key that several ranges can share. Unmaps are
recorded as they come and applied by the next query. The order of the map's
entries is never used.
-/

set_option autoImplicit false

namespace Ruzu.BufferCache

structure VirtualSegment where
  gpuAddr : ℕ
  deviceAddr : ℕ
  size : ℕ
  deriving DecidableEq

/-- The translations of the memory behind an address space. What a range is cut into depends on
the mapping of its bytes. -/
structure GpuMemoryAccess (Memory : Type) where
  gpuToCpuAddress : Memory → ℕ → Option ℕ
  getSubmappedRange : Memory → ℕ → ℕ → List (ℕ × ℕ)
  mapping : Memory → ℕ → Option ℕ
  submapped_inside : ∀ memory gpuAddr size, ∀ r ∈ getSubmappedRange memory gpuAddr size,
    gpuAddr ≤ r.1 ∧ r.1 + r.2 ≤ gpuAddr + size
  submapped_congr : ∀ memory memory' gpuAddr size,
    (∀ p, gpuAddr ≤ p → p < gpuAddr + size → mapping memory p = mapping memory' p) →
      getSubmappedRange memory gpuAddr size = getSubmappedRange memory' gpuAddr size
  address_congr : ∀ memory memory' gpuAddr size,
    (∀ p, gpuAddr ≤ p → p < gpuAddr + size → mapping memory p = mapping memory' p) →
      ∀ r ∈ getSubmappedRange memory gpuAddr size, r.2 ≠ 0 →
        gpuToCpuAddress memory r.1 = gpuToCpuAddress memory' r.1

structure Entry where
  segments : List VirtualSegment
  asId : ℕ
  gpuAddr : ℕ
  size : ℕ

structure DeferredUnmap where
  asId : ℕ
  gpuAddr : ℕ
  size : ℕ

def wrappingAdd (a b : ℕ) : ℕ := (a + b) % 2 ^ 64

def DeferredUnmap.overlaps (unmap : DeferredUnmap) (entry : Entry) : Bool :=
  unmap.asId = entry.asId ∧ entry.gpuAddr < wrappingAdd unmap.gpuAddr unmap.size ∧
    unmap.gpuAddr < wrappingAdd entry.gpuAddr entry.size

/-- The pending unmaps are kept with the last one first. -/
structure VirtualRangeCache where
  entries : BTreeMap ℕ Entry
  pending : List DeferredUnmap
  overflow : Bool
  hasDeferred : Bool

namespace VirtualRangeCache

def maxEntries : ℕ := 8192
def maxDeferred : ℕ := 4096

def new : VirtualRangeCache := ⟨.empty, [], false, false⟩

def makeKey (asId gpuAddr : ℕ) : ℕ := (asId <<< 48) % 2 ^ 64 ^^^ gpuAddr

variable (c : VirtualRangeCache)

def unmap (asId gpuAddr size : ℕ) : VirtualRangeCache :=
  if size = 0 then c
  else
    match c.pending with
    | [] => { c with pending := [⟨asId, gpuAddr, size⟩], hasDeferred := true }
    | last :: rest =>
      if last.asId = asId ∧ wrappingAdd last.gpuAddr last.size = gpuAddr then
        { c with
          pending := { last with size := wrappingAdd last.size size } :: rest
          hasDeferred := true }
      else if c.pending.length ≥ maxDeferred then
        { c with pending := [], overflow := true, hasDeferred := true }
      else { c with pending := ⟨asId, gpuAddr, size⟩ :: c.pending, hasDeferred := true }

def retain (entries : BTreeMap ℕ Entry) (keep : Entry → Bool) : BTreeMap ℕ Entry :=
  ⟨entries.entries.filter fun e => keep e.2, entries.sorted.filter _⟩

def applyDeferred : VirtualRangeCache :=
  if c.overflow then ⟨.empty, [], false, false⟩
  else if c.pending.isEmpty ∨ c.entries.isEmpty then ⟨c.entries, [], false, false⟩
  else ⟨retain c.entries fun entry => !c.pending.any (·.overlaps entry), [], false, false⟩

/-- The cache after the pending unmaps. -/
def settled : VirtualRangeCache :=
  if c.hasDeferred then c.applyDeferred else c

/-- The cache within its bound. -/
def bounded : VirtualRangeCache :=
  if c.entries.len > maxEntries then { c with entries := .empty } else c

section Query

variable {Memory : Type} (access : GpuMemoryAccess Memory) (memory : Memory)

/-- The segments of the ranges and the address behind them; `none` where they are not contiguous
or not mapped. -/
def collect : List (ℕ × ℕ) → ℕ → Option (List VirtualSegment × ℕ)
  | [], expected => some ([], expected)
  | (rangeAddr, rangeSize) :: ranges, expected =>
    if rangeAddr ≠ expected ∨ rangeSize = 0 then none
    else do
      let deviceAddr ← (access.gpuToCpuAddress memory rangeAddr).filter (· ≠ 0)
      if rangeSize > 2 ^ 32 - 1 then none
      else do
        let (segments, stop) ← collect ranges (wrappingAdd expected rangeSize)
        some (⟨rangeAddr, deviceAddr, rangeSize⟩ :: segments, stop)

/-- What a query computes that finds no entry. -/
def resolve (gpuAddr size : ℕ) : List VirtualSegment :=
  match collect access memory (access.getSubmappedRange memory gpuAddr size) gpuAddr with
  | some (segments, stop) => if stop ≠ wrappingAdd gpuAddr size then [] else segments
  | none => []

/-- The segments, and the cache after the query. -/
def query (asId gpuAddr size : ℕ) : List VirtualSegment × VirtualRangeCache :=
  let c := c.settled.bounded
  let key := makeKey asId gpuAddr
  let hit := (c.entries.get key).filter fun entry =>
    entry.asId = asId ∧ entry.gpuAddr = gpuAddr ∧ entry.size = size
  match hit with
  | some entry => (entry.segments, c)
  | none =>
    let segments := resolve access memory gpuAddr size
    (segments, { c with entries := c.entries.insert key ⟨segments, asId, gpuAddr, size⟩ })

end Query

/-! ### Segments of the current mapping -/

/-- The segments follow one another without a gap. -/
def Tiles : List VirtualSegment → ℕ → ℕ → Prop
  | [], first, stop => first = stop
  | segment :: segments, first, stop =>
    segment.gpuAddr = first ∧ 0 < segment.size ∧ Tiles segments (first + segment.size) stop

variable {Memory : Type} {access : GpuMemoryAccess Memory} {memory memory' : Memory}
  {gpuAddr size : ℕ}

theorem wrappingAdd_eq {a b : ℕ} (h : a + b < 2 ^ 64) : wrappingAdd a b = a + b :=
  Nat.mod_eq_of_lt h

theorem collect_tiles {ranges : List (ℕ × ℕ)} {expected bound stop : ℕ}
    {segments : List VirtualSegment} (hbound : bound < 2 ^ 64)
    (hranges : ∀ r ∈ ranges, r.1 + r.2 ≤ bound)
    (h : collect access memory ranges expected = some (segments, stop)) :
    Tiles segments expected stop := by
  induction ranges generalizing expected segments with
  | nil =>
    obtain ⟨rfl, rfl⟩ := Prod.mk.inj (Option.some.inj h)
    rfl
  | cons range ranges ih =>
    obtain ⟨rangeAddr, rangeSize⟩ := range
    have hrange : rangeAddr + rangeSize ≤ bound := hranges _ List.mem_cons_self
    rw [collect] at h
    split at h
    case isTrue => cases h
    case isFalse hnext =>
      obtain ⟨deviceAddr, -, h⟩ := Option.bind_eq_some_iff.mp h
      split at h
      case isTrue => cases h
      case isFalse =>
        obtain ⟨⟨rest, stop'⟩, hrest, h⟩ := Option.bind_eq_some_iff.mp h
        obtain ⟨rfl, rfl⟩ := Prod.mk.inj (Option.some.inj h)
        have haddr : rangeAddr = expected := by omega
        have hpos : 0 < rangeSize := by omega
        rw [wrappingAdd_eq (by omega)] at hrest
        exact ⟨haddr, hpos, ih (fun r hr => hranges r (List.mem_cons_of_mem _ hr)) hrest⟩

/-- The list is empty or tiles the range. -/
theorem resolve_tiles (h : gpuAddr + size < 2 ^ 64) :
    resolve access memory gpuAddr size = [] ∨
      Tiles (resolve access memory gpuAddr size) gpuAddr (gpuAddr + size) := by
  rw [resolve]
  split
  case h_1 segments stop hcollect =>
    split
    case isTrue => exact Or.inl rfl
    case isFalse hstop =>
      rw [wrappingAdd_eq h, not_not] at hstop
      subst hstop
      exact Or.inr (collect_tiles h
        (fun r hr => (access.submapped_inside memory gpuAddr size r hr).2) hcollect)
  case h_2 => exact Or.inl rfl

theorem collect_congr {ranges : List (ℕ × ℕ)} {expected : ℕ}
    (h : ∀ r ∈ ranges, r.2 ≠ 0 →
      access.gpuToCpuAddress memory r.1 = access.gpuToCpuAddress memory' r.1) :
    collect access memory ranges expected = collect access memory' ranges expected := by
  induction ranges generalizing expected with
  | nil => rfl
  | cons range ranges ih =>
    obtain ⟨rangeAddr, rangeSize⟩ := range
    rw [collect, collect]
    split
    case isTrue => rfl
    case isFalse hnext =>
      have haddr : access.gpuToCpuAddress memory rangeAddr =
          access.gpuToCpuAddress memory' rangeAddr := h _ List.mem_cons_self (by omega)
      rw [haddr, ih fun r hr => h r (List.mem_cons_of_mem _ hr)]

/-- The bytes of the range are mapped alike. -/
def Alike (access : GpuMemoryAccess Memory) (memory memory' : Memory) (gpuAddr size : ℕ) : Prop :=
  ∀ p, gpuAddr ≤ p → p < gpuAddr + size → access.mapping memory p = access.mapping memory' p

theorem resolve_congr (h : Alike access memory memory' gpuAddr size) :
    resolve access memory gpuAddr size = resolve access memory' gpuAddr size := by
  rw [resolve, resolve, ← access.submapped_congr memory memory' gpuAddr size h,
    collect_congr (access.address_congr memory memory' gpuAddr size h)]

/-! ### Recorded unmaps -/

/-- The bytes of a range of an address space. -/
def bytes (asId gpuAddr size : ℕ) : Set (ℕ × ℕ) :=
  {b | b.1 = asId ∧ gpuAddr ≤ b.2 ∧ b.2 < gpuAddr + size}

/-- The next query drops the entries with the byte. -/
def Records (c : VirtualRangeCache) (b : ℕ × ℕ) : Prop :=
  c.overflow = true ∨ ∃ u ∈ c.pending, b ∈ bytes u.asId u.gpuAddr u.size

variable {c : VirtualRangeCache} {asId : ℕ}

theorem unmap_entries : (c.unmap asId gpuAddr size).entries = c.entries := by
  rw [unmap]
  split
  · rfl
  · split
    · rfl
    · split
      · rfl
      · split <;> rfl

/-- An unmap changes nothing, extends the last record, drops the records or adds one. -/
theorem unmap_cases (c : VirtualRangeCache) (asId gpuAddr size : ℕ) :
    (size = 0 ∧ c.unmap asId gpuAddr size = c) ∨
    (c.unmap asId gpuAddr size).hasDeferred = true ∧
      ((∃ last rest, c.pending = last :: rest ∧ last.asId = asId ∧
          wrappingAdd last.gpuAddr last.size = gpuAddr ∧
          (c.unmap asId gpuAddr size).pending =
            { last with size := wrappingAdd last.size size } :: rest ∧
          (c.unmap asId gpuAddr size).overflow = c.overflow) ∨
        (c.unmap asId gpuAddr size).pending = [] ∧ (c.unmap asId gpuAddr size).overflow = true ∨
        (c.unmap asId gpuAddr size).pending = ⟨asId, gpuAddr, size⟩ :: c.pending ∧
          (c.unmap asId gpuAddr size).overflow = c.overflow) := by
  by_cases hsize : size = 0
  · exact Or.inl ⟨hsize, if_pos hsize⟩
  · refine Or.inr ?_
    rw [unmap, if_neg hsize]
    cases hpending : c.pending with
    | nil => exact ⟨rfl, Or.inr (Or.inr ⟨rfl, rfl⟩)⟩
    | cons last rest =>
      dsimp only
      split
      case isTrue hmerge =>
        exact ⟨rfl, Or.inl ⟨last, rest, rfl, hmerge.1, hmerge.2, rfl, rfl⟩⟩
      case isFalse =>
        split
        case isTrue => exact ⟨rfl, Or.inr (Or.inl ⟨rfl, rfl⟩)⟩
        case isFalse => exact ⟨rfl, Or.inr (Or.inr ⟨rfl, rfl⟩)⟩

theorem unmap_fits (fits : gpuAddr + size < 2 ^ 64)
    (h : ∀ u ∈ c.pending, u.gpuAddr + u.size < 2 ^ 64) :
    ∀ u ∈ (c.unmap asId gpuAddr size).pending, u.gpuAddr + u.size < 2 ^ 64 := by
  obtain ⟨-, hsame⟩ | ⟨-, ⟨last, rest, hpending, -, hend, hrun, -⟩ | ⟨hrun, -⟩ | ⟨hrun, -⟩⟩ :=
    unmap_cases c asId gpuAddr size
  · rwa [hsame]
  · intro u hu
    rw [hrun] at hu
    have hlast := h last (hpending ▸ List.mem_cons_self)
    rcases List.mem_cons.mp hu with rfl | hu
    · rw [wrappingAdd_eq hlast] at hend
      dsimp only
      rw [wrappingAdd_eq (by omega)]
      omega
    · exact h u (hpending ▸ List.mem_cons_of_mem _ hu)
  · intro u hu
    rw [hrun] at hu
    cases hu
  · intro u hu
    rw [hrun] at hu
    rcases List.mem_cons.mp hu with rfl | hu
    · exact fits
    · exact h u hu

/-- What was recorded stays recorded, and the bytes of the range are. -/
theorem unmap_records (fits : gpuAddr + size < 2 ^ 64)
    (h : ∀ u ∈ c.pending, u.gpuAddr + u.size < 2 ^ 64) {b : ℕ × ℕ}
    (hb : c.Records b ∨ b ∈ bytes asId gpuAddr size) :
    (c.unmap asId gpuAddr size).Records b := by
  obtain ⟨hzero, hsame⟩ | ⟨-, ⟨last, rest, hpending, has, hend, hrun, hflow⟩ | ⟨-, hflow⟩ |
    ⟨hrun, hflow⟩⟩ := unmap_cases c asId gpuAddr size
  · rw [hsame]
    refine hb.resolve_right fun hin => ?_
    have hlow := hin.2.1
    have hhigh := hin.2.2
    omega
  · have hlast := h last (hpending ▸ List.mem_cons_self)
    rw [wrappingAdd_eq hlast] at hend
    rw [Records, hrun, hflow, wrappingAdd_eq (by omega)]
    rcases hb with (hover | ⟨u, hu, hbu⟩) | hin
    · exact Or.inl hover
    · rw [hpending] at hu
      rcases List.mem_cons.mp hu with rfl | hu
      · exact Or.inr ⟨_, List.mem_cons_self, hbu.1, hbu.2.1, by have := hbu.2.2; dsimp only; omega⟩
      · exact Or.inr ⟨u, List.mem_cons_of_mem _ hu, hbu⟩
    · exact Or.inr ⟨_, List.mem_cons_self, hin.1.trans has.symm,
        by have := hin.2.1; dsimp only; omega, by have := hin.2.2; dsimp only; omega⟩
  · exact Or.inl hflow
  · rw [Records, hrun, hflow]
    rcases hb with (hover | ⟨u, hu, hbu⟩) | hin
    · exact Or.inl hover
    · exact Or.inr ⟨u, List.mem_cons_of_mem _ hu, hbu⟩
    · exact Or.inr ⟨_, List.mem_cons_self, hin⟩

theorem mem_bounded {e : ℕ × Entry} (he : e ∈ c.bounded.entries.entries) :
    e ∈ c.entries.entries := by
  rw [bounded] at he
  split at he
  · cases he
  · exact he

theorem bounded_clear : c.bounded.pending = c.pending ∧ c.bounded.overflow = c.overflow := by
  rw [bounded]
  split <;> exact ⟨rfl, rfl⟩

/-- A query delivers an entry of its range, or resolves the range and keeps the result. -/
theorem query_cases (access : GpuMemoryAccess Memory) (memory : Memory) (c : VirtualRangeCache)
    (asId gpuAddr size : ℕ) :
    (∃ e ∈ c.settled.bounded.entries.entries, e.2.asId = asId ∧ e.2.gpuAddr = gpuAddr ∧
      e.2.size = size ∧
      c.query access memory asId gpuAddr size = (e.2.segments, c.settled.bounded)) ∨
    c.query access memory asId gpuAddr size = (resolve access memory gpuAddr size,
      { c.settled.bounded with
        entries := c.settled.bounded.entries.insert (makeKey asId gpuAddr)
          ⟨resolve access memory gpuAddr size, asId, gpuAddr, size⟩ }) := by
  rw [query]
  dsimp only
  split
  case h_1 entry hhit =>
    obtain ⟨hget, hsame⟩ := Option.filter_eq_some_iff.mp hhit
    rw [decide_eq_true_iff] at hsame
    exact Or.inl ⟨_, BTreeMap.get_eq_some_iff.mp hget, hsame.1, hsame.2.1, hsame.2.2, rfl⟩
  case h_2 => exact Or.inr rfl

theorem applyDeferred_clear :
    c.applyDeferred.pending = [] ∧ c.applyDeferred.overflow = false ∧
      c.applyDeferred.hasDeferred = false := by
  rw [applyDeferred]
  split
  · exact ⟨rfl, rfl, rfl⟩
  · split <;> exact ⟨rfl, rfl, rfl⟩

theorem mem_applyDeferred {e : ℕ × Entry} (he : e ∈ c.applyDeferred.entries.entries) :
    e ∈ c.entries.entries ∧ c.overflow = false ∧ ∀ u ∈ c.pending, u.overlaps e.2 = false := by
  rw [applyDeferred] at he
  split at he
  case isTrue => cases he
  case isFalse hflow =>
    rw [Bool.not_eq_true] at hflow
    split at he
    case isTrue hempty =>
      refine ⟨he, hflow, fun u hu => ?_⟩
      rcases hempty with hnone | hnone
      · rw [List.isEmpty_iff.mp hnone] at hu
        cases hu
      · rw [List.isEmpty_iff.mp hnone] at he
        cases he
    case isFalse =>
      obtain ⟨hold, hkeep⟩ := List.mem_filter.mp he
      rw [Bool.not_eq_true', List.any_eq_false] at hkeep
      exact ⟨hold, hflow, fun u hu => Bool.eq_false_iff.mpr (hkeep u hu)⟩

theorem mem_of_overlaps {u : DeferredUnmap} {entry : Entry}
    (hu : u.gpuAddr + u.size < 2 ^ 64) (he : entry.gpuAddr + entry.size < 2 ^ 64)
    (h : u.overlaps entry = false) {b : ℕ × ℕ}
    (hb : b ∈ bytes entry.asId entry.gpuAddr entry.size) : b ∉ bytes u.asId u.gpuAddr u.size := by
  intro hbu
  rw [DeferredUnmap.overlaps, wrappingAdd_eq hu, wrappingAdd_eq he, decide_eq_false_iff_not] at h
  obtain ⟨has, hlow, hhigh⟩ := hb
  obtain ⟨has', hlow', hhigh'⟩ := hbu
  exact h ⟨has'.symm.trans has, by omega, by omega⟩

end VirtualRangeCache

/-! ### Runs -/

/-- The address spaces with their mappings and the cache. Since the last query, bytes have been
mapped anew and bytes have been reported. -/
structure System (Memory : Type) where
  memory : ℕ → Memory
  cache : VirtualRangeCache
  changed : Set (ℕ × ℕ)
  reported : Set (ℕ × ℕ)

namespace System

variable {Memory : Type} (access : GpuMemoryAccess Memory) (s : System Memory)

def start (memory : ℕ → Memory) : System Memory := ⟨memory, .new, ∅, ∅⟩

def remap (asId : ℕ) (memory : Memory) : System Memory :=
  { s with
    memory := Function.update s.memory asId memory
    changed := s.changed ∪
      {b | b.1 = asId ∧ access.mapping (s.memory asId) b.2 ≠ access.mapping memory b.2} }

def unmap (asId gpuAddr size : ℕ) : System Memory :=
  { s with
    cache := s.cache.unmap asId gpuAddr size
    reported := s.reported ∪ VirtualRangeCache.bytes asId gpuAddr size }

def answer (asId gpuAddr size : ℕ) : List VirtualSegment :=
  (s.cache.query access (s.memory asId) asId gpuAddr size).1

def query (asId gpuAddr size : ℕ) : System Memory :=
  { s with
    cache := (s.cache.query access (s.memory asId) asId gpuAddr size).2
    changed := ∅
    reported := ∅ }

@[simp]
theorem remap_memory (asId : ℕ) (memory : Memory) :
    (s.remap access asId memory).memory = Function.update s.memory asId memory := rfl

@[simp]
theorem unmap_cache (asId gpuAddr size : ℕ) :
    (s.unmap asId gpuAddr size).cache = s.cache.unmap asId gpuAddr size := rfl

/-- A run in which no range wraps and every byte that changed is reported before the next query. -/
inductive Reachable : System Memory → Prop
  | start (memory : ℕ → Memory) : Reachable (start memory)
  | remap {s : System Memory} (asId : ℕ) (memory : Memory) (h : Reachable s) :
      Reachable (s.remap access asId memory)
  | unmap {s : System Memory} (asId gpuAddr size : ℕ) (h : Reachable s)
      (fits : gpuAddr + size < 2 ^ 64) : Reachable (s.unmap asId gpuAddr size)
  | query {s : System Memory} (asId gpuAddr size : ℕ) (h : Reachable s)
      (reported : s.changed ⊆ s.reported) (fits : gpuAddr + size < 2 ^ 64) :
      Reachable (s.query access asId gpuAddr size)

end System

variable {Memory : Type} {access : GpuMemoryAccess Memory} {s : System Memory}

/-- An entry is the answer of the mapping as long as none of its bytes has changed, and every
byte that was reported is in a pending unmap. -/
structure Inv (access : GpuMemoryAccess Memory) (s : System Memory) : Prop where
  fits : ∀ e ∈ s.cache.entries.entries, e.2.gpuAddr + e.2.size < 2 ^ 64
  fresh : ∀ e ∈ s.cache.entries.entries,
    (∀ b ∈ VirtualRangeCache.bytes e.2.asId e.2.gpuAddr e.2.size, b ∉ s.changed) →
      e.2.segments = VirtualRangeCache.resolve access (s.memory e.2.asId) e.2.gpuAddr e.2.size
  pendingFits : ∀ u ∈ s.cache.pending, u.gpuAddr + u.size < 2 ^ 64
  recorded : ∀ b ∈ s.reported, s.cache.Records b
  flagged : s.cache.hasDeferred = false → s.cache.pending = [] ∧ s.cache.overflow = false

namespace Inv

theorem start (memory : ℕ → Memory) : Inv access (System.start memory) where
  fits _ he := absurd he List.not_mem_nil
  fresh _ he := absurd he List.not_mem_nil
  pendingFits _ hu := absurd hu List.not_mem_nil
  recorded _ hb := absurd hb (Set.notMem_empty _)
  flagged _ := ⟨rfl, rfl⟩

theorem remap (h : Inv access s) (asId : ℕ) (memory : Memory) :
    Inv access (s.remap access asId memory) where
  fits := h.fits
  fresh e he hsame := by
    have hold := h.fresh e he fun b hb hchanged => hsame b hb (Or.inl hchanged)
    rw [hold, System.remap_memory]
    by_cases has : e.2.asId = asId
    · rw [has, Function.update_self]
      refine VirtualRangeCache.resolve_congr fun p hlow hhigh => ?_
      by_contra hne
      exact hsame (asId, p) ⟨has.symm, hlow, hhigh⟩ (Or.inr ⟨rfl, hne⟩)
    · rw [Function.update_of_ne has]
  pendingFits := h.pendingFits
  recorded := h.recorded
  flagged := h.flagged

theorem unmap (h : Inv access s) {asId gpuAddr size : ℕ} (fits : gpuAddr + size < 2 ^ 64) :
    Inv access (s.unmap asId gpuAddr size) where
  fits e he := h.fits e (VirtualRangeCache.unmap_entries ▸ he)
  fresh e he hsame := h.fresh e (VirtualRangeCache.unmap_entries ▸ he) hsame
  pendingFits := VirtualRangeCache.unmap_fits fits h.pendingFits
  recorded b hb := VirtualRangeCache.unmap_records fits h.pendingFits
    (hb.imp (h.recorded b) fun hin => hin)
  flagged hflag := by
    obtain ⟨-, hsame⟩ | ⟨hset, -⟩ := VirtualRangeCache.unmap_cases s.cache asId gpuAddr size
    · rw [System.unmap_cache, hsame] at hflag ⊢
      exact h.flagged hflag
    · exact absurd (hset.symm.trans hflag) (by decide)

/-- The pending unmaps leave the entries of the current mapping. -/
theorem settled (h : Inv access s) (reported : s.changed ⊆ s.reported) :
    (∀ e ∈ s.cache.settled.entries.entries, e.2.gpuAddr + e.2.size < 2 ^ 64 ∧
      e.2.segments =
        VirtualRangeCache.resolve access (s.memory e.2.asId) e.2.gpuAddr e.2.size) ∧
    s.cache.settled.pending = [] ∧ s.cache.settled.overflow = false ∧
      s.cache.settled.hasDeferred = false := by
  rw [VirtualRangeCache.settled]
  split
  case isTrue hflag =>
    refine ⟨fun e he => ?_, VirtualRangeCache.applyDeferred_clear⟩
    obtain ⟨hold, hflow, hoverlaps⟩ := VirtualRangeCache.mem_applyDeferred he
    refine ⟨h.fits e hold, h.fresh e hold fun b hb hchanged => ?_⟩
    rcases h.recorded b (reported hchanged) with hover | ⟨u, hu, hbu⟩
    · exact absurd (hover.symm.trans hflow) (by decide)
    · exact VirtualRangeCache.mem_of_overlaps (h.pendingFits u hu) (h.fits e hold)
        (hoverlaps u hu) hb hbu
  case isFalse hflag =>
    rw [Bool.not_eq_true] at hflag
    obtain ⟨hnone, hflow⟩ := h.flagged hflag
    refine ⟨fun e he => ⟨h.fits e he, h.fresh e he fun b hb hchanged => ?_⟩, hnone, hflow, hflag⟩
    rcases h.recorded b (reported hchanged) with hover | ⟨u, hu, -⟩
    · exact absurd (hover.symm.trans hflow) (by decide)
    · rw [hnone] at hu
      cases hu

theorem answer (h : Inv access s) (reported : s.changed ⊆ s.reported) (asId gpuAddr size : ℕ) :
    s.answer access asId gpuAddr size =
      VirtualRangeCache.resolve access (s.memory asId) gpuAddr size := by
  rw [System.answer]
  obtain ⟨e, he, rfl, rfl, rfl, hrun⟩ | hrun :=
    VirtualRangeCache.query_cases access (s.memory asId) s.cache asId gpuAddr size
  · rw [hrun]
    exact ((h.settled reported).1 e (VirtualRangeCache.mem_bounded he)).2
  · rw [hrun]

theorem query (h : Inv access s) (reported : s.changed ⊆ s.reported) {asId gpuAddr size : ℕ}
    (fits : gpuAddr + size < 2 ^ 64) : Inv access (s.query access asId gpuAddr size) := by
  obtain ⟨hentries, hpending, hflow, hflag⟩ := h.settled reported
  have hclear := VirtualRangeCache.bounded_clear (c := s.cache.settled)
  have hcases := VirtualRangeCache.query_cases access (s.memory asId) s.cache asId gpuAddr size
  have hnew : ∀ e ∈ (s.cache.query access (s.memory asId) asId gpuAddr size).2.entries.entries,
      e.2.gpuAddr + e.2.size < 2 ^ 64 ∧ e.2.segments =
        VirtualRangeCache.resolve access (s.memory e.2.asId) e.2.gpuAddr e.2.size := by
    intro e he
    obtain ⟨_, _, _, _, _, hrun⟩ | hrun := hcases
    · rw [hrun] at he
      exact hentries e (VirtualRangeCache.mem_bounded he)
    · rw [hrun] at he
      rcases BTreeMap.mem_insert.mp he with rfl | ⟨-, hold⟩
      · exact ⟨fits, rfl⟩
      · exact hentries e (VirtualRangeCache.mem_bounded hold)
  have hrest : (s.cache.query access (s.memory asId) asId gpuAddr size).2.pending = [] ∧
      (s.cache.query access (s.memory asId) asId gpuAddr size).2.overflow = false := by
    obtain ⟨_, _, _, _, _, hrun⟩ | hrun := hcases
    · rw [hrun]
      exact ⟨hclear.1.trans hpending, hclear.2.trans hflow⟩
    · rw [hrun]
      exact ⟨hclear.1.trans hpending, hclear.2.trans hflow⟩
  exact {
    fits := fun e he => (hnew e he).1
    fresh := fun e he _ => (hnew e he).2
    pendingFits := fun u hu => by
      rw [System.query, hrest.1] at hu
      cases hu
    recorded := fun b hb => absurd hb (Set.notMem_empty _)
    flagged := fun _ => hrest }

end Inv

theorem System.Reachable.inv (h : s.Reachable access) : Inv access s := by
  induction h with
  | start memory => exact Inv.start memory
  | remap asId memory _ ih => exact ih.remap asId memory
  | unmap asId gpuAddr size _ fits ih => exact ih.unmap fits
  | query asId gpuAddr size _ reported fits ih => exact ih.query reported fits

/-- In every run a query delivers the segments of the current mapping: no list, or one that tiles
the range. -/
theorem System.Reachable.query_current (h : s.Reachable access)
    (reported : s.changed ⊆ s.reported) (asId gpuAddr size : ℕ) (fits : gpuAddr + size < 2 ^ 64) :
    s.answer access asId gpuAddr size =
        VirtualRangeCache.resolve access (s.memory asId) gpuAddr size ∧
      (s.answer access asId gpuAddr size = [] ∨
        VirtualRangeCache.Tiles (s.answer access asId gpuAddr size) gpuAddr (gpuAddr + size)) := by
  have hanswer := h.inv.answer reported asId gpuAddr size
  exact ⟨hanswer, hanswer ▸ VirtualRangeCache.resolve_tiles fits⟩

/-! ### A memory of bytes -/

/-- The host-contiguous runs of mapped bytes. -/
def runs (mapping : ℕ → Option ℕ) : ℕ → ℕ → List (ℕ × ℕ)
  | 0, _ => []
  | n + 1, addr =>
    match mapping addr with
    | none => runs mapping n (addr + 1)
    | some deviceAddr =>
      match runs mapping n (addr + 1) with
      | [] => [(addr, 1)]
      | (first, length) :: rest =>
        if first = addr + 1 ∧ mapping first = some (deviceAddr + 1) then (addr, length + 1) :: rest
        else (addr, 1) :: (first, length) :: rest

theorem runs_inside (mapping : ℕ → Option ℕ) (n addr : ℕ) :
    ∀ r ∈ runs mapping n addr, addr ≤ r.1 ∧ r.1 + r.2 ≤ addr + n ∧ 0 < r.2 := by
  induction n generalizing addr with
  | zero => exact fun r hr => absurd hr List.not_mem_nil
  | succ n ih =>
    have hrest := ih (addr + 1)
    rw [runs]
    split
    case h_1 => exact fun r hr => by have := hrest r hr; omega
    case h_2 =>
      generalize runs mapping n (addr + 1) = ranges at hrest
      cases ranges with
      | nil =>
        intro r hr
        obtain rfl := List.mem_singleton.mp hr
        exact ⟨le_rfl, by dsimp only; omega, Nat.one_pos⟩
      | cons range rest =>
        obtain ⟨first, length⟩ := range
        have hfirst : addr + 1 ≤ first ∧ first + length ≤ addr + 1 + n ∧ 0 < length :=
          hrest _ List.mem_cons_self
        have htail : ∀ r ∈ rest, addr ≤ r.1 ∧ r.1 + r.2 ≤ addr + (n + 1) ∧ 0 < r.2 := by
          intro r hr
          have := hrest r (List.mem_cons_of_mem _ hr)
          omega
        dsimp only
        split
        case isTrue =>
          intro r hr
          rcases List.mem_cons.mp hr with rfl | hr
          · exact ⟨le_rfl, by dsimp only; omega, by dsimp only; omega⟩
          · exact htail r hr
        case isFalse =>
          intro r hr
          rcases List.mem_cons.mp hr with rfl | hr
          · exact ⟨le_rfl, by dsimp only; omega, Nat.one_pos⟩
          · rcases List.mem_cons.mp hr with rfl | hr
            · exact ⟨by dsimp only; omega, by dsimp only; omega, hfirst.2.2⟩
            · exact htail r hr

theorem runs_congr {mapping mapping' : ℕ → Option ℕ} (n addr : ℕ)
    (h : ∀ p, addr ≤ p → p < addr + n → mapping p = mapping' p) :
    runs mapping n addr = runs mapping' n addr := by
  induction n generalizing addr with
  | zero => rfl
  | succ n ih =>
    have hrest := ih (addr + 1) fun p hlow hhigh => h p (by omega) (by omega)
    rw [runs, runs, ← h addr le_rfl (by omega), hrest]
    split
    case h_1 => rfl
    case h_2 =>
      have hinside := runs_inside mapping' n (addr + 1)
      generalize runs mapping' n (addr + 1) = ranges at hinside
      cases ranges with
      | nil => rfl
      | cons range rest =>
        obtain ⟨first, length⟩ := range
        have hfirst : addr + 1 ≤ first ∧ first + length ≤ addr + 1 + n ∧ 0 < length :=
          hinside _ List.mem_cons_self
        dsimp only
        rw [h first (by omega) (by omega)]

/-- Bytes with device addresses of their own. -/
def byteMemory : GpuMemoryAccess (ℕ → Option ℕ) where
  gpuToCpuAddress memory := memory
  getSubmappedRange memory gpuAddr size := runs memory size gpuAddr
  mapping memory := memory
  submapped_inside memory gpuAddr size r hr :=
    have h := runs_inside memory size gpuAddr r hr
    ⟨h.1, h.2.1⟩
  submapped_congr memory memory' gpuAddr size h := runs_congr size gpuAddr h
  address_congr memory memory' gpuAddr size h r hr hne := by
    have hinside := runs_inside memory size gpuAddr r hr
    exact h r.1 hinside.1 (by omega)

def linearMemory (p : ℕ) : Option ℕ := some (256 + p)

def holedMemory (p : ℕ) : Option ℕ := if 4 ≤ p ∧ p < 8 then none else linearMemory p

/-- An address space loses four bytes between two queries. -/
def holedSystem : System (ℕ → Option ℕ) :=
  (((System.start fun _ => linearMemory).query byteMemory 1 0 8).remap byteMemory 1
    holedMemory).unmap 1 4 4

theorem holedSystem_reported : holedSystem.changed ⊆ holedSystem.reported := by
  rintro ⟨asId, p⟩ (hnone | ⟨has, hne⟩)
  · cases hnone
  · refine Or.inr ⟨has, ?_⟩
    by_contra hout
    refine hne ?_
    change linearMemory p = holedMemory p
    rw [holedMemory, if_neg (by dsimp only at hout; omega)]

theorem holedSystem_reachable : holedSystem.Reachable byteMemory :=
  .unmap 1 4 4 (.remap 1 holedMemory (.query 1 0 8 (.start _) (Set.empty_subset _) (by decide)))
    (by decide)

theorem query_current_holed : holedSystem.answer byteMemory 1 2 8 =
      VirtualRangeCache.resolve byteMemory (holedSystem.memory 1) 2 8 ∧
    (holedSystem.answer byteMemory 1 2 8 = [] ∨
      VirtualRangeCache.Tiles (holedSystem.answer byteMemory 1 2 8) 2 10) :=
  holedSystem_reachable.query_current holedSystem_reported 1 2 8 (by decide)

end Ruzu.BufferCache
