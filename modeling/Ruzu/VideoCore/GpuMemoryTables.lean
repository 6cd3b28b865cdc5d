import Ruzu.VideoCore.GpuMemoryManager

/-!
# What the two tables hold

A page is free, reserved or backed by a device address. An operation on a
table fills a run of its pages and leaves the other table alone.
-/

set_option autoImplicit false

namespace Ruzu.Gpu

inductive Backing
  | free
  | reserved
  | mapped (devAddr : ℕ)
  deriving DecidableEq

def EntryType.backing (entryType : EntryType) (devAddr : ℕ) : Backing :=
  match entryType with
  | .free => .free
  | .reserved => .reserved
  | .mapped => .mapped devAddr

/-- The device address that a page table keeps of one. -/
def devicePage (devAddr : ℕ) : ℕ := ((devAddr >>> cpuPageBits) % 2 ^ 32) <<< cpuPageBits

/-- The first `count` pages from `first` on are replaced. -/
def fill (old : ℕ → Backing) (first count : ℕ) (new : ℕ → Backing) : ℕ → Backing :=
  fun j => if first ≤ j ∧ j < first + count then new (j - first) else old j

theorem fill_zero (old : ℕ → Backing) (first : ℕ) (new : ℕ → Backing) :
    fill old first 0 new = old := by
  funext j
  rw [fill, if_neg (by omega)]

theorem fill_succ (old : ℕ → Backing) (first count : ℕ) (new : ℕ → Backing) :
    fill old first (count + 1) new =
      Function.update (fill old first count new) (first + count) (new count) := by
  funext j
  by_cases hj : j = first + count
  · subst hj
    rw [Function.update_self, fill, if_pos (by omega), Nat.add_sub_cancel_left]
  · rw [Function.update_of_ne hj, fill, fill]
    by_cases hin : first ≤ j ∧ j < first + count
    · rw [if_pos hin, if_pos (by omega)]
    · rw [if_neg hin, if_neg (by omega)]

namespace Table

variable (t : Table)

def entry (i : ℕ) : EntryType :=
  ((Packed.get 2 entriesPerU64 t.entries i).map EntryType.ofBits).getD .free

def backing (i : ℕ) : Backing := (t.entry i).backing (t.pages i <<< cpuPageBits)

/-- There is an entry for each page. -/
def Sized (size : ℕ) : Prop := t.entries.length * entriesPerU64 = size

variable {t} {size bits position : ℕ}

theorem new_sized (h : entriesPerU64 ∣ size) : (new size).Sized size := by
  rw [Sized, new, List.length_replicate, Nat.div_mul_cancel h]

theorem new_backing (h : entriesPerU64 ∣ size) {i : ℕ} (hi : i < size) :
    (new size).backing i = .free := by
  rw [backing, entry, new, Packed.get_replicate_zero (by rwa [Nat.div_mul_cancel h])]
  rfl

theorem words_lt (h : t.Sized size) {i : ℕ} (hi : i < size) :
    i < t.entries.length * entriesPerU64 := h.symm ▸ hi

theorem getEntry_eq (h : t.Sized size) (hi : position / 2 ^ bits < size) :
    t.getEntry bits position = some (t.entry (position / 2 ^ bits)) := by
  rw [getEntry, entry, Nat.shiftRight_eq_div_pow]
  obtain ⟨b, hb⟩ := Option.isSome_iff_exists.mp
    (Packed.get_isSome 2 (words_lt h hi))
  rw [hb]
  rfl

theorem ofBits_toBits (e : EntryType) : EntryType.ofBits e.toBits = e := by
  cases e <;> rfl

theorem setEntry_eq (h : t.Sized size) (hi : position / 2 ^ bits < size) (e : EntryType) :
    ∃ t', t.setEntry bits position e = some t' ∧ t'.Sized size ∧ t'.pages = t.pages ∧
      t'.entry = Function.update t.entry (position / 2 ^ bits) e := by
  obtain ⟨entries, hput, hlength, hget⟩ := Packed.put_eq
    (show 0 < entriesPerU64 by decide) (show 2 * entriesPerU64 ≤ 64 by decide) (words_lt h hi)
    (show e.toBits &&& Packed.mask 64 2 = e.toBits by cases e <;> rfl)
  refine ⟨{ t with entries }, ?_, ?_, rfl, ?_⟩
  · rw [setEntry, Nat.shiftRight_eq_div_pow, hput]
    rfl
  · rw [Sized, hlength]
    exact h
  · funext j
    rw [entry, hget]
    by_cases hj : j = position / 2 ^ bits
    · subst hj
      rw [if_pos rfl, Function.update_self]
      exact ofBits_toBits e
    · rw [if_neg hj, Function.update_of_ne hj]
      rfl

theorem setPage_entry (i devAddr : ℕ) : (t.setPage i devAddr).entry = t.entry := rfl

theorem setPage_pages (i devAddr : ℕ) : (t.setPage i devAddr).pages =
    Function.update t.pages i ((devAddr >>> cpuPageBits) % 2 ^ 32) := rfl

/-- Setting the entry and, for a mapped page, its device page. -/
theorem backing_write {t' : Table} {e : EntryType} {i : ℕ}
    (hentry : t'.entry = Function.update t.entry i e) (hpages : t'.pages = t.pages)
    (devAddr : ℕ) :
    (if e = .mapped then t'.setPage i devAddr else t').backing =
      Function.update t.backing i (e.backing (devicePage devAddr)) := by
  funext j
  by_cases hj : j = i
  · subst hj
    rw [Function.update_self]
    split
    case isTrue hmapped =>
      subst hmapped
      rw [backing, setPage_entry, hentry, Function.update_self, setPage_pages,
        Function.update_self]
      rfl
    case isFalse hother =>
      rw [backing, hentry, Function.update_self]
      cases e with
      | mapped => exact absurd rfl hother
      | free => rfl
      | reserved => rfl
  · rw [Function.update_of_ne hj]
    split
    case isTrue =>
      rw [backing, setPage_entry, hentry, Function.update_of_ne hj, setPage_pages,
        Function.update_of_ne hj, hpages]
      rfl
    case isFalse =>
      rw [backing, hentry, Function.update_of_ne hj, hpages]
      rfl

theorem pageEntryIndex_eq {k : ℕ} (h : position / 2 ^ bits < 2 ^ k) :
    pageEntryIndex bits (2 ^ k) position = position / 2 ^ bits := by
  rw [pageEntryIndex, Nat.shiftRight_eq_div_pow, Nat.and_two_pow_sub_one_eq_mod,
    Nat.mod_eq_of_lt h]

theorem pageBase_eq {i devAddr : ℕ} (hi : i < size) (h : t.backing i = .mapped devAddr) :
    t.entry i = .mapped ∧ t.pageBase size i = some devAddr := by
  rw [backing] at h
  cases hentry : t.entry i with
  | mapped =>
    rw [hentry] at h
    exact ⟨rfl, by rw [pageBase, if_pos hi, Backing.mapped.inj h]⟩
  | free =>
    rw [hentry] at h
    cases h
  | reserved =>
    rw [hentry] at h
    cases h

end Table

namespace Geometry

variable (g : Geometry)

/-- What the constructor and the packing of the entries rely on: device pages, two sizes of
page, a level of at least a page, a word of continuity bits, and addresses that are `i64`. -/
structure WellFormed : Prop where
  devicePage : cpuPageBits ≤ g.pageBits
  nested : g.pageBits < g.bigPageBits
  levels : g.pageBits ≤ g.firstLevelShift
  words : g.bigPageBits + 6 ≤ g.addressSpaceBits
  addresses : g.addressSpaceBits < 63

variable {g}

theorem pageSize_pos : 0 < g.pageSize := Nat.two_pow_pos _

theorem bigPageSize_pos : 0 < g.bigPageSize := Nat.two_pow_pos _

namespace WellFormed

variable (h : g.WellFormed)
include h

theorem levels_le : g.firstLevelBits ≤ g.addressSpaceBits := by
  have hpage := h.devicePage
  have hlevels := h.levels
  rw [cpuPageBits] at hpage
  rw [firstLevelShift] at hlevels
  omega

theorem pageSize_mul : g.pageTableSize * g.pageSize = g.addressSpaceSize := by
  rw [pageTableSize, pageSize, addressSpaceSize, ← pow_add]
  congr 1
  have := h.nested
  have := h.words
  omega

theorem bigPageSize_mul : g.bigPageTableSize * g.bigPageSize = g.addressSpaceSize := by
  rw [bigPageTableSize, bigPageSize, addressSpaceSize, ← pow_add]
  congr 1
  have := h.words
  omega

theorem words_dvd : 2 ^ 6 ∣ g.bigPageTableSize := by
  refine pow_dvd_pow 2 ?_
  have := h.words
  omega

theorem pageTableSize_dvd : entriesPerU64 ∣ g.pageTableSize := by
  refine Nat.dvd_trans (show entriesPerU64 ∣ 2 ^ 5 from Nat.dvd_refl _) (pow_dvd_pow 2 ?_)
  have := h.nested
  have := h.words
  omega

theorem bigPageTableSize_dvd : entriesPerU64 ∣ g.bigPageTableSize :=
  Nat.dvd_trans (by decide) h.words_dvd

theorem pageSize_dvd : g.pageSize ∣ g.bigPageSize := pow_dvd_pow 2 h.nested.le

theorem devicePage_dvd : devicePageSize ∣ g.pageSize := pow_dvd_pow 2 h.devicePage

theorem index_lt {a : ℕ} (ha : a < g.addressSpaceSize) : a / g.pageSize < g.pageTableSize := by
  rw [Nat.div_lt_iff_lt_mul pageSize_pos, h.pageSize_mul]
  exact ha

theorem bigIndex_lt {a : ℕ} (ha : a < g.addressSpaceSize) :
    a / g.bigPageSize < g.bigPageTableSize := by
  rw [Nat.div_lt_iff_lt_mul bigPageSize_pos, h.bigPageSize_mul]
  exact ha

end WellFormed

end Geometry

namespace MemoryManager

variable (g : Geometry) (d : DeviceMemory)

/-- The tables have their sizes. -/
structure Shape (m : MemoryManager) : Prop where
  small : m.small.Sized g.pageTableSize
  big : m.big.Sized g.bigPageTableSize
  continuous : m.bigPageContinuous.length * continuousBits = g.bigPageTableSize
  levels : m.firstLevelMap.length = 2 ^ g.firstLevelBits

/-- `m'` is `m` with other tables and kinds, after the rasterizer has heard of changes. -/
structure Wrote (m m' : MemoryManager) (small big : ℕ → Backing) (kindMap : RangeMap UInt8) :
    Prop where
  shape : m'.Shape g
  small : m'.small.backing = small
  big : m'.big.backing = big
  kindMap : m'.kindMap = kindMap
  ops : ∃ ops, m'.rasterizerOps = m.rasterizerOps ++ ops ∧
    ∀ op ∈ ops, ∃ gpuAddr size, op = .modifyGpuMemory gpuAddr size

variable {g d} {m m' m'' : MemoryManager} {small big small' big' : ℕ → Backing}
  {kindMap kindMap' : RangeMap UInt8}

theorem Wrote.refl (h : m.Shape g) : Wrote g m m m.small.backing m.big.backing m.kindMap :=
  ⟨h, rfl, rfl, rfl, [], (List.append_nil _).symm, nofun⟩

theorem Wrote.trans (h : Wrote g m m' small big kindMap)
    (h' : Wrote g m' m'' small' big' kindMap') : Wrote g m m'' small' big' kindMap' := by
  obtain ⟨ops, hops, hmodify⟩ := h.ops
  obtain ⟨ops', hops', hmodify'⟩ := h'.ops
  refine ⟨h'.shape, h'.small, h'.big, h'.kindMap, ops ++ ops', ?_, fun op hop => ?_⟩
  · rw [hops', hops, List.append_assoc]
  · exact (List.mem_append.mp hop).elim (hmodify op) (hmodify' op)

theorem Wrote.notify (h : Wrote g m m' small big kindMap) (changed : Bool) (gpuAddr size : ℕ) :
    Wrote g m (m'.notifyModifyGpuMemory changed gpuAddr size) small big kindMap := by
  obtain ⟨ops, hops, hmodify⟩ := h.ops
  cases changed with
  | false => exact h
  | true =>
    refine ⟨⟨h.shape.small, h.shape.big, h.shape.continuous, h.shape.levels⟩, h.small, h.big,
      h.kindMap, ops ++ [.modifyGpuMemory gpuAddr size], ?_, fun op hop => ?_⟩
    · rw [notifyModifyGpuMemory, if_pos rfl, MemoryManager.notify, hops, List.append_assoc]
    · rcases List.mem_append.mp hop with hold | hnew
      · exact hmodify op hold
      · exact ⟨gpuAddr, size, List.mem_singleton.mp hnew⟩

theorem Wrote.withSmall (h : Wrote g m m' small big kindMap) {t : Table}
    (hs : t.Sized g.pageTableSize) : Wrote g m { m' with small := t } t.backing big kindMap :=
  ⟨⟨hs, h.shape.big, h.shape.continuous, h.shape.levels⟩, rfl, h.big, h.kindMap, h.ops⟩

theorem Wrote.withBig (h : Wrote g m m' small big kindMap) {t : Table}
    (hs : t.Sized g.bigPageTableSize) : Wrote g m { m' with big := t } small t.backing kindMap :=
  ⟨⟨h.shape.small, hs, h.shape.continuous, h.shape.levels⟩, h.small, rfl, h.kindMap, h.ops⟩

theorem notifyModifyGpuMemory_small (changed : Bool) (gpuAddr size : ℕ) :
    (m.notifyModifyGpuMemory changed gpuAddr size).small = m.small := by
  cases changed <;> rfl

theorem notifyModifyGpuMemory_big (changed : Bool) (gpuAddr size : ℕ) :
    (m.notifyModifyGpuMemory changed gpuAddr size).big = m.big := by
  cases changed <;> rfl

/-! ### One step -/

theorem pageTableStep_wrote (hg : g.WellFormed) (h : m.Shape g) (e : EntryType)
    {gpuAddr : ℕ} (ha : gpuAddr < g.addressSpaceSize) (devAddr : ℕ) :
    ∃ m', m.pageTableStep g e gpuAddr devAddr = some m' ∧
      Wrote g m m' (Function.update m.small.backing (gpuAddr / g.pageSize)
        (e.backing (devicePage devAddr))) m.big.backing m.kindMap := by
  have hi := hg.index_lt ha
  obtain ⟨t, ht, hsized, hpages, hentry⟩ := Table.setEntry_eq h.small hi e
  have hbacking := Table.backing_write hentry hpages devAddr
  have hset := ((Wrote.refl h).withSmall hsized).notify
    (m.small.entry (gpuAddr / g.pageSize) ≠ e) gpuAddr g.pageSize
  rw [pageTableStep, Table.getEntry_eq h.small hi]
  simp only [Option.bind_eq_bind, Option.bind_some, ht]
  rw [show Table.pageEntryIndex g.pageBits g.pageTableSize gpuAddr = gpuAddr / g.pageSize from
    Table.pageEntryIndex_eq hi]
  by_cases he : e = .mapped
  · rw [if_pos he, notifyModifyGpuMemory_small]
    rw [if_pos he] at hbacking
    exact ⟨_, rfl, hbacking ▸ hset.withSmall hsized⟩
  · rw [if_neg he]
    rw [if_neg he] at hbacking
    exact ⟨_, rfl, hbacking ▸ hset⟩

theorem setBigPageContinuous_wrote (h : Wrote g m m' small big kindMap) {index : ℕ}
    (hi : index < g.bigPageTableSize) (value : Bool) :
    ∃ m'', m'.setBigPageContinuous index value = some m'' ∧ Wrote g m m'' small big kindMap := by
  obtain ⟨words, hput, hlength, -⟩ := Packed.put_eq
    (show 0 < continuousBits by decide) (show 1 * continuousBits ≤ 64 by decide)
    (h.shape.continuous ▸ hi)
    (show (if value then 1 else 0) &&& Packed.mask 64 1 = if value then 1 else 0 by
      cases value <;> rfl)
  refine ⟨{ m' with bigPageContinuous := words }, ?_, ⟨h.shape.small, h.shape.big, ?_,
    h.shape.levels⟩, h.small, h.big, h.kindMap, h.ops⟩
  · rw [setBigPageContinuous, hput]
    rfl
  · rw [hlength]
    exact h.shape.continuous

theorem bigPageTableStep_wrote (hg : g.WellFormed) (h : m.Shape g) (e : EntryType)
    {gpuAddr : ℕ} (ha : gpuAddr < g.addressSpaceSize) (devAddr : ℕ) :
    ∃ m', m.bigPageTableStep g d e gpuAddr devAddr = some m' ∧
      Wrote g m m' m.small.backing (Function.update m.big.backing (gpuAddr / g.bigPageSize)
        (e.backing (devicePage devAddr))) m.kindMap := by
  have hi := hg.bigIndex_lt ha
  obtain ⟨t, ht, hsized, hpages, hentry⟩ := Table.setEntry_eq h.big hi e
  have hbacking := Table.backing_write hentry hpages devAddr
  have hset := ((Wrote.refl h).withBig hsized).notify
    (m.big.entry (gpuAddr / g.bigPageSize) ≠ e) gpuAddr g.bigPageSize
  rw [bigPageTableStep, Table.getEntry_eq h.big hi]
  simp only [Option.bind_eq_bind, Option.bind_some, ht]
  rw [show Table.pageEntryIndex g.bigPageBits g.bigPageTableSize gpuAddr =
    gpuAddr / g.bigPageSize from Table.pageEntryIndex_eq hi]
  by_cases he : e = .mapped
  · rw [if_pos he, notifyModifyGpuMemory_big]
    rw [if_pos he] at hbacking
    exact setBigPageContinuous_wrote (hbacking ▸ hset.withBig hsized) hi _
  · rw [if_neg he]
    rw [if_neg he] at hbacking
    exact ⟨_, rfl, hbacking ▸ hset⟩

/-! ### Whole operations -/

theorem pageCount_spec {size pageSize : ℕ} (hp : 0 < pageSize) (i : ℕ) :
    i < pageCount size pageSize ↔ i * pageSize < size := by
  rw [pageCount, Nat.lt_div_iff_mul_lt hp]
  omega

theorem pageCount_of_dvd {size pageSize : ℕ} (hp : 0 < pageSize) (h : pageSize ∣ size) :
    pageCount size pageSize = size / pageSize := by
  obtain ⟨q, rfl⟩ := h
  rw [Nat.mul_div_cancel_left q hp, pageCount, Nat.add_sub_assoc hp, Nat.mul_add_div hp,
    Nat.div_eq_of_lt (Nat.sub_lt hp Nat.one_pos), Nat.add_zero]

theorem pageTable_loop (hg : g.WellFormed) (h : m.Shape g) (e : EntryType)
    {gpuAddr size : ℕ} (ha : gpuAddr + size ≤ g.addressSpaceSize) (devAddr : ℕ) :
    ∃ m', (Scatter.loop (pageCount size g.pageSize) m fun m i =>
        m.pageTableStep g e (gpuAddr + i * g.pageSize) (devAddr + i * g.pageSize)) = some m' ∧
      Wrote g m m' (fill m.small.backing (gpuAddr / g.pageSize) (pageCount size g.pageSize)
        fun i => e.backing (devicePage (devAddr + i * g.pageSize))) m.big.backing m.kindMap := by
  refine Scatter.loop_rule (fun k s => Wrote g m s (fill m.small.backing (gpuAddr / g.pageSize) k
    fun i => e.backing (devicePage (devAddr + i * g.pageSize))) m.big.backing m.kindMap)
    (by rw [fill_zero]; exact Wrote.refl h) fun i s hi hs => ?_
  have hlt := (pageCount_spec Geometry.pageSize_pos i).mp hi
  obtain ⟨s', hstep, hwrote⟩ := pageTableStep_wrote hg hs.shape e
    (show gpuAddr + i * g.pageSize < g.addressSpaceSize by omega) (devAddr + i * g.pageSize)
  refine ⟨s', hstep, ?_⟩
  have hwhole := hs.trans hwrote
  rwa [hs.small, hs.big, hs.kindMap, Nat.add_mul_div_right _ _ Geometry.pageSize_pos,
    ← fill_succ] at hwhole

theorem bigPageTable_loop (hg : g.WellFormed) (h : m.Shape g) (e : EntryType)
    {gpuAddr size : ℕ} (ha : gpuAddr + size ≤ g.addressSpaceSize) (devAddr : ℕ) :
    ∃ m', (Scatter.loop (pageCount size g.bigPageSize) m fun m i =>
        m.bigPageTableStep g d e (gpuAddr + i * g.bigPageSize) (devAddr + i * g.bigPageSize)) =
          some m' ∧
      Wrote g m m' m.small.backing (fill m.big.backing (gpuAddr / g.bigPageSize)
        (pageCount size g.bigPageSize)
        fun i => e.backing (devicePage (devAddr + i * g.bigPageSize))) m.kindMap := by
  refine Scatter.loop_rule (fun k s => Wrote g m s m.small.backing
    (fill m.big.backing (gpuAddr / g.bigPageSize) k
      fun i => e.backing (devicePage (devAddr + i * g.bigPageSize))) m.kindMap)
    (by rw [fill_zero]; exact Wrote.refl h) fun i s hi hs => ?_
  have hlt := (pageCount_spec Geometry.bigPageSize_pos i).mp hi
  obtain ⟨s', hstep, hwrote⟩ := bigPageTableStep_wrote (d := d) hg hs.shape e
    (show gpuAddr + i * g.bigPageSize < g.addressSpaceSize by omega)
    (devAddr + i * g.bigPageSize)
  refine ⟨s', hstep, ?_⟩
  have hwhole := hs.trans hwrote
  rwa [hs.small, hs.big, hs.kindMap, Nat.add_mul_div_right _ _ Geometry.bigPageSize_pos,
    ← fill_succ] at hwhole

theorem allocateLevels_wrote (h : m.Shape g) {first count : ℕ}
    (hlevels : first + count ≤ 2 ^ g.firstLevelBits) :
    ∃ m', (Scatter.loop count m fun m i => m.allocateLevel (first + i)) = some m' ∧
      Wrote g m m' m.small.backing m.big.backing m.kindMap := by
  refine Scatter.loop_rule (fun _ s => Wrote g m s m.small.backing m.big.backing m.kindMap)
    (Wrote.refl h) fun i s hi hs => ?_
  rw [allocateLevel, if_pos (by rw [hs.shape.levels]; omega)]
  exact ⟨_, rfl, ⟨hs.shape.small, hs.shape.big, hs.shape.continuous, by
    rw [List.length_set]
    exact hs.shape.levels⟩, hs.small, hs.big, hs.kindMap, hs.ops⟩

/-- The levels of a range that ends below the top of the address space. -/
theorem reserveRange_wrote (h : m.Shape g) {start size : ℕ}
    (ha : start + size < g.addressSpaceSize) :
    ∃ m', m.reserveRange g start size = some m' ∧
      Wrote g m m' m.small.backing m.big.backing m.kindMap := by
  have hend : (start + size) / 2 ^ g.firstLevelShift < 2 ^ g.firstLevelBits := by
    rw [Nat.div_lt_iff_lt_mul (Nat.two_pow_pos _), ← pow_add]
    refine ha.trans_le (Nat.pow_le_pow_right (by decide) ?_)
    rw [Geometry.firstLevelShift]
    omega
  have hle : start / 2 ^ g.firstLevelShift ≤ (start + size) / 2 ^ g.firstLevelShift :=
    Nat.div_le_div_right (Nat.le_add_right _ _)
  rw [reserveRange, Nat.shiftRight_eq_div_pow, Nat.shiftRight_eq_div_pow]
  exact allocateLevels_wrote h (by omega)

/-- The level that `reserve_range` asks for at the top of the address space does not exist. -/
theorem reserveRange_top (hg : g.WellFormed) (h : m.Shape g)
    {start size : ℕ} (htop : start + size = g.addressSpaceSize) :
    m.reserveRange g start size = none := by
  have hend : (start + size) / 2 ^ g.firstLevelShift = 2 ^ g.firstLevelBits := by
    rw [htop, Geometry.addressSpaceSize, Geometry.firstLevelShift,
      Nat.pow_div (Nat.sub_le _ _) (by decide), Nat.sub_sub_self hg.levels_le]
  have hle : start / 2 ^ g.firstLevelShift ≤ 2 ^ g.firstLevelBits :=
    hend ▸ Nat.div_le_div_right (Nat.le_add_right _ _)
  rw [reserveRange, Nat.shiftRight_eq_div_pow, Nat.shiftRight_eq_div_pow, hend,
    Nat.sub_add_comm hle, Scatter.loop_succ]
  obtain ⟨m', hloop, hwrote⟩ := allocateLevels_wrote h
    (Nat.add_sub_of_le hle).le
  rw [hloop, Option.bind_some, allocateLevel, Nat.add_sub_of_le hle, hwrote.shape.levels,
    if_neg (Nat.lt_irrefl _)]

theorem Wrote.setKind (h : Wrote g m m' small big kindMap) (gpuAddr size : ℕ) (kind : UInt8) :
    Wrote g m (m'.setKind gpuAddr size kind) small big
      (kindMap.map gpuAddr (gpuAddr + size) kind) :=
  ⟨⟨h.shape.small, h.shape.big, h.shape.continuous, h.shape.levels⟩, h.small, h.big,
    by rw [MemoryManager.setKind, h.kindMap], h.ops⟩

theorem pageTableOp_wrote (hg : g.WellFormed) (h : m.Shape g) (e : EntryType)
    {gpuAddr size : ℕ} (ha : gpuAddr + size ≤ g.addressSpaceSize)
    (htop : e = .mapped → gpuAddr + size < g.addressSpaceSize) (devAddr : ℕ) (kind : UInt8) :
    ∃ m', m.pageTableOp g e gpuAddr devAddr size kind = some m' ∧
      Wrote g m m' (fill m.small.backing (gpuAddr / g.pageSize) (pageCount size g.pageSize)
        fun i => e.backing (devicePage (devAddr + i * g.pageSize))) m.big.backing
        (m.kindMap.map gpuAddr (gpuAddr + size) kind) := by
  obtain ⟨m₁, hreserve, hwrote⟩ : ∃ m₁, m.reserveFor g e gpuAddr size = some m₁ ∧
      Wrote g m m₁ m.small.backing m.big.backing m.kindMap := by
    rw [reserveFor]
    split
    case isTrue he => exact reserveRange_wrote h (htop he)
    case isFalse => exact ⟨m, rfl, Wrote.refl h⟩
  obtain ⟨m₂, hloop, hwrote'⟩ := pageTable_loop hg hwrote.shape e ha devAddr
  rw [hwrote.small, hwrote.big, hwrote.kindMap] at hwrote'
  refine ⟨m₂.setKind gpuAddr size kind, ?_, (hwrote.trans hwrote').setKind gpuAddr size kind⟩
  rw [pageTableOp, hreserve, Option.bind_eq_bind, Option.bind_some, hloop]
  rfl

theorem bigPageTableOp_wrote (hg : g.WellFormed) (h : m.Shape g) (e : EntryType)
    {gpuAddr size : ℕ} (ha : gpuAddr + size ≤ g.addressSpaceSize) (devAddr : ℕ) (kind : UInt8) :
    ∃ m', m.bigPageTableOp g d e gpuAddr devAddr size kind = some m' ∧
      Wrote g m m' m.small.backing (fill m.big.backing (gpuAddr / g.bigPageSize)
        (pageCount size g.bigPageSize)
        fun i => e.backing (devicePage (devAddr + i * g.bigPageSize)))
        (m.kindMap.map gpuAddr (gpuAddr + size) kind) := by
  obtain ⟨m₁, hloop, hwrote⟩ := bigPageTable_loop (d := d) hg h e ha devAddr
  refine ⟨m₁.setKind gpuAddr size kind, ?_, hwrote.setKind gpuAddr size kind⟩
  rw [bigPageTableOp, hloop]
  rfl

end MemoryManager

end Ruzu.Gpu
