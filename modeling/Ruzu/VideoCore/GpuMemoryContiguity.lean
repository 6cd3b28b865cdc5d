import Ruzu.Lib.MaximalRuns
import Ruzu.VideoCore.GpuMemoryRuns

/-!
# What the queries of a range report

The walks agree with the translation byte by byte: whether the range is
consecutive, its longest consecutive front part, and its maximal runs in GPU
and in device addresses. The granular query cuts a continuous big page at a
wrong offset.
-/

set_option autoImplicit false

namespace Ruzu.Gpu

open MaximalRuns (Run latestFirst)

namespace MemoryManager

/-- The first `n` bytes are translated to consecutive device addresses. -/
def Consecutive (translate : ℕ → Option ℕ) (gpuAddr n : ℕ) : Prop :=
  ∃ devAddr, ∀ j < n, translate (gpuAddr + j) = some (devAddr + j)

/-- The first `k` bytes are consecutive, and `old` is the address that would continue them. -/
def Progress (translate : ℕ → Option ℕ) (gpuAddr k : ℕ) (old : Option ℕ) : Prop :=
  (k = 0 ∧ old = none) ∨ ∃ devAddr, 0 < k ∧ old = some (devAddr + k) ∧
    ∀ j < k, translate (gpuAddr + j) = some (devAddr + j)

section Progresses

variable {translate : ℕ → Option ℕ} {gpuAddr size k n devAddr : ℕ} {old : Option ℕ}

theorem Consecutive.mono (h : Consecutive translate gpuAddr n) (hk : k ≤ n) :
    Consecutive translate gpuAddr k := by
  obtain ⟨devAddr, hj⟩ := h
  exact ⟨devAddr, fun j hlt => hj j (by omega)⟩

theorem Progress.consecutive (h : Progress translate gpuAddr k old) :
    Consecutive translate gpuAddr k := by
  rcases h with ⟨rfl, -⟩ | ⟨devAddr, -, -, hj⟩
  · exact ⟨0, fun j hlt => absurd hlt (Nat.not_lt_zero j)⟩
  · exact ⟨devAddr, hj⟩

theorem Progress.extend (h : Progress translate gpuAddr k old) (hn : 0 < n)
    (hj : ∀ j < n, translate (gpuAddr + k + j) = some (devAddr + j))
    (hold : ¬ (old ≠ none ∧ old ≠ some devAddr)) :
    Progress translate gpuAddr (k + n) (some (devAddr + n)) := by
  rcases h with ⟨rfl, rfl⟩ | ⟨base, hk, rfl, hbase⟩
  · refine .inr ⟨devAddr, by omega, by rw [Nat.zero_add], fun j hlt => ?_⟩
    exact hj j (by omega)
  · obtain rfl : base + k = devAddr := by
      by_contra hne
      exact hold ⟨nofun, fun heq => hne (Option.some.inj heq)⟩
    refine .inr ⟨base, by omega, by rw [Nat.add_assoc], fun j hlt => ?_⟩
    rcases Nat.lt_or_ge j k with hlt' | hge
    · exact hbase j hlt'
    · have := hj (j - k) (by omega)
      rwa [show gpuAddr + k + (j - k) = gpuAddr + j by omega,
        show base + k + (j - k) = base + j by omega] at this

theorem Progress.broken (h : Progress translate gpuAddr k old)
    (hj : translate (gpuAddr + k) = some devAddr) (hold : old ≠ none ∧ old ≠ some devAddr) :
    ¬ Consecutive translate gpuAddr (k + 1) := by
  rintro ⟨other, hother⟩
  rcases h with ⟨-, rfl⟩ | ⟨base, hk, rfl, hbase⟩
  · exact hold.1 rfl
  · have hfirst := (hbase 0 hk).symm.trans (hother 0 (by omega))
    have hlast := hj.symm.trans (hother k (by omega))
    refine hold.2 ?_
    rw [hlast]
    congr 1
    have := Option.some.inj hfirst
    have := Option.some.inj hlast
    omega

theorem not_consecutive_of_hole (hj : translate (gpuAddr + k) = none) :
    ¬ Consecutive translate gpuAddr (k + 1) := by
  rintro ⟨devAddr, h⟩
  rw [h k (Nat.lt_succ_self k)] at hj
  cases hj

theorem continuityVisitor_keeps : continuityVisitor.Keeps translate gpuAddr size
    (fun k s => Progress translate gpuAddr k s.oldPageAddr)
    fun _ => ¬ Consecutive translate gpuAddr size where
  mapped k n s devAddr hI hrun hn hsize hj := by
    rw [continuityVisitor] at hrun ⊢
    dsimp only at hrun ⊢
    by_cases hold : s.oldPageAddr ≠ none ∧ s.oldPageAddr ≠ some devAddr
    · have hbroken := hI.broken (hj 0 hn) hold
      rw [if_pos hold]
      exact ⟨nofun, fun _ h => hbroken (h.mono (by omega))⟩
    · rw [if_neg hold]
      exact ⟨fun _ => hI.extend hn hj hold, fun hstop => absurd (hrun.symm.trans hstop) nofun⟩
  hole k n s hI _ hn hsize hj := by
    have hhole := not_consecutive_of_hole (k := k) (hj 0 hn)
    exact ⟨nofun, fun _ h => hhole (h.mono (by omega))⟩

theorem extentVisitor_keeps : extentVisitor.Keeps translate gpuAddr size
    (fun k s => s.rangeSoFar = k ∧ Progress translate gpuAddr k s.oldPageAddr)
    fun s => s.rangeSoFar < size ∧ Consecutive translate gpuAddr s.rangeSoFar ∧
      ¬ Consecutive translate gpuAddr (s.rangeSoFar + 1) where
  mapped k n s devAddr hI hrun hn hsize hj := by
    obtain ⟨rfl, hprogress⟩ := hI
    rw [extentVisitor] at hrun ⊢
    dsimp only at hrun ⊢
    by_cases hold : s.oldPageAddr ≠ none ∧ s.oldPageAddr ≠ some devAddr
    · rw [if_pos hold]
      exact ⟨nofun, fun _ => ⟨by dsimp only; omega, hprogress.consecutive,
        hprogress.broken (hj 0 hn) hold⟩⟩
    · rw [if_neg hold]
      exact ⟨fun _ => ⟨rfl, hprogress.extend hn hj hold⟩,
        fun hstop => absurd (hrun.symm.trans hstop) nofun⟩
  hole k n s hI _ hn hsize hj := by
    obtain ⟨rfl, hprogress⟩ := hI
    have hhole := not_consecutive_of_hole (k := s.rangeSoFar) (hj 0 hn)
    exact ⟨nofun, fun _ => ⟨by rw [extentVisitor]; dsimp only; omega, hprogress.consecutive, hhole⟩⟩

/-- The segments of a query at `stop`: closed ones, and an open one for a run that may go on. -/
inductive Shown (segment : Run → ℕ × ℕ) (stop : ℕ) : List Run → Submapped → Prop
  | closed {rs : List Run} (hrs : ∀ r ∈ rs.head?, r.stop < stop) :
    Shown segment stop rs ⟨rs.reverse.map segment, none, none⟩
  | opened {r : Run} {rs : List Run} (hr : r.stop = stop) :
    Shown segment stop (r :: rs) ⟨rs.reverse.map segment, some (segment r), some r.imageStop⟩

theorem Shown.split {segment : Run → ℕ × ℕ} {stop : ℕ} {rs : List Run} {s : Submapped}
    (h : Shown segment stop rs s) : s.split.result = rs.reverse.map segment := by
  cases h with
  | closed => exact List.append_nil _
  | opened => simp [Submapped.split]

theorem Shown.hole {segment : Run → ℕ × ℕ} {stop : ℕ} {rs : List Run} {s : Submapped}
    (h : Shown segment stop rs s) (hn : 0 < n) :
    Shown segment (stop + n) rs { s.split with oldPageAddr := none } := by
  have hsplit := h.split
  have hrs : ∀ r ∈ rs.head?, r.stop < stop + n := by
    intro r hr
    cases h with
    | closed hrs => exact Nat.lt_add_right n (hrs r hr)
    | opened hstop =>
      obtain rfl := Option.some.inj hr
      omega
  rw [show ({ s.split with oldPageAddr := none } : Submapped) =
    ⟨rs.reverse.map segment, none, none⟩ by rw [← hsplit]; rfl]
  exact .closed hrs

/-- A mapped piece, for a query whose segments start at `base`. -/
theorem Shown.mapped {segment : Run → ℕ × ℕ} {stop : ℕ} {rs : List Run} {s : Submapped}
    (h : Shown segment stop rs s) (base : ℕ) (hsegment : ∀ n, segment ⟨stop, devAddr, n⟩ = (base, n))
    (hextend : ∀ r k, segment { r with length := r.length + k } =
      ((segment r).1, (segment r).2 + k)) :
    let s' := if s.oldPageAddr ≠ none ∧ s.oldPageAddr ≠ some devAddr then s.split else s
    Shown segment (stop + n) (MaximalRuns.add rs stop devAddr n)
      { s' with
        lastSegment := match s'.lastSegment with
          | some seg => some (seg.1, seg.2 + n)
          | none => some (base, n)
        oldPageAddr := some (devAddr + n) } := by
  have hstop : ∀ rs, Shown segment (stop + n) (⟨stop, devAddr, n⟩ :: rs)
      ⟨rs.reverse.map segment, some (base, n), some (devAddr + n)⟩ := by
    intro rs
    rw [← hsegment]
    exact .opened rfl
  cases h with
  | closed hrs =>
    rw [if_neg fun hold => hold.1 rfl]
    have hadd : MaximalRuns.add rs stop devAddr n = ⟨stop, devAddr, n⟩ :: rs := by
      cases rs with
      | nil => rfl
      | cons r rs => exact if_neg fun hnext => absurd hnext.1 (Nat.ne_of_lt (hrs r rfl))
    rw [hadd]
    exact hstop rs
  | @opened r rs hr =>
    by_cases hnext : r.imageStop = devAddr
    · rw [if_neg fun hold => hold.2 (congrArg some hnext),
        show MaximalRuns.add (r :: rs) stop devAddr n = { r with length := r.length + n } :: rs from
          if_pos ⟨hr, hnext⟩]
      dsimp only
      rw [← hextend, ← hnext, ← hr, Run.imageStop, Run.stop, Nat.add_assoc, Nat.add_assoc]
      exact .opened rfl
    · rw [if_pos ⟨Option.some_ne_none _, fun heq => hnext (Option.some.inj heq)⟩,
        show MaximalRuns.add (r :: rs) stop devAddr n = ⟨stop, devAddr, n⟩ :: r :: rs from
          if_neg fun h => hnext h.2]
      have hresult := hstop (r :: rs)
      rw [List.reverse_cons, List.map_append] at hresult
      exact hresult

end Progresses

/-! ### The queries -/

section Queries

variable {g : Geometry} {m : MemoryManager} {gpuAddr size : ℕ}

theorem isContinuousRange_eq (hg : g.WellFormed) (h : m.Shape g)
    (ha : gpuAddr + size ≤ g.addressSpaceSize) :
    ∃ b, m.isContinuousRange g gpuAddr size = some b ∧
      (b = true ↔ Consecutive (m.lookup g) gpuAddr size) := by
  obtain ⟨s, hs, hI, hJ⟩ := rangeWalk_rule hg h continuityVisitor_keeps ha (s := ⟨none, true⟩)
    ⟨fun _ => .inl ⟨rfl, rfl⟩, nofun⟩
  refine ⟨s.result, by rw [isContinuousRange, hs, Option.map_some], fun hrun => ?_, fun hall => ?_⟩
  · exact (hI hrun).consecutive
  · by_contra hstop
    exact hJ (Bool.eq_false_of_not_eq_true hstop) hall

theorem maxContinuousRange_eq (hg : g.WellFormed) (h : m.Shape g)
    (ha : gpuAddr + size ≤ g.addressSpaceSize) :
    ∃ n, m.maxContinuousRange g gpuAddr size = some n ∧ n ≤ size ∧
      Consecutive (m.lookup g) gpuAddr n ∧
      ∀ k ≤ size, Consecutive (m.lookup g) gpuAddr k → k ≤ n := by
  obtain ⟨s, hs, hI, hJ⟩ := rangeWalk_rule hg h extentVisitor_keeps ha (s := ⟨none, 0, false⟩)
    ⟨fun _ => ⟨rfl, .inl ⟨rfl, rfl⟩⟩, nofun⟩
  refine ⟨s.rangeSoFar, by rw [maxContinuousRange, hs, Option.map_some], ?_⟩
  cases hrun : extentVisitor.running s with
  | true =>
    obtain ⟨hsize, hprogress⟩ := hI hrun
    rw [hsize]
    exact ⟨Nat.le_refl _, hprogress.consecutive, fun k hk _ => hk⟩
  | false =>
    obtain ⟨hlt, hconsecutive, hbroken⟩ := hJ hrun
    refine ⟨Nat.le_of_lt hlt, hconsecutive, fun k _ hk => ?_⟩
    by_contra hgt
    exact hbroken (hk.mono (by omega))

theorem submapped_eq {v : RangeVisitor Submapped} (segment : Run → ℕ × ℕ)
    (hg : g.WellFormed) (h : m.Shape g)
    (hmapped : ∀ stop devAddr n rs s, Shown segment stop rs s →
      Shown segment (stop + n) (MaximalRuns.add rs stop devAddr n) (v.mapped s stop devAddr n))
    (hhole : ∀ s n, v.hole s n = { s.split with oldPageAddr := none })
    (hrunning : ∀ s, v.running s = true) (ha : gpuAddr + size ≤ g.addressSpaceSize) :
    ∃ s, m.rangeWalk g v gpuAddr size ⟨[], none, none⟩ = some s ∧
      s.split.result = (MaximalRuns.runs (m.lookup g) gpuAddr size).map segment := by
  have keeps : v.Keeps (m.lookup g) gpuAddr size
      (fun k s => Shown segment (gpuAddr + k) (latestFirst (m.lookup g) gpuAddr k) s)
      fun _ => False := by
    refine ⟨fun k n s devAddr hI _ hn _ hj => ⟨fun _ => ?_, fun hstop => ?_⟩,
      fun k n s hI _ hn _ hj => ⟨fun _ => ?_, fun hstop => ?_⟩⟩
    · dsimp only
      rw [MaximalRuns.latestFirst_piece hn hj, ← Nat.add_assoc]
      exact hmapped _ _ _ _ _ hI
    · exact absurd ((hrunning _).symm.trans hstop) nofun
    · dsimp only
      rw [MaximalRuns.latestFirst_hole hj, hhole, ← Nat.add_assoc]
      exact hI.hole hn
    · exact absurd ((hrunning _).symm.trans hstop) nofun
  obtain ⟨s, hs, hI, -⟩ := rangeWalk_rule hg h keeps ha (s := ⟨[], none, none⟩)
    ⟨fun _ => .closed nofun, fun hstop => absurd ((hrunning _).symm.trans hstop) nofun⟩
  exact ⟨s, hs, (hI (hrunning s)).split⟩

theorem getSubmappedRange_eq (hg : g.WellFormed) (h : m.Shape g)
    (ha : gpuAddr + size ≤ g.addressSpaceSize) : m.getSubmappedRange g gpuAddr size =
      some ((MaximalRuns.runs (m.lookup g) gpuAddr size).map fun r => (r.start, r.length)) := by
  obtain ⟨s, hs, hresult⟩ := submapped_eq (v := submappedRangeVisitor)
    (fun r => (r.start, r.length)) hg h
    (fun stop devAddr n rs s hs => hs.mapped stop (fun _ => rfl) fun _ _ => rfl)
    (fun _ _ => rfl) (fun _ => rfl) ha
  rw [getSubmappedRange, hs, Option.map_some, hresult]

theorem getSubmappedDeviceRanges_runs (hg : g.WellFormed) (h : m.Shape g)
    (ha : gpuAddr + size ≤ g.addressSpaceSize) : m.getSubmappedDeviceRanges g gpuAddr size =
      some ((MaximalRuns.runs (m.lookup g) gpuAddr size).map fun r => (r.image, r.length)) := by
  obtain ⟨s, hs, hresult⟩ := submapped_eq (v := submappedVisitor.query)
    (fun r => (r.image, r.length)) hg h
    (fun stop devAddr n rs s hs => hs.mapped devAddr (fun _ => rfl) fun _ _ => rfl)
    (fun _ _ => rfl) (fun _ => rfl) ha
  rw [getSubmappedDeviceRanges, walk_eq, hs, Option.map_some, hresult]

/-- The big page of an address is mapped and its host pages are marked continuous. -/
def HostContinuous (g : Geometry) (m : MemoryManager) (gpuAddr : ℕ) : Prop :=
  m.big.getEntry g.bigPageBits gpuAddr = some .mapped ∧
    m.isBigPageContinuous (gpuAddr >>> g.bigPageBits) = some true

/-- The range does not leave the host-contiguous page of its first byte. -/
def InHostPage (g : Geometry) (m : MemoryManager) (gpuAddr size : ℕ) : Prop :=
  (HostContinuous g m gpuAddr → gpuAddr % g.bigPageSize + size ≤ g.bigPageSize) ∧
    (¬ HostContinuous g m gpuAddr → gpuAddr % devicePageSize + size ≤ devicePageSize)

/-- The range leaves a continuous big page, whose index stands in for its offset in the test. -/
def LeavesUnnoticed (g : Geometry) (m : MemoryManager) (gpuAddr size : ℕ) : Prop :=
  HostContinuous g m gpuAddr ∧ g.bigPageSize < (gpuAddr &&& g.bigPageMask) + size ∧
    ((gpuAddr >>> g.bigPageBits) &&& g.bigPageMask) + size ≤ g.bigPageSize

theorem isGranularRange_eq (hg : g.WellFormed) (h : m.Shape g) (ha : gpuAddr < g.addressSpaceSize)
    (size : ℕ) :
    ∃ b, m.isGranularRange g gpuAddr size = some b ∧
      ((b = true → InHostPage g m gpuAddr size) ↔ ¬ LeavesUnnoticed g m gpuAddr size) := by
  have hbig : gpuAddr / 2 ^ g.bigPageBits < g.bigPageTableSize := hg.bigIndex_lt ha
  have hsmall : gpuAddr / 2 ^ g.pageBits < g.pageTableSize := hg.index_lt ha
  have hentry := Table.getEntry_eq h.big hbig
  obtain ⟨word, hword⟩ := Option.isSome_iff_exists.mp
    (Packed.get_isSome 1 (show gpuAddr >>> g.bigPageBits <
      m.bigPageContinuous.length * continuousBits by
        rw [h.continuous, Nat.shiftRight_eq_div_pow]
        exact hbig))
  have hcontinuous : m.isBigPageContinuous (gpuAddr >>> g.bigPageBits) =
      some (decide (word ≠ 0)) := by rw [isBigPageContinuous, hword, Option.map_some]
  have hoffset : gpuAddr &&& g.bigPageMask = gpuAddr % g.bigPageSize :=
    Nat.and_two_pow_sub_one_eq_mod ..
  have hdevice : gpuAddr &&& devicePageMask = gpuAddr % devicePageSize :=
    Nat.and_two_pow_sub_one_eq_mod _ 12
  have hplain : ¬ HostContinuous g m gpuAddr → ∀ b : Bool,
      (b = true → gpuAddr % devicePageSize + size ≤ devicePageSize) →
      ((b = true → InHostPage g m gpuAddr size) ↔ ¬ LeavesUnnoticed g m gpuAddr size) :=
    fun hnot b hb => ⟨fun _ hleaves => hnot hleaves.1,
      fun _ htrue => ⟨fun hcont => absurd hcont hnot, fun _ => hb htrue⟩⟩
  rw [isGranularRange, hentry]
  dsimp only [bind, Option.bind]
  split
  case isTrue hmapped =>
    rw [hcontinuous]
    dsimp only
    split
    case isTrue hword =>
      have hcont : HostContinuous g m gpuAddr := ⟨by rw [hentry, hmapped], by rw [hcontinuous, hword]⟩
      refine ⟨_, rfl, fun hgood hleaves => ?_, fun hstays htrue => ?_⟩
      · have := (hgood (decide_eq_true hleaves.2.2)).1 hcont
        have hout := hleaves.2.1
        rw [hoffset] at hout
        omega
      · refine ⟨fun _ => ?_, fun hnot => absurd hcont hnot⟩
        by_contra hout
        rw [← hoffset] at hout
        exact hstays ⟨hcont, by omega, of_decide_eq_true htrue⟩
    case isFalse hword =>
      rw [hdevice]
      refine ⟨_, rfl, hplain (fun hcont => ?_) _ of_decide_eq_true⟩
      rw [HostContinuous, hcontinuous] at hcont
      exact hword (Option.some.inj hcont.2)
  case isFalse hmapped =>
    have hnot : ¬ HostContinuous g m gpuAddr := fun hcont => by
      rw [HostContinuous, hentry] at hcont
      exact hmapped (Option.some.inj hcont.1)
    rw [Table.getEntry_eq h.small hsmall]
    dsimp only
    split
    case isTrue => exact ⟨_, rfl, hplain hnot _ nofun⟩
    case isFalse =>
      rw [hdevice]
      exact ⟨_, rfl, hplain hnot _ of_decide_eq_true⟩

end Queries

/-! ### All queries of a range -/

structure RangesFollowed (g : Geometry) (m : MemoryManager) (gpuAddr size : ℕ) : Prop where
  continuous : ∃ b, m.isContinuousRange g gpuAddr size = some b ∧
    (b = true ↔ Consecutive (m.lookup g) gpuAddr size)
  longest : ∃ n, m.maxContinuousRange g gpuAddr size = some n ∧ n ≤ size ∧
    Consecutive (m.lookup g) gpuAddr n ∧
    ∀ k ≤ size, Consecutive (m.lookup g) gpuAddr k → k ≤ n
  submapped : ∃ runs, MaximalRuns.Maximal (m.lookup g) gpuAddr size runs ∧
    m.getSubmappedRange g gpuAddr size = some (runs.map fun r => (r.start, r.length)) ∧
    m.getSubmappedDeviceRanges g gpuAddr size = some (runs.map fun r => (r.image, r.length))
  granular : ∃ b, m.isGranularRange g gpuAddr size = some b ∧
    (b = true → InHostPage g m gpuAddr size)

/-- The queries of a range report what the translation of its bytes is, unless the range leaves a
continuous big page whose index and the size stay within the size of a big page. -/
theorem ranges_followed (g : Geometry) (m : MemoryManager) (gpuAddr size : ℕ) (hg : g.WellFormed)
    (h : m.Shape g) (hsize : 0 < size) (ha : gpuAddr + size ≤ g.addressSpaceSize) :
    RangesFollowed g m gpuAddr size ↔ ¬ LeavesUnnoticed g m gpuAddr size := by
  obtain ⟨b, hb, hgranular⟩ := isGranularRange_eq hg h
    (show gpuAddr < g.addressSpaceSize by omega) size
  constructor
  · intro hall
    obtain ⟨b', hb', himp⟩ := hall.granular
    obtain rfl := Option.some.inj (hb.symm.trans hb')
    exact hgranular.mp himp
  · intro hstays
    exact ⟨isContinuousRange_eq hg h ha, maxContinuousRange_eq hg h ha,
      ⟨_, MaximalRuns.maximal_runs .., getSubmappedRange_eq hg h ha,
        getSubmappedDeviceRanges_runs hg h ha⟩, b, hb, hgranular.mpr hstays⟩

/-- Host memory in one piece. -/
def flatDevice : DeviceMemory := ⟨fun page => some (2 ^ 40 + page * 2 ^ 12), fun _ => 0⟩

/-- The first big page, mapped to host memory in one piece. -/
theorem exists_bigPage : ∃ m, mapEx .new flatDevice (.new .new) 0 0x10000 0x10000 0 true = some m ∧
    m.Shape .new ∧ m.big.getEntry 16 0xffff = some .mapped ∧ m.isBigPageContinuous 0 = some true ∧
    m.lookup .new 0x10000 = none ∧ m.isGranularRange .new 0xffff 2 = some true := by
  have hshape : ∀ m, mapEx .new flatDevice (.new .new) 0 0x10000 0x10000 0 true = some m →
      m.Shape .new := by
    intro m hm
    obtain ⟨m', hm', hwrote⟩ := bigPageTableOp_wrote (d := flatDevice) new_wellFormed
      (agrees_new (fun _ => false) new_wellFormed).shape .mapped
      (show 0 + 0x10000 ≤ Geometry.addressSpaceSize .new by decide) 0x10000 0
    obtain rfl := Option.some.inj (hm'.symm.trans hm)
    exact hwrote.shape
  exact ⟨_, rfl, hshape _ rfl, rfl, rfl, rfl, rfl⟩

/-- The end of the big page. -/
theorem ranges_followed_bigPage : ∃ m,
    mapEx .new flatDevice (.new .new) 0 0x10000 0x10000 0 true = some m ∧
    RangesFollowed .new m 0xff00 0x100 := by
  obtain ⟨m, hm, hshape, -⟩ := exists_bigPage
  exact ⟨m, hm, (ranges_followed .new m 0xff00 0x100 new_wellFormed hshape (by decide)
    (by decide)).mpr fun hleaves => absurd hleaves.2.1 (by decide)⟩

/-- Two bytes across the end of the big page are granular, though the second is not mapped. -/
theorem granular_beyond_page : ∃ m,
    mapEx .new flatDevice (.new .new) 0 0x10000 0x10000 0 true = some m ∧
    m.isGranularRange .new 0xffff 2 = some true ∧ m.lookup .new 0x10000 = none ∧
    ¬ RangesFollowed .new m 0xffff 2 := by
  obtain ⟨m, hm, -, hentry, hcontinuous, hnext, hgranular⟩ := exists_bigPage
  refine ⟨m, hm, hgranular, hnext, fun hall => ?_⟩
  obtain ⟨b, hb, hpage⟩ := hall.granular
  obtain rfl := Option.some.inj (hgranular.symm.trans hb)
  exact absurd ((hpage rfl).1 ⟨hentry, hcontinuous⟩) (by decide)

end MemoryManager

end Ruzu.Gpu
