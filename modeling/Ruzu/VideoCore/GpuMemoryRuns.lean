import Mathlib
import Ruzu.VideoCore.GpuMemoryCalls
import Ruzu.VideoCore.GpuMemoryWalks

/-!
# Runs over an address space

Whatever the calls were, each address translates to what the last call that
covers it says, and so do reads, writes and the reports of an unmap. The one
call that faults maps small pages up to the top of the address space.
-/

set_option autoImplicit false

namespace Ruzu.Gpu

open Gpu.MemoryManager

variable {g : Geometry} {d : DeviceMemory} {owner : ℕ → Bool} {c : Call} {calls : List Call}
  {m m' : MemoryManager}

/-! ### One call -/

theorem Agrees.of_wrote {small big : ℕ → Backing} (h : Agrees g owner calls m)
    {kindMap : RangeMap UInt8} (hw : Wrote g m m' small big kindMap)
    (htables : ∀ b : Bool, ∀ j < g.tableSizeOf b, (if b then big else small) j =
      if ownerAt g owner (j * g.pageSizeOf b) = b then
        backingAt g owner (calls ++ [c]) (j * g.pageSizeOf b) else .free)
    (hkind : kindMap.Started ∧ kindMap.nullValue = invalidKind ∧
      ∀ a < 2 ^ 63, kindMap.getValueAt a = if c.Contains a then c.kind else m.getPageKind a) :
    Agrees g owner (calls ++ [c]) m' where
  shape := hw.shape
  started := hw.kindMap ▸ hkind.1
  nullValue := hw.kindMap ▸ hkind.2.1
  tables b j hj := by
    rw [← htables b j hj]
    cases b with
    | false => exact congrFun hw.small j
    | true => exact congrFun hw.big j
  kinds a ha := by
    rw [getPageKind, hw.kindMap, hkind.2.2 a ha, kindAt_append, h.kinds a ha]

theorem Call.Allowed.stop_lt (hg : g.WellFormed) (hc : c.Allowed g owner) :
    c.gpuAddr + c.size < 2 ^ 63 :=
  hc.inside.trans_lt (Nat.pow_lt_pow_right (by decide) hg.addresses)

/-- The kinds after one table has been worked on. -/
theorem Agrees.kinds_map (hg : g.WellFormed) (h : Agrees g owner calls m)
    (hc : c.Allowed g owner) :
    let kindMap := m.kindMap.map c.gpuAddr (c.gpuAddr + c.size) c.kind
    kindMap.Started ∧ kindMap.nullValue = invalidKind ∧
      ∀ a < 2 ^ 63, kindMap.getValueAt a = if c.Contains a then c.kind else m.getPageKind a :=
  ⟨h.started.map (Nat.le_add_right _ _) (hc.stop_lt hg) _, h.nullValue, fun _ ha =>
    RangeMap.getValueAt_map h.started (Nat.le_add_right _ _) (hc.stop_lt hg) ha _⟩

/-- A call that works on one table. -/
theorem Agrees.one_table (hg : g.WellFormed) (h : Agrees g owner calls m)
    (hc : c.Allowed g owner) {b : Bool} (huses : ∀ a, c.usesBig g owner a = b)
    (htop : c.entryType = .mapped → b = false → c.gpuAddr + c.size < g.addressSpaceSize) :
    ∃ m', (if b then m.bigPageTableOp g d c.entryType c.gpuAddr c.devAddr c.size c.kind
      else m.pageTableOp g c.entryType c.gpuAddr c.devAddr c.size c.kind) = some m' ∧
      Agrees g owner (calls ++ [c]) m' := by
  have hfilled := fun j => h.filled (j := j) hg hc (.inl huses)
  have hother : ∀ b', b' ≠ b → ∀ a, c.usesBig g owner a ≠ b' := fun b' hne a heq =>
    hne (heq.symm.trans (huses a))
  cases b with
  | true =>
    obtain ⟨m', hop, hw⟩ := bigPageTableOp_wrote (d := d) hg h.shape c.entryType hc.inside
      c.devAddr c.kind
    refine ⟨m', hop, h.of_wrote hw (fun b' j hj => ?_) (h.kinds_map hg hc)⟩
    cases b' with
    | true => exact hfilled j hj
    | false => exact h.unfilled hg hc (hother false (by decide)) hj
  | false =>
    obtain ⟨m', hop, hw⟩ := pageTableOp_wrote hg h.shape c.entryType hc.inside
      (fun he => htop he rfl) c.devAddr c.kind
    refine ⟨m', hop, h.of_wrote hw (fun b' j hj => ?_) (h.kinds_map hg hc)⟩
    cases b' with
    | false => exact hfilled j hj
    | true => exact h.unfilled hg hc (hother true (by decide)) hj

theorem foldl_notify (ranges : List (ℕ × ℕ)) (op : ℕ × ℕ → RasterizerOp) (m : MemoryManager) :
    ranges.foldl (fun m r => m.notify (op r)) m =
      { m with rasterizerOps := m.rasterizerOps ++ ranges.map op } := by
  induction ranges generalizing m with
  | nil => rw [List.foldl_nil, List.map_nil, List.append_nil]
  | cons r ranges ih =>
    rw [List.foldl_cons, ih, notify, List.map_cons, List.append_assoc, List.singleton_append]

theorem Agrees.empty (h : Agrees g owner calls m) (hsize : c.size = 0) :
    Agrees g owner (calls ++ [c]) m where
  shape := h.shape
  started := h.started
  nullValue := h.nullValue
  tables b j hj := by
    have hout : ∀ a, ¬ c.Covers g owner a := fun a => by
      rw [Call.Covers, Call.Meets]
      omega
    rw [h.tables b j hj, backingAt_append, if_neg (hout _)]
  kinds a ha := by
    have hout : ¬ c.Contains a := by
      rw [Call.Contains]
      omega
    rw [h.kinds a ha, kindAt_append, if_neg hout]

/-- An unmap sweeps both tables. -/
theorem Agrees.both_tables (hg : g.WellFormed) (h : Agrees g owner calls m)
    (hc : c.Allowed g owner) (hfree : c.entryType = .free) :
    ∃ m', ((m.bigPageTableOp g d .free c.gpuAddr c.devAddr c.size c.kind).bind fun m =>
      m.pageTableOp g .free c.gpuAddr c.devAddr c.size c.kind) = some m' ∧
      Agrees g owner (calls ++ [c]) m' ∧ ∃ ops, m'.rasterizerOps = m.rasterizerOps ++ ops ∧
        ∀ op ∈ ops, ∃ gpuAddr size, op = .modifyGpuMemory gpuAddr size := by
  obtain ⟨m₁, hbig, hw₁⟩ := bigPageTableOp_wrote (d := d) hg h.shape .free hc.inside c.devAddr
    c.kind
  obtain ⟨m₂, hsmall, hw₂⟩ := pageTableOp_wrote hg hw₁.shape .free hc.inside nofun c.devAddr
    c.kind
  rw [hw₁.small, hw₁.big, hw₁.kindMap] at hw₂
  have hw := hw₁.trans hw₂
  have hfilled := fun b j => h.filled (b := b) (j := j) hg hc (.inr hfree)
  rw [hfree] at hfilled
  obtain ⟨hstarted, hnull, hkinds⟩ := h.kinds_map hg hc
  refine ⟨m₂, by rw [hbig, Option.bind_some, hsmall], h.of_wrote hw (fun b j hj => ?_)
    ⟨hstarted.map (Nat.le_add_right _ _) (hc.stop_lt hg) _, hnull, fun a ha => ?_⟩, hw.ops⟩
  · cases b with
    | true => exact hfilled true j hj
    | false => exact hfilled false j hj
  · rw [RangeMap.getValueAt_map hstarted (Nat.le_add_right _ _) (hc.stop_lt hg) ha, hkinds a ha]
    change (if c.Contains a then c.kind else if c.Contains a then c.kind else _) = _
    by_cases hin : c.Contains a
    · rw [if_pos hin, if_pos hin]
    · rw [if_neg hin]

/-- What an unmap reports, and the state after it. -/
theorem Agrees.unmap (hg : g.WellFormed) (h : Agrees g owner calls m) {gpuAddr size : ℕ}
    (hc : (Call.unmap gpuAddr size).Allowed g owner) :
    ∃ m' ranges ops, m.unmap g d gpuAddr size = some m' ∧
      Agrees g owner (calls ++ [.unmap gpuAddr size]) m' ∧
      m'.rasterizerOps =
        m.rasterizerOps ++ (ranges.map fun r => .unmapMemory r.1 r.2) ++ ops ∧
      (∀ op ∈ ops, ∃ gpuAddr size, op = .modifyGpuMemory gpuAddr size) ∧
      addresses ranges = translations (m.lookup g) gpuAddr size := by
  rw [MemoryManager.unmap]
  split
  case isTrue hsize =>
    subst hsize
    exact ⟨m, [], [], rfl, h.empty rfl, by simp, nofun, rfl⟩
  case isFalse hsize =>
    have hinside : gpuAddr + size ≤ g.addressSpaceSize := hc.inside
    obtain ⟨ranges, hranges, haddresses⟩ := getSubmappedDeviceRanges_eq hg h.shape hinside
    obtain ⟨m₁, hm₁⟩ : ∃ m₁ : MemoryManager, m₁ =
        { m with
          rasterizerOps := m.rasterizerOps ++ ranges.map fun r => .unmapMemory r.1 r.2 } :=
      ⟨_, rfl⟩
    have h₁ : Agrees g owner calls m₁ := by
      subst hm₁
      exact ⟨⟨h.shape.small, h.shape.big, h.shape.continuous, h.shape.levels⟩, h.started,
        h.nullValue, h.tables, h.kinds⟩
    obtain ⟨m', hops, hagrees, ops, hlog, hmodify⟩ := h₁.both_tables (d := d) hg hc rfl
    refine ⟨m', ranges, ops, ?_, hagrees, ?_, hmodify, haddresses⟩
    · rw [hranges, Option.bind_eq_bind, Option.bind_some, foldl_notify, ← hm₁]
      exact hops
    · rw [hlog, hm₁]

/-- An allowed call does not fault, up to a map of small pages that reaches the top. -/
theorem Agrees.apply (hg : g.WellFormed) (h : Agrees g owner calls m) (hc : c.Allowed g owner)
    (htop : c.BelowTop g) : ∃ m', c.apply g d m = some m' ∧ Agrees g owner (calls ++ [c]) m' := by
  cases c with
  | mapEx gpuAddr devAddr size kind b =>
    exact h.one_table hg hc (fun _ => rfl) fun _ hb => by
      subst hb
      exact htop
  | mapSparseEx gpuAddr size b => exact h.one_table hg hc (fun _ => rfl) nofun
  | unmap gpuAddr size =>
    obtain ⟨m', _, _, hunmap, hagrees, _⟩ := h.unmap (d := d) hg hc
    exact ⟨m', hunmap, hagrees⟩

/-- That map faults. -/
theorem apply_top (hg : g.WellFormed) (h : m.Shape g) (hc : c.Allowed g owner)
    (htop : ¬ c.BelowTop g) : c.apply g d m = none := by
  cases c with
  | mapEx gpuAddr devAddr size kind b =>
    cases b with
    | true => exact absurd trivial htop
    | false =>
      have hinside := hc.inside
      rw [Call.BelowTop] at htop
      rw [Call.gpuAddr, Call.size] at hinside
      rw [Call.apply, mapEx, if_neg Bool.false_ne_true, pageTableOp, reserveFor, if_pos rfl,
        reserveRange_top hg h (by omega)]
      rfl
  | mapSparseEx | unmap => exact absurd trivial htop

/-! ### Addresses inside a page -/

def Backing.offset (b : Backing) (k : ℕ) : Backing :=
  match b with
  | .mapped devAddr => .mapped (devAddr + k)
  | b => b

/-- The first address of the page around an address, in the table it belongs to. -/
def pageStart (g : Geometry) (owner : ℕ → Bool) (a : ℕ) : ℕ :=
  a / g.pageSizeOf (ownerAt g owner a) * g.pageSizeOf (ownerAt g owner a)

theorem div_page {n k : ℕ} (hk : 0 < k) (h : k ∣ n) (a : ℕ) : a / k * k / n = a / n := by
  obtain ⟨q, rfl⟩ := h
  rw [← Nat.div_div_eq_div_mul, Nat.mul_div_cancel _ hk, Nat.div_div_eq_div_mul]

theorem ownerAt_page (hg : g.WellFormed) (b : Bool) (a : ℕ) :
    ownerAt g owner (a / g.pageSizeOf b * g.pageSizeOf b) = ownerAt g owner a := by
  rw [ownerAt, ownerAt, div_page (Geometry.pageSizeOf_pos b) (hg.pageSizeOf_dvd b)]

theorem Call.Allowed.covers_pageStart (hg : g.WellFormed) (hc : c.Allowed g owner) (a : ℕ) :
    c.Covers g owner (pageStart g owner a) ↔ c.Covers g owner a := by
  rw [pageStart, hc.covers_page hg (ownerAt_page hg _ a), hc.covers_iff hg]
  rfl

theorem Call.Allowed.backing_pageStart (hg : g.WellFormed) (hc : c.Allowed g owner) {a : ℕ}
    (hcov : c.Covers g owner a) : c.backing a =
      (c.backing (pageStart g owner a)).offset (a % g.pageSizeOf (ownerAt g owner a)) := by
  have hpos := Geometry.pageSizeOf_pos (g := g) (ownerAt g owner a)
  have hm := (hc.covers_page hg (ownerAt_page hg _ a)).mp ((hc.covers_pageStart hg a).mpr hcov)
  have hstart := hc.start_page hg hm
  rw [ownerAt_page hg] at hstart
  have hle : c.gpuAddr ≤ pageStart g owner a := by
    obtain ⟨q, hq⟩ := hstart
    rw [Call.Meets, hq] at hm
    rw [pageStart, hq, Nat.mul_comm (a / _)]
    refine Nat.mul_le_mul_left _ (Nat.le_of_lt_succ (Nat.lt_of_mul_lt_mul_left
      (a := g.pageSizeOf (ownerAt g owner a)) ?_))
    rw [Nat.mul_succ, Nat.mul_comm _ (a / _)]
    omega
  have hsum : pageStart g owner a + a % g.pageSizeOf (ownerAt g owner a) = a :=
    Nat.div_add_mod' _ _
  cases c with
  | mapEx gpuAddr devAddr size kind b =>
    rw [Call.gpuAddr] at hle
    rw [Call.backing, Call.backing, Backing.offset, Nat.add_assoc]
    congr 2
    omega
  | mapSparseEx | unmap => rfl

theorem backingAt_pageStart (hg : g.WellFormed) (allowed : ∀ c ∈ calls, c.Allowed g owner)
    (a : ℕ) : backingAt g owner calls a =
      (backingAt g owner calls (pageStart g owner a)).offset
        (a % g.pageSizeOf (ownerAt g owner a)) := by
  induction calls using List.reverseRecOn with
  | nil => rfl
  | append_singleton calls c ih =>
    have hc := allowed c (List.mem_append_right _ (List.mem_singleton_self c))
    rw [backingAt_append, backingAt_append]
    by_cases hcov : c.Covers g owner a
    · rw [if_pos hcov, if_pos ((hc.covers_pageStart hg a).mpr hcov)]
      exact hc.backing_pageStart hg hcov
    · rw [if_neg hcov, if_neg fun h => hcov ((hc.covers_pageStart hg a).mp h)]
      exact ih fun c' h => allowed c' (List.mem_append_left _ h)

/-- What the tables say about an address is what the calls say. -/
theorem Agrees.backing_eq (hg : g.WellFormed) (h : Agrees g owner calls m)
    (allowed : ∀ c ∈ calls, c.Allowed g owner) {a : ℕ} (ha : a < g.addressSpaceSize) (b : Bool) :
    ((m.table b).backing (a / g.pageSizeOf b)).offset (a % g.pageSizeOf b) =
      if ownerAt g owner a = b then backingAt g owner calls a else .free := by
  have hindex : a / g.pageSizeOf b < g.tableSizeOf b := by
    cases b with
    | false => exact hg.index_lt ha
    | true => exact hg.bigIndex_lt ha
  rw [h.tables b _ hindex, ownerAt_page hg]
  split
  case isTrue hb =>
    rw [backingAt_pageStart hg allowed a, pageStart, hb]
  case isFalse => rfl

theorem Agrees.lookup_eq (hg : g.WellFormed) (h : Agrees g owner calls m)
    (allowed : ∀ c ∈ calls, c.Allowed g owner) {a : ℕ} (ha : a < g.addressSpaceSize) :
    m.lookup g a = translationAt g owner calls a ∧
      (m.big.backing (a / g.bigPageSize) = .reserved →
        m.small.backing (a / g.pageSize) = .free) := by
  have hbig := h.backing_eq hg allowed ha true
  have hsmall := h.backing_eq hg allowed ha false
  change (m.big.backing (a / g.bigPageSize)).offset (a % g.bigPageSize) = _ at hbig
  change (m.small.backing (a / g.pageSize)).offset (a % g.pageSize) = _ at hsmall
  rw [MemoryManager.lookup, translationAt]
  cases howner : ownerAt g owner a with
  | true =>
    rw [howner, if_pos rfl] at hbig
    rw [howner, if_neg (by decide)] at hsmall
    have hfree : m.small.backing (a / g.pageSize) = .free := by
      cases hb : m.small.backing (a / g.pageSize) with
      | free => rfl
      | reserved | mapped =>
        rw [hb] at hsmall
        cases hsmall
    refine ⟨?_, fun _ => hfree⟩
    rw [← hbig, hfree]
    cases m.big.backing (a / g.bigPageSize) <;> rfl
  | false =>
    rw [howner, if_neg (by decide)] at hbig
    rw [howner, if_pos rfl] at hsmall
    have hfree : m.big.backing (a / g.bigPageSize) = .free := by
      cases hb : m.big.backing (a / g.bigPageSize) with
      | free => rfl
      | reserved | mapped =>
        rw [hb] at hbig
        cases hbig
    refine ⟨?_, fun hreserved => absurd (hfree.symm.trans hreserved) (by decide)⟩
    rw [← hsmall, hfree]
    cases m.small.backing (a / g.pageSize) <;> rfl

/-! ### Whole runs -/

/-- What a caller sees of a manager: translations, kinds, reads, writes and the reports of an
unmap are those of the calls. -/
structure Follows (g : Geometry) (owner : ℕ → Bool) (calls : List Call) (m : MemoryManager) :
    Prop where
  translation : ∀ a, m.gpuToCpuAddress g a = some (translationAt g owner calls a)
  kind : ∀ a < 2 ^ 64, m.getPageKind a = kindAt calls a
  read : ∀ d gpuSrc n, gpuSrc + n ≤ g.addressSpaceSize → m.readBlockUnsafe g d gpuSrc n =
    some ((List.range n).map fun i => readAt d (translationAt g owner calls) (gpuSrc + i))
  write : ∀ d gpuDest src, gpuDest + src.length ≤ g.addressSpaceSize →
    m.writeBlockUnsafe g d gpuDest src =
      some (writeAt d (translationAt g owner calls) gpuDest src src.length)
  report : ∀ d gpuAddr size, (Call.unmap gpuAddr size).Allowed g owner →
    ∃ m' ranges ops, m.unmap g d gpuAddr size = some m' ∧
      m'.rasterizerOps =
        m.rasterizerOps ++ (ranges.map fun r => .unmapMemory r.1 r.2) ++ ops ∧
      (∀ op ∈ ops, ∃ gpuAddr size, op = .modifyGpuMemory gpuAddr size) ∧
      addresses ranges = translations (translationAt g owner calls) gpuAddr size

theorem Call.Allowed.covers_lt (hg : g.WellFormed) (hc : c.Allowed g owner) {a : ℕ}
    (hcov : c.Covers g owner a) : a < g.addressSpaceSize := by
  have hm := hcov.granule hg
  have hlt : a / g.bigPageSize < g.bigPageTableSize := by
    refine Nat.lt_of_mul_lt_mul_right (a := g.bigPageSize) ?_
    have hinside := hc.inside
    rw [Call.Meets] at hm
    rw [hg.bigPageSize_mul]
    omega
  rw [← hg.bigPageSize_mul]
  exact (Nat.div_lt_iff_lt_mul Geometry.bigPageSize_pos).mp hlt

theorem translationAt_high (hg : g.WellFormed) (allowed : ∀ c ∈ calls, c.Allowed g owner) {a : ℕ}
    (ha : g.addressSpaceSize ≤ a) : translationAt g owner calls a = none := by
  have hnone : (calls.reverse.find? fun c => decide (c.Covers g owner a)) = none := by
    refine List.find?_eq_none.mpr fun c hc hcov => ?_
    have hlt := (allowed c (List.mem_reverse.mp hc)).covers_lt hg (of_decide_eq_true hcov)
    exact absurd hlt (Nat.not_lt.mpr ha)
  rw [translationAt, backingAt, hnone]
  rfl

theorem kindAt_high (hg : g.WellFormed) (allowed : ∀ c ∈ calls, c.Allowed g owner) {a : ℕ}
    (ha : 2 ^ 63 ≤ a) : kindAt calls a = invalidKind := by
  have hnone : (calls.reverse.find? fun c => decide (c.Contains a)) = none := by
    refine List.find?_eq_none.mpr fun c hc hin => ?_
    have hlt := (allowed c (List.mem_reverse.mp hc)).stop_lt hg
    exact absurd ((of_decide_eq_true hin).2.trans hlt) (Nat.not_lt.mpr ha)
  rw [kindAt, hnone]

theorem Agrees.follows (hg : g.WellFormed) (h : Agrees g owner calls m)
    (allowed : ∀ c ∈ calls, c.Allowed g owner) : Follows g owner calls m where
  translation a := by
    rcases Nat.lt_or_ge a g.addressSpaceSize with hlt | hge
    · obtain ⟨hlookup, hreserved⟩ := h.lookup_eq hg allowed hlt
      rw [gpuToCpuAddress_eq hg h.shape hlt hreserved, hlookup]
    · rw [gpuToCpuAddress, if_pos hge, translationAt_high hg allowed hge]
  kind a ha := by
    rcases Nat.lt_or_ge a (2 ^ 63) with hlt | hge
    · exact h.kinds a hlt
    · rw [getPageKind, RangeMap.getValueAt_high hge ha, h.nullValue, kindAt_high hg allowed hge]
  read d gpuSrc n hn := by
    rw [readBlockUnsafe_eq hg h.shape hn]
    refine congrArg some (List.map_congr_left fun i hi => ?_)
    have hlt := List.mem_range.mp hi
    rw [readAt, readAt, (h.lookup_eq hg allowed (by omega)).1]
  write d gpuDest src hn := by
    rw [writeBlockUnsafe_eq hg h.shape hn]
    refine congrArg some (List.foldl_ext _ _ _ fun d i hi => ?_)
    have hlt := List.mem_range.mp hi
    rw [(h.lookup_eq hg allowed (by omega)).1]
  report d gpuAddr size hc := by
    obtain ⟨m', ranges, ops, hunmap, -, hlog, hmodify, haddresses⟩ := h.unmap (d := d) hg hc
    refine ⟨m', ranges, ops, hunmap, hlog, hmodify, haddresses.trans ?_⟩
    refine List.filterMap_congr fun i hi => ?_
    have hlt := List.mem_range.mp hi
    have hinside : gpuAddr + size ≤ g.addressSpaceSize := hc.inside
    exact (h.lookup_eq hg allowed (by omega)).1

theorem exec_append (run : List (DeviceMemory × Call)) (d : DeviceMemory) (c : Call) :
    exec g (run ++ [(d, c)]) = (exec g run).bind fun m => c.apply g d m := by
  rw [exec, List.foldlM_append]
  simp [exec]

theorem exec_agrees (hg : g.WellFormed) (run : List (DeviceMemory × Call))
    (allowed : ∀ s ∈ run, s.2.Allowed g owner) (below : ∀ s ∈ run, s.2.BelowTop g) :
    ∃ m, exec g run = some m ∧ Agrees g owner (run.map Prod.snd) m := by
  induction run using List.reverseRecOn with
  | nil => exact ⟨_, rfl, agrees_new owner hg⟩
  | append_singleton run s ih =>
    have hlast := List.mem_append_right run (List.mem_singleton_self s)
    obtain ⟨m, hm, hagrees⟩ := ih (fun s hs => allowed s (List.mem_append_left _ hs))
      fun s hs => below s (List.mem_append_left _ hs)
    obtain ⟨m', hm', hagrees'⟩ := hagrees.apply (d := s.1) hg (allowed s hlast) (below s hlast)
    refine ⟨m', by rw [exec_append, hm, Option.bind_some, hm'], ?_⟩
    rwa [List.map_append, List.map_singleton]

/-- A run that has not faulted has not mapped small pages up to the top. -/
theorem exec_below (hg : g.WellFormed) (run : List (DeviceMemory × Call))
    (allowed : ∀ s ∈ run, s.2.Allowed g owner) (hexec : (exec g run).isSome) :
    ∀ s ∈ run, s.2.BelowTop g := by
  induction run using List.reverseRecOn with
  | nil => exact nofun
  | append_singleton run s ih =>
    have hlast := List.mem_append_right run (List.mem_singleton_self s)
    have hallowed := fun s hs => allowed s (List.mem_append_left _ hs)
    rw [exec_append] at hexec
    have hbelow := ih hallowed (Option.isSome_of_isSome_bind hexec)
    obtain ⟨m, hm, hagrees⟩ := exec_agrees hg run hallowed hbelow
    rw [hm, Option.bind_some] at hexec
    intro s' hs'
    rcases List.mem_append.mp hs' with hold | hnew
    · exact hbelow s' hold
    · rw [List.mem_singleton.mp hnew]
      by_contra htop
      rw [apply_top hg hagrees.shape (allowed s hlast) htop] at hexec
      cases hexec

/-- A run of allowed calls does what the calls say, without a fault, exactly when no map of
small pages reaches the top of the address space. -/
theorem calls_followed (g : Geometry) (owner : ℕ → Bool) (run : List (DeviceMemory × Call))
    (hg : g.WellFormed) (allowed : ∀ s ∈ run, s.2.Allowed g owner) :
    (∃ m, exec g run = some m ∧ Follows g owner (run.map Prod.snd) m) ↔
      ∀ s ∈ run, s.2.BelowTop g := by
  constructor
  · rintro ⟨m, hm, -⟩
    exact exec_below hg run allowed (by rw [hm]; rfl)
  · intro below
    obtain ⟨m, hm, hagrees⟩ := exec_agrees hg run allowed below
    refine ⟨m, hm, hagrees.follows hg fun c hc => ?_⟩
    obtain ⟨s, hs, rfl⟩ := List.mem_map.mp hc
    exact allowed s hs

theorem new_wellFormed : Geometry.new.WellFormed where
  devicePage := by decide
  nested := by decide
  levels := by decide
  words := by decide
  addresses := by decide

/-- A big page, a small one beside it, and the big page again without its end. -/
theorem calls_followed_new : ∃ m,
    exec .new [(⟨fun _ => none, fun _ => 0⟩, .mapEx 0x10000 0x7000 0x10000 0x06 true),
      (⟨some, fun _ => 0⟩, .mapEx 0x20000 0x3000 0x1000 0 false),
      (⟨some, fun _ => 0⟩, .unmap 0x10000 0xf000)] = some m ∧
    Follows .new (· == 1) [.mapEx 0x10000 0x7000 0x10000 0x06 true,
      .mapEx 0x20000 0x3000 0x1000 0 false, .unmap 0x10000 0xf000] m := by
  refine (calls_followed .new (· == 1) _ new_wellFormed fun s hs => ?_).mpr fun s hs => ?_
  · simp only [List.mem_cons, List.not_mem_nil, or_false] at hs
    rcases hs with rfl | rfl | rfl
    · have hgranule := fun p hp => Call.Meets.granule_eq
        (c := .mapEx 0x10000 0x7000 0x10000 0x06 true) (p := p) (n := 0x10000) hp 1 (by decide) (by decide)
      exact ⟨by decide, by decide, fun p hp => by rw [hgranule p hp]; decide,
        fun p hp => by rw [hgranule p hp]; rfl, fun _ _ _ _ _ h => by cases h; decide⟩
    · have hgranule := fun p hp => Call.Meets.granule_eq
        (c := .mapEx 0x20000 0x3000 0x1000 0 false) (p := p) (n := 0x10000) hp 2 (by decide) (by decide)
      exact ⟨by decide, by decide, fun p hp => by rw [hgranule p hp]; decide,
        fun p hp => by rw [hgranule p hp]; rfl, fun _ _ _ _ _ h => by cases h; decide⟩
    · have hgranule := fun p hp => Call.Meets.granule_eq
        (c := .unmap 0x10000 0xf000) (p := p) (n := 0x10000) hp 1 (by decide) (by decide)
      exact ⟨by decide, by decide, fun p hp => by rw [hgranule p hp]; decide,
        fun p hp => by rw [hgranule p hp]; rfl, nofun⟩
  · simp only [List.mem_cons, List.not_mem_nil, or_false] at hs
    rcases hs with rfl | rfl | rfl
    · trivial
    · exact (by decide : 0x20000 + 0x1000 < 2 ^ 40)
    · trivial

/-- The last small page of the address space cannot be mapped. -/
theorem last_page_faults :
    (Call.mapEx (2 ^ 40 - 4096) 0 4096 0 false).Allowed .new (fun _ => false) ∧
      exec .new [(⟨fun _ => none, fun _ => 0⟩, .mapEx (2 ^ 40 - 4096) 0 4096 0 false)] = none := by
  have hallowed : (Call.mapEx (2 ^ 40 - 4096) 0 4096 0 false).Allowed .new (fun _ => false) :=
    { inside := by decide
      pages := by decide
      start := fun _ _ => by decide
      split := fun _ _ => rfl
      device := fun _ _ _ _ _ h => by cases h; decide }
  refine ⟨hallowed, ?_⟩
  rw [exec, List.foldlM_cons, apply_top new_wellFormed
    (agrees_new (fun _ => false) new_wellFormed).shape hallowed (Nat.lt_irrefl _)]
  rfl

end Ruzu.Gpu
