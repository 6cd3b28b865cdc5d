import Ruzu.VideoCore.GpuMemoryQueries
import Ruzu.VideoCore.GpuMemoryTables

/-!
# Walks over a range

Each walker cuts its range at the pages and hands the pieces to a visitor. A
visitor that keeps a statement about the bytes done so far ends with the
statement about the whole range.
-/

set_option autoImplicit false

namespace Ruzu.Gpu

namespace MemoryManager

variable (g : Geometry) (m : MemoryManager)

/-- The translation that the walkers use: small pages count where the big page is free. -/
def lookup (a : ℕ) : Option ℕ :=
  match m.big.backing (a / g.bigPageSize) with
  | .mapped base => some (base + a % g.bigPageSize)
  | .reserved => none
  | .free =>
    match m.small.backing (a / g.pageSize) with
    | .mapped base => some (base + a % g.pageSize)
    | _ => none

variable {σ : Type}

/-- The visitor keeps `I`, a statement about the first bytes of the range and the state. -/
structure Visitor.Keeps (v : Visitor σ) (translate : ℕ → Option ℕ) (gpuAddr size : ℕ)
    (I : ℕ → σ → Prop) : Prop where
  mapped : ∀ k n s devAddr, I k s → k + n ≤ size →
    (∀ j < n, translate (gpuAddr + k + j) = some (devAddr + j)) →
    I (k + n) (v.mapped s devAddr n)
  hole : ∀ k n s, I k s → k + n ≤ size → (∀ j < n, translate (gpuAddr + k + j) = none) →
    I (k + n) (v.hole s n)

variable {g m} {v : Visitor σ} {gpuAddr size : ℕ} {I : ℕ → σ → Prop}

/-- The bytes of one page. -/
theorem page_split {p offset n j : ℕ} (index : ℕ) (hj : j < n) (hn : n ≤ p - offset) :
    (index * p + offset + j) / p = index ∧ (index * p + offset + j) % p = offset + j := by
  have hp : 0 < p := by omega
  rw [Nat.add_assoc, Nat.mul_comm, Nat.mul_add_div hp, Nat.mul_add_mod, Nat.div_eq_of_lt (by omega),
    Nat.mod_eq_of_lt (by omega), Nat.add_zero]
  exact ⟨rfl, rfl⟩

/-! ### Pieces of one page -/

/-- The bytes of a piece in one small page whose big page is free. -/
theorem lookup_small {pageIndex pageOffset n k : ℕ}
    (haddr : gpuAddr + k = pageIndex * g.pageSize + pageOffset)
    (hn : n ≤ g.pageSize - pageOffset)
    (hfree : ∀ j < n, m.big.backing ((gpuAddr + k + j) / g.bigPageSize) = .free) :
    ∀ j < n, m.lookup g (gpuAddr + k + j) =
      match m.small.backing pageIndex with
      | .mapped base => some (base + (pageOffset + j))
      | _ => none := by
  intro j hj
  obtain ⟨hdiv, hmod⟩ := page_split pageIndex hj hn
  rw [lookup, hfree j hj, haddr, hdiv, hmod]

/-! ### The rule for queries -/

/-- While the query runs it keeps `I`, a statement about the first bytes of the range and the
state; when it stops, the state meets `J`. -/
def RangeVisitor.Outcome (v : RangeVisitor σ) (I : ℕ → σ → Prop) (J : σ → Prop) (k : ℕ) (s : σ) :
    Prop :=
  (v.running s = true → I k s) ∧ (v.running s = false → J s)

structure RangeVisitor.Keeps (v : RangeVisitor σ) (translate : ℕ → Option ℕ) (gpuAddr size : ℕ)
    (I : ℕ → σ → Prop) (J : σ → Prop) : Prop where
  mapped : ∀ k n s devAddr, I k s → v.running s = true → 0 < n → k + n ≤ size →
    (∀ j < n, translate (gpuAddr + k + j) = some (devAddr + j)) →
    v.Outcome I J (k + n) (v.mapped s (gpuAddr + k) devAddr n)
  hole : ∀ k n s, I k s → v.running s = true → 0 < n → k + n ≤ size →
    (∀ j < n, translate (gpuAddr + k + j) = none) → v.Outcome I J (k + n) (v.hole s n)

section Ranges

variable {w : RangeVisitor σ} {J : σ → Prop}

theorem rangeSmall_rule (keeps : w.Keeps (m.lookup g) gpuAddr size I J)
    {pageIndex pageOffset n k : ℕ} {s : σ}
    (haddr : gpuAddr + k = pageIndex * g.pageSize + pageOffset) (hpos : 0 < n)
    (hn : n ≤ g.pageSize - pageOffset) (hindex : pageIndex < g.pageTableSize)
    (hsize : k + n ≤ size)
    (hfree : ∀ j < n, m.big.backing ((gpuAddr + k + j) / g.bigPageSize) = .free) (hI : I k s)
    (hrun : w.running s = true) :
    ∃ s', m.rangeSmall g w (m.small.entry pageIndex) pageIndex pageOffset n s = some s' ∧
      w.Outcome I J (k + n) s' := by
  have hlookup := lookup_small haddr hn hfree
  cases hentry : m.small.entry pageIndex with
  | mapped =>
    have hbacking : m.small.backing pageIndex =
        .mapped (m.small.pages pageIndex <<< cpuPageBits) := by
      rw [Table.backing, hentry]
      rfl
    refine ⟨w.mapped s (gpuAddr + k) (m.small.pages pageIndex <<< cpuPageBits + pageOffset) n, ?_,
      keeps.mapped k n s _ hI hrun hpos hsize fun j hj => ?_⟩
    · rw [rangeSmall, Table.pageBase, if_pos hindex, haddr, Geometry.pageSize,
        ← Nat.shiftLeft_eq pageIndex]
      rfl
    · rw [hlookup j hj, hbacking, Nat.add_assoc]
  | free | reserved =>
    refine ⟨w.hole s n, rfl, keeps.hole k n s hI hrun hpos hsize fun j hj => ?_⟩
    rw [hlookup j hj, Table.backing, hentry]
    rfl

theorem rangeSmallLoop_rule (hg : g.WellFormed) (h : m.Shape g)
    (keeps : w.Keeps (m.lookup g) gpuAddr size I J) (ha : gpuAddr + size ≤ g.addressSpaceSize)
    (fuel remaining pageIndex pageOffset k : ℕ) (s : σ) (hfuel : remaining ≤ fuel)
    (hpage : 0 < remaining →
      gpuAddr + k = pageIndex * g.pageSize + pageOffset ∧ pageOffset < g.pageSize)
    (hsize : k + remaining ≤ size)
    (hfree : ∀ j < remaining, m.big.backing ((gpuAddr + k + j) / g.bigPageSize) = .free)
    (hI : w.Outcome I J k s) :
    ∃ s', m.rangeSmallLoop g w fuel remaining pageIndex pageOffset (gpuAddr + k) s = some s' ∧
      w.Outcome I J (k + remaining) s' := by
  induction fuel generalizing remaining pageIndex pageOffset k s with
  | zero =>
    obtain rfl : remaining = 0 := by omega
    exact ⟨s, by rw [rangeSmallLoop, if_pos (.inl rfl)], hI⟩
  | succ fuel ih =>
    rw [rangeSmallLoop]
    split
    case isTrue hdone =>
      refine ⟨s, rfl, fun hrun => ?_, hI.2⟩
      rcases hdone with hdone | hstop
      · rw [hdone]
        exact hI.1 hrun
      · rw [hrun] at hstop
        cases hstop
    case isFalse hmore =>
      obtain ⟨hmore, hstop⟩ := not_or.mp hmore
      have hrun := Bool.eq_true_of_not_eq_false hstop
      obtain ⟨haddr, hoffset⟩ := hpage (by omega)
      obtain ⟨n, hn⟩ : ∃ n, n = min (g.pageSize - pageOffset) remaining := ⟨_, rfl⟩
      have hdiv : (gpuAddr + k) / g.pageSize = pageIndex := by
        rw [haddr]
        exact (page_split pageIndex (show 0 < 1 by decide) (by omega)).1
      have hindex : (gpuAddr + k) / g.pageSize < g.pageTableSize := hg.index_lt (by omega)
      obtain ⟨s₁, hs₁, hI₁⟩ := rangeSmall_rule keeps haddr (show 0 < n by omega)
        (show n ≤ _ by omega) (hdiv ▸ hindex) (by omega) (fun j hj => hfree j (by omega))
        (hI.1 hrun) hrun
      obtain ⟨s', hs', hI'⟩ := ih (remaining - n) (pageIndex + 1) 0 (k + n) s₁ (by omega)
        (fun _ => ⟨by rw [Nat.succ_mul]; omega, Geometry.pageSize_pos⟩) (by omega)
        (fun j hj => by
          rw [show gpuAddr + (k + n) + j = gpuAddr + k + (n + j) by omega]
          exact hfree (n + j) (by omega)) hI₁
      refine ⟨s', ?_, ?_⟩
      · rw [Table.getEntry_eq h.small hindex, Option.bind_eq_bind, Option.bind_some, ← hn]
        rw [show (gpuAddr + k) / 2 ^ g.pageBits = pageIndex from hdiv, Option.bind_eq_bind, hs₁,
          Option.bind_some, Nat.add_assoc]
        exact hs'
      · rwa [show k + n + (remaining - n) = k + remaining by omega] at hI'

theorem rangeSmallPages_rule (hg : g.WellFormed) (h : m.Shape g)
    (keeps : w.Keeps (m.lookup g) gpuAddr size I J) (ha : gpuAddr + size ≤ g.addressSpaceSize)
    {n k : ℕ} {s : σ} (hsize : k + n ≤ size)
    (hfree : ∀ j < n, m.big.backing ((gpuAddr + k + j) / g.bigPageSize) = .free)
    (hI : w.Outcome I J k s) :
    ∃ s', m.rangeSmallPages g w (gpuAddr + k) n s = some s' ∧ w.Outcome I J (k + n) s' := by
  rw [rangeSmallPages, Nat.shiftRight_eq_div_pow, Geometry.pageMask, Geometry.pageSize,
    Nat.and_two_pow_sub_one_eq_mod]
  exact rangeSmallLoop_rule hg h keeps ha n n _ _ k s (Nat.le_refl _)
    (fun _ => ⟨(Nat.div_add_mod' _ _).symm, Nat.mod_lt _ Geometry.pageSize_pos⟩) hsize hfree hI

/-- A piece that lies in one big page. -/
theorem rangeBig_rule (hg : g.WellFormed) (h : m.Shape g)
    (keeps : w.Keeps (m.lookup g) gpuAddr size I J) (ha : gpuAddr + size ≤ g.addressSpaceSize)
    {pageIndex pageOffset n k : ℕ} {s : σ}
    (haddr : gpuAddr + k = pageIndex * g.bigPageSize + pageOffset)
    (hoffset : pageOffset < g.bigPageSize) (hpos : 0 < n)
    (hn : n ≤ g.bigPageSize - pageOffset) (hindex : pageIndex < g.bigPageTableSize)
    (hsize : k + n ≤ size) (hI : I k s) (hrun : w.running s = true) :
    ∃ s', m.rangeBig g w (m.big.entry pageIndex) pageIndex pageOffset n s = some s' ∧
      w.Outcome I J (k + n) s' := by
  have hpage : ∀ j < n, (gpuAddr + k + j) / g.bigPageSize = pageIndex ∧
      (gpuAddr + k + j) % g.bigPageSize = pageOffset + j := fun j hj => by
    rw [haddr]
    exact page_split pageIndex hj hn
  cases hentry : m.big.entry pageIndex with
  | mapped =>
    refine ⟨w.mapped s (gpuAddr + k) (m.big.pages pageIndex <<< cpuPageBits + pageOffset) n, ?_,
      keeps.mapped k n s _ hI hrun hpos hsize fun j hj => ?_⟩
    · rw [rangeBig, Table.pageBase, if_pos hindex, haddr, Geometry.bigPageSize,
        ← Nat.shiftLeft_eq pageIndex]
      rfl
    · rw [lookup, (hpage j hj).1, (hpage j hj).2, Table.backing, hentry,
        Nat.add_assoc (m.big.pages pageIndex <<< cpuPageBits)]
      rfl
  | reserved =>
    refine ⟨w.hole s n, rfl, keeps.hole k n s hI hrun hpos hsize fun j hj => ?_⟩
    rw [lookup, (hpage j hj).1, Table.backing, hentry]
    rfl
  | free =>
    rw [rangeBig, ← Nat.shiftLeft_add_eq_or_of_lt hoffset, Nat.shiftLeft_eq,
      show pageIndex * 2 ^ g.bigPageBits + pageOffset = gpuAddr + k from haddr.symm]
    refine rangeSmallPages_rule hg h keeps ha hsize (fun j hj => ?_) ⟨fun _ => hI, fun hstop => ?_⟩
    · rw [(hpage j hj).1, Table.backing, hentry]
      rfl
    · rw [hrun] at hstop
      cases hstop

theorem rangeBigLoop_rule (hg : g.WellFormed) (h : m.Shape g)
    (keeps : w.Keeps (m.lookup g) gpuAddr size I J) (ha : gpuAddr + size ≤ g.addressSpaceSize)
    (fuel remaining pageIndex pageOffset k : ℕ) (s : σ) (hfuel : remaining ≤ fuel)
    (hpage : 0 < remaining →
      gpuAddr + k = pageIndex * g.bigPageSize + pageOffset ∧ pageOffset < g.bigPageSize)
    (hsize : k + remaining ≤ size) (hI : w.Outcome I J k s) :
    ∃ s', m.rangeBigLoop g w fuel remaining pageIndex pageOffset (gpuAddr + k) s = some s' ∧
      w.Outcome I J (k + remaining) s' := by
  induction fuel generalizing remaining pageIndex pageOffset k s with
  | zero =>
    obtain rfl : remaining = 0 := by omega
    exact ⟨s, by rw [rangeBigLoop, if_pos (.inl rfl)], hI⟩
  | succ fuel ih =>
    rw [rangeBigLoop]
    split
    case isTrue hdone =>
      refine ⟨s, rfl, fun hrun => ?_, hI.2⟩
      rcases hdone with hdone | hstop
      · rw [hdone]
        exact hI.1 hrun
      · rw [hrun] at hstop
        cases hstop
    case isFalse hmore =>
      obtain ⟨hmore, hstop⟩ := not_or.mp hmore
      have hrun := Bool.eq_true_of_not_eq_false hstop
      obtain ⟨haddr, hoffset⟩ := hpage (by omega)
      obtain ⟨n, hn⟩ : ∃ n, n = min (g.bigPageSize - pageOffset) remaining := ⟨_, rfl⟩
      have hdiv : (gpuAddr + k) / g.bigPageSize = pageIndex := by
        rw [haddr]
        exact (page_split pageIndex (show 0 < 1 by decide) (by omega)).1
      have hindex : (gpuAddr + k) / g.bigPageSize < g.bigPageTableSize :=
        hg.bigIndex_lt (by omega)
      obtain ⟨s₁, hs₁, hI₁⟩ := rangeBig_rule hg h keeps ha haddr hoffset (show 0 < n by omega)
        (show n ≤ _ by omega) (hdiv ▸ hindex) (by omega) (hI.1 hrun) hrun
      obtain ⟨s', hs', hI'⟩ := ih (remaining - n) (pageIndex + 1) 0 (k + n) s₁ (by omega)
        (fun _ => ⟨by rw [Nat.succ_mul]; omega, Geometry.bigPageSize_pos⟩) (by omega) hI₁
      refine ⟨s', ?_, ?_⟩
      · rw [Table.getEntry_eq h.big hindex, Option.bind_eq_bind, Option.bind_some, ← hn]
        rw [show (gpuAddr + k) / 2 ^ g.bigPageBits = pageIndex from hdiv, Option.bind_eq_bind, hs₁,
          Option.bind_some, Nat.add_assoc]
        exact hs'
      · rwa [show k + n + (remaining - n) = k + remaining by omega] at hI'

theorem rangeWalk_rule (hg : g.WellFormed) (h : m.Shape g)
    (keeps : w.Keeps (m.lookup g) gpuAddr size I J) (ha : gpuAddr + size ≤ g.addressSpaceSize)
    {s : σ} (first : w.Outcome I J 0 s) :
    ∃ s', m.rangeWalk g w gpuAddr size s = some s' ∧ w.Outcome I J size s' := by
  rw [rangeWalk, Nat.shiftRight_eq_div_pow, Geometry.bigPageMask, Geometry.bigPageSize,
    Nat.and_two_pow_sub_one_eq_mod]
  have hwalk := rangeBigLoop_rule hg h keeps ha size size (gpuAddr / g.bigPageSize)
    (gpuAddr % g.bigPageSize) 0 s (Nat.le_refl _)
    (fun _ => ⟨(Nat.div_add_mod' _ _).symm, Nat.mod_lt _ Geometry.bigPageSize_pos⟩)
    (Nat.zero_add _).le first
  rwa [Nat.zero_add] at hwalk

end Ranges

/-! ### The rule for walkers that never stop -/

/-- A walker as a query. -/
def Visitor.query (v : Visitor σ) : RangeVisitor σ where
  running _ := true
  mapped s _ devAddr amount := v.mapped s devAddr amount
  hole s amount := v.hole s amount

theorem walkSmall_eq (fuel remaining pageIndex pageOffset currentAddress : ℕ) (s : σ) :
    m.walkSmall g v fuel remaining pageIndex pageOffset currentAddress s =
      m.rangeSmallLoop g v.query fuel remaining pageIndex pageOffset currentAddress s := by
  induction fuel generalizing remaining pageIndex pageOffset currentAddress s with
  | zero =>
    rw [walkSmall, rangeSmallLoop]
    simp only [Visitor.query, Bool.true_eq_false, or_false]
  | succ fuel ih =>
    rw [walkSmall, rangeSmallLoop]
    simp only [ih]
    simp only [Visitor.query, Bool.true_eq_false, or_false]
    rfl

theorem walkBig_eq (fuel remaining pageIndex pageOffset currentAddress : ℕ) (s : σ) :
    m.walkBig g v fuel remaining pageIndex pageOffset currentAddress s =
      m.rangeBigLoop g v.query fuel remaining pageIndex pageOffset currentAddress s := by
  have hbig : ∀ entry pageIndex pageOffset copyAmount (s : σ),
      m.visitBig g v entry pageIndex pageOffset copyAmount s =
        m.rangeBig g v.query entry pageIndex pageOffset copyAmount s := by
    intro entry pageIndex pageOffset copyAmount s
    cases entry with
    | mapped => rfl
    | reserved => rfl
    | free =>
      rw [visitBig, rangeBig, walkSmallPages, rangeSmallPages]
      exact walkSmall_eq ..
  induction fuel generalizing remaining pageIndex pageOffset currentAddress s with
  | zero =>
    rw [walkBig, rangeBigLoop]
    simp only [Visitor.query, Bool.true_eq_false, or_false]
  | succ fuel ih =>
    rw [walkBig, rangeBigLoop]
    simp only [ih, hbig]
    simp only [Visitor.query, Bool.true_eq_false, or_false]

theorem walk_eq (s : σ) : m.walk g v gpuAddr size s = m.rangeWalk g v.query gpuAddr size s :=
  walkBig_eq ..

/-- The rule for a walk over a range. -/
theorem walk_rule (hg : g.WellFormed) (h : m.Shape g)
    (keeps : v.Keeps (m.lookup g) gpuAddr size I) (ha : gpuAddr + size ≤ g.addressSpaceSize)
    {s : σ} (first : I 0 s) :
    ∃ s', m.walk g v gpuAddr size s = some s' ∧ I size s' := by
  have hquery : v.query.Keeps (m.lookup g) gpuAddr size I fun _ => False :=
    ⟨fun k n s devAddr hI _ _ hsize hj => ⟨fun _ => keeps.mapped k n s devAddr hI hsize hj, nofun⟩,
      fun k n s hI _ _ hsize hj => ⟨fun _ => keeps.hole k n s hI hsize hj, nofun⟩⟩
  obtain ⟨s', hs', hI, -⟩ := rangeWalk_rule hg h hquery ha (s := s) ⟨fun _ => first, nofun⟩
  exact ⟨s', (walk_eq s).trans hs', hI rfl⟩

/-! ### The visitors -/

variable {d : DeviceMemory} {translate : ℕ → Option ℕ}

/-- The byte that a read delivers: the device byte, or zero where there is none. -/
def readAt (d : DeviceMemory) (translate : ℕ → Option ℕ) (a : ℕ) : UInt8 :=
  match translate a with
  | some devAddr => d.readByte devAddr
  | none => 0

theorem readVisitor_keeps : (readVisitor d).Keeps translate gpuAddr size fun k dst =>
    dst = (List.range k).map fun i => readAt d translate (gpuAddr + i) where
  mapped k n dst devAddr hdst _ htranslate := by
    rw [hdst, List.range_add, List.map_append]
    refine congrArg _ (?_ : (List.range n).map _ = _)
    rw [List.map_map]
    refine List.map_congr_left fun j hj => ?_
    rw [Function.comp_apply, ← Nat.add_assoc, readAt, htranslate j (List.mem_range.mp hj)]
  hole k n dst hdst _ htranslate := by
    rw [hdst, List.range_add, List.map_append, List.map_map]
    refine congrArg _ (List.eq_replicate_iff.mpr ⟨by simp, fun b hb => ?_⟩).symm
    obtain ⟨j, hj, rfl⟩ := List.mem_map.mp hb
    rw [Function.comp_apply, ← Nat.add_assoc, readAt, htranslate j (List.mem_range.mp hj)]

/-- The device memory after the first `n` bytes of a write. -/
def writeAt (d : DeviceMemory) (translate : ℕ → Option ℕ) (gpuAddr : ℕ) (src : List UInt8)
    (n : ℕ) : DeviceMemory :=
  (List.range n).foldl (fun d i =>
    match translate (gpuAddr + i) with
    | some devAddr => d.writeByte devAddr (src.getD i 0)
    | none => d) d

theorem writeAt_add (src : List UInt8) (k n : ℕ) :
    writeAt d translate gpuAddr src (k + n) = (List.range n).foldl (fun d i =>
      match translate (gpuAddr + k + i) with
      | some devAddr => d.writeByte devAddr (src.getD (k + i) 0)
      | none => d) (writeAt d translate gpuAddr src k) := by
  rw [writeAt, List.range_add, List.foldl_append, List.foldl_map]
  simp only [Nat.add_assoc]
  rfl

theorem writeVisitor_keeps (src : List UInt8) :
    (writeVisitor src).Keeps translate gpuAddr src.length fun k s =>
      s = (k, writeAt d translate gpuAddr src k) where
  mapped k n s devAddr hs hsize htranslate := by
    subst hs
    refine Prod.ext rfl ?_
    rw [writeAt_add]
    have hlength : ((src.drop k).take n).length = n := by
      rw [List.length_take, List.length_drop]
      omega
    change DeviceMemory.smmuWriteBlockUnsafe _ devAddr ((src.drop k).take n) = _
    rw [DeviceMemory.smmuWriteBlockUnsafe, hlength]
    refine List.foldl_ext _ _ _ fun d j hj => ?_
    rw [htranslate j (List.mem_range.mp hj), List.getD_eq_getElem?_getD,
      List.getD_eq_getElem?_getD, List.getElem?_take_of_lt (List.mem_range.mp hj),
      List.getElem?_drop]
  hole k n s hs hsize htranslate := by
    subst hs
    refine Prod.ext rfl ?_
    rw [writeAt_add, List.foldl_ext _ (fun d _ => d) _ fun d j hj => by
      rw [htranslate j (List.mem_range.mp hj)], List.foldl_fixed]
    rfl

/-- The device addresses of a list of ranges. -/
def addresses (ranges : List (ℕ × ℕ)) : List ℕ :=
  ranges.flatMap fun r => (List.range r.2).map (r.1 + ·)

/-- The device addresses of a range, in order, where there are any. -/
def translations (translate : ℕ → Option ℕ) (gpuAddr n : ℕ) : List ℕ :=
  (List.range n).filterMap fun i => translate (gpuAddr + i)

theorem translations_add (k n : ℕ) : translations translate gpuAddr (k + n) =
    translations translate gpuAddr k ++
      (List.range n).filterMap fun i => translate (gpuAddr + k + i) := by
  rw [translations, List.range_add, List.filterMap_append, List.filterMap_map]
  refine congrArg _ (List.filterMap_congr fun i _ => ?_)
  rw [Function.comp_apply, Nat.add_assoc]

theorem addresses_append (ranges ranges' : List (ℕ × ℕ)) :
    addresses (ranges ++ ranges') = addresses ranges ++ addresses ranges' :=
  List.flatMap_append

theorem addresses_extend (devAddr amount n : ℕ) :
    addresses [(devAddr, amount + n)] =
      addresses [(devAddr, amount)] ++ addresses [(devAddr + amount, n)] := by
  simp only [addresses, List.flatMap_cons, List.flatMap_nil, List.append_nil]
  rw [List.range_add, List.map_append, List.map_map]
  refine congrArg _ (List.map_congr_left fun i _ => ?_)
  rw [Function.comp_apply, Nat.add_assoc]

/-- The addresses of the closed ranges and of the open one. -/
theorem submappedVisitor_keeps : submappedVisitor.Keeps translate gpuAddr size fun k s =>
    addresses s.split.result = translations translate gpuAddr k ∧
      s.oldPageAddr = s.lastSegment.map fun r => r.1 + r.2 where
  mapped k n s devAddr hs _ htranslate := by
    obtain ⟨result, lastSegment, oldPageAddr⟩ := s
    obtain ⟨hresult, hold⟩ := hs
    have hpiece : (List.range n).filterMap (fun i => translate (gpuAddr + k + i)) =
        addresses [(devAddr, n)] := by
      rw [List.filterMap_congr (g := fun i => some (devAddr + i)) fun j hj =>
        htranslate j (List.mem_range.mp hj), List.filterMap_eq_map']
      simp [addresses]
    rw [translations_add, ← hresult, hpiece]
    cases lastSegment with
    | none =>
      obtain rfl : oldPageAddr = none := hold
      refine ⟨?_, rfl⟩
      simp [submappedVisitor, Submapped.split, addresses_append]
    | some seg =>
      obtain rfl : oldPageAddr = some (seg.1 + seg.2) := hold
      by_cases hnext : seg.1 + seg.2 = devAddr
      · subst hnext
        refine ⟨?_, ?_⟩
        · simp [submappedVisitor, Submapped.split, addresses_append, addresses_extend]
        · simp [submappedVisitor, Nat.add_assoc]
      · refine ⟨?_, ?_⟩
        · simp [submappedVisitor, Submapped.split, addresses_append, hnext]
          exact addresses_append [seg] [(devAddr, n)]
        · simp [submappedVisitor, Submapped.split, hnext]
  hole k n s hs _ htranslate := by
    refine ⟨?_, rfl⟩
    rw [translations_add, ← hs.1, List.filterMap_eq_nil_iff.mpr fun j hj =>
      htranslate j (List.mem_range.mp hj), List.append_nil]
    simp [submappedVisitor, Submapped.split]

/-! ### Reads, writes and reports -/

theorem readBlockUnsafe_eq (hg : g.WellFormed) (h : m.Shape g)
    (ha : gpuAddr + size ≤ g.addressSpaceSize) : m.readBlockUnsafe g d gpuAddr size =
      some ((List.range size).map fun i => readAt d (m.lookup g) (gpuAddr + i)) := by
  obtain ⟨dst, hwalk, hdst⟩ := walk_rule hg h (readVisitor_keeps (d := d)) ha
    (show [] = (List.range 0).map _ from rfl)
  rw [readBlockUnsafe, hwalk, hdst]

theorem writeBlockUnsafe_eq (hg : g.WellFormed) (h : m.Shape g) {src : List UInt8}
    (ha : gpuAddr + src.length ≤ g.addressSpaceSize) : m.writeBlockUnsafe g d gpuAddr src =
      some (writeAt d (m.lookup g) gpuAddr src src.length) := by
  obtain ⟨s, hwalk, hs⟩ := walk_rule hg h (writeVisitor_keeps (d := d) src) ha
    (show (0, d) = (0, writeAt d _ gpuAddr src 0) from rfl)
  rw [writeBlockUnsafe, hwalk, hs]
  rfl

theorem getSubmappedDeviceRanges_eq (hg : g.WellFormed) (h : m.Shape g)
    (ha : gpuAddr + size ≤ g.addressSpaceSize) :
    ∃ ranges, m.getSubmappedDeviceRanges g gpuAddr size = some ranges ∧
      addresses ranges = translations (m.lookup g) gpuAddr size := by
  obtain ⟨s, hwalk, hs, -⟩ := walk_rule (s := ⟨[], none, none⟩) hg h submappedVisitor_keeps ha
    ⟨rfl, rfl⟩
  exact ⟨s.split.result, by rw [getSubmappedDeviceRanges, hwalk, Option.map_some], hs⟩

/-- `gpu_to_cpu_address` looks at the small page of a reserved big page too. -/
theorem gpuToCpuAddress_eq (hg : g.WellFormed) (h : m.Shape g)
    (ha : gpuAddr < g.addressSpaceSize)
    (hreserved : m.big.backing (gpuAddr / g.bigPageSize) = .reserved →
      m.small.backing (gpuAddr / g.pageSize) = .free) :
    m.gpuToCpuAddress g gpuAddr = some (m.lookup g gpuAddr) := by
  have hbig : gpuAddr / g.bigPageSize < g.bigPageTableSize := hg.bigIndex_lt ha
  have hsmall : gpuAddr / g.pageSize < g.pageTableSize := hg.index_lt ha
  rw [gpuToCpuAddress, if_neg (Nat.not_le.mpr ha), Table.getEntry_eq h.big hbig,
    Table.getEntry_eq h.small hsmall, lookup]
  simp only [Option.bind_eq_bind, Option.bind_some]
  rw [show Table.pageEntryIndex g.bigPageBits g.bigPageTableSize gpuAddr =
      gpuAddr / g.bigPageSize from Table.pageEntryIndex_eq hbig,
    show Table.pageEntryIndex g.pageBits g.pageTableSize gpuAddr = gpuAddr / g.pageSize from
      Table.pageEntryIndex_eq hsmall, Table.pageBase, if_pos hbig, Table.pageBase, if_pos hsmall,
    Geometry.bigPageMask, Geometry.pageMask, show gpuAddr &&& (g.bigPageSize - 1) =
      gpuAddr % g.bigPageSize from Nat.and_two_pow_sub_one_eq_mod _ _,
    show gpuAddr &&& (g.pageSize - 1) = gpuAddr % g.pageSize from
      Nat.and_two_pow_sub_one_eq_mod _ _]
  change (if m.big.entry (gpuAddr / g.bigPageSize) = _ then _ else
    if m.small.entry (gpuAddr / g.pageSize) = _ then _ else _) = _
  cases hb : m.big.entry (gpuAddr / g.bigPageSize) <;>
    cases hs : m.small.entry (gpuAddr / g.pageSize) <;>
    simp_all [Table.backing, EntryType.backing]

end MemoryManager

end Ruzu.Gpu
