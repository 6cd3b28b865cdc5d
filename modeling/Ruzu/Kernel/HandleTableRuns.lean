import Ruzu.Lib.Linked
import Ruzu.Kernel.HandleTable

/-!
# Runs of the handle table

A run is followed by its history, the events the calls have reported so far.
The history says which handles are reserved or registered; the table
represents it: the slots of those handles carry their linear ids, and all the
other slots hang on the free list. Linear ids count the allocations modulo
their range, so a handle is not issued again for as many allocations.
-/

set_option autoImplicit false

namespace Ruzu.HandleTableRuns
open HandleTable Linked
open KHandleTable (new)

inductive Event
  | added (handle : Handle) (objectId : ObjectId)
  | reserved (handle : Handle)
  | registered (handle : Handle) (objectId : ObjectId)
  | unreserved (handle : Handle)
  | removed (handle : Handle)
  deriving DecidableEq

/-- What is known of each handle: not held, reserved, or registered with an object. -/
abbrev Status := Handle → Option (Option ObjectId)

def status : List Event → Status
  | [] => fun _ => none
  | .added h o::es => Function.update (status es) h (some (some o))
  | .reserved h::es => Function.update (status es) h (some none)
  | .registered h o::es => Function.update (status es) h (some (some o))
  | .unreserved h::es => Function.update (status es) h none
  | .removed h::es => Function.update (status es) h none

def Event.Issues (h : Handle) : Event → Prop
  | .added k _ => k = h
  | .reserved k => k = h
  | _ => False

def Event.allocates : Event → Bool
  | .added _ _ => true
  | .reserved _ => true
  | _ => false

def allocations (es : List Event) : ℕ := es.countP Event.allocates

inductive Op
  | add (objectId : ObjectId)
  | reserve
  | register (handle : Handle) (objectId : ObjectId)
  | unreserve (handle : Handle)
  | remove (handle : Handle)

def added (o : ObjectId) : Except ℕ Handle → List Event
  | .ok h => [.added h o]
  | .error _ => []

def reserved : Except ℕ Handle → List Event
  | .ok h => [.reserved h]
  | .error _ => []

/-- One call, with the event it reports. -/
def step (t : KHandleTable) (es : List Event) : Op → Option (KHandleTable × List Event)
  | .add o => (t.add o).map fun r => (r.1, added o r.2 ++ es)
  | .reserve => t.reserve.map fun r => (r.1, reserved r.2 ++ es)
  | .register h o =>
    some ((t.register h o).1, if (t.register h o).2 then .registered h o::es else es)
  | .unreserve h => (t.unreserve h).map fun t => (t, .unreserved h::es)
  | .remove h => (t.remove h).map fun r => (r.1, if r.2 then .removed h::es else es)

/-- `unreserve` is for a handle that is reserved and not registered. -/
def Enabled (es : List Event) : Op → Prop
  | .unreserve h => status es h = some none
  | _ => True

/-- The runs whose calls all satisfy `C`. -/
inductive Run (C : KHandleTable → Op → Prop) : KHandleTable → List Event → Prop
  | start (t : KHandleTable) (size : ℤ) (h : (t.initializeTable size).2 = 0) :
      Run C (t.initializeTable size).1 []
  | call {t t' : KHandleTable} {es es' : List Event} (op : Op) (h : Run C t es)
      (he : Enabled es op) (hc : C t op) (hs : step t es op = some (t',es')) : Run C t' es'

def link (n : ℤ) : Option ℕ := if n < 0 then none else some n.toNat

def nextFree (t : KHandleTable) (i : ℕ) : Option ℕ := link (t.entryInfos i).nextFreeIndex

def freeHead (t : KHandleTable) : Option ℕ := link t.freeHeadIndex

/-- A slot on the free list. -/
def FreeSlot (t : KHandleTable) (i : ℕ) : Prop :=
  ∃ l, Chain (nextFree t) (freeHead t) l ∧ i ∈ l

/-- The handle names a free slot whose next-free link reads as its linear id. -/
def Disguised (t : KHandleTable) (h : Handle) : Prop :=
  (decodeHandle h).reserved = 0 ∧ (decodeHandle h).linearId ≠ 0 ∧
    FreeSlot t (decodeHandle h).index ∧
    (t.entryInfos (decodeHandle h).index).linearId = (decodeHandle h).linearId

/-- Objects are not null, and `register` is not given a disguised handle. -/
def Clear (t : KHandleTable) : Op → Prop
  | .add o => o ≠ 0
  | .register h o => o ≠ 0 ∧ ¬ Disguised t h
  | _ => True

def Unallocated (σ : Status) (i : ℕ) : Prop :=
  ∀ h, σ h ≠ none → (decodeHandle h).index ≠ i

/-- The slot of a held handle. -/
structure Slot (t : KHandleTable) (h : Handle) (x : Option ObjectId) : Prop where
  index : (decodeHandle h).index < t.tableSize
  reserved : (decodeHandle h).reserved = 0
  linearId : (decodeHandle h).linearId ≠ 0
  object : t.objects (decodeHandle h).index = x.getD 0
  entry : (t.entryInfos (decodeHandle h).index).linearId = (decodeHandle h).linearId
  nonnull : x ≠ some 0

structure Represents (t : KHandleTable) (σ : Status) (issued : ℕ) : Prop where
  size_le : t.tableSize ≤ maxTableSize
  next_id : t.nextLinearId = issued % maxLinearId + 1
  slot : ∀ h x, σ h = some x → Slot t h x
  head : -2^15 ≤ t.freeHeadIndex ∧ t.freeHeadIndex < 2^15
  free : ∃ l, Chain (nextFree t) (freeHead t) l ∧
    (∀ i, i ∈ l ↔ i < t.tableSize ∧ Unallocated σ i) ∧ l.length + t.count = t.tableSize ∧
    ∀ i ∈ l, t.objects i = 0

section Links

theorem next_free_index_of (n : ℤ) (h : -2^15 ≤ n ∧ n < 2^15) :
    (EntryInfo.ofNextFreeIndex n).nextFreeIndex = n :=
  BitVec.toInt_ofInt_eq_self (by decide) (by omega) (by omega)

theorem next_free_index_range (e : EntryInfo) :
    -2^15 ≤ e.nextFreeIndex ∧ e.nextFreeIndex < 2^15 :=
  show -2^15 ≤ BitVec.toInt e ∧ BitVec.toInt e < 2^15 from ⟨BitVec.le_toInt e, BitVec.toInt_lt⟩

theorem linear_id_of {n : ℕ} (h : n < 2^16) : (EntryInfo.ofLinearId n).linearId = n := by
  rw [EntryInfo.linearId, EntryInfo.ofLinearId, BitVec.toNat_ofNat, Nat.mod_eq_of_lt h]

theorem link_nat (n : ℕ) : link n = some n := by
  simp [link]

end Links

section Initialize

open KHandleTable (initializeSlot)

/-- The loop of `initialize` pushes the slots one by one. -/
theorem initialize_slots (t : KHandleTable) (ht : t.freeHeadIndex = -1) (n : ℕ)
    (hn : n ≤ maxTableSize) :
    let r := (List.range n).foldl initializeSlot t
    Chain (nextFree r) (freeHead r) (List.range n).reverse ∧ (∀ j < n, r.objects j = 0) ∧
      r.freeHeadIndex = (n : ℤ) - 1 ∧ r.tableSize = t.tableSize ∧ r.count = t.count ∧
      r.nextLinearId = t.nextLinearId := by
  induction n with
  | zero =>
    refine ⟨?_, fun j hj => absurd hj (Nat.not_lt_zero j), by simp [ht], rfl, rfl, rfl⟩
    simp [Chain, freeHead, link, ht]
  | succ n ih =>
    obtain ⟨hchain, hobj, hhead, hsize, hcount, hid⟩ := ih (by omega)
    simp only [List.range_succ, List.foldl_append, List.foldl_cons, List.foldl_nil,
      List.reverse_append, List.reverse_cons, List.reverse_nil, List.nil_append,
      List.singleton_append]
    refine ⟨?_, fun j hj => ?_, by simp [initializeSlot], hsize, hcount, hid⟩
    · have hf : freeHead (initializeSlot ((List.range n).foldl initializeSlot t) n) = some n :=
        link_nat n
      rw [hf]
      refine chain_push hchain (fun j hj => ?_) ?_
      · have hjn : j < n := by simpa using hj
        simp [nextFree, initializeSlot, Nat.ne_of_lt hjn]
      · simp only [maxTableSize] at hn
        simp only [nextFree, initializeSlot, Function.update_self, freeHead, hhead]
        rw [next_free_index_of _ (by omega)]
    · by_cases hjn : j = n
      · simp [initializeSlot, hjn]
      · simp [initializeSlot, hjn, hobj j (by omega)]

theorem initialize_represents (t : KHandleTable) (size : ℤ)
    (h : (t.initializeTable size).2 = 0) :
    Represents (t.initializeTable size).1 (status []) 0 := by
  by_cases hs : size > maxTableSize
  · simp [KHandleTable.initializeTable, hs] at h
  · simp only [KHandleTable.initializeTable, if_neg hs]
    have hle : (if size ≤ 0 then maxTableSize else size.toNat) ≤ maxTableSize := by
      simp only [maxTableSize] at hs ⊢
      split <;> omega
    generalize hn : (if size ≤ 0 then maxTableSize else size.toNat) = n at hle ⊢
    obtain ⟨hchain, hobj, hhead, hsize, hcount, hid⟩ := initialize_slots
      { t with maxCount := 0, tableSize := n, nextLinearId := minLinearId, count := 0,
               freeHeadIndex := -1 } rfl n hle
    simp only [maxTableSize] at hle
    refine ⟨by rw [hsize]; exact hle, hid, fun h x hx => absurd hx (by simp [status]),
      by rw [hhead]; omega, (List.range n).reverse, hchain, fun i => ?_, ?_, fun i hi => ?_⟩
    · rw [hsize]
      simp [Unallocated, status]
    · rw [hsize, hcount]
      simp
    · exact hobj i (by simpa using hi)

end Initialize

section Calls

variable {t t' : KHandleTable} {σ : Status} {n : ℕ} {h : Handle}

theorem represents_pos (hr : Represents t σ n) : t.count ≤ t.tableSize := by
  obtain ⟨l, -, -, hlen, -⟩ := hr.free
  omega

theorem free_slot_iff (hr : Represents t σ n) (i : ℕ) :
    FreeSlot t i ↔ i < t.tableSize ∧ Unallocated σ i := by
  obtain ⟨l, hchain, hmem, -, -⟩ := hr.free
  constructor
  · rintro ⟨l', hchain', hi⟩
    rw [chain_unique hchain' hchain] at hi
    exact (hmem i).mp hi
  · intro hi
    exact ⟨l, hchain, (hmem i).mpr hi⟩

/-- Two held handles with one slot are the same handle. -/
theorem slot_injective (hr : Represents t σ n) {h h' : Handle} (hh : σ h ≠ none)
    (hh' : σ h' ≠ none) (hi : (decodeHandle h).index = (decodeHandle h').index) : h = h' := by
  obtain ⟨x, hx⟩ := Option.ne_none_iff_exists'.mp hh
  obtain ⟨x', hx'⟩ := Option.ne_none_iff_exists'.mp hh'
  have hs := hr.slot h x hx
  have hs' := hr.slot h' x' hx'
  refine decode_injective ?_
  have hl : (decodeHandle h).linearId = (decodeHandle h').linearId := by
    rw [← hs.entry, ← hs'.entry, hi]
  have hres : (decodeHandle h).reserved = (decodeHandle h').reserved := by
    rw [hs.reserved, hs'.reserved]
  cases hd : decodeHandle h
  cases hd' : decodeHandle h'
  simp only [hd, hd'] at hi hl hres
  rw [hi, hl, hres]

theorem unallocated_issue (x : Option ObjectId) (i : ℕ) :
    Unallocated (Function.update σ h (some x)) i ↔
      Unallocated σ i ∧ (decodeHandle h).index ≠ i := by
  constructor
  · intro hu
    refine ⟨fun k hk => hu k ?_, hu h (by simp)⟩
    by_cases hkh : k = h
    · simp [hkh]
    · simpa [hkh] using hk
  · rintro ⟨hu, hi⟩ k hk
    by_cases hkh : k = h
    · rwa [hkh]
    · exact hu k (by simpa [hkh] using hk)

theorem unallocated_release (hr : Represents t σ n) (hh : σ h ≠ none) (i : ℕ) :
    Unallocated (Function.update σ h none) i ↔
      Unallocated σ i ∨ (decodeHandle h).index = i := by
  constructor
  · intro hu
    by_cases hi : (decodeHandle h).index = i
    · exact Or.inr hi
    · refine Or.inl fun k hk => ?_
      by_cases hkh : k = h
      · rwa [hkh]
      · exact hu k (by simpa [hkh] using hk)
  · rintro hu k hk
    have hkh : k ≠ h := by
      intro hkh
      simp [hkh] at hk
    have hk' : σ k ≠ none := by simpa [hkh] using hk
    rcases hu with hu | rfl
    · exact hu k hk'
    · exact fun hi => hkh (slot_injective hr hk' hh hi)

theorem next_linear_id (h : t.nextLinearId = n % maxLinearId + 1) :
    t.allocateLinearId.2.nextLinearId = (n+1) % maxLinearId + 1 := by
  show (if t.nextLinearId + 1 > maxLinearId then minLinearId else t.nextLinearId + 1) = _
  by_cases hwrap : t.nextLinearId + 1 > maxLinearId
  · rw [if_pos hwrap]
    simp only [maxLinearId, minLinearId] at h hwrap ⊢
    omega
  · rw [if_neg hwrap]
    simp only [maxLinearId] at h hwrap ⊢
    omega

/-- A free slot taken off the list and given to a fresh handle. -/
theorem issue_represents (hr : Represents t σ n) (hc : t.count < t.tableSize)
    (x : Option ObjectId) (hx : x ≠ some 0) :
    ∃ i t₁, t.allocateEntry = some (i,t₁) ∧ t₁.nextLinearId = t.nextLinearId ∧
      t₁.objects i = 0 ∧
      σ (encodeHandle i t.nextLinearId) = none ∧
      (decodeHandle (encodeHandle i t.nextLinearId)).linearId = n % maxLinearId + 1 ∧
      Represents { t₁.allocateLinearId.2 with
        entryInfos := Function.update t₁.entryInfos i (EntryInfo.ofLinearId t.nextLinearId)
        objects := Function.update t₁.objects i (x.getD 0) }
        (Function.update σ (encodeHandle i t.nextLinearId) (some x)) (n+1) := by
  obtain ⟨l, hchain, hmem, hlen, hobj⟩ := hr.free
  have hle := hr.size_le
  cases l with
  | nil =>
    simp only [List.length_nil] at hlen
    omega
  | cons i l =>
    obtain ⟨hhead, hrest⟩ := hchain
    have hi := (hmem i).mp (by simp)
    have hnodup := chain_nodup (show Chain (nextFree t) (freeHead t) (i::l) from ⟨hhead, hrest⟩)
    have hpos : 0 ≤ t.freeHeadIndex ∧ t.freeHeadIndex.toNat = i := by
      by_cases hneg : t.freeHeadIndex < 0
      · simp [freeHead, link, hneg] at hhead
      · simp only [freeHead, link, if_neg hneg, Option.some.injEq] at hhead
        exact ⟨by omega, hhead⟩
    have hid := hr.next_id
    have hidlt : t.nextLinearId < 2^15 := by
      have := Nat.mod_lt n (by decide : 0 < maxLinearId)
      simp only [maxLinearId] at this hid
      omega
    have hilt : i < 2^15 := by
      simp only [maxTableSize] at hle
      omega
    have hdec := decode_encode hilt hidlt
    have hfresh : σ (encodeHandle i t.nextLinearId) = none := by
      by_contra hne
      exact hi.2 _ hne (by rw [hdec])
    have halloc : t.allocateEntry = some (i, { t with
        freeHeadIndex := (t.entryInfos i).nextFreeIndex
        count := t.count + 1
        maxCount := if t.count + 1 > t.maxCount then t.count + 1 else t.maxCount }) := by
      have hlt : t.freeHeadIndex < maxTableSize := by
        simp only [maxTableSize] at hle ⊢
        omega
      simp [KHandleTable.allocateEntry, hc, hpos, hlt]
    refine ⟨i, _, halloc, rfl, hobj i (by simp), hfresh, by rw [hdec, hid], hle, ?_, ?_,
      next_free_index_range _, l, ?_, fun j => ?_, ?_, ?_⟩
    · exact next_linear_id hid
    · intro k y hk
      by_cases hkh : k = encodeHandle i t.nextLinearId
      · subst hkh
        rw [Function.update_self, Option.some.injEq] at hk
        subst hk
        refine ⟨by rw [hdec]; exact hi.1, by rw [hdec], by rw [hdec, hid]; simp, ?_, ?_, hx⟩
        · rw [hdec]
          exact Function.update_self ..
        · rw [hdec]
          show (Function.update t.entryInfos i _ i).linearId = _
          rw [Function.update_self, linear_id_of (by omega)]
      · rw [Function.update_of_ne hkh] at hk
        have hs := hr.slot k y hk
        have hne : (decodeHandle k).index ≠ i := hi.2 k (by simp [hk])
        refine ⟨hs.index, hs.reserved, hs.linearId, ?_, ?_, hs.nonnull⟩
        · show Function.update t.objects i _ _ = _
          rw [Function.update_of_ne hne, hs.object]
        · show (Function.update t.entryInfos i _ _).linearId = _
          rw [Function.update_of_ne hne, hs.entry]
    · refine chain_congr hrest fun j hj => ?_
      have hji : j ≠ i := fun hji => (List.nodup_cons.mp hnodup).1 (hji ▸ hj)
      show link (Function.update t.entryInfos i _ j).nextFreeIndex = _
      rw [Function.update_of_ne hji]
      rfl
    · rw [unallocated_issue, hdec]
      have hj := hmem j
      rw [List.mem_cons] at hj
      constructor
      · intro hjl
        have hji : j ≠ i := fun hji => (List.nodup_cons.mp hnodup).1 (hji ▸ hjl)
        obtain ⟨h1, h2⟩ := hj.mp (Or.inr hjl)
        exact ⟨h1, h2, hji.symm⟩
      · rintro ⟨h1, h2, h3⟩
        exact (hj.mpr ⟨h1, h2⟩).resolve_left (Ne.symm h3)
    · show l.length + (t.count + 1) = t.tableSize
      simp only [List.length_cons] at hlen
      omega
    · intro j hj
      have hji : j ≠ i := fun hji => (List.nodup_cons.mp hnodup).1 (hji ▸ hj)
      show Function.update t.objects i _ j = 0
      rw [Function.update_of_ne hji]
      exact hobj j (by simp [hj])

theorem free_entry_fields {i : ℕ} (hc : 0 < t.count) (hi : i < maxTableSize) :
    ∃ t', t.freeEntry i = some t' ∧ t'.objects = Function.update t.objects i 0 ∧
      t'.entryInfos = Function.update t.entryInfos i
        (EntryInfo.ofNextFreeIndex t.freeHeadIndex) ∧
      t'.freeHeadIndex = i ∧ t'.tableSize = t.tableSize ∧ t'.count = t.count - 1 ∧
      t'.nextLinearId = t.nextLinearId :=
  ⟨_, if_pos ⟨hc, hi⟩, rfl, rfl, rfl, rfl, rfl, rfl⟩

/-- A held slot put back on the list. -/
theorem free_represents (hr : Represents t σ n) {x : Option ObjectId} (hh : σ h = some x) :
    ∃ t', t.freeEntry (decodeHandle h).index = some t' ∧
      Represents t' (Function.update σ h none) n := by
  obtain ⟨l, hchain, hmem, hlen, hobj⟩ := hr.free
  have hs := hr.slot h x hh
  have hle := hr.size_le
  have hnot : (decodeHandle h).index ∉ l := fun hi => ((hmem _).mp hi).2 h (by simp [hh]) rfl
  have hpos : 0 < t.count := by
    -- the list misses a slot, so it is shorter than the table
    have hsub : l.length < t.tableSize := by
      have hnodup := chain_nodup hchain
      have hcons : ((decodeHandle h).index::l).Nodup := List.nodup_cons.mpr ⟨hnot, hnodup⟩
      have hsub : (decodeHandle h).index::l ⊆ List.range t.tableSize := by
        intro j hj
        rw [List.mem_range]
        rcases List.mem_cons.mp hj with rfl | hj
        · exact hs.index
        · exact ((hmem j).mp hj).1
      have hlen' := List.Nodup.length_le_of_subset hcons hsub
      simp only [List.length_cons, List.length_range] at hlen'
      omega
    omega
  have hlt : (decodeHandle h).index < maxTableSize := Nat.lt_of_lt_of_le hs.index hle
  have hlt' : (decodeHandle h).index < 2^15 := by
    simp only [maxTableSize] at hlt
    omega
  obtain ⟨t', hfree, hobjs, hents, hhead, hsize, hcount, hnext⟩ := free_entry_fields hpos hlt
  refine ⟨t', hfree, by rw [hsize]; exact hle, by rw [hnext]; exact hr.next_id, ?_, ?_,
    (decodeHandle h).index::l, ?_, fun j => ?_, ?_, ?_⟩
  · intro k y hk
    have hkh : k ≠ h := by
      intro hkh
      simp [hkh] at hk
    rw [Function.update_of_ne hkh] at hk
    have hs' := hr.slot k y hk
    have hne : (decodeHandle k).index ≠ (decodeHandle h).index := fun hi =>
      hkh (slot_injective hr (by simp [hk]) (by simp [hh]) hi)
    refine ⟨by rw [hsize]; exact hs'.index, hs'.reserved, hs'.linearId, ?_, ?_, hs'.nonnull⟩
    · rw [hobjs, Function.update_of_ne hne, hs'.object]
    · rw [hents, Function.update_of_ne hne, hs'.entry]
  · rw [hhead]
    constructor <;> omega
  · rw [freeHead, hhead, link_nat]
    refine chain_push hchain (fun j hj => ?_) ?_
    · have hne : j ≠ (decodeHandle h).index := fun hji => hnot (hji ▸ hj)
      rw [nextFree, hents, Function.update_of_ne hne, nextFree]
    · rw [nextFree, hents, Function.update_self, next_free_index_of _ hr.head, freeHead]
  · rw [unallocated_release hr (by simp [hh]), List.mem_cons, hmem j, hsize]
    constructor
    · rintro (rfl | ⟨h1, h2⟩)
      · exact ⟨hs.index, Or.inr rfl⟩
      · exact ⟨h1, Or.inl h2⟩
    · rintro ⟨h1, h2 | h2⟩
      · exact Or.inr ⟨h1, h2⟩
      · exact Or.inl h2.symm
  · rw [hcount, hsize, List.length_cons]
    omega
  · intro j hj
    rw [hobjs]
    rcases List.mem_cons.mp hj with rfl | hj
    · exact Function.update_self ..
    · have hne : j ≠ (decodeHandle h).index := fun hji => hnot (hji ▸ hj)
      rw [Function.update_of_ne hne]
      exact hobj j hj

theorem add_spec (hr : Represents t σ n) {o : ObjectId} (ho : o ≠ 0) :
    t.add o = some (t, .error 1) ∨
    ∃ h t', t.add o = some (t', .ok h) ∧ σ h = none ∧
      (decodeHandle h).linearId = n % maxLinearId + 1 ∧
      Represents t' (Function.update σ h (some (some o))) (n+1) := by
  by_cases hc : t.tableSize ≤ t.count
  · exact Or.inl (if_pos hc)
  · obtain ⟨i, t₁, halloc, hid, -, hfresh, hlin, hrep⟩ :=
      issue_represents hr (by omega) (some o) (by simpa using ho)
    refine Or.inr ⟨_, _, ?_, hfresh, hlin, hrep⟩
    simp [KHandleTable.add, hc, halloc, KHandleTable.allocateLinearId, hid]

theorem reserve_spec (hr : Represents t σ n) :
    t.reserve = some (t, .error 1) ∨
    ∃ h t', t.reserve = some (t', .ok h) ∧ σ h = none ∧
      (decodeHandle h).linearId = n % maxLinearId + 1 ∧
      Represents t' (Function.update σ h (some none)) (n+1) := by
  by_cases hc : t.tableSize ≤ t.count
  · exact Or.inl (if_pos hc)
  · obtain ⟨i, t₁, halloc, hid, hobj, hfresh, hlin, hrep⟩ :=
      issue_represents hr (by omega) none (by simp)
    refine Or.inr ⟨_, _, ?_, hfresh, hlin, hrep⟩
    -- the slot is empty already
    have hupd : Function.update t₁.objects i 0 = t₁.objects := by
      rw [← hobj, Function.update_eq_self]
    simp [KHandleTable.reserve, hc, halloc, KHandleTable.allocateLinearId, hid]
    exact hobj

/-- Every slot of the table is free or belongs to a held handle. -/
theorem slot_owner (hr : Represents t σ n) {i : ℕ} (hi : i < t.tableSize) :
    FreeSlot t i ∨ ∃ k x, σ k = some x ∧ (decodeHandle k).index = i := by
  by_cases hu : Unallocated σ i
  · exact Or.inl ((free_slot_iff hr i).mpr ⟨hi, hu⟩)
  · simp only [Unallocated, ne_eq, not_forall, not_not] at hu
    obtain ⟨k, hk, hki⟩ := hu
    obtain ⟨x, hx⟩ := Option.ne_none_iff_exists'.mp hk
    exact Or.inr ⟨k, x, hx, hki⟩

theorem free_slot_object (hr : Represents t σ n) {i : ℕ} (hi : FreeSlot t i) :
    t.objects i = 0 := by
  obtain ⟨l, hchain, hmem⟩ := hi
  obtain ⟨l', hchain', -, -, hobj⟩ := hr.free
  rw [chain_unique hchain hchain'] at hmem
  exact hobj i hmem

/-- A handle that passes the checks on an allocated slot is that slot's handle. -/
theorem owner_eq (hr : Represents t σ n) (hn : t.Names h) {k : Handle} {x : Option ObjectId}
    (hk : σ k = some x) (hi : (decodeHandle k).index = (decodeHandle h).index) : k = h := by
  have hs := hr.slot k x hk
  refine decode_injective ?_
  have hl : (decodeHandle k).linearId = (decodeHandle h).linearId := by
    rw [← hs.entry, hi, hn.entry]
  have hres : (decodeHandle k).reserved = (decodeHandle h).reserved := by
    rw [hs.reserved, hn.reserved]
  cases hd : decodeHandle k
  cases hd' : decodeHandle h
  simp only [hd, hd'] at hi hl hres
  rw [hi, hl, hres]

theorem slot_names {x : Option ObjectId} (hs : Slot t h x) : t.Names h :=
  ⟨hs.reserved, hs.linearId, hs.index, hs.entry⟩

theorem valid_iff (hr : Represents t σ n) (h : Handle) :
    t.isValidHandle h = true ↔ ∃ o, σ h = some (some o) := by
  rw [KHandleTable.is_valid_handle_iff]
  constructor
  · rintro ⟨hn, ho⟩
    rcases slot_owner hr hn.index with hf | ⟨k, x, hk, hki⟩
    · exact absurd (free_slot_object hr hf) ho
    · rw [owner_eq hr hn hk hki] at hk
      cases x with
      | some o => exact ⟨o, hk⟩
      | none => exact absurd (hr.slot h none hk).object ho
  · rintro ⟨o, ho⟩
    have hs := hr.slot h _ ho
    refine ⟨slot_names hs, ?_⟩
    rw [hs.object]
    exact fun hz => hs.nonnull (congrArg some hz)

/-- The object read back is the registered one. -/
theorem get_object_spec (hr : Represents t σ n) (h : Handle) (o : ObjectId) :
    t.getObject h = some o ↔ σ h = some (some o) := by
  have hv := valid_iff hr h
  constructor
  · intro hg
    simp only [KHandleTable.getObject] at hg
    split at hg
    · cases hg
    · split at hg
      · next hvalid =>
        obtain ⟨o', ho'⟩ := hv.mp hvalid
        have hobj := (hr.slot h _ ho').object
        rw [hobj] at hg
        cases hg
        exact ho'
      · cases hg
  · intro ho
    have hs := hr.slot h _ ho
    have hobj : t.objects (decodeHandle h).index = o := hs.object
    simp [KHandleTable.getObject, hs.reserved, hv.mpr ⟨o, ho⟩, hobj]

/-- `register` accepts the reserved handles and the disguised ones. -/
theorem register_accepts_iff (hr : Represents t σ n) (h : Handle) (o : ObjectId) :
    (t.register h o).2 = true ↔ σ h = some none ∨ Disguised t h := by
  have hiff : (t.register h o).2 = true ↔
      t.Names h ∧ t.objects (decodeHandle h).index = 0 := by
    rcases t.register_cases h o with ⟨hn, ho, hreg⟩ | ⟨hnot, hreg⟩
    · simp [hreg, hn, ho]
    · simpa [hreg] using hnot
  rw [hiff]
  constructor
  · rintro ⟨hn, ho⟩
    rcases slot_owner hr hn.index with hf | ⟨k, x, hk, hki⟩
    · exact Or.inr ⟨hn.reserved, hn.linearId, hf, hn.entry⟩
    · rw [owner_eq hr hn hk hki] at hk
      have hs := hr.slot h x hk
      cases x with
      | none => exact Or.inl hk
      | some o' =>
        rw [hs.object] at ho
        exact absurd (congrArg some ho) hs.nonnull
  · rintro (hk | ⟨h1, h2, hf, h3⟩)
    · have hs := hr.slot h none hk
      exact ⟨slot_names hs, hs.object⟩
    · exact ⟨⟨h1, h2, ((free_slot_iff hr _).mp hf).1, h3⟩, free_slot_object hr hf⟩

theorem register_represents (hr : Represents t σ n) {o : ObjectId} (ho : o ≠ 0)
    (hh : σ h = some none) : (t.register h o).2 = true ∧
      Represents (t.register h o).1 (Function.update σ h (some (some o))) n := by
  have hs := hr.slot h none hh
  have hacc := (register_accepts_iff hr h o).mpr (Or.inl hh)
  rcases t.register_cases h o with ⟨-, -, hreg⟩ | ⟨-, hreg⟩
  · obtain ⟨l, hchain, hmem, hlen, hobj⟩ := hr.free
    have hnot : (decodeHandle h).index ∉ l := fun hi => ((hmem _).mp hi).2 h (by simp [hh]) rfl
    have hun : ∀ i, Unallocated (Function.update σ h (some (some o))) i ↔ Unallocated σ i := by
      intro i
      rw [unallocated_issue]
      exact ⟨And.left, fun hu => ⟨hu, hu h (by simp [hh])⟩⟩
    refine ⟨hacc, ?_⟩
    rw [hreg]
    refine ⟨hr.size_le, hr.next_id, fun k x hk => ?_, hr.head, l, hchain, fun i => ?_, hlen,
      fun i hi => ?_⟩
    · by_cases hkh : k = h
      · subst hkh
        rw [Function.update_self, Option.some.injEq] at hk
        subst hk
        exact ⟨hs.index, hs.reserved, hs.linearId, Function.update_self .., hs.entry,
          by simpa using ho⟩
      · rw [Function.update_of_ne hkh] at hk
        have hs' := hr.slot k x hk
        have hne : (decodeHandle k).index ≠ (decodeHandle h).index := fun hi =>
          hkh (slot_injective hr (by simp [hk]) (by simp [hh]) hi)
        refine ⟨hs'.index, hs'.reserved, hs'.linearId, ?_, hs'.entry, hs'.nonnull⟩
        rw [← hs'.object]
        exact Function.update_of_ne hne ..
    · rw [hun]
      exact hmem i
    · have hne : i ≠ (decodeHandle h).index := fun hi' => hnot (hi' ▸ hi)
      rw [← hobj i hi]
      exact Function.update_of_ne hne ..
  · rw [hreg] at hacc
    cases hacc

end Calls


section History

/-- What each event of a history found: a fresh handle numbered by the
allocations before it, a reserved handle, or a registered one. -/
def Coherent : List Event → Prop
  | [] => True
  | .added h _::es => status es h = none ∧
      (decodeHandle h).linearId = allocations es % maxLinearId + 1 ∧ Coherent es
  | .reserved h::es => status es h = none ∧
      (decodeHandle h).linearId = allocations es % maxLinearId + 1 ∧ Coherent es
  | .registered h _::es => status es h = some none ∧ Coherent es
  | .unreserved h::es => status es h = some none ∧ Coherent es
  | .removed h::es => (∃ o, status es h = some (some o)) ∧ Coherent es

theorem coherent_tail {e : Event} {es : List Event} (h : Coherent (e::es)) : Coherent es := by
  cases e with
  | added k o => exact h.2.2
  | reserved k => exact h.2.2
  | registered k o => exact h.2
  | unreserved k => exact h.2
  | removed k => exact h.2

theorem coherent_append {later es : List Event} (h : Coherent (later ++ es)) : Coherent es := by
  induction later with
  | nil => exact h
  | cons e later ih => exact ih (coherent_tail h)

theorem coherent_issue {e : Event} {es : List Event} {h : Handle} (hc : Coherent (e::es))
    (he : e.Issues h) : status es h = none ∧ e.allocates = true ∧
      (decodeHandle h).linearId = allocations es % maxLinearId + 1 := by
  cases e with
  | added k o =>
    cases he
    exact ⟨hc.1, rfl, hc.2.1⟩
  | reserved k =>
    cases he
    exact ⟨hc.1, rfl, hc.2.1⟩
  | registered k o => exact absurd he id
  | unreserved k => exact absurd he id
  | removed k => exact absurd he id

theorem allocations_cons (e : Event) (es : List Event) :
    allocations (e::es) = allocations es + if e.allocates then 1 else 0 := by
  simp [allocations, List.countP_cons]

theorem allocations_append (later es : List Event) :
    allocations (later ++ es) = allocations later + allocations es := by
  simp [allocations, List.countP_append]

/-- A handle is not issued again before its linear id comes round. -/
theorem not_reissued {later earlier : List Event} {e f : Event} {h : Handle}
    (hc : Coherent (f::(later ++ e::earlier))) (he : e.Issues h)
    (hn : allocations (f::later) < maxLinearId) : ¬ f.Issues h := by
  intro hf
  obtain ⟨-, hfa, hfl⟩ := coherent_issue hc hf
  obtain ⟨-, hea, hel⟩ := coherent_issue (coherent_append (coherent_tail hc)) he
  rw [allocations_append, allocations_cons, hea, if_pos rfl] at hfl
  rw [allocations_cons, hfa, if_pos rfl] at hn
  simp only [maxLinearId] at hfl hel hn
  omega

/-- The status of a handle since it was last issued. -/
theorem status_since {later earlier : List Event} {e : Event} {h : Handle}
    (hc : Coherent (later ++ e::earlier)) (he : e.Issues h)
    (hn : allocations later < maxLinearId) :
    (∀ o, status (later ++ e::earlier) h = some (some o) ↔
      (e = .added h o ∨ e = .reserved h ∧ .registered h o ∈ later) ∧ .removed h ∉ later) ∧
    (status (later ++ e::earlier) h = some none →
      e = .reserved h ∧ .removed h ∉ later ∧ ∀ o, .registered h o ∉ later) := by
  induction later with
  | nil =>
    cases e with
    | added k o =>
      cases he
      simp [status]
    | reserved k =>
      cases he
      simp [status]
    | registered k o => exact absurd he id
    | unreserved k => exact absurd he id
    | removed k => exact absurd he id
  | cons f later ih =>
    have hle : allocations later ≤ allocations (f::later) := by
      rw [allocations_cons]
      omega
    have hni := not_reissued hc he hn
    obtain ⟨ih₁, ih₂⟩ := ih (coherent_tail hc) (by omega)
    by_cases hkeep : status (f::later ++ e::earlier) h = status (later ++ e::earlier) h ∧
        (∀ o, f ≠ .registered h o) ∧ f ≠ .removed h
    · -- an event of another handle
      obtain ⟨hs, hreg, hrem⟩ := hkeep
      rw [hs]
      have h1 : ∀ o, Event.registered h o ∈ f::later ↔ Event.registered h o ∈ later := fun o => by
        rw [List.mem_cons, or_iff_right (hreg o).symm]
      have h2 : Event.removed h ∈ f::later ↔ Event.removed h ∈ later := by
        rw [List.mem_cons, or_iff_right hrem.symm]
      simp only [h1, h2]
      exact ⟨ih₁, ih₂⟩
    · cases f with
      | added k o =>
        have hk : h ≠ k := fun hk => hni hk.symm
        exact absurd ⟨Function.update_of_ne hk .., by simp, by simp⟩ hkeep
      | reserved k =>
        have hk : h ≠ k := fun hk => hni hk.symm
        exact absurd ⟨Function.update_of_ne hk .., by simp, by simp⟩ hkeep
      | registered k o =>
        by_cases hk : h = k
        · subst hk
          obtain ⟨h1, h2, h3⟩ := ih₂ hc.1
          have hs : status (.registered h o::later ++ e::earlier) h = some (some o) :=
            Function.update_self ..
          rw [hs]
          refine ⟨fun o' => ?_, fun hz => by cases hz⟩
          simp only [Option.some.injEq, List.mem_cons, Event.registered.injEq, true_and,
            reduceCtorEq, false_or]
          constructor
          · rintro rfl
            exact ⟨Or.inr ⟨h1, Or.inl rfl⟩, h2⟩
          · rintro ⟨hadd | ⟨-, ho | hmem⟩, -⟩
            · rw [h1] at hadd
              cases hadd
            · exact ho.symm
            · exact absurd hmem (h3 o')
        · exact absurd ⟨Function.update_of_ne hk .., by simpa using fun h' => absurd h'.symm hk,
            by simp⟩ hkeep
      | unreserved k =>
        by_cases hk : h = k
        · subst hk
          obtain ⟨h1, h2, h3⟩ := ih₂ hc.1
          have hs : status (.unreserved h::later ++ e::earlier) h = none :=
            Function.update_self ..
          rw [hs]
          refine ⟨fun o => ?_, fun hz => by cases hz⟩
          simp [h1, h3]
        · exact absurd ⟨Function.update_of_ne hk .., by simp, by simp⟩ hkeep
      | removed k =>
        by_cases hk : h = k
        · subst hk
          have hs : status (.removed h::later ++ e::earlier) h = none :=
            Function.update_self ..
          rw [hs]
          refine ⟨fun o => ?_, fun hz => by cases hz⟩
          simp
        · exact absurd ⟨Function.update_of_ne hk .., by simp,
            by simpa using fun h' => absurd h'.symm hk⟩ hkeep

/-- A handle that was never issued has no status. -/
theorem status_unissued {es : List Event} {h : Handle} (hc : Coherent es)
    (hn : ∀ e ∈ es, ¬ e.Issues h) : status es h = none := by
  induction es with
  | nil => rfl
  | cons e es ih =>
    have ih' := ih (coherent_tail hc) fun x hx => hn x (by simp [hx])
    have he := hn e (by simp)
    cases e with
    | added k o => exact (Function.update_of_ne (Ne.symm he) ..).trans ih'
    | reserved k => exact (Function.update_of_ne (Ne.symm he) ..).trans ih'
    | registered k o =>
      have hk : h ≠ k := by
        rintro rfl
        rw [Coherent, ih'] at hc
        cases hc.1
      exact (Function.update_of_ne hk ..).trans ih'
    | unreserved k =>
      have hk : h ≠ k := by
        rintro rfl
        rw [Coherent, ih'] at hc
        cases hc.1
      exact (Function.update_of_ne hk ..).trans ih'
    | removed k =>
      have hk : h ≠ k := by
        rintro rfl
        obtain ⟨o, ho⟩ := hc.1
        rw [ih'] at ho
        cases ho
      exact (Function.update_of_ne hk ..).trans ih'

end History

section Runs

variable {t t' : KHandleTable} {es : List Event}

structure Good (t : KHandleTable) (es : List Event) : Prop where
  represents : Represents t (status es) (allocations es)
  coherent : Coherent es

/-- One call: it returns, and the new table represents the longer history. -/
theorem step_good (hg : Good t es) (op : Op) (he : Enabled es op) (hc : Clear t op) :
    ∃ t' es', step t es op = some (t',es') ∧ Good t' es' := by
  have hr := hg.represents
  cases op with
  | add o =>
    rcases add_spec hr hc with hadd | ⟨h, t', hadd, hfresh, hlin, hrep⟩
    · exact ⟨t, es, by simp [step, hadd, added], hg⟩
    · refine ⟨t', .added h o::es, by simp [step, hadd, added], ?_, hfresh, hlin, hg.coherent⟩
      rw [allocations_cons]
      exact hrep
  | reserve =>
    rcases reserve_spec hr with hres | ⟨h, t', hres, hfresh, hlin, hrep⟩
    · exact ⟨t, es, by simp [step, hres, reserved], hg⟩
    · refine ⟨t', .reserved h::es, by simp [step, hres, reserved], ?_, hfresh, hlin, hg.coherent⟩
      rw [allocations_cons]
      exact hrep
  | register h o =>
    by_cases hacc : (t.register h o).2 = true
    · have hh := ((register_accepts_iff hr h o).mp hacc).resolve_right hc.2
      obtain ⟨-, hrep⟩ := register_represents hr hc.1 hh
      refine ⟨(t.register h o).1, .registered h o::es, by simp [step, hacc], ?_, hh, hg.coherent⟩
      rw [allocations_cons]
      exact hrep
    · have hsame : (t.register h o).1 = t := by
        rcases t.register_cases h o with ⟨-, -, hreg⟩ | ⟨-, hreg⟩
        · exact absurd (by rw [hreg]) hacc
        · rw [hreg]
      exact ⟨t, es, by simp [step, hacc, hsame], hg⟩
  | unreserve h =>
    obtain ⟨t', hfree, hrep⟩ := free_represents hr he
    refine ⟨t', .unreserved h::es, by simp [step, KHandleTable.unreserve, hfree], ?_, he,
      hg.coherent⟩
    rw [allocations_cons]
    exact hrep
  | remove h =>
    by_cases hv : t.isValidHandle h = true
    · obtain ⟨o, ho⟩ := (valid_iff hr h).mp hv
      obtain ⟨t', hfree, hrep⟩ := free_represents hr ho
      refine ⟨t', .removed h::es, by simp [step, KHandleTable.remove, hv, hfree], ?_, ⟨o, ho⟩,
        hg.coherent⟩
      rw [allocations_cons]
      exact hrep
    · exact ⟨t, es, by simp [step, KHandleTable.remove, hv], hg⟩

theorem run_good (h : Run Clear t es) : Good t es := by
  induction h with
  | start t size h => exact ⟨initialize_represents t size h, trivial⟩
  | call op _ he hc hs ih =>
    obtain ⟨t', es', hs', hg⟩ := step_good ih op he hc
    rw [hs] at hs'
    cases hs'
    exact hg

/-- What a table owes its history. -/
structure Accounts (t : KHandleTable) (es : List Event) : Prop where
  /-- The free list is acyclic and is the unallocated slots. -/
  free : ∃ l, Chain (nextFree t) (freeHead t) l ∧ l.Nodup ∧ l.length = t.tableSize - t.count ∧
    ∀ i, i ∈ l ↔ i < t.tableSize ∧ Unallocated (status es) i
  /-- A handle is issued only when it is not held, and held handles have slots of their own. -/
  fresh : ∀ later e earlier h, es = later ++ e::earlier → e.Issues h → status earlier h = none
  apart : ∀ h h', status es h ≠ none → status es h' ≠ none →
    (decodeHandle h).index = (decodeHandle h').index → h = h'
  /-- A handle reads back its object until it is removed. -/
  object : ∀ later e earlier h o, es = later ++ e::earlier → e.Issues h →
    allocations later < maxLinearId → (t.getObject h = some o ↔
      (e = .added h o ∨ e = .reserved h ∧ .registered h o ∈ later) ∧ .removed h ∉ later)
  unissued : ∀ h, (∀ e ∈ es, ¬ e.Issues h) → t.getObject h = none
  register : ∀ h o, Clear t (.register h o) →
    ((t.register h o).2 = true ↔ status es h = some none)
  returns : ∀ op, Enabled es op → Clear t op → (step t es op).isSome

theorem good_accounts (hg : Good t es) : Accounts t es := by
  have hr := hg.represents
  refine ⟨?_, ?_, fun k k' hk hk' hi => slot_injective hr hk hk' hi, ?_, fun k hk => ?_,
    fun k o hc => ?_, fun op he hc => ?_⟩
  · obtain ⟨l, hchain, hmem, hlen, -⟩ := hr.free
    exact ⟨l, hchain, chain_nodup hchain, by omega, hmem⟩
  · rintro later e earlier k rfl he
    exact (coherent_issue (coherent_append hg.coherent) he).1
  · rintro later e earlier k o rfl he hn
    rw [get_object_spec hr]
    exact (status_since hg.coherent he hn).1 o
  · cases ho : t.getObject k with
    | none => rfl
    | some o =>
      rw [get_object_spec hr, status_unissued hg.coherent hk] at ho
      cases ho
  · rw [register_accepts_iff hr, or_iff_left hc.2]
  · obtain ⟨t', es', hs, -⟩ := step_good hg op he hc
    simp [hs]

/-- Runs that register no disguised handle and no null object. -/
theorem clear_run_accounts (h : Run Clear t es) : Accounts t es := good_accounts (run_good h)

/-- A table of three slots before any call. -/
def threeSlots : KHandleTable := (new.initializeTable 3).1

theorem clear_run_accounts_registered : ∃ t, Run Clear t
      [.registered (encodeHandle 2 1) 0xDEAD, .reserved (encodeHandle 2 1)] ∧
    Accounts t [.registered (encodeHandle 2 1) 0xDEAD, .reserved (encodeHandle 2 1)] := by
  have hrun : Run Clear threeSlots [] := Run.start new 3 (by decide)
  obtain ⟨t, es, hs, hg⟩ := step_good (run_good hrun) .reserve trivial trivial
  have hes : (step threeSlots [] .reserve).map Prod.snd = some [.reserved (encodeHandle 2 1)] := by
    decide
  rw [hs] at hes
  have hes' : es = [.reserved (encodeHandle 2 1)] := Option.some.inj hes
  subst hes'
  have hheld : status [.reserved (encodeHandle 2 1)] (encodeHandle 2 1) = some none :=
    Function.update_self ..
  have hclear : Clear t (.register (encodeHandle 2 1) 0xDEAD) :=
    ⟨by decide, fun hd => ((free_slot_iff hg.represents _).mp hd.2.2.1).2 _ (by simp [hheld]) rfl⟩
  have hacc := (good_accounts hg).register _ _ hclear |>.mpr hheld
  have hreg : Run Clear (t.register (encodeHandle 2 1) 0xDEAD).1
      [.registered (encodeHandle 2 1) 0xDEAD, .reserved (encodeHandle 2 1)] :=
    Run.call (.register (encodeHandle 2 1) 0xDEAD) (Run.call .reserve hrun trivial trivial hs)
      trivial hclear (by simp only [step, hacc, if_true])
  exact ⟨_, hreg, clear_run_accounts hreg⟩

/-- Slot 2 of a fresh table links to slot 1, and the handle of slot 2 with
linear id 1 is registered though nothing was ever reserved. -/
theorem register_accepts_unreserved :
    Run (fun _ _ => True) threeSlots [] ∧
      (threeSlots.register (encodeHandle 2 1) 0xDEAD).2 = true ∧
      status [] (encodeHandle 2 1) = none ∧
      (threeSlots.register (encodeHandle 2 1) 0xDEAD).1.getObject (encodeHandle 2 1) =
        some 0xDEAD ∧
      freeHead (threeSlots.register (encodeHandle 2 1) 0xDEAD).1 = some 2 :=
  ⟨Run.start new 3 (by decide), by decide, rfl, by decide, by decide⟩

end Runs

end Ruzu.HandleTableRuns
