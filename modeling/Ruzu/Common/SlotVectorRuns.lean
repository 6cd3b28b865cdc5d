import Ruzu.Common.SlotVectorIterators

/-!
# Live ids of a slot vector

An id is live from the insertion that returned it until it is erased or taken.
Every live id denotes its value, with or without its tag, as long as the slots
have indices below `2 ^ 31 - 1`.
-/

set_option autoImplicit false

namespace Ruzu

/-- The id is the live one, or the live one with the tag. -/
def SlotId.names (id live : SlotId) : Bool := id = live ∨ id = live.tagged

namespace SlotVector

open SlotId (invalidIndex)

variable {T : Type}

/-- A slot vector, and what was inserted under the ids that are live. -/
structure Held (T : Type) where
  vector : SlotVector T
  live : List (SlotId × T)

inductive Op (T : Type) where
  | insert (value : T)
  | erase (id : SlotId)
  | take (id : SlotId)

def Op.isInsert : Op T → Bool
  | .insert _ => true
  | _ => false

/-- An id to erase or to take names a live one. -/
def Op.isLive (live : List (SlotId × T)) : Op T → Bool
  | .insert _ => true
  | .erase id | .take id => live.any fun p => id.names p.1

def removed (live : List (SlotId × T)) (id : SlotId) : List (SlotId × T) :=
  live.filter fun p => !id.names p.1

namespace Held

def new : Held T := ⟨.new, []⟩

def step (debug : Bool) (h : Held T) : Op T → Option (Held T)
  | .insert value => (h.vector.insert value).map fun r => ⟨r.1, (r.2, value) :: h.live⟩
  | .erase id => (h.vector.erase id).map fun s => ⟨s, removed h.live id⟩
  | .take id => (h.vector.take debug id).map fun r => ⟨r.1, removed h.live id⟩

def run (debug : Bool) (h : Held T) : List (Op T) → Option (Held T)
  | [] => some h
  | op :: ops => (h.step debug op).bind fun h => h.run debug ops

/-- Every operation passes the test in the state that it finds. -/
def along (debug : Bool) (test : Held T → Op T → Bool) (h : Held T) : List (Op T) → Bool
  | [] => true
  | op :: ops => test h op &&
    match h.step debug op with
    | some h => h.along debug test ops
    | none => true

def legal (debug : Bool) : Held T → List (Op T) → Bool :=
  along debug fun h op => op.isLive h.live

/-- Every insertion finds fewer than `2 ^ 30` live ids. -/
def roomy (debug : Bool) : Held T → List (Op T) → Bool :=
  along debug fun h op => !op.isInsert || decide (h.live.length < 2 ^ 30)

end Held

/-- What a user of the slot vector may rely on. -/
structure Faithful (debug : Bool) (h : Held T) : Prop where
  distinct : (h.live.map fun p => p.1.value).Nodup
  denotes : ∀ p ∈ h.live, ∀ id : SlotId, id.names p.1 → h.vector.contains id = true ∧
    h.vector.get debug id = some p.2 ∧ ∃ s, h.vector.take debug id = some (s, p.2)
  freeOnce : h.vector.freeList.Nodup
  free : ∀ i : ℕ, i ∈ h.vector.freeList ↔ h.vector.values[i]? = some none
  bits : ∀ i < 64 * h.vector.storedBitset.length,
    h.vector.readStorageBit i = some (h.vector.values[i]?.join).isSome
  size : h.vector.size debug = some h.live.length
  visits : ∃ visited, visited.Perm h.live ∧
    visited.Pairwise (fun a b => a.1.index < b.1.index) ∧ h.vector.iter debug = some visited ∧
      ∀ f, h.vector.iterMut debug f =
        some ({ h.vector with values := replaced f h.vector.values 0 }, visited)

/-- No operation of the run is a fault, and every state on the way is faithful. -/
def KeepsSlots (debug : Bool) (h : Held T) (ops : List (Op T)) : Prop :=
  ∀ pre, pre <+: ops → ∃ h', h.run debug pre = some h' ∧ Faithful debug h'

/-! ### Ids -/

section Ids

variable {id live : SlotId}

theorem value_eq (id : SlotId) : id.value = id.index % 2 ^ 31 :=
  Nat.and_two_pow_sub_one_eq_mod id.index 31

theorem tagged_index (h : live.index < 2 ^ 31) : live.tagged.index = live.index + 2 ^ 31 := by
  have hor := Nat.two_pow_add_eq_or_of_lt h 1
  rw [Nat.mul_one] at hor
  show live.index ||| 2 ^ 31 = _
  rw [Nat.or_comm, ← hor, Nat.add_comm]

theorem names_iff : id.names live = true ↔ id = live ∨ id = live.tagged := decide_eq_true_iff

theorem names_index (hlive : live.index < 2 ^ 31) (hnames : id.names live = true) :
    id.index = live.index ∨ id.index = live.index + 2 ^ 31 := by
  rcases names_iff.1 hnames with rfl | rfl
  · exact .inl rfl
  · exact .inr (tagged_index hlive)

theorem names_value (hlive : live.index < 2 ^ 31) (hnames : id.names live = true) :
    id.value = live.index := by
  rw [value_eq]
  rcases names_index hlive hnames with heq | heq <;> omega

theorem names_isValid (hlive : live.index < 2 ^ 31 - 1) (hnames : id.names live = true) :
    id.isValid = true := by
  have hne : id.index ≠ 0xffffffff := by
    rcases names_index (by omega) hnames with heq | heq <;> omega
  exact decide_eq_true hne

end Ids

/-! ### What every operation keeps -/

/-- The live ids are the occupied slots. -/
structure Kept (h : Held T) : Prop where
  sound : Sound h.vector
  nodup : (h.live.map Prod.fst).Nodup
  live : ∀ (id : SlotId) (x : T),
    (id, x) ∈ h.live ↔ h.vector.values[id.index]? = some (some x)

namespace Kept

variable {h h' : Held T} {debug : Bool} {id l : SlotId} {x : T}

theorem new : Kept (.new : Held T) where
  sound := .new
  nodup := List.nodup_nil
  live id x := by simp [Held.new, SlotVector.new]

theorem index_lt (k : Kept h) (hl : (l, x) ∈ h.live) : l.index < h.vector.values.length :=
  (List.getElem?_eq_some_iff.mp ((k.live l x).mp hl)).1

theorem index_small (k : Kept h) (hl : (l, x) ∈ h.live) : l.index < 2 ^ 31 - 1 := by
  have hlt := k.index_lt hl
  have hle := k.sound.length_le
  omega

theorem value (k : Kept h) (hl : (l, x) ∈ h.live) (hnames : id.names l = true) :
    id.value = l.index :=
  names_value (Nat.lt_of_lt_of_le (k.index_small hl) (by decide)) hnames

/-- The slot that an id names. -/
theorem slot (k : Kept h) (hl : (l, x) ∈ h.live) (hnames : id.names l = true) :
    h.vector.values[id.value]? = some (some x) := by
  rw [k.value hl hnames]
  exact (k.live l x).mp hl

theorem indices_nodup (k : Kept h) : (h.live.map fun p => p.1.index).Nodup := by
  have hmap : (h.live.map Prod.fst).map SlotId.index = h.live.map fun p => p.1.index :=
    List.map_map
  rw [← hmap]
  exact k.nodup.map fun a b hab => congrArg SlotId.mk hab

/-- Every slot is free or live. -/
theorem count (k : Kept h) :
    h.vector.freeList.length + h.live.length = h.vector.values.length := by
  have hmem : ∀ i : ℕ, i ∈ h.live.map (fun p => p.1.index) ↔
      ∃ x, h.vector.values[i]? = some (some x) := by
    intro i
    rw [List.mem_map]
    constructor
    · rintro ⟨p, hp, rfl⟩
      exact ⟨p.2, (k.live p.1 p.2).mp hp⟩
    · rintro ⟨x, hx⟩
      exact ⟨(⟨i⟩, x), (k.live ⟨i⟩ x).mpr hx, rfl⟩
  have hboth : (h.vector.freeList ++ h.live.map fun p => p.1.index).Nodup := by
    refine List.nodup_append.mpr ⟨k.sound.nodup, k.indices_nodup, fun i hfree j hlive heq => ?_⟩
    obtain ⟨x, hx⟩ := (hmem j).mp hlive
    rw [k.sound.free, heq, hx] at hfree
    cases hfree
  have hperm : (h.vector.freeList ++ h.live.map fun p => p.1.index).Perm
      (List.range h.vector.values.length) := by
    rw [List.perm_ext_iff_of_nodup hboth List.nodup_range]
    intro i
    rw [List.mem_append, k.sound.free, hmem, List.mem_range]
    constructor
    · rintro (hnone | ⟨x, hx⟩)
      · exact (List.getElem?_eq_some_iff.mp hnone).1
      · exact (List.getElem?_eq_some_iff.mp hx).1
    · intro hlt
      rw [List.getElem?_eq_getElem hlt]
      cases h.vector.values[i] with
      | none => exact .inl rfl
      | some x => exact .inr ⟨x, rfl⟩
  have hlength := hperm.length_eq
  rwa [List.length_append, List.length_map, List.length_range] at hlength

/-! ### Steps -/

theorem mem_removed (k : Kept h) (hl : (l, x) ∈ h.live) (hnames : id.names l = true)
    (p : SlotId × T) : p ∈ removed h.live id ↔ p.1.index ≠ id.value ∧ p ∈ h.live := by
  rw [removed, List.mem_filter, Bool.not_eq_true', and_comm, ← Bool.not_eq_true,
    k.value hl hnames]
  refine and_congr_left fun hp => not_congr ⟨fun hnames' => ?_, fun hindex => ?_⟩
  · rw [← k.value hl hnames, k.value hp hnames']
  · have heq : p.1 = l := congrArg SlotId.mk hindex
    rwa [heq]

theorem removed (k : Kept h) (hl : (l, x) ∈ h.live) (hnames : id.names l = true) {s : SlotVector T}
    (hsound : Sound s) (hvalues : ∀ (j : ℕ) (y : T), s.values[j]? = some (some y) ↔
      j ≠ id.value ∧ h.vector.values[j]? = some (some y)) :
    Kept ⟨s, SlotVector.removed h.live id⟩ where
  sound := hsound
  nodup := k.nodup.sublist (List.filter_sublist.map Prod.fst)
  live id' y := by
    dsimp only
    rw [k.mem_removed hl hnames, hvalues, k.live]

theorem erase_spec (k : Kept h) (hl : (l, x) ∈ h.live) (hnames : id.names l = true) :
    ∃ h', h.step debug (.erase id) = some h' ∧ Kept h' := by
  obtain ⟨s₁, s', hwrite, hreset, hsound, hvalues⟩ := empty_spec k.sound (k.slot hl hnames)
  refine ⟨_, ?_, k.removed hl hnames hsound hvalues⟩
  rw [Held.step, erase]
  dsimp only [bind, Option.bind]
  rw [hwrite]
  dsimp only
  rw [hreset]
  rfl

/-- Every assertion of a debug build holds. -/
theorem validateIndex_eq (k : Kept h) (hl : (l, x) ∈ h.live) (hnames : id.names l = true) :
    h.vector.validateIndex debug id = some () := by
  have hslot := k.slot hl hnames
  have hword := k.sound.word_lt (List.getElem?_eq_some_iff.mp hslot).1
  have hbit : h.vector.readStorageBit id.value = some true := by
    rw [readStorageBit, readBit_eq hword, k.sound.bits, hslot]
    rfl
  rw [validateIndex]
  split
  · exact if_pos ⟨names_isValid (k.index_small hl) hnames, hword, hbit⟩
  · rfl

theorem take_eq (k : Kept h) (hl : (l, x) ∈ h.live) (hnames : id.names l = true) :
    ∃ s, h.vector.take debug id = some (s, x) ∧ Kept ⟨s, SlotVector.removed h.live id⟩ := by
  have hslot := k.slot hl hnames
  obtain ⟨s₁, s', hwrite, hreset, hsound, hvalues⟩ := empty_spec k.sound hslot
  refine ⟨s', ?_, k.removed hl hnames hsound hvalues⟩
  rw [take, k.validateIndex_eq hl hnames]
  dsimp only [bind, Option.bind]
  rw [hslot, Option.join_some]
  dsimp only
  rw [hwrite]
  dsimp only
  rw [hreset]

theorem insert_eq (k : Kept h) (hroom : h.live.length < 2 ^ 30) (x : T) :
    ∃ h', h.step debug (.insert x) = some h' ∧ Kept h' := by
  have hcount := k.count
  have hfree : h.vector.freeList = [] → h.vector.values.length < 2 ^ 30 := by
    intro hnil
    rw [hnil, List.length_nil] at hcount
    omega
  obtain ⟨s, i, hinsert, hsound, hfresh, hvalues⟩ := insert_spec k.sound hfree x
  refine ⟨⟨s, (⟨i⟩, x) :: h.live⟩, by rw [Held.step, hinsert]; rfl, hsound, ?_, fun id y => ?_⟩
  · rw [List.map_cons, List.nodup_cons]
    refine ⟨fun hin => ?_, k.nodup⟩
    obtain ⟨p, hp, heq⟩ := List.mem_map.mp hin
    have hslot := (k.live p.1 p.2).mp hp
    rw [heq] at hslot
    exact hfresh p.2 hslot
  · have hid : id = ⟨i⟩ ↔ id.index = i :=
      ⟨fun heq => congrArg SlotId.index heq, fun heq => congrArg SlotId.mk heq⟩
    dsimp only
    rw [List.mem_cons, hvalues, Prod.mk.injEq, hid, k.live]

theorem step (k : Kept h) (debug : Bool) {op : Op T} (hlegal : op.isLive h.live = true)
    (hroom : op.isInsert = true → h.live.length < 2 ^ 30) :
    ∃ h', h.step debug op = some h' ∧ Kept h' := by
  cases op with
  | insert x => exact k.insert_eq (hroom rfl) x
  | erase id =>
    obtain ⟨p, hp, hnames⟩ := List.any_eq_true.mp hlegal
    exact k.erase_spec hp hnames
  | take id =>
    obtain ⟨p, hp, hnames⟩ := List.any_eq_true.mp hlegal
    obtain ⟨s, htake, hkept⟩ := k.take_eq hp hnames
    exact ⟨_, by rw [Held.step, htake]; rfl, hkept⟩

theorem faithful (k : Kept h) : Faithful debug h where
  distinct := by
    have hvalue : h.live.map (fun p => p.1.value) = h.live.map fun p => p.1.index := by
      refine List.map_congr_left fun p hp => ?_
      exact k.value hp (names_iff.2 (.inl rfl))
    rw [hvalue]
    exact k.indices_nodup
  denotes p hp id hnames := by
    have hslot := k.slot hp hnames
    obtain ⟨s, htake, -⟩ := k.take_eq hp hnames
    refine ⟨?_, ?_, s, htake⟩
    · rw [contains, if_pos (names_isValid (k.index_small hp) hnames), hslot]
      rfl
    · rw [get, k.validateIndex_eq hp hnames, hslot]
      rfl
  freeOnce := k.sound.nodup
  free := k.sound.free
  bits i hi := by
    rw [readStorageBit, readBit_eq (by omega), k.sound.bits]
  size := by
    have hcount := k.count
    rw [size, if_pos (by omega), ← hcount, Nat.add_sub_cancel_left]
  visits := by
    refine ⟨_, ?_, items_pairwise, k.sound.iter_eq, k.sound.iterMut_eq⟩
    rw [List.perm_ext_iff_of_nodup items_nodup k.nodup.of_map]
    intro p
    rw [k.sound.mem_items, k.live]

end Kept


/-! ### The last index -/

section Last

variable {s s' : SlotVector T} {id : SlotId} {x : T}

/-- Growing from `2 ^ 30` slots hands out the last of the new ones. -/
theorem freeValueIndex_full (hfree : s.freeList = []) (hfull : s.values.length = 2 ^ 30) :
    ∃ s₁, s.freeValueIndex = some (s₁, 2 ^ 31 - 1) := by
  have hne : s.values ≠ [] := by
    intro hnil
    rw [hnil, List.length_nil] at hfull
    omega
  have hlast : ((s.reserve (s.values.length * 2)).freeList).getLast? = some (2 ^ 31 - 1) := by
    rw [reserve, hfree, hfull, List.nil_append, map_range'_u32 (by omega), List.getLast?_range']
    rfl
  refine ⟨{ s.reserve (s.values.length * 2) with
    freeList := (s.reserve (s.values.length * 2)).freeList.dropLast }, ?_⟩
  rw [freeValueIndex, if_pos hfree, if_neg hne, hlast]
  rfl

theorem insert_index (h : s.insert x = some (s', id)) :
    ∃ s₁, s.freeValueIndex = some (s₁, id.index) := by
  rw [insert] at h
  simp only [bind, Option.bind_eq_some_iff] at h
  obtain ⟨r, hr, s₂, -, s₃, -, heq⟩ := h
  cases heq
  exact ⟨r.1, hr⟩

/-- That index with the tag is the invalid one. -/
theorem Kept.not_faithful {h h' : Held T} {debug : Bool} (k : Kept h)
    (hfull : 2 ^ 30 ≤ h.live.length) (hstep : h.step debug (.insert x) = some h') :
    ¬ Faithful debug h' := by
  intro hfaithful
  have hcount := k.count
  have hle := k.sound.length_le
  have hfree : h.vector.freeList = [] := List.eq_nil_of_length_eq_zero (by omega)
  obtain ⟨s₁, hindex⟩ := freeValueIndex_full hfree (by omega)
  obtain ⟨⟨s', id⟩, hinsert, heq⟩ := Option.map_eq_some_iff.mp hstep
  cases heq
  obtain ⟨s₂, hid⟩ := insert_index hinsert
  rw [hindex] at hid
  have hid : id.index = 2 ^ 31 - 1 := (congrArg Prod.snd (Option.some.inj hid)).symm
  have htagged := tagged_index (show id.index < 2 ^ 31 by omega)
  have hcontains := (hfaithful.denotes (id, x) List.mem_cons_self id.tagged
    (names_iff.2 (.inr rfl))).1
  have hinvalid : ¬ id.tagged.isValid = true := by
    rw [SlotId.isValid, decide_eq_true_iff, not_not, htagged, hid]
    rfl
  rw [contains, if_neg hinvalid] at hcontains
  cases hcontains

end Last

/-! ### Runs -/

section Runs

variable {debug : Bool} {h : Held T} {op : Op T} {ops : List (Op T)}

theorem along_cons {test : Held T → Op T → Bool} : h.along debug test (op :: ops) = true ↔
    test h op = true ∧ ∀ h', h.step debug op = some h' → h'.along debug test ops = true := by
  rw [Held.along, Bool.and_eq_true]
  refine and_congr_right fun _ => ?_
  cases h.step debug op with
  | none => exact iff_of_true rfl nofun
  | some h' => exact ⟨fun hrest _ heq => Option.some.inj heq ▸ hrest, fun hrest => hrest h' rfl⟩

theorem KeepsSlots.cons (hkeeps : KeepsSlots debug h (op :: ops)) :
    ∃ h', h.step debug op = some h' ∧ Faithful debug h' ∧ KeepsSlots debug h' ops := by
  obtain ⟨h', hrun, hfaithful⟩ := hkeeps [op] ⟨ops, rfl⟩
  rw [Held.run, Option.bind_eq_some_iff] at hrun
  obtain ⟨h₁, hstep, heq⟩ := hrun
  cases heq
  refine ⟨h', hstep, hfaithful, fun pre hpre => ?_⟩
  obtain ⟨h₂, hrun, hfaithful₂⟩ := hkeeps (op :: pre) (List.cons_prefix_cons.mpr ⟨rfl, hpre⟩)
  rw [Held.run, hstep] at hrun
  exact ⟨h₂, hrun, hfaithful₂⟩

theorem room_iff : (!op.isInsert || decide (h.live.length < 2 ^ 30)) = true ↔
    (op.isInsert = true → h.live.length < 2 ^ 30) := by
  rw [Bool.or_eq_true, Bool.not_eq_true', decide_eq_true_iff, ← Bool.not_eq_true, imp_iff_not_or]

theorem Kept.keepsSlots (k : Kept h) (hlegal : h.legal debug ops = true)
    (hroomy : h.roomy debug ops = true) : KeepsSlots debug h ops := by
  induction ops generalizing h with
  | nil =>
    intro pre hpre
    rw [List.prefix_nil.mp hpre]
    exact ⟨h, rfl, k.faithful⟩
  | cons op ops ih =>
    obtain ⟨hlive, hlegal⟩ := along_cons.1 hlegal
    obtain ⟨hroom, hroomy⟩ := along_cons.1 hroomy
    obtain ⟨h', hstep, k'⟩ := k.step debug hlive (room_iff.1 hroom)
    intro pre hpre
    cases pre with
    | nil => exact ⟨h, rfl, k.faithful⟩
    | cons op' pre =>
      obtain ⟨rfl, hrest⟩ := List.cons_prefix_cons.mp hpre
      rw [Held.run, hstep]
      exact ih k' (hlegal h' hstep) (hroomy h' hstep) pre hrest

theorem Kept.roomy (k : Kept h) (hlegal : h.legal debug ops = true)
    (hkeeps : KeepsSlots debug h ops) : h.roomy debug ops = true := by
  induction ops generalizing h with
  | nil => rfl
  | cons op ops ih =>
    obtain ⟨hlive, hlegal⟩ := along_cons.1 hlegal
    obtain ⟨h', hstep, hfaithful, hrest⟩ := hkeeps.cons
    have hroom : op.isInsert = true → h.live.length < 2 ^ 30 := by
      intro hop
      cases op with
      | insert x =>
        by_contra hfull
        exact k.not_faithful (Nat.not_lt.mp hfull) hstep hfaithful
      | erase id => cases hop
      | take id => cases hop
    obtain ⟨h₁, hstep₁, k'⟩ := k.step debug hlive hroom
    cases hstep.symm.trans hstep₁
    refine along_cons.2 ⟨room_iff.2 hroom, fun h₂ hstep₂ => ?_⟩
    cases hstep.symm.trans hstep₂
    exact ih k' (hlegal h' hstep) hrest

end Runs

/-! ### As many insertions as there are -/

section Inserted

variable {debug : Bool} {h : Held T} {n : ℕ} {x : T}

theorem legal_replicate_insert : h.legal debug (List.replicate n (.insert x)) = true := by
  induction n generalizing h with
  | zero => rfl
  | succ n ih => exact along_cons.2 ⟨rfl, fun _ _ => ih⟩

/-- Insertions that all find room leave at most `2 ^ 30` live ids. -/
theorem length_of_roomy (hle : h.live.length ≤ 2 ^ 30)
    (hroomy : h.roomy debug (List.replicate n (.insert x)) = true)
    (hkeeps : KeepsSlots debug h (List.replicate n (.insert x))) :
    h.live.length + n ≤ 2 ^ 30 := by
  induction n generalizing h with
  | zero => exact hle
  | succ n ih =>
    rw [List.replicate_succ] at hroomy hkeeps
    obtain ⟨hroom, hroomy⟩ := along_cons.1 hroomy
    obtain ⟨h', hstep, -, hrest⟩ := hkeeps.cons
    have hlt := room_iff.1 hroom rfl
    have hlength : h'.live.length = h.live.length + 1 := by
      obtain ⟨r, -, rfl⟩ := Option.map_eq_some_iff.mp hstep
      rfl
    have hmore := ih (by omega) (hroomy h' hstep) hrest
    omega

end Inserted

/-- Ids, values, free slots and bits agree in every run that never holds more than `2 ^ 30`
values, and in no other. -/
theorem keepsSlots_iff (debug : Bool) (ops : List (Op T))
    (hlegal : Held.new.legal debug ops = true) :
    KeepsSlots debug .new ops ↔ Held.new.roomy debug ops = true :=
  ⟨Kept.new.roomy hlegal, Kept.new.keepsSlots hlegal⟩

theorem keepsSlots_reused : KeepsSlots true .new [.insert 'a', .insert 'b', .insert 'c',
    .erase ⟨1 ||| SlotId.taggedValue⟩, .take ⟨0⟩, .insert 'd', .take ⟨3⟩] :=
  (keepsSlots_iff true _ (by decide)).mpr (by decide)


theorem keepsSlots_full :
    Held.new.legal false (List.replicate (2 ^ 30 + 1) (Op.insert ())) = true ∧
      ¬ KeepsSlots false .new (List.replicate (2 ^ 30 + 1) (Op.insert ())) := by
  refine ⟨legal_replicate_insert, fun hkeeps => ?_⟩
  have hroomy := Kept.new.roomy legal_replicate_insert hkeeps
  have hle := length_of_roomy (Nat.zero_le _) hroomy hkeeps
  rw [Held.new, List.length_nil, Nat.zero_add] at hle
  exact Nat.not_succ_le_self _ hle

end SlotVector

end Ruzu
