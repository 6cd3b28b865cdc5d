import Mathlib

/-!
# Ordered maps as sorted association lists

The map is the list of its entries in ascending key order. Lookups by
position (floor, predecessor, successor, half-open range) are filters of that
list. An entry cuts the list into the keys below it and the keys above it,
and every operation at that key is computed on such a cut.
-/

set_option autoImplicit false

namespace Ruzu

structure BTreeMap (α β : Type*) [LinearOrder α] where
  entries : List (α × β)
  sorted : entries.Pairwise (fun e f => e.1 < f.1)

namespace BTreeMap

variable {α β : Type*} [LinearOrder α]

def empty : BTreeMap α β := ⟨[], List.Pairwise.nil⟩

def isEmpty (m : BTreeMap α β) : Bool := m.entries.isEmpty

def len (m : BTreeMap α β) : ℕ := m.entries.length

def get (m : BTreeMap α β) (k : α) : Option β :=
  (m.entries.find? (fun e => e.1 = k)).map Prod.snd

def below (m : BTreeMap α β) (k : α) : List (α × β) := m.entries.filter (fun e => e.1 < k)

def above (m : BTreeMap α β) (k : α) : List (α × β) := m.entries.filter (fun e => k < e.1)

theorem cut_sorted (m : BTreeMap α β) (k : α) (v : β) :
    (m.below k ++ (k,v) :: m.above k).Pairwise (fun e f => e.1 < f.1) := by
  rw [List.pairwise_append, List.pairwise_cons]
  refine ⟨m.sorted.filter _, ⟨?_, m.sorted.filter _⟩, ?_⟩
  · intro e he
    simpa [above] using (List.mem_filter.mp he).2
  · intro e he f hf
    have hek : e.1 < k := by simpa using (List.mem_filter.mp he).2
    rcases List.mem_cons.mp hf with rfl | hf
    · exact hek
    · have hkf : k < f.1 := by simpa using (List.mem_filter.mp hf).2
      exact hek.trans hkf

def insert (m : BTreeMap α β) (k : α) (v : β) : BTreeMap α β :=
  ⟨m.below k ++ (k,v) :: m.above k, m.cut_sorted k v⟩

def remove (m : BTreeMap α β) (k : α) : BTreeMap α β :=
  ⟨m.entries.filter (fun e => e.1 ≠ k), m.sorted.filter _⟩

def alterEntry (k : α) (f : β → β) (e : α × β) : α × β := if e.1 = k then (e.1, f e.2) else e

@[simp] theorem alter_entry_key (k : α) (f : β → β) (e : α × β) :
    (alterEntry k f e).1 = e.1 := by
  unfold alterEntry
  split <;> rfl

/-- Write through a mutable reference to the value at `k`. -/
def modify (m : BTreeMap α β) (k : α) (f : β → β) : BTreeMap α β :=
  ⟨m.entries.map (alterEntry k f), by
    rw [List.pairwise_map]
    simpa using m.sorted⟩

/-- The last entry with a key at most `k`. -/
def floor (m : BTreeMap α β) (k : α) : Option (α × β) :=
  (m.entries.filter (fun e => e.1 ≤ k)).getLast?

/-- The first entry with a key at least `k`. -/
def ceil (m : BTreeMap α β) (k : α) : Option (α × β) :=
  (m.entries.filter (fun e => k ≤ e.1)).head?

def pred (m : BTreeMap α β) (k : α) : Option (α × β) := (m.below k).getLast?

def succ (m : BTreeMap α β) (k : α) : Option (α × β) := (m.above k).head?

def range (m : BTreeMap α β) (lo hi : α) : List (α × β) :=
  m.entries.filter (fun e => lo ≤ e.1 ∧ e.1 < hi)

section Cut

variable {m : BTreeMap α β} {k : α} {v : β} {pre post : List (α × β)}

theorem cut_below (h : m.entries = pre ++ (k,v) :: post) : ∀ e ∈ pre, e.1 < k := by
  intro e he
  have hs := m.sorted
  rw [h, List.pairwise_append] at hs
  exact hs.2.2 e he (k,v) (by simp)

theorem cut_above (h : m.entries = pre ++ (k,v) :: post) : ∀ e ∈ post, k < e.1 := by
  have hs := m.sorted
  rw [h, List.pairwise_append, List.pairwise_cons] at hs
  exact hs.2.1.1

theorem filter_below (hpre : ∀ e ∈ pre, e.1 < k) (hpost : ∀ e ∈ post, k < e.1) :
    (pre ++ post).filter (fun e => e.1 < k) = pre := by
  have hs : pre.filter (fun e => e.1 < k) = pre :=
    List.filter_eq_self.mpr (by simpa using fun a b hab => hpre (a,b) hab)
  have hn : post.filter (fun e => e.1 < k) = [] :=
    List.filter_eq_nil_iff.mpr (by simpa using fun a b hab => (hpost (a,b) hab).le)
  rw [List.filter_append, hs, hn, List.append_nil]

theorem filter_above (hpre : ∀ e ∈ pre, e.1 < k) (hpost : ∀ e ∈ post, k < e.1) :
    (pre ++ post).filter (fun e => k < e.1) = post := by
  have hn : pre.filter (fun e => k < e.1) = [] :=
    List.filter_eq_nil_iff.mpr (by simpa using fun a b hab => (hpre (a,b) hab).le)
  have hs : post.filter (fun e => k < e.1) = post :=
    List.filter_eq_self.mpr (by simpa using fun a b hab => hpost (a,b) hab)
  rw [List.filter_append, hn, hs, List.nil_append]

theorem below_cut (h : m.entries = pre ++ (k,v) :: post) : m.below k = pre := by
  have hf := filter_below (cut_below h) (cut_above h)
  rw [List.filter_append] at hf
  simpa [below, h, List.filter_append] using hf

theorem above_cut (h : m.entries = pre ++ (k,v) :: post) : m.above k = post := by
  have hf := filter_above (cut_below h) (cut_above h)
  rw [List.filter_append] at hf
  simpa [above, h, List.filter_append] using hf

theorem get_cut (h : m.entries = pre ++ (k,v) :: post) : m.get k = some v := by
  have hn : pre.find? (fun e => e.1 = k) = none := by
    rw [List.find?_eq_none]
    intro e he
    simpa using (cut_below h e he).ne
  simp [get, h, List.find?_append, hn]

/-- The entry found at a key cuts the list. -/
theorem cut_of_get (h : m.get k = some v) :
    ∃ pre post, m.entries = pre ++ (k,v) :: post := by
  obtain ⟨⟨k',v'⟩, hf, hv⟩ := Option.map_eq_some_iff.mp h
  have hk : k' = k := by simpa using List.find?_some hf
  obtain ⟨pre, post, hcut⟩ := List.append_of_mem (List.mem_of_find?_eq_some hf)
  simp only at hv
  exact ⟨pre, post, by rw [hcut, hk, hv]⟩

theorem cut_of_mem (h : (k,v) ∈ m.entries) : ∃ pre post, m.entries = pre ++ (k,v) :: post :=
  List.append_of_mem h

theorem get_eq_some_iff : m.get k = some v ↔ (k,v) ∈ m.entries := by
  constructor
  · intro h
    obtain ⟨pre, post, hcut⟩ := cut_of_get h
    simp [hcut]
  · intro h
    obtain ⟨pre, post, hcut⟩ := cut_of_mem h
    exact get_cut hcut

theorem get_eq_none_iff : m.get k = none ↔ ∀ v, (k,v) ∉ m.entries := by
  constructor
  · intro h v hv
    rw [get_eq_some_iff.2 hv] at h
    exact Option.some_ne_none _ h
  · intro h
    cases hg : m.get k with
    | none => rfl
    | some v => exact absurd (get_eq_some_iff.1 hg) (h v)

theorem pred_cut (h : m.entries = pre ++ (k,v) :: post) : m.pred k = pre.getLast? := by
  rw [pred, below_cut h]

theorem succ_cut (h : m.entries = pre ++ (k,v) :: post) : m.succ k = post.head? := by
  rw [succ, above_cut h]

theorem insert_cut (w : β) (h : m.entries = pre ++ (k,v) :: post) :
    (m.insert k w).entries = pre ++ (k,w) :: post := by
  simp only [insert, below_cut h, above_cut h]

theorem insert_gap (hm : m.entries = pre ++ post) (hpre : ∀ e ∈ pre, e.1 < k)
    (hpost : ∀ e ∈ post, k < e.1) : (m.insert k v).entries = pre ++ (k,v) :: post := by
  simp only [insert, below, above, hm, filter_below hpre hpost, filter_above hpre hpost]

theorem remove_cut (h : m.entries = pre ++ (k,v) :: post) :
    (m.remove k).entries = pre ++ post := by
  have hpre : pre.filter (fun e => e.1 ≠ k) = pre :=
    List.filter_eq_self.mpr (by simpa using fun a b hab => (cut_below h (a,b) hab).ne)
  have hpost : post.filter (fun e => e.1 ≠ k) = post :=
    List.filter_eq_self.mpr (by simpa using fun a b hab => (cut_above h (a,b) hab).ne')
  simp only [remove, h, List.filter_append, hpre]
  rw [List.filter_cons_of_neg (by simp), hpost]

theorem modify_cut (f : β → β) (h : m.entries = pre ++ (k,v) :: post) :
    (m.modify k f).entries = pre ++ (k, f v) :: post := by
  have hpre : pre.map (alterEntry k f) = pre := by
    rw [List.map_eq_iff]
    intro i
    cases hi : pre[i]? with
    | none => rfl
    | some e => simp [alterEntry, (cut_below h e (List.mem_of_getElem? hi)).ne]
  have hpost : post.map (alterEntry k f) = post := by
    rw [List.map_eq_iff]
    intro i
    cases hi : post[i]? with
    | none => rfl
    | some e => simp [alterEntry, (cut_above h e (List.mem_of_getElem? hi)).ne']
  simp [modify, h, hpre, hpost, alterEntry]

theorem floor_cut {a : α} (h : m.entries = pre ++ (k,v) :: post) (hk : k ≤ a)
    (hpost : ∀ e ∈ post, a < e.1) : m.floor a = some (k,v) := by
  have hn : post.filter (fun e => e.1 ≤ a) = [] :=
    List.filter_eq_nil_iff.mpr (by simpa using fun x y hxy => hpost (x,y) hxy)
  simp [floor, h, List.filter_append, hk, hn]

end Cut

theorem floor_eq_some {m : BTreeMap α β} {a : α} {e : α × β} (h : m.floor a = some e) :
    e ∈ m.entries ∧ e.1 ≤ a := by
  simpa using List.mem_filter.mp (List.mem_of_getLast? h)

theorem floor_last {m : BTreeMap α β} {a : α} {e f : α × β} (h : m.floor a = some e)
    (hf : f ∈ m.entries) (hfa : f.1 ≤ a) : f.1 ≤ e.1 := by
  obtain ⟨hmem, hle⟩ := floor_eq_some h
  obtain ⟨init, hinit⟩ := List.getLast?_eq_some_iff.mp h
  have hmf : f ∈ init ++ [e] := by
    rw [← hinit]
    exact List.mem_filter.mpr ⟨hf, by simpa using hfa⟩
  have hsorted := m.sorted.filter (fun e => decide (e.1 ≤ a))
  rw [hinit, List.pairwise_append] at hsorted
  rcases List.mem_append.mp hmf with hin | hin
  · exact (hsorted.2.2 f hin e (by simp)).le
  · rw [List.mem_singleton.mp hin]

theorem floor_eq_none {m : BTreeMap α β} {a : α} (h : m.floor a = none) :
    ∀ e ∈ m.entries, a < e.1 := by
  intro e he
  have hnil := List.getLast?_eq_none_iff.mp h
  by_contra hlt
  exact List.ne_nil_of_mem (List.mem_filter.mpr ⟨he, by simpa using hlt⟩) hnil

theorem ceil_eq_some {m : BTreeMap α β} {a : α} {e : α × β} (h : m.ceil a = some e) :
    e ∈ m.entries ∧ a ≤ e.1 := by
  simpa using List.mem_filter.mp (List.mem_of_mem_head? h)

theorem ceil_first {m : BTreeMap α β} {a : α} {e f : α × β} (h : m.ceil a = some e)
    (hf : f ∈ m.entries) (haf : a ≤ f.1) : e.1 ≤ f.1 := by
  obtain ⟨rest, hrest⟩ := List.head?_eq_some_iff.mp h
  have hmf : f ∈ e :: rest := by
    rw [← hrest]
    exact List.mem_filter.mpr ⟨hf, by simpa using haf⟩
  have hsorted := m.sorted.filter (fun e => decide (a ≤ e.1))
  rw [hrest, List.pairwise_cons] at hsorted
  rcases List.mem_cons.mp hmf with rfl | hin
  · exact le_rfl
  · exact (hsorted.1 f hin).le

theorem ceil_eq_none {m : BTreeMap α β} {a : α} (h : m.ceil a = none) :
    ∀ e ∈ m.entries, e.1 < a := by
  intro e he
  have hnil := List.head?_eq_none_iff.mp h
  by_contra hlt
  exact List.ne_nil_of_mem (List.mem_filter.mpr ⟨he, by simpa using hlt⟩) hnil

theorem succ_eq_some {m : BTreeMap α β} {a : α} {e : α × β} (h : m.succ a = some e) :
    e ∈ m.entries ∧ a < e.1 := by
  simpa [above] using List.mem_filter.mp (List.mem_of_mem_head? h)

theorem succ_first {m : BTreeMap α β} {a : α} {e f : α × β} (h : m.succ a = some e)
    (hf : f ∈ m.entries) (haf : a < f.1) : e.1 ≤ f.1 := by
  obtain ⟨rest, hrest⟩ := List.head?_eq_some_iff.mp h
  have hmf : f ∈ e :: rest := by
    rw [← hrest]
    exact List.mem_filter.mpr ⟨hf, by simpa using haf⟩
  have hsorted : (m.above a).Pairwise (fun e f => e.1 < f.1) := m.sorted.filter _
  rw [hrest, List.pairwise_cons] at hsorted
  rcases List.mem_cons.mp hmf with rfl | hin
  · exact le_rfl
  · exact (hsorted.1 f hin).le

theorem succ_eq_none {m : BTreeMap α β} {a : α} (h : m.succ a = none) :
    ∀ e ∈ m.entries, e.1 ≤ a := by
  intro e he
  have hnil := List.head?_eq_none_iff.mp h
  by_contra hlt
  exact List.ne_nil_of_mem (List.mem_filter.mpr ⟨he, by simpa using hlt⟩) hnil

theorem mem_range {m : BTreeMap α β} {lo hi : α} {e : α × β} :
    e ∈ m.range lo hi ↔ e ∈ m.entries ∧ lo ≤ e.1 ∧ e.1 < hi := by
  simp [range]

theorem key_injective {m : BTreeMap α β} {k : α} {v w : β} (hv : (k,v) ∈ m.entries)
    (hw : (k,w) ∈ m.entries) : v = w := by
  rw [← get_eq_some_iff] at hv hw
  exact Option.some.inj (hv.symm.trans hw)

section Members

variable {m : BTreeMap α β} {k : α} {v : β} {e : α × β}

theorem mem_insert : e ∈ (m.insert k v).entries ↔ e = (k,v) ∨ e.1 ≠ k ∧ e ∈ m.entries := by
  simp only [insert, below, above, List.mem_append, List.mem_cons, List.mem_filter,
    decide_eq_true_eq]
  constructor
  · rintro (⟨he, hlt⟩ | rfl | ⟨he, hlt⟩)
    · exact Or.inr ⟨hlt.ne, he⟩
    · exact Or.inl rfl
    · exact Or.inr ⟨hlt.ne', he⟩
  · rintro (rfl | ⟨hne, he⟩)
    · exact Or.inr (Or.inl rfl)
    · rcases lt_or_gt_of_ne hne with hlt | hlt
      · exact Or.inl ⟨he, hlt⟩
      · exact Or.inr (Or.inr ⟨he, hlt⟩)

theorem mem_remove : e ∈ (m.remove k).entries ↔ e ∈ m.entries ∧ e.1 ≠ k := by
  simp [remove]

theorem mem_modify {f : β → β} :
    e ∈ (m.modify k f).entries ↔ ∃ w, (e.1,w) ∈ m.entries ∧ e.2 = if e.1 = k then f w else w := by
  simp only [modify, List.mem_map]
  constructor
  · rintro ⟨⟨k',w⟩, hw, rfl⟩
    refine ⟨w, by simpa using hw, ?_⟩
    unfold alterEntry
    split <;> simp_all
  · rintro ⟨w, hw, hv⟩
    refine ⟨(e.1,w), hw, ?_⟩
    unfold alterEntry
    split <;> simp_all [Prod.ext_iff]

theorem get_insert (m : BTreeMap α β) (k j : α) (v : β) :
    (m.insert k v).get j = if j = k then some v else m.get j := by
  ext w
  rw [get_eq_some_iff, mem_insert, Prod.mk.injEq]
  split
  case isTrue heq => simp [heq, eq_comm]
  case isFalse hne => simp [hne, get_eq_some_iff]

theorem get_remove (m : BTreeMap α β) (k j : α) :
    (m.remove k).get j = if j = k then none else m.get j := by
  ext w
  rw [get_eq_some_iff, mem_remove]
  split
  case isTrue heq => simp [heq]
  case isFalse hne => simp [hne, get_eq_some_iff]

theorem get_modify (m : BTreeMap α β) (k j : α) (f : β → β) :
    (m.modify k f).get j = if j = k then (m.get j).map f else m.get j := by
  ext w
  rw [get_eq_some_iff, mem_modify]
  by_cases hkey : j = k
  · simp only [hkey, if_true, Option.map_eq_some_iff, get_eq_some_iff]
    exact exists_congr fun _ => and_congr_right fun _ => eq_comm
  · simp [hkey, get_eq_some_iff]

theorem insert_perm (hnew : ∀ w, (k,w) ∉ m.entries) :
    (m.insert k v).entries.Perm ((k,v) :: m.entries) := by
  have habove : m.above k = m.entries.filter (fun e => !decide (e.1 < k)) := by
    refine List.filter_congr fun e he => ?_
    have hne : e.1 ≠ k := fun heq => hnew e.2 (heq ▸ he)
    rw [Bool.eq_iff_iff]
    simp only [decide_eq_true_eq, Bool.not_eq_true', decide_eq_false_iff_not, not_lt]
    exact ⟨le_of_lt, fun hle => lt_of_le_of_ne hle hne.symm⟩
  have hsplit : (m.below k ++ m.above k).Perm m.entries := by
    rw [habove]
    exact List.filter_append_perm _ _
  exact (List.perm_middle).trans (hsplit.cons _)

theorem remove_perm (h : (k,v) ∈ m.entries) : m.entries.Perm ((k,v) :: (m.remove k).entries) := by
  obtain ⟨pre, post, hcut⟩ := cut_of_mem h
  rw [remove_cut hcut, hcut]
  exact List.perm_middle

theorem modify_perm (h : (k,v) ∈ m.entries) (f : β → β) :
    (m.modify k f).entries.Perm ((k, f v) :: (m.remove k).entries) := by
  obtain ⟨pre, post, hcut⟩ := cut_of_mem h
  rw [modify_cut f hcut, remove_cut hcut]
  exact List.perm_middle

end Members

end BTreeMap
end Ruzu
