import Mathlib
import Ruzu.Kernel.PriorityQueue

/-!
# What an operation does to one list

Every operation on a list of one core leaves the lists it is apart from as they
are, on this core and on the others, and no operation touches the properties.
-/

set_option autoImplicit false

namespace Ruzu.PriorityQueue

open DoublyLinked

/-! ### Entries -/

section Entries

variable {c c' : Fin numCores} {members : MemberMap} {link : Option ℕ}
  {f : QueueEntry → QueueEntry}

def propsOf (members : MemberMap) (id : ℕ) : Option ThreadProps :=
  (members.get id).map MemberSlot.props

theorem entryOf_writeEntry :
    entryOf c (writeEntry c link f members) = write (entryOf c members) link f := by
  funext x
  cases link with
  | none => rfl
  | some id =>
    rw [entryOf, writeEntry, BTreeMap.get_modify, write]
    by_cases hx : x = id
    · subst hx
      simp only [if_true, entryOf, Option.map_map]
      congr 1
      funext slot
      simp
    · rw [if_neg hx, if_neg fun heq => hx (Option.some.inj heq).symm]
      rfl

theorem entryOf_writeEntry_of_ne (hc : c' ≠ c) :
    entryOf c' (writeEntry c link f members) = entryOf c' members := by
  funext x
  cases link with
  | none => rfl
  | some id =>
    rw [entryOf, writeEntry, BTreeMap.get_modify]
    split
    · rw [Option.map_map, entryOf]
      congr 1
      funext slot
      simp [hc]
    · rfl

theorem propsOf_writeEntry (x : ℕ) :
    propsOf (writeEntry c link f members) x = propsOf members x := by
  cases link with
  | none => rfl
  | some id =>
    rw [propsOf, writeEntry, BTreeMap.get_modify]
    split
    · rw [Option.map_map, propsOf]
      rfl
    · rfl

theorem get_isSome_iff (c : Fin numCores) (x : ℕ) :
    (members.get x).isSome = (entryOf c members x).isSome := by
  rw [entryOf, Option.isSome_map]

end Entries

/-! ### The lists of a core -/

/-- The list of the queue becomes `l'`. Every list that has neither a node of the old one nor the
member stays. -/
structure Changes (c : Fin numCores) (id : ℕ) (q q' : KPerCoreQueue)
    (members members' : MemberMap) (l l' : List ℕ) : Prop where
  own : Shows (q'.roots c) (entryOf c members') l'
  apart : ∀ root r, Shows root (entryOf c members) r → (∀ t ∈ r, t ∉ l ∧ t ≠ id) →
    Shows root (entryOf c members') r
  roots : ∀ c' ≠ c, q'.roots c' = q.roots c'
  entries : ∀ c' ≠ c, entryOf c' members' = entryOf c' members
  props : ∀ x, propsOf members' x = propsOf members x

theorem Changes.trans {c : Fin numCores} {id : ℕ} {q q₁ q₂ : KPerCoreQueue}
    {members members₁ members₂ : MemberMap} {l l₁ l₂ : List ℕ}
    (h : Changes c id q q₁ members members₁ l l₁) (h' : Changes c id q₁ q₂ members₁ members₂ l₁ l₂)
    (hsub : ∀ t ∈ l₁, t ∈ l) : Changes c id q q₂ members members₂ l l₂ where
  own := h'.own
  apart root r hr hapart := h'.apart root r (h.apart root r hr hapart) fun t ht =>
    ⟨fun hin => (hapart t ht).1 (hsub t hin), (hapart t ht).2⟩
  roots c' hc := (h'.roots c' hc).trans (h.roots c' hc)
  entries c' hc := (h'.entries c' hc).trans (h.entries c' hc)
  props x := (h'.props x).trans (h.props x)

namespace KPerCoreQueue

variable {c : Fin numCores} {id : ℕ} {q : KPerCoreQueue} {members : MemberMap} {l : List ℕ}

theorem setRoot_self (root : QueueEntry) : (q.setRoot c root).roots c = root :=
  Function.update_self ..

theorem setRoot_of_ne {c' : Fin numCores} (hc : c' ≠ c) (root : QueueEntry) :
    (q.setRoot c root).roots c' = q.roots c' :=
  Function.update_of_ne hc ..

theorem pushBack_changes (h : Shows (q.roots c) (entryOf c members) l) (hid : id ∉ l)
    (hslot : (members.get id).isSome) :
    Changes c id q (q.pushBack c id members).1 members (q.pushBack c id members).2.1 l
      (l ++ [id]) ∧ (q.pushBack c id members).2.2 = l.isEmpty := by
  obtain ⟨slot, hget⟩ := Option.isSome_iff_exists.mp hslot
  have hnodes : entryOf c (q.pushBack c id members).2.1 =
      pushBackNodes (q.roots c) (entryOf c members) id := by
    simp only [pushBack, hget, entryOf_writeEntry]
    rfl
  have hroot : (q.pushBack c id members).1.roots c = pushBackRoot (q.roots c) id := by
    simp only [pushBack, hget, setRoot_self]
    rfl
  refine ⟨⟨?_, fun root r hr hapart => ?_, fun c' hc => ?_, fun c' hc => ?_, fun x => ?_⟩, ?_⟩
  · rw [hnodes, hroot]
    exact h.pushBack hid ((get_isSome_iff c id).symm.trans hslot)
  · rw [hnodes]
    refine (hr.write_out (fun x hx hxr => ?_) _).write_out (fun x hx hxr => ?_) _
    · cases hx
      exact (hapart _ hxr).2 rfl
    · rw [h.last] at hx
      exact (hapart x hxr).1 (List.mem_of_getLast? hx)
  · simp only [pushBack, hget, setRoot_of_ne hc]
  · simp only [pushBack, hget, entryOf_writeEntry_of_ne hc]
  · simp only [pushBack, hget, propsOf_writeEntry]
  · simp only [pushBack, hget, h.last]
    cases l <;> simp

theorem pushFront_changes (h : Shows (q.roots c) (entryOf c members) l) (hid : id ∉ l)
    (hslot : (members.get id).isSome) :
    Changes c id q (q.pushFront c id members).1 members (q.pushFront c id members).2.1 l
      (id :: l) ∧ (q.pushFront c id members).2.2 = l.isEmpty := by
  obtain ⟨slot, hget⟩ := Option.isSome_iff_exists.mp hslot
  have hnodes : entryOf c (q.pushFront c id members).2.1 =
      pushFrontNodes (q.roots c) (entryOf c members) id := by
    simp only [pushFront, hget, entryOf_writeEntry]
    rfl
  have hroot : (q.pushFront c id members).1.roots c = pushFrontRoot (q.roots c) id := by
    simp only [pushFront, hget, setRoot_self]
    rfl
  refine ⟨⟨?_, fun root r hr hapart => ?_, fun c' hc => ?_, fun c' hc => ?_, fun x => ?_⟩, ?_⟩
  · rw [hnodes, hroot]
    exact h.pushFront hid ((get_isSome_iff c id).symm.trans hslot)
  · rw [hnodes]
    refine (hr.write_out (fun x hx hxr => ?_) _).write_out (fun x hx hxr => ?_) _
    · cases hx
      exact (hapart _ hxr).2 rfl
    · rw [h.head] at hx
      exact (hapart x hxr).1 (List.mem_of_mem_head? hx)
  · simp only [pushFront, hget, setRoot_of_ne hc]
  · simp only [pushFront, hget, entryOf_writeEntry_of_ne hc]
  · simp only [pushFront, hget, propsOf_writeEntry]
  · simp only [pushFront, hget, h.head]
    cases l <;> simp

theorem Shows.filter_cut {root : QueueEntry} {node : ℕ → Option QueueEntry} {pre post : List ℕ}
    (h : Shows root node (pre ++ id :: post)) :
    (pre ++ id :: post).filter (fun t => t ≠ id) = pre ++ post := by
  have hnodup := List.nodup_append.mp h.nodup
  have hpost := List.nodup_cons.mp hnodup.2.1
  rw [List.filter_append, List.filter_cons_of_neg (by simp), List.filter_eq_self.mpr,
    List.filter_eq_self.mpr]
  · intro t ht
    simpa using fun heq : t = id => hpost.1 (heq ▸ ht)
  · intro t ht
    simpa using hnodup.2.2 t ht id (List.mem_cons_self ..)

/-- A removal that finds the member linked. -/
theorem remove_linked (hlinked : q.memberIsLinked c id members = true) :
    entryOf c (q.remove c id members).2.1 =
        unlinkNodes (entryOf c members) (links c members id) ∧
      (q.remove c id members).1.roots c = unlinkRoot (q.roots c) (links c members id) := by
  simp only [remove, if_pos hlinked, entryOf_writeEntry, setRoot_self]
  exact ⟨rfl, rfl⟩

theorem remove_frame (q : KPerCoreQueue) (c : Fin numCores) (id : ℕ) (members : MemberMap) :
    (∀ c' ≠ c, (q.remove c id members).1.roots c' = q.roots c') ∧
      (∀ c' ≠ c, entryOf c' (q.remove c id members).2.1 = entryOf c' members) ∧
      (∀ x, propsOf (q.remove c id members).2.1 x = propsOf members x) ∧
      (q.remove c id members).2.2 = ((q.remove c id members).1.roots c).next.isNone := by
  by_cases hlinked : q.memberIsLinked c id members = true
  · simp only [remove, if_pos hlinked, propsOf_writeEntry, setRoot_self]
    refine ⟨fun c' hc => setRoot_of_ne hc _, fun c' hc => ?_, fun _ => trivial, trivial⟩
    rw [entryOf_writeEntry_of_ne hc, entryOf_writeEntry_of_ne hc]
  · simp only [remove, if_neg hlinked]
    exact ⟨fun _ _ => trivial, fun _ _ => trivial, fun _ => trivial, trivial⟩

theorem isNone_head (l : List ℕ) : l.head?.isNone = l.isEmpty := by
  cases l <;> rfl

theorem remove_changes (h : Shows (q.roots c) (entryOf c members) l) :
    Changes c id q (q.remove c id members).1 members (q.remove c id members).2.1 l
      (l.filter fun t => t ≠ id) ∧
    (q.remove c id members).2.2 = (l.filter fun t => t ≠ id).isEmpty := by
  obtain ⟨hroots, hentries, hprops, hflag⟩ := remove_frame q c id members
  suffices hlists : Shows ((q.remove c id members).1.roots c)
      (entryOf c (q.remove c id members).2.1) (l.filter fun t => t ≠ id) ∧
      ∀ root r, Shows root (entryOf c members) r → (∀ t ∈ r, t ∉ l ∧ t ≠ id) →
        Shows root (entryOf c (q.remove c id members).2.1) r by
    refine ⟨⟨hlists.1, hlists.2, hroots, hentries, hprops⟩, ?_⟩
    rw [hflag, hlists.1.head, isNone_head]
  by_cases hid : id ∈ l
  · obtain ⟨pre, post, rfl⟩ := List.append_of_mem hid
    have hnode := h.chained.at_cut
    rw [Option.or_none, Option.or_none] at hnode
    have hlinks : links c members id = ⟨pre.getLast?, post.head?⟩ := by
      rw [links, hnode, Option.getD_some]
    have hlinked : q.memberIsLinked c id members = true := by
      rw [memberIsLinked, hlinks]
      simp only [Bool.and_eq_true, decide_eq_true_eq]
      constructor
      · cases hpre : pre.getLast? with
        | none =>
          rw [List.getLast?_eq_none_iff.mp hpre] at h
          exact h.head
        | some t =>
          obtain ⟨front, rfl⟩ := List.getLast?_eq_some_iff.mp hpre
          have hcut := h.chained
          rw [List.append_assoc, List.singleton_append] at hcut
          simp only [hcut.at_cut]
          rfl
      · cases post with
        | nil =>
          simp only [List.head?_nil]
          rw [h.last, List.getLast?_concat]
        | cons t post =>
          have hcut := h.chained
          rw [← List.singleton_append, ← List.append_assoc] at hcut
          simp only [List.head?_cons, hcut.at_cut]
          simp
    obtain ⟨hnodes, hroot⟩ := remove_linked hlinked
    rw [hnodes, hroot, hlinks, Shows.filter_cut h]
    refine ⟨h.unlink, fun root r hr hapart => ?_⟩
    refine (hr.write_out (fun x hx hxr => ?_) _).write_out (fun x hx hxr => ?_) _
    · exact (hapart x hxr).1 (List.mem_append_left _ (List.mem_of_getLast? hx))
    · exact (hapart x hxr).1
        (List.mem_append_right _ (List.mem_cons_of_mem _ (List.mem_of_mem_head? hx)))
  · have hfilter : (l.filter fun t => t ≠ id) = l :=
      List.filter_eq_self.mpr fun t ht => by simpa using fun heq : t = id => hid (heq ▸ ht)
    rw [hfilter]
    by_cases hlinked : q.memberIsLinked c id members = true
    · -- the entry is stale: its neighbours are in no list either
      obtain ⟨hnodes, hroot⟩ := remove_linked hlinked
      rw [memberIsLinked] at hlinked
      simp only [Bool.and_eq_true, decide_eq_true_eq] at hlinked
      obtain ⟨hbefore, hafter⟩ := hlinked
      cases hp : (links c members id).prev with
      | none =>
        simp only [hp, h.head] at hbefore
        exact absurd (List.mem_of_mem_head? hbefore) hid
      | some x =>
        cases hn : (links c members id).next with
        | none =>
          simp only [hn, h.last] at hafter
          exact absurd (List.mem_of_getLast? hafter) hid
        | some y =>
          simp only [hp, Option.bind_eq_some_iff] at hbefore
          simp only [hn, Option.bind_eq_some_iff] at hafter
          obtain ⟨b, hx, hxid⟩ := hbefore
          obtain ⟨d, hy, hyid⟩ := hafter
          have hsame : unlinkRoot (q.roots c) (links c members id) = q.roots c := by
            rw [unlinkRoot, hp, hn]
            rfl
          rw [hnodes, hroot, hsame]
          exact ⟨h.unlink_out hid hp hx hxid hn hy hyid, fun root r hr hapart =>
            hr.unlink_out (fun hin => (hapart id hin).2 rfl) hp hx hxid hn hy hyid⟩
    · simp only [remove, if_neg hlinked]
      exact ⟨h, fun root r hr _ => hr⟩

/-! ### Rebuilding a list -/

theorem pushFront_unknown (h : members.get id = none) :
    q.pushFront c id members = (q, members, false) := by
  rw [pushFront, h]

theorem pushBack_unknown (h : members.get id = none) :
    q.pushBack c id members = (q, members, false) := by
  rw [pushBack, h]

theorem filter_twice (l : List ℕ) (id : ℕ) :
    (l.filter fun t => t ≠ id).filter (fun t => t ≠ id) = l.filter fun t => t ≠ id := by
  rw [List.filter_filter]
  exact List.filter_congr fun t _ => by simp

/-- A list whose member is taken out and put back at an end. -/
theorem reinsert_changes {push : KPerCoreQueue → MemberMap → KPerCoreQueue × MemberMap × Bool}
    (h : Shows (q.roots c) (entryOf c members) l) (hslot : id ∈ l ↔ (members.get id).isSome)
    (hunknown : ∀ q members, members.get id = none → push q members = (q, members, false))
    (hpush : ∀ q members l, Shows (q.roots c) (entryOf c members) l → id ∉ l →
      (members.get id).isSome → ∃ l', Changes c id q (push q members).1 members (push q members).2.1
        l l' ∧ (∀ t, t ∈ l' ↔ t = id ∨ t ∈ l) ∧ l'.filter (fun t => t ≠ id) = l) :
    let r := q.remove c id members
    ∃ l', Changes c id q (push r.1 r.2.1).1 members (push r.1 r.2.1).2.1 l l' ∧
      (∀ t, t ∈ l' ↔ t ∈ l) ∧ l'.filter (fun t => t ≠ id) = l.filter fun t => t ≠ id := by
  intro r
  have hremoved : Changes c id q r.1 members r.2.1 l (l.filter fun t => t ≠ id) :=
    (remove_changes h).1
  have hget : (r.2.1.get id).isSome = (members.get id).isSome := by
    have hprops := congrArg Option.isSome (hremoved.props id)
    rwa [propsOf, propsOf, Option.isSome_map, Option.isSome_map] at hprops
  by_cases hin : id ∈ l
  · obtain ⟨l', hchange, hl', horder⟩ := hpush r.1 r.2.1 _ hremoved.own (by simp)
      (hget.trans (hslot.mp hin))
    refine ⟨l', hremoved.trans hchange fun t ht => (List.mem_filter.mp ht).1, fun t => ?_, horder⟩
    rw [hl', List.mem_filter]
    by_cases ht : t = id <;> simp [ht, hin]
  · have hnone : r.2.1.get id = none := by
      rw [← Option.not_isSome_iff_eq_none, hget]
      exact fun hsome => hin (hslot.mpr hsome)
    rw [hunknown _ _ hnone]
    refine ⟨_, hremoved, fun t => ?_, filter_twice l id⟩
    rw [List.mem_filter]
    refine and_iff_left_of_imp fun ht => ?_
    rw [decide_eq_true_eq]
    rintro rfl
    exact hin ht

/-- The walk passes the whole list. -/
theorem keptFrom_chained {keeps : ℕ → Bool} {p : Option ℕ} (limit : ℕ) (seen kept : List ℕ)
    (h : Chained (entryOf c members) p l none) (hl : l.Nodup) (hseen : ∀ t ∈ l, t ∉ seen)
    (hlimit : l.length ≤ limit) :
    keptFrom c keeps members limit l.head? seen kept = kept ++ l.filter keeps := by
  induction l generalizing p limit seen kept with
  | nil => cases limit <;> simp [keptFrom]
  | cons a l ih =>
    obtain ⟨limit, rfl⟩ : ∃ k, limit = k + 1 := ⟨limit - 1, by simp at hlimit; omega⟩
    obtain ⟨ha, hrest⟩ := h
    obtain ⟨hal, hnodup⟩ := List.nodup_cons.mp hl
    have hfresh : a ∉ seen := hseen a (List.mem_cons_self ..)
    rw [List.head?_cons, keptFrom, if_neg (by simpa using hfresh), ha, Option.bind_some,
      Option.or_none, ih limit _ _ hrest hnodup ?_ (by simpa using hlimit)]
    · by_cases hkeep : keeps a = true
      · rw [if_pos hkeep, List.filter_cons_of_pos hkeep, List.append_assoc,
          List.singleton_append]
      · rw [if_neg hkeep, List.filter_cons_of_neg hkeep]
    · intro t ht hin
      rcases List.mem_append.mp hin with hin | hin
      · exact hseen t (List.mem_cons_of_mem _ ht) hin
      · exact hal (List.mem_singleton.mp hin ▸ ht)

/-- The second pass finds nothing when the members that belong to the list are kept already. -/
theorem keptBeside_of_all {oldTail : Option ℕ} {belongsTo : MemberSlot → Bool} {kept : List ℕ}
    (hall : ∀ x slot, members.get x = some slot → belongsTo slot = true → x = id ∨ x ∈ kept)
    (order : List ℕ) : keptBeside c id oldTail belongsTo members order kept = kept := by
  rw [keptBeside]
  induction order with
  | nil => rfl
  | cons x order ih =>
    rw [List.foldl_cons]
    cases hget : members.get x with
    | none => exact ih
    | some slot =>
      have hskip : x = id ∨ kept.contains x ∨ ¬belongsTo slot = true := by
        by_cases hbelongs : belongsTo slot = true
        · rcases hall x slot hget hbelongs with heq | hin
          · exact .inl heq
          · exact .inr (.inl (by simpa using hin))
        · exact .inr (.inr hbelongs)
      simp only [if_pos hskip]
      exact ih

theorem foldl_writeEntry (g : ℕ × ℕ → QueueEntry) (qs : List (ℕ × ℕ)) (members : MemberMap) :
    entryOf c (qs.foldl (fun m r => writeEntry c (some r.1) (fun _ => g r) m) members) =
        qs.foldl (fun node r => write node (some r.1) fun _ => g r) (entryOf c members) ∧
      (∀ c' ≠ c, entryOf c' (qs.foldl (fun m r => writeEntry c (some r.1) (fun _ => g r) m)
        members) = entryOf c' members) ∧
      ∀ x, propsOf (qs.foldl (fun m r => writeEntry c (some r.1) (fun _ => g r) m) members) x =
        propsOf members x := by
  induction qs generalizing members with
  | nil => exact ⟨rfl, fun _ _ => rfl, fun _ => rfl⟩
  | cons r qs ih =>
    obtain ⟨hown, hother, hprops⟩ := ih (writeEntry c (some r.1) (fun _ => g r) members)
    refine ⟨?_, fun c' hc => ?_, fun x => ?_⟩
    · rw [List.foldl_cons, List.foldl_cons, hown, entryOf_writeEntry]
    · rw [List.foldl_cons, hother c' hc, entryOf_writeEntry_of_ne hc]
    · rw [List.foldl_cons, hprops, propsOf_writeEntry]

theorem length_le_len (h : Shows (q.roots c) (entryOf c members) l) :
    l.length ≤ members.len := by
  have hsub : l ⊆ members.entries.map Prod.fst := by
    intro t ht
    have hsome := h.chained.isSome ht
    rw [← get_isSome_iff] at hsome
    obtain ⟨slot, hget⟩ := Option.isSome_iff_exists.mp hsome
    exact List.mem_map.mpr ⟨(t, slot), BTreeMap.get_eq_some_iff.mp hget, rfl⟩
  have hle := (List.subperm_of_subset h.nodup hsub).length_le
  rwa [List.length_map] at hle

/-- Rebuilding a list whose members, and no others, have the properties of the list. -/
theorem removeAllMatching_changes (order : List ℕ → List ℕ) {priority : ℤ} {scheduled : Bool}
    (h : Shows (q.roots c) (entryOf c members) l)
    (hbelongs : ∀ t ≠ id, t ∈ l ↔
      ∃ slot, members.get t = some slot ∧ belongs c priority scheduled slot = true) :
    Changes c id q (q.removeAllMatching order c priority scheduled id members).1 members
      (q.removeAllMatching order c priority scheduled id members).2.1 l
      (l.filter fun t => t ≠ id) ∧
    (q.removeAllMatching order c priority scheduled id members).2.2 =
      (l.filter fun t => t ≠ id).isEmpty := by
  have hkept : keptFrom c (fun x => x ≠ id && (members.get x).any (belongs c priority scheduled))
      members (members.len + 1) (q.roots c).next [] [] = l.filter fun t => t ≠ id := by
    rw [h.head, keptFrom_chained _ _ _ h.chained h.nodup (by simp)
      (Nat.le_succ_of_le (length_le_len h)), List.nil_append]
    refine List.filter_congr fun t ht => ?_
    by_cases heq : t = id
    · simp [heq]
    · obtain ⟨slot, hget, hb⟩ := (hbelongs t heq).mp ht
      simp [heq, hget, hb]
  have hbeside : ∀ ks, keptBeside c id (q.roots c).prev (belongs c priority scheduled) members ks
      (l.filter fun t => t ≠ id) = l.filter fun t => t ≠ id := by
    refine keptBeside_of_all fun x slot hget hb => ?_
    by_cases heq : x = id
    · exact .inl heq
    · exact .inr (List.mem_filter.mpr ⟨(hbelongs x heq).mpr ⟨slot, hget, hb⟩, by simpa using heq⟩)
  have hkeptNodup : (l.filter fun t => t ≠ id).Nodup := h.nodup.filter _
  have hsub : ∀ t ∈ l.filter fun t => t ≠ id, t ∈ l ∧ t ≠ id := fun t ht => by
    simpa using List.mem_filter.mp ht
  simp only [removeAllMatching, hkept, hbeside]
  generalize l.filter (fun t => t ≠ id) = kept at *
  obtain ⟨hown, hother, hprops⟩ := foldl_writeEntry (c := c) (fun r =>
    ⟨if r.2 = 0 then none else kept[r.2 - 1]?, kept[r.2 + 1]?⟩) kept.zipIdx members
  refine ⟨⟨?_, fun root r hr hapart => ?_, fun c' hc => setRoot_of_ne hc _, fun c' hc => ?_,
    fun x => ?_⟩, isNone_head kept⟩
  · rw [setRoot_self, entryOf_writeEntry, hown]
    refine (shows_rebuild hkeptNodup fun t ht => h.chained.isSome (hsub t ht).1).write_out
      (fun x hx hin => ?_) _
    cases hx
    exact (hsub _ hin).2 rfl
  · rw [entryOf_writeEntry, hown]
    refine (hr.congr fun t ht => rebuildNodes_out fun hin => ?_).write_out (fun x hx hin => ?_) _
    · exact (hapart t ht).1 (hsub t hin).1
    · cases hx
      exact (hapart _ hin).2 rfl
  · rw [entryOf_writeEntry_of_ne hc, hother c' hc]
  · rw [propsOf_writeEntry, hprops]

end KPerCoreQueue

end Ruzu.PriorityQueue
