import Mathlib

/-!
# Doubly linked lists over identifiers

The nodes are kept in a partial function from identifiers. A root shows a list
when it points at the two ends and every node points at its neighbours. Writes
go through a link that may be absent, and change at most one node.
-/

set_option autoImplicit false

namespace Ruzu

structure Node (α : Type) where
  prev : Option α
  next : Option α
  deriving DecidableEq

namespace DoublyLinked

variable {α : Type}

/-- Each node of the list points at its neighbours, the ends at `p` and `n`. -/
def Chained (node : α → Option (Node α)) : Option α → List α → Option α → Prop
  | _, [], _ => True
  | p, a :: l, n => node a = some ⟨p, l.head?.or n⟩ ∧ Chained node (some a) l n

structure Shows (root : Node α) (node : α → Option (Node α)) (l : List α) : Prop where
  head : root.next = l.head?
  last : root.prev = l.getLast?
  chained : Chained node none l none
  nodup : l.Nodup

variable {node node' : α → Option (Node α)} {root : Node α} {p n v : Option α} {a : α}
  {l r : List α}

theorem Chained.congr (h : Chained node p l n) (hn : ∀ a ∈ l, node' a = node a) :
    Chained node' p l n := by
  induction l generalizing p with
  | nil => trivial
  | cons a l ih =>
    obtain ⟨ha, hl⟩ := h
    exact ⟨(hn a (List.mem_cons_self ..)).trans ha,
      ih hl fun b hb => hn b (List.mem_cons_of_mem _ hb)⟩

theorem Shows.congr (h : Shows root node l) (hn : ∀ a ∈ l, node' a = node a) :
    Shows root node' l :=
  ⟨h.head, h.last, h.chained.congr hn, h.nodup⟩

theorem Chained.unique {p' : Option α} {l' : List α} (h : Chained node p l none)
    (h' : Chained node p' l' none) (hl : l.head? = n) (hl' : l'.head? = n) : l = l' := by
  induction l generalizing p p' n l' with
  | nil =>
    subst hl
    exact (List.head?_eq_none_iff.1 hl').symm
  | cons a l ih =>
    subst hl
    obtain ⟨r, rfl⟩ := List.head?_eq_some_iff.1 hl'
    have hnode := Option.some.inj (h.1.symm.trans h'.1)
    have hnext := congrArg Node.next hnode
    simp only [Option.or_none] at hnext
    rw [ih h.2 h'.2 rfl hnext.symm]

theorem Shows.unique {l' : List α} (h : Shows root node l) (h' : Shows root node l') : l = l' :=
  h.chained.unique h'.chained h.head.symm h'.head.symm

theorem head?_append_or (l r : List α) (n : Option α) :
    (l ++ r).head?.or n = l.head?.or (r.head?.or n) := by
  rw [List.head?_append, Option.or_assoc]

theorem getLast?_cons_or (a : α) (l : List α) (p : Option α) :
    (a :: l).getLast?.or p = l.getLast?.or (some a) := by
  rw [List.getLast?_cons, Option.some_or]
  cases l.getLast? <;> rfl

theorem chained_append : Chained node p (l ++ r) n ↔
    Chained node p l (r.head?.or n) ∧ Chained node (l.getLast?.or p) r n := by
  induction l generalizing p with
  | nil => simp [Chained]
  | cons a l ih =>
    rw [List.cons_append, Chained, Chained, ih, head?_append_or, getLast?_cons_or, and_assoc]

/-- The node of a list cut at it. -/
theorem Chained.at_cut (h : Chained node p (l ++ a :: r) n) :
    node a = some ⟨l.getLast?.or p, r.head?.or n⟩ :=
  (chained_append.1 h).2.1

theorem Chained.isSome (h : Chained node p l n) (ha : a ∈ l) : (node a).isSome := by
  obtain ⟨pre, post, rfl⟩ := List.append_of_mem ha
  rw [h.at_cut]
  rfl

/-- The neighbours of a node of the list are in the list, or the ends. -/
theorem Chained.neighbours (h : Chained node p l n) (ha : a ∈ l) {e : Node α}
    (he : node a = some e) :
    (e.prev = p ∨ ∃ b ∈ l, e.prev = some b) ∧ (e.next = n ∨ ∃ b ∈ l, e.next = some b) := by
  obtain ⟨pre, post, rfl⟩ := List.append_of_mem ha
  obtain rfl := Option.some.inj (he.symm.trans h.at_cut)
  constructor
  · cases hpre : pre.getLast? with
    | none => exact .inl rfl
    | some b => exact .inr ⟨b, List.mem_append_left _ (List.mem_of_getLast? hpre), rfl⟩
  · cases post with
    | nil => exact .inl rfl
    | cons b post => exact .inr ⟨b, by simp, rfl⟩

/-- A node that points into the list is in it. -/
theorem Shows.not_mem_of_next (h : Shows root node l) {e : Node α} {m : α} (hm : m ∉ l)
    (he : node a = some e) (hn : e.next = some m) : a ∉ l := by
  intro ha
  rcases (h.chained.neighbours ha he).2 with hnone | ⟨b, hb, hsome⟩
  · rw [hn] at hnone
    cases hnone
  · rw [hn] at hsome
    cases hsome
    exact hm hb

theorem Shows.not_mem_of_prev (h : Shows root node l) {e : Node α} {m : α} (hm : m ∉ l)
    (he : node a = some e) (hp : e.prev = some m) : a ∉ l := by
  intro ha
  rcases (h.chained.neighbours ha he).1 with hnone | ⟨b, hb, hsome⟩
  · rw [hp] at hnone
    cases hnone
  · rw [hp] at hsome
    cases hsome
    exact hm hb

theorem chained_of_cuts (h : ∀ pre a post, l = pre ++ a :: post →
    node a = some ⟨pre.getLast?.or p, post.head?.or n⟩) : Chained node p l n := by
  induction l generalizing p with
  | nil => trivial
  | cons a l ih =>
    refine ⟨h [] a l rfl, ih fun pre b post hl => ?_⟩
    rw [h (a :: pre) b post (by rw [hl, List.cons_append]), getLast?_cons_or]

/-- The identifier after `k` links. -/
def follow (node : α → Option (Node α)) : ℕ → Option α → Option α
  | 0, link => link
  | k + 1, link => follow node k (link.bind fun a => (node a).bind Node.next)

/-- The identifier is found from the root on. -/
def Reaches (root : Node α) (node : α → Option (Node α)) (a : α) : Prop :=
  ∃ k, follow node k root.next = some a

theorem follow_none (k : ℕ) : follow node k none = none := by
  induction k with
  | zero => rfl
  | succ k ih => exact ih

theorem Chained.follow (h : Chained node p l none) (k : ℕ) :
    DoublyLinked.follow node k l.head? = l[k]? := by
  induction l generalizing p k with
  | nil => exact follow_none k
  | cons a l ih =>
    cases k with
    | zero => rfl
    | succ k =>
      rw [DoublyLinked.follow, List.head?_cons, Option.bind_some, h.1, Option.bind_some,
        Option.or_none, ih h.2, List.getElem?_cons_succ]

/-- The identifier after `k` links backwards. -/
def followBack (node : α → Option (Node α)) : ℕ → Option α → Option α
  | 0, link => link
  | k + 1, link => followBack node k (link.bind fun a => (node a).bind Node.prev)

theorem followBack_none (k : ℕ) : followBack node k none = none := by
  induction k with
  | zero => rfl
  | succ k ih => exact ih

theorem Chained.followBack (h : Chained node none l n) (k : ℕ) :
    DoublyLinked.followBack node k l.getLast? = l.reverse[k]? := by
  induction l using List.reverseRecOn generalizing n k with
  | nil => exact followBack_none k
  | append_singleton l a ih =>
    obtain ⟨hfront, hlast, -⟩ := chained_append.1 h
    rw [List.reverse_concat, List.getLast?_concat]
    cases k with
    | zero => rfl
    | succ k =>
      rw [DoublyLinked.followBack, Option.bind_some, hlast, Option.bind_some, Option.or_none,
        ih hfront, List.getElem?_cons_succ]

theorem Shows.reaches_iff (h : Shows root node l) : Reaches root node a ↔ a ∈ l := by
  rw [Reaches, List.mem_iff_getElem?]
  simp only [h.head, h.chained.follow]

section Writes

variable [DecidableEq α]

/-- A write through a link that may be absent. -/
def write (node : α → Option (Node α)) (link : Option α) (f : Node α → Node α) (x : α) :
    Option (Node α) :=
  if link = some x then (node x).map f else node x

def setNext (v : Option α) (e : Node α) : Node α := { e with next := v }

def setPrev (v : Option α) (e : Node α) : Node α := { e with prev := v }

theorem write_of_ne {link : Option α} {f : Node α → Node α} {x : α} (h : link ≠ some x) :
    write node link f x = node x :=
  if_neg h

theorem write_self {f : Node α → Node α} {x : α} : write node (some x) f x = (node x).map f :=
  if_pos rfl

theorem Chained.write_last (h : Chained node p l n) (hl : l.Nodup) (v : Option α) :
    Chained (write node l.getLast? (setNext v)) p l v := by
  cases l using List.reverseRecOn with
  | nil => trivial
  | append_singleton l t =>
    have ht : t ∉ l := fun hin => by
      rw [List.nodup_append] at hl
      exact hl.2.2 t hin t (List.mem_singleton_self t) rfl
    obtain ⟨hfront, hlast, -⟩ := chained_append.1 h
    rw [List.getLast?_concat]
    refine chained_append.2 ⟨hfront.congr fun b hb => write_of_ne fun heq => ?_, ?_, trivial⟩
    · cases heq
      exact ht hb
    · rw [write_self, hlast]
      rfl

theorem Chained.write_head (h : Chained node p l n) (hl : l.Nodup) (v : Option α) :
    Chained (write node l.head? (setPrev v)) v l n := by
  cases l with
  | nil => trivial
  | cons t l =>
    have ht := (List.nodup_cons.mp hl).1
    refine ⟨?_, h.2.congr fun b hb => write_of_ne fun heq => ?_⟩
    · rw [List.head?_cons, write_self, h.1]
      rfl
    · cases heq
      exact ht hb

/-- A write outside the list. -/
theorem Chained.write_out (h : Chained node p l n) {link : Option α} (hlink : ∀ x ∈ link, x ∉ l)
    (f : Node α → Node α) : Chained (write node link f) p l n :=
  h.congr fun b hb => write_of_ne fun heq => hlink b heq hb

theorem Shows.write_out (h : Shows root node l) {link : Option α} (hlink : ∀ x ∈ link, x ∉ l)
    (f : Node α → Node α) : Shows root (write node link f) l :=
  ⟨h.head, h.last, h.chained.write_out hlink f, h.nodup⟩

variable {m : α}

/-- The nodes after `m` is linked behind the last one. -/
def pushBackNodes (root : Node α) (node : α → Option (Node α)) (m : α) : α → Option (Node α) :=
  write (write node (some m) fun _ => ⟨root.prev, none⟩) root.prev (setNext (some m))

def pushBackRoot (root : Node α) (m : α) : Node α :=
  ⟨some m, if root.prev = none then some m else root.next⟩

theorem Shows.pushBack (h : Shows root node l) (hm : m ∉ l) (hslot : (node m).isSome) :
    Shows (pushBackRoot root m) (pushBackNodes root node m) (l ++ [m]) := by
  obtain ⟨e, he⟩ := Option.isSome_iff_exists.mp hslot
  have hlast := h.last
  refine ⟨?_, ?_, chained_append.2 ⟨?_, ?_, trivial⟩, ?_⟩
  · rw [pushBackRoot, hlast]
    cases hl : l with
    | nil => rfl
    | cons b t => rw [if_neg (by simp), h.head, hl]; rfl
  · rw [pushBackRoot, List.getLast?_concat]
  · rw [pushBackNodes, hlast]
    exact (h.chained.write_out (by simpa using hm) _).write_last h.nodup _
  · have hne : root.prev ≠ some m := by
      rw [hlast]
      exact fun heq => hm (List.mem_of_getLast? heq)
    rw [pushBackNodes, write_of_ne hne, write_self, he, hlast]
    simp
  · exact List.nodup_append.mpr ⟨h.nodup, List.nodup_singleton m, fun a ha b hb heq => by
      rw [List.mem_singleton.mp hb] at heq
      exact hm (heq ▸ ha)⟩

/-- The nodes after `m` is linked in front of the first one. -/
def pushFrontNodes (root : Node α) (node : α → Option (Node α)) (m : α) : α → Option (Node α) :=
  write (write node (some m) fun _ => ⟨none, root.next⟩) root.next (setPrev (some m))

def pushFrontRoot (root : Node α) (m : α) : Node α :=
  ⟨if root.next = none then some m else root.prev, some m⟩

theorem Shows.pushFront (h : Shows root node l) (hm : m ∉ l) (hslot : (node m).isSome) :
    Shows (pushFrontRoot root m) (pushFrontNodes root node m) (m :: l) := by
  obtain ⟨e, he⟩ := Option.isSome_iff_exists.mp hslot
  have hhead := h.head
  refine ⟨rfl, ?_, ⟨?_, ?_⟩, List.nodup_cons.mpr ⟨hm, h.nodup⟩⟩
  · rw [pushFrontRoot, hhead]
    cases hl : l with
    | nil => rfl
    | cons b t =>
      rw [if_neg (by simp), h.last, hl, List.getLast?_cons_cons]
  · have hne : root.next ≠ some m := by
      rw [hhead]
      exact fun heq => hm (List.mem_of_mem_head? heq)
    rw [pushFrontNodes, write_of_ne hne, write_self, he, hhead]
    simp
  · rw [pushFrontNodes, hhead]
    exact (h.chained.write_out (by simpa using hm) _).write_head h.nodup _

/-- The nodes after `m` is linked in front of `t`, whose node is `e`. -/
def insertNodes (node : α → Option (Node α)) (e : Node α) (t m : α) : α → Option (Node α) :=
  write (write (write node (some m) fun _ => ⟨e.prev, some t⟩) e.prev (setNext (some m))) (some t)
    (setPrev (some m))

def insertRoot (root : Node α) (e : Node α) (m : α) : Node α :=
  ⟨root.prev, if e.prev = none then some m else root.next⟩

theorem Shows.insertBefore {t : α} (h : Shows root node (l ++ t :: r)) (hm : m ∉ l ++ t :: r)
    (hslot : (node m).isSome) :
    Shows (insertRoot root ⟨l.getLast?, r.head?⟩ m) (insertNodes node ⟨l.getLast?, r.head?⟩ t m)
      (l ++ m :: t :: r) := by
  obtain ⟨e, he⟩ := Option.isSome_iff_exists.mp hslot
  obtain ⟨hfront, hback⟩ := chained_append.1 h.chained
  have hnodup := List.nodup_append.mp h.nodup
  have hml : m ∉ l := fun hin => hm (List.mem_append_left _ hin)
  have hmr : m ∉ t :: r := fun hin => hm (List.mem_append_right _ hin)
  have hlast : ∀ x ∈ l.getLast?, x ∉ t :: r := fun x hx hin =>
    hnodup.2.2 x (List.mem_of_getLast? hx) x hin rfl
  have htl : t ∉ l := fun hin => hnodup.2.2 t hin t List.mem_cons_self rfl
  refine ⟨?_, ?_, chained_append.2 ⟨?_, ?_, ?_⟩, ?_⟩
  · rw [insertRoot, h.head]
    cases l <;> simp
  · rw [insertRoot, h.last, List.getLast?_append, List.getLast?_append, List.getLast?_cons_cons]
  · exact ((hfront.write_out (by simpa using hml) _).write_last hnodup.1 _).write_out
      (by simpa using htl) _
  · have hmt : some t ≠ some m := fun heq => hmr (Option.some.inj heq ▸ List.mem_cons_self)
    have hml' : l.getLast? ≠ some m := fun heq => hml (List.mem_of_getLast? heq)
    rw [insertNodes, write_of_ne hmt, write_of_ne hml', write_self, he]
    simp
  · exact ((hback.write_out (by simpa using hmr) _).write_out hlast _).write_head hnodup.2.1 _
  · refine List.nodup_append.mpr ⟨hnodup.1, List.nodup_cons.mpr ⟨hmr, hnodup.2.1⟩, ?_⟩
    intro a ha b hb heq
    rcases List.mem_cons.mp hb with rfl | hb
    · exact hml (heq ▸ ha)
    · exact hnodup.2.2 a ha b hb heq

/-- The nodes after the neighbours of `e` are joined. -/
def unlinkNodes (node : α → Option (Node α)) (e : Node α) : α → Option (Node α) :=
  write (write node e.prev (setNext e.next)) e.next (setPrev e.prev)

def unlinkRoot (root : Node α) (e : Node α) : Node α :=
  ⟨if e.next = none then e.prev else root.prev, if e.prev = none then e.next else root.next⟩

theorem Shows.unlink (h : Shows root node (l ++ m :: r)) :
    Shows (unlinkRoot root ⟨l.getLast?, r.head?⟩) (unlinkNodes node ⟨l.getLast?, r.head?⟩)
      (l ++ r) := by
  obtain ⟨hfront, -, hback⟩ := chained_append.1 h.chained
  have hnodup := List.nodup_append.mp h.nodup
  have hr := (List.nodup_cons.mp hnodup.2.1).2
  have happend : (l ++ r).Nodup := List.nodup_append.mpr
    ⟨hnodup.1, hr, fun a ha b hb => hnodup.2.2 a ha b (List.mem_cons_of_mem _ hb)⟩
  have hapart : ∀ a ∈ l, a ∉ r := fun a ha har => (List.nodup_append.mp happend).2.2 a ha a har rfl
  have hl := (hfront.write_last hnodup.1 r.head?).write_out (fun x hx hxl =>
    hapart x hxl (List.mem_of_mem_head? hx)) (setPrev l.getLast?)
  have hr' := (hback.write_out (fun x hx hxr => hapart x (List.mem_of_getLast? hx) hxr)
    (setNext r.head?)).write_head hr l.getLast?
  refine ⟨?_, ?_, chained_append.2 ⟨?_, ?_⟩, happend⟩
  · rw [unlinkRoot, h.head]
    cases l <;> simp
  · rw [unlinkRoot, h.last]
    cases r <;> simp
  · rwa [Option.or_none]
  · rwa [Option.or_none]

/-- Joining the neighbours of a node outside the list, when they point at it. -/
theorem Shows.unlink_out (h : Shows root node l) (hm : m ∉ l) {e b c : Node α} {x y : α}
    (hp : e.prev = some x) (hx : node x = some b) (hxm : b.next = some m)
    (hn : e.next = some y) (hy : node y = some c) (hym : c.prev = some m) :
    Shows root (unlinkNodes node e) l := by
  rw [unlinkNodes, hp, hn]
  refine (h.write_out (fun z hz => ?_) _).write_out (fun z hz => ?_) _
  · cases hz
    exact h.not_mem_of_next hm hx hxm
  · cases hz
    exact h.not_mem_of_prev hm hy hym

/-- The nodes after every node of the list is written anew. -/
def rebuildNodes (node : α → Option (Node α)) (l : List α) : α → Option (Node α) :=
  l.zipIdx.foldl (fun node q => write node (some q.1) fun _ =>
    ⟨if q.2 = 0 then none else l[q.2 - 1]?, l[q.2 + 1]?⟩) node

theorem foldl_write_out (g : α × ℕ → Node α) (qs : List (α × ℕ)) {x : α}
    (hx : x ∉ qs.map Prod.fst) :
    qs.foldl (fun node q => write node (some q.1) fun _ => g q) node x = node x := by
  induction qs generalizing node with
  | nil => rfl
  | cons q qs ih =>
    rw [List.map_cons, List.mem_cons, not_or] at hx
    rw [List.foldl_cons, ih hx.2, write_of_ne fun heq => hx.1 (Option.some.inj heq).symm]

theorem foldl_write_mem (g : α × ℕ → Node α) (qs : List (α × ℕ)) (hqs : (qs.map Prod.fst).Nodup)
    {q : α × ℕ} (hq : q ∈ qs) (hslot : (node q.1).isSome) :
    qs.foldl (fun node q => write node (some q.1) fun _ => g q) node q.1 = some (g q) := by
  induction qs generalizing node with
  | nil => cases hq
  | cons r qs ih =>
    rw [List.map_cons, List.nodup_cons] at hqs
    rw [List.foldl_cons]
    rcases List.mem_cons.mp hq with rfl | hq
    · obtain ⟨e, he⟩ := Option.isSome_iff_exists.mp hslot
      rw [foldl_write_out g qs hqs.1, write_self, he]
      rfl
    · have hne : r.1 ≠ q.1 := fun heq => hqs.1 (heq ▸ List.mem_map_of_mem hq)
      refine ih hqs.2 hq ?_
      rwa [write_of_ne fun heq => hne (Option.some.inj heq)]

theorem rebuildNodes_out {x : α} (hx : x ∉ l) : rebuildNodes node l x = node x :=
  foldl_write_out _ _ (by rwa [List.zipIdx_map_fst])

theorem shows_rebuild (hl : l.Nodup) (hslot : ∀ a ∈ l, (node a).isSome) :
    Shows ⟨l.getLast?, l.head?⟩ (rebuildNodes node l) l := by
  refine ⟨rfl, rfl, chained_of_cuts fun pre a post hcut => ?_, hl⟩
  have ha : a ∈ l := by simp [hcut]
  have hat : l[pre.length]? = some a := by simp [hcut]
  have hmem : (a, pre.length) ∈ l.zipIdx := List.mem_zipIdx_iff_getElem?.mpr hat
  rw [rebuildNodes, foldl_write_mem (fun q => ⟨if q.2 = 0 then none else l[q.2 - 1]?, l[q.2 + 1]?⟩)
    l.zipIdx (by rwa [List.zipIdx_map_fst]) hmem (hslot a ha)]
  have hprev : (if pre.length = 0 then none else l[pre.length - 1]?) = pre.getLast? := by
    cases pre using List.reverseRecOn with
    | nil => rfl
    | append_singleton pre t => simp [hcut]
  have hnext : l[pre.length + 1]? = post.head? := by
    cases post <;> simp [hcut]
  simp only [hprev, hnext, Option.or_none]

end Writes

end DoublyLinked

end Ruzu
