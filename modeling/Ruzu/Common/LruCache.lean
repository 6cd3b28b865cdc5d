import Mathlib
import Ruzu.Lib.DoublyLinked

/-!
# The least recently used cache

`lru_cache.rs`: items in a pool, chained by their indices from the one not
used for longest to the last used, with the free indices in a queue. Ticks
are integers of either tick type; their age is a wrapping signed difference.
-/

set_option autoImplicit false

namespace Ruzu.LruCache

open DoublyLinked

variable {O : Type*}

structure Item (O : Type*) where
  obj : O
  tick : ℤ
  next : Option ℕ
  prev : Option ℕ

structure LeastRecentlyUsedCache (O : Type*) where
  itemPool : List (Item O)
  freeItems : List ℕ
  first : Option ℕ
  last : Option ℕ

/-- Write through a link that may be absent; an index outside the pool faults. -/
def write (pool : List (Item O)) (link : Option ℕ) (f : Item O → Item O) :
    Option (List (Item O)) :=
  match link with
  | none => some pool
  | some id => if id < pool.length then some (pool.modify id f) else none

namespace LeastRecentlyUsedCache

def new : LeastRecentlyUsedCache O := ⟨[], [], none, none⟩

def build (c : LeastRecentlyUsedCache O) (obj : O) (tick : ℤ) :
    Option (ℕ × LeastRecentlyUsedCache O) :=
  match c.freeItems with
  | id :: rest => do
    let pool ← write c.itemPool (some id) fun _ => ⟨obj, tick, none, none⟩
    some (id, { c with itemPool := pool, freeItems := rest })
  | [] =>
    some (c.itemPool.length, { c with itemPool := c.itemPool ++ [⟨obj, tick, none, none⟩] })

def attach (c : LeastRecentlyUsedCache O) (id : ℕ) : Option (LeastRecentlyUsedCache O) :=
  let first := if c.first.isNone then some id else c.first
  match c.last with
  | none => some { c with first := first, last := some id }
  | some lastId => do
    let pool ← write c.itemPool (some id) fun i => { i with prev := some lastId }
    let pool ← write pool (some lastId) fun i => { i with next := some id }
    let pool ← write pool (some id) fun i => { i with next := none }
    some { c with itemPool := pool, first := first, last := some id }

def detach (c : LeastRecentlyUsedCache O) (id : ℕ) : Option (LeastRecentlyUsedCache O) := do
  let item ← c.itemPool[id]?
  let pool ← write c.itemPool item.prev fun i => { i with next := item.next }
  let pool ← write pool item.next fun i => { i with prev := item.prev }
  let first := if c.first = some id then item.next else c.first
  let pool ← (if c.first = some id then write pool first fun i => { i with prev := none }
    else some pool)
  let last := if c.last = some id then item.prev else c.last
  let pool ← (if c.last = some id then write pool last fun i => { i with next := none }
    else some pool)
  some { c with itemPool := pool, first := first, last := last }

def insert (c : LeastRecentlyUsedCache O) (obj : O) (tick : ℤ) :
    Option (ℕ × LeastRecentlyUsedCache O) := do
  let (newId, c) ← c.build obj tick
  let c ← c.attach newId
  some (newId, c)

def touch (c : LeastRecentlyUsedCache O) (id : ℕ) (tick : ℤ) :
    Option (LeastRecentlyUsedCache O) := do
  let item ← c.itemPool[id]?
  if item.tick ≥ tick then some c
  else
    let pool ← write c.itemPool (some id) fun i => { i with tick := tick }
    let c : LeastRecentlyUsedCache O := { c with itemPool := pool }
    if c.last = some id then some c
    else
      let c ← c.detach id
      c.attach id

def free (c : LeastRecentlyUsedCache O) (id : ℕ) : Option (LeastRecentlyUsedCache O) := do
  let c ← c.detach id
  let pool ← write c.itemPool (some id) fun i => { i with prev := none, next := none }
  some { c with itemPool := pool, freeItems := c.freeItems ++ [id] }

/-- `target.wrapping_sub(item)` of two ticks as `i64`. -/
def age (target tick : ℤ) : ℤ :=
  Int.bmod (Int.bmod target (2 ^ 64) - Int.bmod tick (2 ^ 64)) (2 ^ 64)

/-- The objects that the callback gets from `current` on. The callback may look at the ones it
got before; `true` stops. -/
def belowLoop (pool : List (Item O)) (tick : ℤ) (func : List O → O → Bool) :
    ℕ → List O → Option ℕ → Option (List O)
  | _, called, none => some called
  | 0, _, some _ => none
  | fuel + 1, called, some id => do
    let item ← pool[id]?
    if age tick item.tick < 0 then some called
    else if func called item.obj then some (called ++ [item.obj])
    else belowLoop pool tick func fuel (called ++ [item.obj]) item.next

def forEachItemBelow (c : LeastRecentlyUsedCache O) (tick : ℤ) (func : List O → O → Bool) :
    Option (List O) :=
  belowLoop c.itemPool tick func c.itemPool.length [] c.first

end LeastRecentlyUsedCache

/-! ### The links and the rest of the items -/

/-- The links of the pool. -/
def nodes (pool : List (Item O)) (id : ℕ) : Option (Node ℕ) :=
  (pool[id]?).map fun i => ⟨i.prev, i.next⟩

/-- What an item holds besides its links. -/
def content (pool : List (Item O)) (id : ℕ) : Option (O × ℤ) :=
  (pool[id]?).map fun i => (i.obj, i.tick)

section Pool

variable {pool : List (Item O)} {link : Option ℕ}

theorem nodes_isSome {id : ℕ} : (nodes pool id).isSome ↔ id < pool.length := by
  rw [nodes, Option.isSome_map]
  simp

theorem write_some (f : Item O → Item O) (hlink : ∀ id ∈ link, id < pool.length) :
    ∃ pool', write pool link f = some pool' ∧ pool'.length = pool.length ∧
      ∀ id, pool'[id]? = (pool[id]?).map fun i => if link = some id then f i else i := by
  cases link with
  | none =>
    refine ⟨pool, rfl, rfl, fun id => ?_⟩
    simp
  | some k =>
    have hk : k < pool.length := hlink k rfl
    refine ⟨pool.modify k f, if_pos hk, List.length_modify .., fun id => ?_⟩
    rw [List.getElem?_modify]
    simp only [Option.some_inj]
    rfl

/-- A write to the links only is a write of the library, and the contents stay. -/
theorem write_nodes (f : Item O → Item O) (g : Node ℕ → Node ℕ)
    (hlink : ∀ id ∈ link, id < pool.length)
    (hg : ∀ i, (⟨(f i).prev, (f i).next⟩ : Node ℕ) = g ⟨i.prev, i.next⟩)
    (hf : ∀ i, (f i).obj = i.obj ∧ (f i).tick = i.tick) :
    ∃ pool', write pool link f = some pool' ∧ pool'.length = pool.length ∧
      nodes pool' = DoublyLinked.write (nodes pool) link g ∧ content pool' = content pool := by
  obtain ⟨pool', hwrite, hlen, hget⟩ := write_some f hlink
  refine ⟨pool', hwrite, hlen, funext fun id => ?_, funext fun id => ?_⟩
  · rw [nodes, hget, DoublyLinked.write, nodes]
    by_cases heq : link = some id
    · simp only [if_pos heq, Option.map_map, Function.comp_def, hg]
    · simp only [if_neg heq, Option.map_map, Function.comp_def]
  · rw [content, hget, Option.map_map, content]
    congr 1
    funext i
    rw [Function.comp_apply]
    split
    · rw [(hf i).1, (hf i).2]
    · rfl

end Pool

/-! ### Attaching and detaching -/

/-- The chain from `first` and, backwards, from `last`. -/
def Chains (c : LeastRecentlyUsedCache O) (l : List ℕ) : Prop :=
  Shows ⟨c.last, c.first⟩ (nodes c.itemPool) l

section Links

variable {c : LeastRecentlyUsedCache O} {l r : List ℕ} {id : ℕ}

theorem Chains.lt_length (h : Chains c l) (hid : id ∈ l) : id < c.itemPool.length :=
  nodes_isSome.1 (h.chained.isSome hid)

/-- Nothing but the chain differs. -/
structure SameItems (c c' : LeastRecentlyUsedCache O) : Prop where
  length : c'.itemPool.length = c.itemPool.length
  contents : content c'.itemPool = content c.itemPool
  free : c'.freeItems = c.freeItems

theorem attach_spec (h : Chains c l) (hnew : id ∉ l) (hslot : id < c.itemPool.length)
    (hfresh : l = [] → nodes c.itemPool id = some ⟨none, none⟩) :
    ∃ c', c.attach id = some c' ∧ Chains c' (l ++ [id]) ∧ SameItems c c' := by
  rw [LeastRecentlyUsedCache.attach]
  have hlast : c.last = l.getLast? := h.last
  have hhead : c.first = l.head? := h.head
  cases hl : c.last with
  | none =>
    obtain rfl : l = [] := List.getLast?_eq_none_iff.mp (hlast ▸ hl)
    refine ⟨_, rfl, ⟨?_, rfl, ?_, List.nodup_singleton id⟩, rfl, rfl, rfl⟩
    · dsimp only
      rw [hhead]
      rfl
    · exact ⟨hfresh rfl, trivial⟩
  | some lastId =>
    have hmem : lastId ∈ l := List.mem_of_getLast? (hlast ▸ hl)
    have hne : lastId ≠ id := fun heq => hnew (heq ▸ hmem)
    have hin := h.lt_length hmem
    obtain ⟨pool₁, hw₁, hlen₁, hn₁, hc₁⟩ := write_nodes
      (fun i => { i with prev := some lastId }) (setPrev (some lastId))
      (show ∀ k ∈ some id, k < c.itemPool.length by simpa using hslot)
      (fun i => rfl) fun i => ⟨rfl, rfl⟩
    obtain ⟨pool₂, hw₂, hlen₂, hn₂, hc₂⟩ := write_nodes
      (fun i => { i with next := some id }) (setNext (some id))
      (show ∀ k ∈ some lastId, k < pool₁.length by simpa [hlen₁] using hin)
      (fun i => rfl) fun i => ⟨rfl, rfl⟩
    obtain ⟨pool₃, hw₃, hlen₃, hn₃, hc₃⟩ := write_nodes
      (fun i => { i with next := none }) (setNext none)
      (show ∀ k ∈ some id, k < pool₂.length by simpa [hlen₂, hlen₁] using hslot)
      (fun i => rfl) fun i => ⟨rfl, rfl⟩
    have hpush := h.pushBack hnew (nodes_isSome.2 hslot)
    have hnodes : nodes pool₃ = pushBackNodes ⟨c.last, c.first⟩ (nodes c.itemPool) id := by
      rw [hn₃, hn₂, hn₁, pushBackNodes, hl]
      funext k
      obtain ⟨e, he⟩ := Option.isSome_iff_exists.mp (nodes_isSome.2 hslot)
      by_cases hkid : id = k
      · subst hkid
        simp only [DoublyLinked.write, if_true, Option.some_inj, if_neg hne, he, Option.map_some,
          setPrev, setNext]
      · simp only [DoublyLinked.write, Option.some_inj, if_neg hkid]
    have hroot : (⟨some id, if c.first.isNone then some id else c.first⟩ : Node ℕ) =
        pushBackRoot ⟨c.last, c.first⟩ id := by
      rw [pushBackRoot, hl]
      cases hf : c.first with
      | none =>
        rw [hhead, List.head?_eq_none_iff] at hf
        rw [hf] at hmem
        cases hmem
      | some k => rfl
    rw [← hroot, ← hnodes] at hpush
    dsimp only
    rw [hw₁]
    simp only [Option.bind_eq_bind, Option.bind_some]
    rw [hw₂, Option.bind_some, hw₃, Option.bind_some]
    exact ⟨_, rfl, hpush, hlen₃.trans (hlen₂.trans hlen₁), hc₃.trans (hc₂.trans hc₁), rfl⟩

/-- The end of the chain is where nothing follows. -/
theorem Chains.last_iff (h : Chains c (l ++ id :: r)) : c.last = some id ↔ r = [] := by
  have hlast : c.last = (l ++ id :: r).getLast? := h.last
  rw [hlast]
  constructor
  · intro heq
    rcases List.eq_nil_or_concat' r with rfl | ⟨r', k, rfl⟩
    · rfl
    · have hend : (l ++ id :: (r' ++ [k])).getLast? = some k := by
        rw [← List.cons_append, ← List.append_assoc, List.getLast?_concat]
      have hk : k = id := Option.some.inj (hend.symm.trans heq)
      have hnodup := (List.nodup_append.mp h.nodup).2.1
      exact absurd (by simp [hk]) (List.nodup_cons.mp hnodup).1
  · rintro rfl
    rw [List.getLast?_concat]

theorem Chains.first_iff (h : Chains c (l ++ id :: r)) : c.first = some id ↔ l = [] := by
  have hhead : c.first = (l ++ id :: r).head? := h.head
  rw [hhead]
  constructor
  · intro heq
    cases l with
    | nil => rfl
    | cons k l =>
      obtain rfl : k = id := Option.some.inj heq
      exact absurd (by simp) (List.nodup_cons.mp h.nodup).1
  · rintro rfl
    rfl

theorem detach_spec (h : Chains c (l ++ id :: r)) :
    ∃ c', c.detach id = some c' ∧ Chains c' (l ++ r) ∧ SameItems c c' := by
  have hnode := h.chained.at_cut
  rw [Option.or_none, Option.or_none] at hnode
  have hslot := h.lt_length (by simp : id ∈ l ++ id :: r)
  obtain ⟨item, hitem, hlinks⟩ := Option.map_eq_some_iff.mp hnode
  rw [Node.mk.injEq] at hlinks
  obtain ⟨hprev, hnext⟩ := hlinks
  have hjoin := h.unlink
  have hnodup := List.nodup_append.mp hjoin.nodup
  have hprevIn : ∀ k ∈ l.getLast?, k < c.itemPool.length := fun k hk =>
    h.lt_length (List.mem_append_left _ (List.mem_of_getLast? hk))
  have hnextIn : ∀ k ∈ r.head?, k < c.itemPool.length := fun k hk =>
    h.lt_length (List.mem_append_right _ (List.mem_cons_of_mem id (List.mem_of_mem_head? hk)))
  obtain ⟨pool₁, hw₁, hlen₁, hn₁, hc₁⟩ := write_nodes (fun i => { i with next := r.head? })
    (setNext r.head?) hprevIn (fun i => rfl) fun i => ⟨rfl, rfl⟩
  obtain ⟨pool₂, hw₂, hlen₂, hn₂, hc₂⟩ := write_nodes (fun i => { i with prev := l.getLast? })
    (setPrev l.getLast?) (show ∀ k ∈ r.head?, k < pool₁.length from hlen₁ ▸ hnextIn)
    (fun i => rfl) fun i => ⟨rfl, rfl⟩
  have hnodes : nodes pool₂ = unlinkNodes (nodes c.itemPool) ⟨l.getLast?, r.head?⟩ := by
    rw [hn₂, hn₁]
    rfl
  have hfirst : (if c.first = some id then r.head? else c.first) = (l ++ r).head? := by
    have hhead : c.first = (l ++ id :: r).head? := h.head
    split
    case isTrue heq => rw [h.first_iff.mp heq, List.nil_append]
    case isFalse hne =>
      rw [hhead]
      cases l with
      | nil => exact absurd (h.first_iff.mpr rfl) hne
      | cons k l => rfl
  have hlast : (if c.last = some id then l.getLast? else c.last) = (l ++ r).getLast? := by
    have hend : c.last = (l ++ id :: r).getLast? := h.last
    split
    case isTrue heq => rw [h.last_iff.mp heq, List.append_nil]
    case isFalse hne =>
      rw [hend]
      rcases List.eq_nil_or_concat' r with rfl | ⟨r', k, rfl⟩
      · exact absurd (h.last_iff.mpr rfl) hne
      · rw [← List.cons_append, ← List.append_assoc, List.getLast?_concat, ← List.append_assoc,
          List.getLast?_concat]
  have hchain₂ : Chained (nodes pool₂) none (l ++ r) none := hnodes ▸ hjoin.chained
  -- the ends are cleared once more, where they are clear already
  obtain ⟨pool₃, hw₃, hlen₃, hchain₃, hc₃⟩ : ∃ pool₃,
      (if c.first = some id then write pool₂ (l ++ r).head? fun i => { i with prev := none }
        else some pool₂) = some pool₃ ∧ pool₃.length = pool₂.length ∧
      Chained (nodes pool₃) none (l ++ r) none ∧ content pool₃ = content pool₂ := by
    split
    case isTrue =>
      obtain ⟨pool₃, hw₃, hlen₃, hn₃, hc₃⟩ := write_nodes (fun i => { i with prev := none })
        (setPrev none) (show ∀ k ∈ (l ++ r).head?, k < pool₂.length from fun k hk =>
          nodes_isSome.1 (hchain₂.isSome (List.mem_of_mem_head? hk))) (fun i => rfl)
        fun i => ⟨rfl, rfl⟩
      exact ⟨pool₃, hw₃, hlen₃, hn₃ ▸ hchain₂.write_head hjoin.nodup none, hc₃⟩
    case isFalse => exact ⟨pool₂, rfl, rfl, hchain₂, rfl⟩
  obtain ⟨pool₄, hw₄, hlen₄, hchain₄, hc₄⟩ : ∃ pool₄,
      (if c.last = some id then write pool₃ (l ++ r).getLast? fun i => { i with next := none }
        else some pool₃) = some pool₄ ∧ pool₄.length = pool₃.length ∧
      Chained (nodes pool₄) none (l ++ r) none ∧ content pool₄ = content pool₃ := by
    split
    case isTrue =>
      obtain ⟨pool₄, hw₄, hlen₄, hn₄, hc₄⟩ := write_nodes (fun i => { i with next := none })
        (setNext none) (show ∀ k ∈ (l ++ r).getLast?, k < pool₃.length from fun k hk =>
          nodes_isSome.1 (hchain₃.isSome (List.mem_of_getLast? hk))) (fun i => rfl)
        fun i => ⟨rfl, rfl⟩
      exact ⟨pool₄, hw₄, hlen₄, hn₄ ▸ hchain₃.write_last hjoin.nodup none, hc₄⟩
    case isFalse => exact ⟨pool₃, rfl, rfl, hchain₃, rfl⟩
  refine ⟨⟨pool₄, c.freeItems, (l ++ r).head?, (l ++ r).getLast?⟩, ?_,
    ⟨rfl, rfl, hchain₄, hjoin.nodup⟩, hlen₄.trans (hlen₃.trans (hlen₂.trans hlen₁)),
    hc₄.trans (hc₃.trans (hc₂.trans hc₁)), rfl⟩
  rw [LeastRecentlyUsedCache.detach, hitem]
  dsimp only [bind, Option.bind]
  rw [hprev, hnext, hw₁]
  dsimp only
  rw [hw₂]
  dsimp only
  rw [hfirst, hlast, hw₃]
  dsimp only
  rw [hw₄]

end Links

/-! ### The operations keep the chain and the free indices -/

/-- The chain, and the free indices outside it. -/
structure Holds (c : LeastRecentlyUsedCache O) (l : List ℕ) : Prop where
  chains : Chains c l
  freeNodup : c.freeItems.Nodup
  freeLt : ∀ id ∈ c.freeItems, id < c.itemPool.length
  freeApart : ∀ id ∈ c.freeItems, id ∉ l

section Operations

variable {c : LeastRecentlyUsedCache O} {l : List ℕ} {id : ℕ} {obj : O} {tick current : ℤ}

theorem holds_new : Holds (LeastRecentlyUsedCache.new : LeastRecentlyUsedCache O) [] :=
  ⟨⟨rfl, rfl, trivial, List.nodup_nil⟩, List.nodup_nil, nofun, nofun⟩

theorem build_spec (h : Holds c l) (obj : O) (tick : ℤ) :
    ∃ id c', c.build obj tick = some (id, c') ∧ id ∉ l ∧ Holds c' l ∧
      nodes c'.itemPool id = some ⟨none, none⟩ ∧ id ∉ c'.freeItems ∧
      content c'.itemPool = Function.update (content c.itemPool) id (some (obj, tick)) := by
  rw [LeastRecentlyUsedCache.build]
  cases hfree : c.freeItems with
  | cons id rest =>
    have hmem : id ∈ c.freeItems := hfree ▸ List.mem_cons_self
    have hnodup := List.nodup_cons.mp (hfree ▸ h.freeNodup)
    obtain ⟨pool, hwrite, hlen, hget⟩ := write_some (fun _ => (⟨obj, tick, none, none⟩ : Item O))
      (show ∀ k ∈ some id, k < c.itemPool.length by simpa using h.freeLt id hmem)
    have hin : id < c.itemPool.length := h.freeLt id hmem
    dsimp only [bind, Option.bind]
    rw [hwrite]
    refine ⟨id, _, rfl, h.freeApart id hmem, ⟨?_, hnodup.2, ?_, ?_⟩, ?_, hnodup.1, ?_⟩
    · refine h.chains.congr fun k hk => ?_
      have hne : ¬ some id = some k := fun heq =>
        h.freeApart id hmem (Option.some.inj heq ▸ hk)
      simp only [nodes, hget, if_neg hne, Option.map_id']
    · intro k hk
      exact hlen ▸ h.freeLt k (hfree ▸ List.mem_cons_of_mem id hk)
    · intro k hk
      exact h.freeApart k (hfree ▸ List.mem_cons_of_mem id hk)
    · simp only [nodes, hget, if_true, List.getElem?_eq_getElem hin, Option.map_some]
    · funext k
      by_cases heq : k = id
      · subst heq
        simp only [content, hget, if_true, List.getElem?_eq_getElem hin, Option.map_some,
          Function.update_self]
      · have hne : ¬ some id = some k := fun hs => heq (Option.some.inj hs).symm
        simp only [content, hget, if_neg hne, Option.map_id', Function.update_of_ne heq]
  | nil =>
    have hout : c.itemPool.length ∉ l := fun hmem => absurd (h.chains.lt_length hmem) (by omega)
    refine ⟨_, _, rfl, hout, ⟨?_, List.nodup_nil, nofun, nofun⟩, ?_, List.not_mem_nil, ?_⟩
    · refine h.chains.congr fun k hk => ?_
      simp only [nodes, List.getElem?_append_left (h.chains.lt_length hk)]
    · simp only [nodes, List.getElem?_concat_length, Option.map_some]
    · funext k
      by_cases heq : k = c.itemPool.length
      · subst heq
        simp only [content, List.getElem?_concat_length, Option.map_some, Function.update_self]
      · rw [Function.update_of_ne heq, content, content]
        rcases Nat.lt_or_gt_of_ne heq with hlt | hgt
        · rw [List.getElem?_append_left hlt]
        · rw [List.getElem?_eq_none hgt.le, List.getElem?_eq_none (by simp; omega)]

theorem insert_spec (h : Holds c l) (obj : O) (tick : ℤ) :
    ∃ id c', c.insert obj tick = some (id, c') ∧ id ∉ l ∧ Holds c' (l ++ [id]) ∧
      content c'.itemPool = Function.update (content c.itemPool) id (some (obj, tick)) := by
  obtain ⟨id, c₁, hbuild, hnew, h₁, hfresh, hused, hcontent⟩ := build_spec h obj tick
  have hslot : id < c₁.itemPool.length := nodes_isSome.1 (by rw [hfresh]; rfl)
  obtain ⟨c₂, hattach, hchains, hsame⟩ := attach_spec h₁.chains hnew hslot fun _ => hfresh
  refine ⟨id, c₂, ?_, hnew, ⟨hchains, ?_, ?_, ?_⟩, hsame.contents.trans hcontent⟩
  · rw [LeastRecentlyUsedCache.insert, hbuild]
    dsimp only [bind, Option.bind]
    rw [hattach]
  · exact hsame.free ▸ h₁.freeNodup
  · rw [hsame.free, hsame.length]
    exact h₁.freeLt
  · intro k hk
    rw [hsame.free] at hk
    rw [List.mem_append, List.mem_singleton, not_or]
    exact ⟨h₁.freeApart k hk, fun heq => hused (heq ▸ hk)⟩

theorem free_spec (h : Holds c l) (hid : id ∈ l) :
    ∃ c', c.free id = some c' ∧ Holds c' (l.erase id) ∧
      content c'.itemPool = content c.itemPool := by
  obtain ⟨pre, post, rfl⟩ := List.append_of_mem hid
  have hnodup := h.chains.nodup
  have hpre : id ∉ pre := fun hmem =>
    (List.nodup_append.mp hnodup).2.2 id hmem id List.mem_cons_self rfl
  have herase : (pre ++ id :: post).erase id = pre ++ post := by
    rw [List.erase_append_right _ hpre, List.erase_cons_head]
  have hgone : id ∉ pre ++ post := by
    rw [← herase]
    exact hnodup.not_mem_erase
  obtain ⟨c₁, hdetach, hchains, hsame⟩ := detach_spec h.chains
  have hin : id < c₁.itemPool.length := hsame.length ▸ h.chains.lt_length hid
  obtain ⟨pool, hwrite, hlen, hnodes, hcontent⟩ := write_nodes
    (fun i => { i with prev := none, next := none }) (fun _ => (⟨none, none⟩ : Node ℕ))
    (show ∀ k ∈ some id, k < c₁.itemPool.length by simpa using hin)
    (fun _ => rfl) fun _ => ⟨rfl, rfl⟩
  rw [herase]
  refine ⟨{ c₁ with itemPool := pool, freeItems := c₁.freeItems ++ [id] }, ?_,
    ⟨hchains.congr fun k hk => ?_, ?_, ?_, ?_⟩, hcontent.trans hsame.contents⟩
  · rw [LeastRecentlyUsedCache.free, hdetach]
    dsimp only [bind, Option.bind]
    rw [hwrite]
  · have hne : ¬ some id = some k := fun heq => hgone (Option.some.inj heq ▸ hk)
    rw [hnodes, DoublyLinked.write, if_neg hne]
  · dsimp only
    rw [hsame.free]
    refine List.nodup_append.mpr ⟨h.freeNodup, List.nodup_singleton id, ?_⟩
    intro k hk j hj heq
    obtain rfl := List.mem_singleton.mp hj
    exact h.freeApart k hk (heq ▸ hid)
  · intro k hk
    dsimp only at hk ⊢
    rw [hsame.free, List.mem_append, List.mem_singleton] at hk
    rw [hlen]
    rcases hk with hk | rfl
    · exact hsame.length ▸ h.freeLt k hk
    · exact hin
  · intro k hk
    dsimp only at hk
    rw [hsame.free, List.mem_append, List.mem_singleton] at hk
    rcases hk with hk | rfl
    · intro hmem
      exact h.freeApart k hk (List.mem_append.mpr
        ((List.mem_append.mp hmem).imp_right (List.mem_cons_of_mem id)))
    · exact hgone

theorem touch_stale (hcontent : content c.itemPool id = some (obj, current))
    (hold : tick ≤ current) : c.touch id tick = some c := by
  obtain ⟨item, hitem, heq⟩ := Option.map_eq_some_iff.mp hcontent
  rw [Prod.mk.injEq] at heq
  rw [LeastRecentlyUsedCache.touch, hitem]
  dsimp only [bind, Option.bind]
  rw [heq.2, if_pos hold]

/-- An effective touch moves the item to the end. -/
theorem touch_spec (h : Holds c l) (hid : id ∈ l)
    (hcontent : content c.itemPool id = some (obj, current)) (hold : current < tick) :
    ∃ c', c.touch id tick = some c' ∧ Holds c' (l.erase id ++ [id]) ∧
      content c'.itemPool = Function.update (content c.itemPool) id (some (obj, tick)) := by
  obtain ⟨item, hitem, heq⟩ := Option.map_eq_some_iff.mp hcontent
  rw [Prod.mk.injEq] at heq
  obtain ⟨pool, hwrite, hlen, hget⟩ := write_some (fun i : Item O => { i with tick := tick })
    (show ∀ k ∈ some id, k < c.itemPool.length by simpa using h.chains.lt_length hid)
  have hnodes : nodes pool = nodes c.itemPool := by
    funext k
    rw [nodes, hget, Option.map_map, nodes]
    congr 1
    funext i
    rw [Function.comp_apply]
    split <;> rfl
  have hupdate : content pool =
      Function.update (content c.itemPool) id (some (obj, tick)) := by
    funext k
    by_cases hk : k = id
    · subst hk
      rw [Function.update_self, content, hget, hitem]
      simp only [if_true, Option.map_some, heq.1]
    · have hne : ¬ some id = some k := fun hs => hk (Option.some.inj hs).symm
      simp only [content, hget, if_neg hne, Option.map_id', Function.update_of_ne hk]
  let c₁ : LeastRecentlyUsedCache O := { c with itemPool := pool }
  have h₁ : Holds c₁ l := by
    refine ⟨?_, h.freeNodup, ?_, h.freeApart⟩
    · rw [Chains, show nodes c₁.itemPool = nodes c.itemPool from hnodes]
      exact h.chains
    · intro k hk
      exact hlen ▸ h.freeLt k hk
  obtain ⟨pre, post, rfl⟩ := List.append_of_mem hid
  have hpre : id ∉ pre := fun hmem =>
    (List.nodup_append.mp h.chains.nodup).2.2 id hmem id List.mem_cons_self rfl
  have herase : (pre ++ id :: post).erase id = pre ++ post := by
    rw [List.erase_append_right _ hpre, List.erase_cons_head]
  rw [LeastRecentlyUsedCache.touch, hitem]
  dsimp only [bind, Option.bind]
  rw [heq.2, if_neg (Int.not_le.mpr hold), hwrite, herase]
  dsimp only
  split
  case isTrue hlast =>
    obtain rfl := h.chains.last_iff.mp hlast
    rw [List.append_nil]
    exact ⟨c₁, rfl, h₁, hupdate⟩
  case isFalse hlast =>
    obtain ⟨c₂, hdetach, hchains₂, hsame₂⟩ := detach_spec h₁.chains
    have hgone : id ∉ pre ++ post := by
      rw [← herase]
      exact h.chains.nodup.not_mem_erase
    have hpost : pre ++ post ≠ [] := by
      intro hnil
      exact hlast (h.chains.last_iff.mpr (List.append_eq_nil_iff.mp hnil).2)
    obtain ⟨c₃, hattach, hchains₃, hsame₃⟩ := attach_spec hchains₂ hgone
      (hsame₂.length ▸ h₁.chains.lt_length hid) fun hnil => absurd hnil hpost
    rw [hdetach]
    dsimp only
    have hfree : c₃.freeItems = c.freeItems := hsame₃.free.trans hsame₂.free
    refine ⟨c₃, hattach, ⟨hchains₃, ?_, ?_, ?_⟩, ?_⟩
    · exact hfree ▸ h.freeNodup
    · rw [hfree, hsame₃.length, hsame₂.length]
      exact h₁.freeLt
    · intro k hk hmem
      refine h.freeApart k (hfree ▸ hk) ?_
      simp only [List.mem_append, List.mem_cons, List.not_mem_nil, or_false] at hmem ⊢
      tauto
    · exact (hsame₃.contents.trans hsame₂.contents).trans hupdate

end Operations


/-! ### Runs -/

inductive Call (O : Type*) where
  | insert (obj : O) (tick : ℤ)
  | touch (id : ℕ) (tick : ℤ)
  | free (id : ℕ)

/-- What a live id was given: the object, the highest tick, and the call that was its insertion or
last effective touch. -/
structure Entry (O : Type*) where
  obj : O
  tick : ℤ
  stamp : ℕ

structure System (O : Type*) where
  cache : LeastRecentlyUsedCache O
  live : ℕ → Option (Entry O)
  calls : ℕ
  newest : ℤ

namespace System

open LeastRecentlyUsedCache (age belowLoop forEachItemBelow)

def new : System O := ⟨.new, fun _ => none, 0, -2 ^ 63⟩

/-- An effective touch. -/
def touched (e : Entry O) (tick : ℤ) (stamp : ℕ) : Entry O :=
  if e.tick < tick then { e with tick := tick, stamp := stamp } else e

def step (s : System O) : Call O → Option (System O)
  | .insert obj tick => do
    let (id, cache) ← s.cache.insert obj tick
    let live := Function.update s.live id (some ⟨obj, tick, s.calls⟩)
    some ⟨cache, live, s.calls + 1, tick⟩
  | .touch id tick => do
    let cache ← s.cache.touch id tick
    let live := Function.update s.live id ((s.live id).map (touched · tick s.calls))
    some ⟨cache, live, s.calls + 1, tick⟩
  | .free id => do
    let cache ← s.cache.free id
    some ⟨cache, Function.update s.live id none, s.calls + 1, s.newest⟩

/-- Ticks do not decrease and stay below `2 ^ 63`; the ids are live. -/
def Allowed (s : System O) : Call O → Prop
  | .insert _ tick => s.newest ≤ tick ∧ tick < 2 ^ 63
  | .touch id tick => (s.live id).isSome ∧ s.newest ≤ tick ∧ tick < 2 ^ 63
  | .free id => (s.live id).isSome

inductive Reachable : System O → Prop
  | new : Reachable new
  | step {s s' : System O} {e : Call O} : Reachable s → s.Allowed e →
      s.step e = some s' → Reachable s'

/-- The lower tick, or the earlier call. -/
def Before (e e' : Entry O) : Prop :=
  e.tick < e'.tick ∨ e.tick = e'.tick ∧ e.stamp < e'.stamp

/-- The live ids in order. -/
structure Ordered (s : System O) (l : List ℕ) : Prop where
  holds : Holds s.cache l
  live : ∀ id, id ∈ l ↔ (s.live id).isSome
  contents : ∀ id e, s.live id = some e → content s.cache.itemPool id = some (e.obj, e.tick)
  sorted : l.Pairwise fun a b => ∀ e ∈ s.live a, ∀ e' ∈ s.live b, Before e e'
  newest : ∀ id e, s.live id = some e → -2 ^ 63 ≤ e.tick ∧ e.tick ≤ s.newest ∧ e.stamp < s.calls
  bounds : -2 ^ 63 ≤ s.newest ∧ s.newest < 2 ^ 63

section Steps

variable {s : System O} {l : List ℕ}

theorem ordered_new : Ordered (new : System O) [] :=
  ⟨holds_new, fun id => by simp [new], nofun, .nil, nofun, le_rfl,
    show (-2 ^ 63 : ℤ) < 2 ^ 63 by decide⟩

/-- An entry of the newest tick and call goes behind the others. -/
theorem sorted_concat {live : ℕ → Option (Entry O)} {id : ℕ} {e : Entry O}
    (hsorted : l.Pairwise fun a b => ∀ e ∈ live a, ∀ e' ∈ live b, Before e e') (hid : id ∉ l)
    (hnewest : ∀ k e', live k = some e' → e'.tick ≤ e.tick ∧ e'.stamp < e.stamp) :
    (l ++ [id]).Pairwise fun a b => ∀ x ∈ Function.update live id (some e) a,
      ∀ y ∈ Function.update live id (some e) b, Before x y := by
  have hout : ∀ k ∈ l, Function.update live id (some e) k = live k := fun k hk =>
    Function.update_of_ne (fun heq : k = id => hid (heq ▸ hk)) ..
  refine List.pairwise_append.mpr ⟨?_, List.pairwise_singleton .., ?_⟩
  · refine hsorted.imp_of_mem fun {a b} ha hb h => ?_
    rw [hout a ha, hout b hb]
    exact h
  · intro a ha b hb x hx y hy
    obtain rfl := List.mem_singleton.mp hb
    rw [hout a ha] at hx
    rw [Function.update_self] at hy
    obtain rfl := Option.some.inj hy
    obtain ⟨htick, hstamp⟩ := hnewest a x hx
    rcases htick.lt_or_eq with hlt | heq
    · exact .inl hlt
    · exact .inr ⟨heq, hstamp⟩

theorem Ordered.insert (h : Ordered s l) {obj : O} {tick : ℤ} (ha : s.newest ≤ tick)
    (hb : tick < 2 ^ 63) :
    ∃ id cache, s.cache.insert obj tick = some (id, cache) ∧ s.live id = none ∧
      Ordered ⟨cache, Function.update s.live id (some ⟨obj, tick, s.calls⟩), s.calls + 1, tick⟩
        (l ++ [id]) := by
  obtain ⟨id, cache, hinsert, hnew, hholds, hcontent⟩ := insert_spec h.holds obj tick
  have hdead : s.live id = none := Option.not_isSome_iff_eq_none.mp fun hlive =>
    hnew ((h.live id).mpr hlive)
  refine ⟨id, cache, hinsert, hdead, hholds, fun k => ?_, fun k e hk => ?_,
    sorted_concat h.sorted hnew fun k e hk => ?_, fun k e hk => ?_, ?_⟩
  · dsimp only
    by_cases heq : k = id
    · subst heq
      simp
    · rw [Function.update_of_ne heq, ← h.live]
      simp [heq]
  · dsimp only at hk ⊢
    rw [hcontent]
    by_cases heq : k = id
    · subst heq
      rw [Function.update_self] at hk ⊢
      obtain rfl := Option.some.inj hk
      rfl
    · rw [Function.update_of_ne heq] at hk ⊢
      exact h.contents k e hk
  · obtain ⟨-, hle, hlt⟩ := h.newest k e hk
    exact ⟨hle.trans ha, hlt⟩
  · dsimp only at hk ⊢
    by_cases heq : k = id
    · subst heq
      rw [Function.update_self] at hk
      obtain rfl := Option.some.inj hk
      exact ⟨h.bounds.1.trans ha, le_rfl, Nat.lt_succ_self _⟩
    · rw [Function.update_of_ne heq] at hk
      obtain ⟨hge, hle, hlt⟩ := h.newest k e hk
      exact ⟨hge, hle.trans ha, hlt.trans (Nat.lt_succ_self _)⟩
  · exact ⟨h.bounds.1.trans ha, hb⟩

theorem Ordered.free (h : Ordered s l) {id : ℕ} (hid : (s.live id).isSome) :
    ∃ cache, s.cache.free id = some cache ∧
      Ordered ⟨cache, Function.update s.live id none, s.calls + 1, s.newest⟩ (l.erase id) := by
  obtain ⟨cache, hfree, hholds, hcontent⟩ := free_spec h.holds ((h.live id).mpr hid)
  have hnodup := h.holds.chains.nodup
  have hlive : ∀ k e, Function.update s.live id none k = some e → s.live k = some e := by
    intro k e hk
    by_cases heq : k = id
    · subst heq
      rw [Function.update_self] at hk
      cases hk
    · rwa [Function.update_of_ne heq] at hk
  refine ⟨cache, hfree, hholds, fun k => ?_, fun k e hk => ?_, ?_, fun k e hk => ?_, h.bounds⟩
  · dsimp only
    rw [hnodup.mem_erase_iff, h.live]
    by_cases heq : k = id
    · subst heq
      simp
    · simp [heq]
  · rw [hcontent]
    exact h.contents k e (hlive k e hk)
  · refine (h.sorted.sublist List.erase_sublist).imp fun {a b} hab x hx y hy => ?_
    exact hab x (hlive a x hx) y (hlive b y hy)
  · obtain ⟨hge, hle, hlt⟩ := h.newest k e (hlive k e hk)
    exact ⟨hge, hle, hlt.trans (Nat.lt_succ_self _)⟩

theorem Ordered.touch (h : Ordered s l) {id : ℕ} {tick : ℤ} (hid : (s.live id).isSome)
    (ha : s.newest ≤ tick) (hb : tick < 2 ^ 63) :
    ∃ cache l', s.cache.touch id tick = some cache ∧
      Ordered ⟨cache, Function.update s.live id ((s.live id).map (touched · tick s.calls)),
        s.calls + 1, tick⟩ l' := by
  obtain ⟨e, he⟩ := Option.isSome_iff_exists.mp hid
  rw [he, Option.map_some]
  by_cases hlt : e.tick < tick
  · -- the entry goes to the end, as if freed and inserted again
    have hnodup := h.holds.chains.nodup
    obtain ⟨cache, htouch, hholds, hcontent⟩ :=
      touch_spec h.holds ((h.live id).mpr hid) (h.contents id e he) hlt
    rw [touched, if_pos hlt]
    refine ⟨cache, l.erase id ++ [id], htouch, hholds, fun k => ?_, fun k x hk => ?_,
      sorted_concat (h.sorted.sublist List.erase_sublist) hnodup.not_mem_erase fun k x hk => ?_,
      fun k x hk => ?_, h.bounds.1.trans ha, hb⟩
    · dsimp only
      by_cases heq : k = id
      · subst heq
        simp
      · rw [Function.update_of_ne heq, ← h.live, List.mem_append, hnodup.mem_erase_iff]
        simp [heq]
    · dsimp only at hk ⊢
      rw [hcontent]
      by_cases heq : k = id
      · subst heq
        rw [Function.update_self] at hk ⊢
        obtain rfl := Option.some.inj hk
        rfl
      · rw [Function.update_of_ne heq] at hk ⊢
        exact h.contents k x hk
    · obtain ⟨-, hle, hstamp⟩ := h.newest k x hk
      exact ⟨hle.trans ha, hstamp⟩
    · dsimp only at hk ⊢
      by_cases heq : k = id
      · subst heq
        rw [Function.update_self] at hk
        obtain rfl := Option.some.inj hk
        exact ⟨h.bounds.1.trans ha, le_rfl, Nat.lt_succ_self _⟩
      · rw [Function.update_of_ne heq] at hk
        obtain ⟨hge, hle, hstamp⟩ := h.newest k x hk
        exact ⟨hge, hle.trans ha, hstamp.trans (Nat.lt_succ_self _)⟩
  · have hstale := touch_stale (h.contents id e he) (Int.not_lt.mp hlt)
    rw [touched, if_neg hlt, ← he, Function.update_eq_self]
    refine ⟨s.cache, l, hstale, h.holds, h.live, h.contents, h.sorted, fun k x hk => ?_,
      h.bounds.1.trans ha, hb⟩
    obtain ⟨hge, hle, hstamp⟩ := h.newest k x hk
    exact ⟨hge, hle.trans ha, hstamp.trans (Nat.lt_succ_self _)⟩

/-- What a call does to an ordered state. -/
theorem Ordered.step (h : Ordered s l) {call : Call O} (ha : s.Allowed call) :
    ∃ s' l', s.step call = some s' ∧ Ordered s' l' := by
  cases call with
  | insert obj tick =>
    obtain ⟨id, cache, hinsert, -, hordered⟩ := h.insert ha.1 ha.2
    refine ⟨_, _, ?_, hordered⟩
    rw [System.step, hinsert]
    rfl
  | touch id tick =>
    obtain ⟨cache, l', htouch, hordered⟩ := h.touch ha.1 ha.2.1 ha.2.2
    refine ⟨_, l', ?_, hordered⟩
    rw [System.step, htouch]
    rfl
  | free id =>
    obtain ⟨cache, hfree, hordered⟩ := h.free ha
    refine ⟨_, _, ?_, hordered⟩
    rw [System.step, hfree]
    rfl

theorem Reachable.ordered (h : Reachable s) : ∃ l, Ordered s l := by
  induction h with
  | new => exact ⟨[], ordered_new⟩
  | step _ ha hstep ih =>
    obtain ⟨l, hl⟩ := ih
    obtain ⟨s', l', hrun, hordered⟩ := hl.step ha
    obtain rfl := Option.some.inj (hrun.symm.trans hstep)
    exact ⟨l', hordered⟩

end Steps

/-! ### The items below a tick -/

/-- The calls over a list of objects, up to the first that returns `true`. -/
def upTo (func : List O → O → Bool) : List O → List O → List O
  | called, [] => called
  | called, obj :: rest =>
    if func called obj then called ++ [obj] else upTo func (called ++ [obj]) rest

theorem age_eq {target tick : ℤ} (hge : -2 ^ 63 ≤ target - tick) (hlt : target - tick < 2 ^ 63) :
    age target tick = target - tick := by
  rw [age, Int.sub_bmod_bmod, Int.bmod_sub_bmod]
  exact Int.bmod_eq_of_le (by omega) (by omega)

theorem belowLoop_spec {pool : List (Item O)} {live : ℕ → Option (Entry O)} {l : List ℕ}
    {p : Option ℕ} {called : List O} {fuel : ℕ} (tick : ℤ) (func : List O → O → Bool)
    (hchain : Chained (nodes pool) p l none) (hlive : ∀ id ∈ l, (live id).isSome)
    (hcontents : ∀ id e, live id = some e → content pool id = some (e.obj, e.tick))
    (hfuel : l.length ≤ fuel) :
    belowLoop pool tick func fuel called l.head? = some (upTo func called
      (((l.filterMap live).takeWhile fun e => 0 ≤ age tick e.tick).map Entry.obj)) := by
  induction l generalizing p called fuel with
  | nil => cases fuel <;> rfl
  | cons id l ih =>
    obtain ⟨fuel, rfl⟩ : ∃ n, fuel = n + 1 := ⟨fuel - 1, by rw [List.length_cons] at hfuel; omega⟩
    obtain ⟨hnode, hrest⟩ := hchain
    obtain ⟨e, he⟩ := Option.isSome_iff_exists.mp (hlive id List.mem_cons_self)
    obtain ⟨item, hitem, hlinks⟩ := Option.map_eq_some_iff.mp hnode
    obtain ⟨item', hitem', hdata⟩ := Option.map_eq_some_iff.mp (hcontents id e he)
    obtain rfl := Option.some.inj (hitem.symm.trans hitem')
    rw [Node.mk.injEq, Option.or_none] at hlinks
    rw [Prod.mk.injEq] at hdata
    rw [List.head?_cons, belowLoop, hitem, List.filterMap_cons_some he]
    dsimp only [bind, Option.bind]
    rw [hdata.1, hdata.2, hlinks.2]
    by_cases hage : age tick e.tick < 0
    · rw [if_pos hage, List.takeWhile_cons_of_neg (by simpa using hage)]
      rfl
    · rw [if_neg hage, List.takeWhile_cons_of_pos (by simpa using hage), List.map_cons, upTo]
      split
      · rfl
      · exact ih hrest (fun k hk => hlive k (List.mem_cons_of_mem id hk))
          (by rw [List.length_cons] at hfuel; omega)

/-- On a sorted list the ones below are a front part of it. -/
theorem takeWhile_eq_filter {tick : ℤ} {es : List (Entry O)} (hsorted : es.Pairwise Before)
    (hwindow : ∀ e ∈ es, -2 ^ 63 ≤ tick - e.tick ∧ tick - e.tick < 2 ^ 63) :
    es.takeWhile (fun e => 0 ≤ age tick e.tick) = es.filter fun e => e.tick ≤ tick := by
  induction es with
  | nil => rfl
  | cons e es ih =>
    obtain ⟨hfirst, hrest⟩ := List.pairwise_cons.mp hsorted
    obtain ⟨hge, hlt⟩ := hwindow e List.mem_cons_self
    have hage := age_eq hge hlt
    by_cases hle : e.tick ≤ tick
    · rw [List.takeWhile_cons_of_pos (by rw [hage]; simpa using hle),
        List.filter_cons_of_pos (by simpa using hle),
        ih hrest fun x hx => hwindow x (List.mem_cons_of_mem e hx)]
    · rw [List.takeWhile_cons_of_neg (by rw [hage]; simpa using hle),
        List.filter_cons_of_neg (by simpa using hle), eq_comm, List.filter_eq_nil_iff]
      intro x hx
      have hbefore : e.tick ≤ x.tick := by
        rcases hfirst x hx with hless | ⟨heq, -⟩
        · exact hless.le
        · exact heq.le
      rw [decide_eq_true_eq]
      omega

/-- In every state of a run the chain shows the live ids, oldest first, both ways; no allowed call
faults, an insertion takes an id that is not live, and the objects given to a callback are those of
the first live items that are not younger than the tick: those of a tick up to it, where no
difference of ticks overflows. -/
theorem reachable_cache {s : System O} (h : Reachable s) :
    ∃ l : List ℕ, l.Nodup ∧
      (∀ k, follow (nodes s.cache.itemPool) k s.cache.first = l[k]?) ∧
      (∀ k, followBack (nodes s.cache.itemPool) k s.cache.last = l.reverse[k]?) ∧
      (∀ id, id ∈ l ↔ (s.live id).isSome) ∧
      (∀ id e, s.live id = some e → content s.cache.itemPool id = some (e.obj, e.tick)) ∧
      (l.filterMap s.live).Pairwise Before ∧
      (∀ call, s.Allowed call → (s.step call).isSome) ∧
      (∀ obj tick, s.Allowed (.insert obj tick) →
        ∃ id cache, s.cache.insert obj tick = some (id, cache) ∧ s.live id = none) ∧
      ∀ tick func, s.cache.forEachItemBelow tick func = some (upTo func []
          (((l.filterMap s.live).takeWhile fun e => 0 ≤ age tick e.tick).map Entry.obj)) ∧
        ((∀ id e, s.live id = some e → -2 ^ 63 ≤ tick - e.tick ∧ tick - e.tick < 2 ^ 63) →
          s.cache.forEachItemBelow tick func = some (upTo func []
            (((l.filterMap s.live).filter fun e => e.tick ≤ tick).map Entry.obj))) := by
  obtain ⟨l, hl⟩ := h.ordered
  have hchains := hl.holds.chains
  have hsorted : (l.filterMap s.live).Pairwise Before := by
    rw [List.pairwise_filterMap]
    exact hl.sorted
  have hfuel : l.length ≤ s.cache.itemPool.length := by
    rw [← List.length_range (n := s.cache.itemPool.length)]
    exact (hchains.nodup.subperm fun id hid => List.mem_range.mpr (hchains.lt_length hid)).length_le
  have hbelow : ∀ tick func, s.cache.forEachItemBelow tick func = some (upTo func []
      (((l.filterMap s.live).takeWhile fun e => 0 ≤ age tick e.tick).map Entry.obj)) := by
    intro tick func
    rw [forEachItemBelow, show s.cache.first = l.head? from hchains.head]
    exact belowLoop_spec tick func hchains.chained (fun id hid => (hl.live id).mp hid) hl.contents
      hfuel
  refine ⟨l, hchains.nodup, fun k => ?_, fun k => ?_, hl.live, hl.contents, hsorted,
    fun call hcall => ?_, fun obj tick hcall => ?_, fun tick func => ⟨hbelow tick func, ?_⟩⟩
  · rw [show s.cache.first = l.head? from hchains.head, hchains.chained.follow]
  · rw [show s.cache.last = l.getLast? from hchains.last, hchains.chained.followBack]
  · obtain ⟨s', -, hrun, -⟩ := hl.step hcall
    rw [hrun]
    rfl
  · obtain ⟨id, cache, hinsert, hdead, -⟩ := hl.insert hcall.1 hcall.2
    exact ⟨id, cache, hinsert, hdead⟩
  · intro hwindow
    rw [hbelow, takeWhile_eq_filter hsorted fun e he => ?_]
    obtain ⟨id, -, hid⟩ := List.mem_filterMap.mp he
    exact hwindow id e hid

/-- The first of two items is touched, freed and its id taken again: the second is first in line,
and the third is the last. -/
theorem reachable_cache_recycled :
    ∃ s : System ℕ, s.cache.first = some 1 ∧ s.cache.last = some 0 ∧
      s.cache.forEachItemBelow 7 (fun _ _ => false) = some [20, 30] ∧
      ∃ l : List ℕ, ∀ id, id ∈ l ↔ (s.live id).isSome := by
  have h₁ : Reachable _ :=
    .step (e := .insert 10 1) (.new : Reachable (new : System ℕ)) ⟨by decide, by decide⟩ rfl
  have h₂ : Reachable _ := .step (e := .insert 20 2) h₁ ⟨by decide, by decide⟩ rfl
  have h₃ : Reachable _ := .step (e := .touch 0 5) h₂ ⟨rfl, by decide, by decide⟩ rfl
  have h₄ : Reachable _ := .step (e := .free 0) h₃ rfl rfl
  have h₅ : Reachable _ := .step (e := .insert 30 7) h₄ ⟨by decide, by decide⟩ rfl
  obtain ⟨l, -, -, -, hlive, -⟩ := reachable_cache h₅
  exact ⟨_, rfl, rfl, by decide, l, hlive⟩

/-- A threshold above an item's tick by `2 ^ 63` or more is taken for an older one. -/
theorem far_threshold_skips :
    ∃ s : System ℕ, Reachable s ∧ s.live 0 = some ⟨10, 0, 0⟩ ∧
      (0 : ℤ) ≤ 2 ^ 64 - 120 ∧ (2 ^ 64 - 120 : ℤ) < 2 ^ 64 ∧
      s.cache.forEachItemBelow (2 ^ 64 - 120) (fun _ _ => false) = some [] := by
  have h : Reachable _ :=
    .step (e := .insert 10 0) (.new : Reachable (new : System ℕ)) ⟨by decide, by decide⟩ rfl
  exact ⟨_, h, rfl, by decide, by decide, by decide⟩

end System


end Ruzu.LruCache
