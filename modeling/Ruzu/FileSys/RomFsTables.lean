import Mathlib
import Ruzu.FileSys.RomFsBuild
import Ruzu.Lib.Linked

/-!
# Positions, links and tables of a RomFS image

The three loops of the builder that both kinds of nodes go through: the items
are placed one behind the other, the children of a parent are chained in their
order, and each entry is written to the front of its hash bucket.
-/

set_option autoImplicit false

namespace Ruzu.FileSys

open Image Linked

theorem le_alignUp (n : ℕ) {k : ℕ} (hk : 0 < k) : n ≤ alignUp n k := by
  have := Nat.lt_div_mul_add hk (a := n + (k - 1))
  rw [alignUp]
  omega

theorem alignUp_add (n m : ℕ) {k : ℕ} (hk : 0 < k) (hn : n % k = 0) :
    alignUp (n + m) k = n + alignUp m k := by
  obtain ⟨i, rfl⟩ := Nat.dvd_of_mod_eq_zero hn
  rw [alignUp, alignUp, Nat.add_assoc, Nat.mul_add_div hk, Nat.add_mul, Nat.mul_comm i]

theorem alignUp_mod (n k : ℕ) : alignUp n k % k = 0 := Nat.mul_mod_left _ _

/-! ### Places -/

section Place

variable {align width : ℕ → ℕ} {order : List ℕ}

/-- The step of the loop. -/
def Places.put (align width : ℕ → ℕ) (s : Places) (i : ℕ) : Places :=
  ⟨align s.stop + width i, Function.update s.position i (align s.stop)⟩

def placeFrom (align width : ℕ → ℕ) (s : Places) (order : List ℕ) : Places :=
  order.foldl (Places.put align width) s

@[simp] theorem stop_put (s : Places) (i : ℕ) :
    (s.put align width i).stop = align s.stop + width i := rfl

@[simp] theorem position_put (s : Places) (i : ℕ) :
    (s.put align width i).position i = align s.stop := Function.update_self ..

theorem position_put_of_ne (s : Places) {i j : ℕ} (h : j ≠ i) :
    (s.put align width i).position j = s.position j := Function.update_of_ne h ..

theorem placeFrom_cons (s : Places) (i : ℕ) :
    placeFrom align width s (i::order) = placeFrom align width (s.put align width i) order := rfl

theorem placeFrom_other (s : Places) {i : ℕ} (hi : i ∉ order) :
    (placeFrom align width s order).position i = s.position i := by
  induction order generalizing s with
  | nil => rfl
  | cons j order ih =>
    rw [List.mem_cons, not_or] at hi
    rw [placeFrom_cons, ih _ hi.2, position_put_of_ne s hi.1]

theorem placeFrom_stop (width : ℕ → ℕ) (order : List ℕ) (halign : ∀ n, n ≤ align n) (s : Places) :
    s.stop ≤ (placeFrom align width s order).stop := by
  induction order generalizing s with
  | nil => exact Nat.le_refl _
  | cons j order ih =>
    have hrest := ih (s.put align width j)
    have := halign s.stop
    rw [stop_put] at hrest
    rw [placeFrom_cons]
    omega

/-- Each item stands behind those placed before it. -/
theorem placeFrom_within (halign : ∀ n, n ≤ align n) (s : Places) (hnodup : order.Nodup) :
    (∀ i ∈ order, s.stop ≤ (placeFrom align width s order).position i ∧
        (placeFrom align width s order).position i + width i ≤
          (placeFrom align width s order).stop) ∧
      order.Pairwise fun i j => (placeFrom align width s order).position i + width i ≤
        (placeFrom align width s order).position j := by
  induction order generalizing s with
  | nil => exact ⟨nofun, List.Pairwise.nil⟩
  | cons j order ih =>
    obtain ⟨hj, hrest⟩ := List.nodup_cons.mp hnodup
    obtain ⟨hwithin, hpairs⟩ := ih (s.put align width j) hrest
    have hstop := placeFrom_stop width order halign (s.put align width j)
    have hpos : (placeFrom align width s (j::order)).position j = align s.stop := by
      rw [placeFrom_cons, placeFrom_other _ hj, position_put]
    have hs := halign s.stop
    rw [stop_put] at hwithin hstop
    refine ⟨fun i hi => ?_, List.pairwise_cons.mpr ⟨fun i hi => ?_, hpairs⟩⟩
    · rcases List.mem_cons.mp hi with rfl | hi
      · rw [hpos]
        exact ⟨hs, hstop⟩
      · obtain ⟨hle, hend⟩ := hwithin i hi
        exact ⟨by rw [placeFrom_cons]; omega, hend⟩
    · rw [hpos]
      exact (hwithin i hi).1

theorem place_within (halign : ∀ n, n ≤ align n) (hnodup : order.Nodup) {i : ℕ} (hi : i ∈ order) :
    (place align width order).position i + width i ≤ (place align width order).stop :=
  ((placeFrom_within halign ⟨0, fun _ => 0⟩ hnodup).1 i hi).2

theorem place_pairwise (halign : ∀ n, n ≤ align n) (hnodup : order.Nodup) :
    order.Pairwise fun i j => (place align width order).position i + width i ≤
      (place align width order).position j :=
  (placeFrom_within halign ⟨0, fun _ => 0⟩ hnodup).2

theorem place_head {i : ℕ} (hnodup : (i::order).Nodup) :
    (place align width (i::order)).position i = align 0 := by
  change (placeFrom align width ⟨0, fun _ => 0⟩ (i::order)).position i = align 0
  rw [placeFrom_cons, placeFrom_other _ (List.nodup_cons.mp hnodup).1, position_put]

theorem place_stop (order : List ℕ) : (place id width order).stop = (order.map width).sum := by
  suffices ∀ s : Places, (placeFrom id width s order).stop = s.stop + (order.map width).sum from
    (this _).trans (Nat.zero_add _)
  intro s
  induction order generalizing s with
  | nil => rfl
  | cons j order ih =>
    rw [placeFrom_cons, ih, stop_put, List.map_cons, List.sum_cons, id, Nat.add_assoc]

/-- Aligned items take no more than their aligned sizes. -/
theorem place_stop_le {k : ℕ} (hk : 0 < k) (order : List ℕ) :
    (place (alignUp · k) width order).stop ≤
      (order.map fun i => alignUp (width i) k).sum := by
  suffices ∀ s : Places, alignUp (placeFrom (alignUp · k) width s order).stop k ≤
      alignUp s.stop k + (order.map fun i => alignUp (width i) k).sum by
    refine (le_alignUp _ hk).trans ((this _).trans ?_)
    rw [alignUp, Nat.zero_add, Nat.div_eq_of_lt (by omega), Nat.zero_mul, Nat.zero_add]
  intro s
  induction order generalizing s with
  | nil => exact Nat.le_refl _
  | cons j order ih =>
    rw [placeFrom_cons, List.map_cons, List.sum_cons, ← Nat.add_assoc]
    refine (ih _).trans (Nat.add_le_add_right ?_ _)
    rw [stop_put, alignUp_add _ _ hk (alignUp_mod _ _)]

end Place

/-! ### Links -/

/-- The step of the loop: `i` goes in front of the children of `p`. -/
def Links.push (links : Links) (p i : ℕ) : Links :=
  { first := Function.update links.first p (some i)
    sibling := Function.update links.sibling i (links.first p) }

@[simp] theorem first_push (links : Links) (p i : ℕ) : (links.push p i).first p = some i :=
  Function.update_self ..

theorem first_push_of_ne (links : Links) {p q i : ℕ} (h : q ≠ p) :
    (links.push p i).first q = links.first q := Function.update_of_ne h ..

@[simp] theorem sibling_push (links : Links) (p i : ℕ) :
    (links.push p i).sibling i = links.first p := Function.update_self ..

theorem sibling_push_of_ne (links : Links) {p i j : ℕ} (h : j ≠ i) :
    (links.push p i).sibling j = links.sibling j := Function.update_of_ne h ..

theorem link_cons {parent : ℕ → Option ℕ} {parents i p : ℕ} {order : List ℕ} {links : Links}
    (h : link parent parents order = some links) (hp : parent i = some p) (hlt : p < parents) :
    link parent parents (i::order) = some (links.push p i) := by
  rw [link] at h
  rw [link, List.reverse_cons, List.foldlM_append, h]
  simp only [List.foldlM_cons, List.foldlM_nil, bind_pure, hp, Option.bind_eq_bind,
    Option.bind_some, if_pos hlt]
  rfl

/-- The children of each parent are chained in the order in which they were given. -/
theorem link_chain {parent : ℕ → Option ℕ} {parents : ℕ} {order : List ℕ} (hnodup : order.Nodup)
    (hparent : ∀ i ∈ order, ∃ p, parent i = some p ∧ p < parents) :
    ∃ links, link parent parents order = some links ∧
      ∀ p, Chain links.sibling (links.first p) (order.filter (parent · = some p)) := by
  induction order with
  | nil => exact ⟨_, rfl, fun p => rfl⟩
  | cons i order ih =>
    obtain ⟨hi, hrest⟩ := List.nodup_cons.mp hnodup
    obtain ⟨links, hlinks, hchain⟩ := ih hrest fun j hj => hparent j (List.mem_cons_of_mem _ hj)
    obtain ⟨q, hq, hlt⟩ := hparent i List.mem_cons_self
    refine ⟨_, link_cons hlinks hq hlt, fun p => ?_⟩
    have hother : ∀ j ∈ order.filter (parent · = some p),
        (links.push q i).sibling j = links.sibling j := by
      intro j hj
      refine sibling_push_of_ne links fun h => hi ?_
      exact h ▸ List.mem_of_mem_filter hj
    by_cases hp : p = q
    · subst hp
      rw [List.filter_cons_of_pos (by simp [hq]), first_push]
      exact chain_push (hchain p) hother (sibling_push ..)
    · rw [List.filter_cons_of_neg (by simp [hq, Ne.symm hp]), first_push_of_ne links hp]
      exact chain_congr (hchain p) hother

/-! ### Entries -/

/-- One entry: the bucket leads to it, it keeps what the bucket held, and what overlaps neither
stays. -/
theorem writeEntry_spec {hashTable count v n : ℕ} (table hash offset : ℕ)
    {entry : ℕ → List UInt8} (name : Name) {metadata : List UInt8}
    (hv : Holds metadata (hashTable + hash % count * 4) (le 4 v)) (hlt : v < 2 ^ 32)
    (hentry : ∀ v, (entry v).length = n)
    (hbucket : hashTable + hash % count * 4 + 4 ≤ table + offset)
    (hend : table + offset + (n + alignUp name.length 4) ≤ metadata.length) :
    ∃ metadata', writeEntry hashTable count table hash offset entry name metadata =
        some metadata' ∧ metadata'.length = metadata.length ∧
      Holds metadata' (hashTable + hash % count * 4) (le 4 offset) ∧
      Holds metadata' (table + offset) (entry v ++ name) ∧
      ∀ pos piece, Holds metadata pos piece →
        pos + piece.length ≤ hashTable + hash % count * 4 ∨
          hashTable + hash % count * 4 + 4 ≤ pos →
        pos + piece.length ≤ table + offset ∨
          table + offset + (n + alignUp name.length 4) ≤ pos →
        Holds metadata' pos piece := by
  have hname := le_alignUp name.length (show 0 < 4 by decide)
  have hread : readLe 4 metadata (hashTable + hash % count * 4) = some v :=
    readLe_of_holds hv (by norm_num at hlt ⊢; exact hlt) (by omega)
  obtain ⟨m₁, h₁⟩ := write_eq_some metadata (hashTable + hash % count * 4)
    (le 4 offset) (by rw [length_le]; omega)
  have hlen₁ := length_write h₁
  obtain ⟨m₂, h₂⟩ := write_eq_some m₁ (table + offset) (entry v) (by rw [hentry]; omega)
  have hlen₂ := length_write h₂
  obtain ⟨m₃, h₃⟩ := write_eq_some m₂ (table + offset + n)
    (List.replicate (alignUp name.length 4) (0 : UInt8))
    (by rw [List.length_replicate]; omega)
  have hlen₃ := length_write h₃
  obtain ⟨m₄, h₄⟩ := write_eq_some m₃ (table + offset + n) name (by omega)
  have hlen₄ := length_write h₄
  have hzeros := List.length_replicate (n := alignUp name.length 4) (a := (0 : UInt8))
  have hkept : ∀ pos piece, Holds metadata pos piece →
      pos + piece.length ≤ hashTable + hash % count * 4 ∨
        hashTable + hash % count * 4 + 4 ≤ pos →
      pos + piece.length ≤ table + offset ∨
        table + offset + (n + alignUp name.length 4) ≤ pos →
      Holds m₄ pos piece := by
    intro pos piece hold hapart hout
    have hold₁ := hold.write h₁ (by rw [length_le]; exact hapart)
    have hold₂ := hold₁.write h₂ (by rw [hentry]; omega)
    exact (hold₂.write h₃ (by rw [hzeros]; omega)).write h₄ (by omega)
  refine ⟨m₄, ?_, by omega, ?_, holds_append.mpr ⟨?_, ?_⟩, hkept⟩
  · rw [writeEntry, hread]
    simp only [Option.bind_eq_bind, Option.bind_some, h₁, h₂, hentry, h₃, h₄]
  · -- the three later writes are behind the bucket
    have hold₂ := (holds_write h₁).write h₂ (by rw [length_le]; omega)
    have hold₃ := hold₂.write h₃ (by rw [length_le]; omega)
    exact hold₃.write h₄ (by rw [length_le]; omega)
  · have hold₃ := (holds_write h₂).write h₃ (by rw [hentry]; omega)
    exact hold₃.write h₄ (by rw [hentry]; omega)
  · rw [hentry]
    exact holds_write h₄

/-- A table of entries and its hash buckets, with what the entries say. -/
structure EntryTable where
  hashTable : ℕ
  count : ℕ
  table : ℕ
  size : ℕ
  entrySize : ℕ
  hash : ℕ → ℕ
  position : ℕ → ℕ
  entry : ℕ → ℕ → List UInt8
  name : ℕ → Name

namespace EntryTable

variable (t : EntryTable)

def bucketOf (i : ℕ) : ℕ := t.hash i % t.count

def width (i : ℕ) : ℕ := t.entrySize + alignUp (t.name i).length 4

def writeOne (i : ℕ) (metadata : List UInt8) : Option (List UInt8) :=
  writeEntry t.hashTable t.count t.table (t.hash i) (t.position i) (t.entry i) (t.name i) metadata

/-- The entries of an order fit behind the buckets, one apart from the other. -/
structure Fits (order : List ℕ) (length : ℕ) : Prop where
  count_pos : 0 < t.count
  buckets : t.hashTable + t.count * 4 ≤ t.table
  stop : t.table + t.size ≤ length
  small : t.size < 2 ^ 32
  entry_length : ∀ i v, (t.entry i v).length = t.entrySize
  within : ∀ i ∈ order, t.position i + t.width i ≤ t.size
  apart : order.Pairwise fun i j => t.position i + t.width i ≤ t.position j
  entry_pos : 0 < t.entrySize

/-- From one offset to the next along what the entries keep. -/
def Leads (old : ℕ → ℕ) (done : List ℕ) (x y : ℕ) : Prop :=
  ∃ i ∈ done, t.position i = x ∧ old i = y

/-- The buckets lead to the entries that are written. -/
structure Filled (bucket old : ℕ → ℕ) (done : List ℕ) (metadata : List UInt8) : Prop where
  bucket_lt : ∀ k < t.count, bucket k < 2 ^ 32
  old_lt : ∀ i ∈ done, old i < 2 ^ 32
  buckets : ∀ k < t.count, Holds metadata (t.hashTable + k * 4) (le 4 (bucket k))
  entries : ∀ i ∈ done,
    Holds metadata (t.table + t.position i) (t.entry i (old i) ++ t.name i)
  reaches : ∀ i ∈ done,
    Relation.ReflTransGen (t.Leads old done) (bucket (t.bucketOf i)) (t.position i)

variable {t} {bucket old : ℕ → ℕ} {done order : List ℕ} {metadata : List UInt8} {i : ℕ}

theorem Fits.of_sublist {order' : List ℕ} {length : ℕ} (h : t.Fits order length)
    (hsub : order'.Sublist order) : t.Fits order' length where
  count_pos := h.count_pos
  buckets := h.buckets
  stop := h.stop
  small := h.small
  entry_length := h.entry_length
  within i hi := h.within i (hsub.subset hi)
  apart := h.apart.sublist hsub
  entry_pos := h.entry_pos

/-- What an entry takes of the table. -/
theorem Fits.entry_le (h : t.Fits order metadata.length) (v : ℕ) :
    (t.entry i v ++ t.name i).length ≤ t.width i := by
  have := le_alignUp (t.name i).length (show 0 < 4 by decide)
  rw [List.length_append, h.entry_length, width]
  omega

theorem Leads.mono {old' : ℕ → ℕ} {x y : ℕ} (h : t.Leads old done x y) (hi : i ∉ done)
    (hold : ∀ j, j ≠ i → old' j = old j) : t.Leads old' (done ++ [i]) x y := by
  obtain ⟨j, hj, hx, hy⟩ := h
  have hne : j ≠ i := fun heq => hi (heq ▸ hj)
  exact ⟨j, List.mem_append_left _ hj, hx, (hold j hne).trans hy⟩

/-- An entry at the front of its bucket is reached, and so is what the bucket led to. -/
theorem Filled.reaches_push (h : t.Filled bucket old done metadata) (hi : i ∉ done) {j : ℕ}
    (hj : j ∈ done ++ [i]) :
    Relation.ReflTransGen
      (t.Leads (Function.update old i (bucket (t.bucketOf i))) (done ++ [i]))
      (Function.update bucket (t.bucketOf i) (t.position i) (t.bucketOf j)) (t.position j) := by
  have hfirst : t.Leads (Function.update old i (bucket (t.bucketOf i))) (done ++ [i])
      (t.position i) (bucket (t.bucketOf i)) :=
    ⟨i, by simp, rfl, Function.update_self ..⟩
  rcases List.mem_append.mp hj with hj | hj
  · have hrest : Relation.ReflTransGen
        (t.Leads (Function.update old i (bucket (t.bucketOf i))) (done ++ [i]))
        (bucket (t.bucketOf j)) (t.position j) :=
      Relation.ReflTransGen.mono
        (fun _ _ hlead => Leads.mono hlead hi fun k hk => Function.update_of_ne hk ..) _ _
        (h.reaches j hj)
    by_cases hsame : t.bucketOf j = t.bucketOf i
    · rw [hsame, Function.update_self]
      rw [hsame] at hrest
      exact Relation.ReflTransGen.head hfirst hrest
    · rwa [Function.update_of_ne hsame]
  · obtain rfl := List.mem_singleton.mp hj
    rw [Function.update_self]

/-- What one more entry does. -/
theorem Filled.writeOne (h : t.Filled bucket old done metadata)
    (hfits : t.Fits (done ++ [i]) metadata.length) :
    ∃ metadata', t.writeOne i metadata = some metadata' ∧ metadata'.length = metadata.length ∧
      t.Filled (Function.update bucket (t.bucketOf i) (t.position i))
        (Function.update old i (bucket (t.bucketOf i))) (done ++ [i]) metadata' ∧
      ∀ pos piece, Holds metadata pos piece →
        pos + piece.length ≤ t.hashTable ∨ t.table + t.size ≤ pos → Holds metadata' pos piece := by
  have hwithin := hfits.within i (by simp)
  have hbuckets := hfits.buckets
  have hstop := hfits.stop
  have hk : t.bucketOf i < t.count := Nat.mod_lt _ hfits.count_pos
  have hpos : t.position i < 2 ^ 32 := by
    have := hfits.small
    omega
  have hapart : ∀ j ∈ done, t.position j + t.width j ≤ t.position i := fun j hj =>
    (List.pairwise_append.mp hfits.apart).2.2 j hj i (by simp)
  have hi : i ∉ done := by
    intro hmem
    have := hapart i hmem
    have hentry := hfits.entry_pos
    rw [width] at this
    omega
  obtain ⟨metadata', hwrite, hlen, hbucket, hentry, hframe⟩ :=
    writeEntry_spec t.table (t.hash i) (t.position i) (t.name i) (h.buckets _ hk)
      (h.bucket_lt _ hk) (hfits.entry_length i)
      (by rw [← bucketOf]; omega) (by rw [← width]; omega)
  rw [← bucketOf] at hbucket hframe
  rw [← width] at hframe
  refine ⟨metadata', hwrite, hlen, ⟨?_, ?_, ?_, ?_, fun j hj => h.reaches_push hi hj⟩, ?_⟩
  · intro k hlt
    rcases eq_or_ne k (t.bucketOf i) with rfl | hne
    · rwa [Function.update_self]
    · rw [Function.update_of_ne hne]
      exact h.bucket_lt k hlt
  · intro j hj
    rcases List.mem_append.mp hj with hj | hj
    · rw [Function.update_of_ne (ne_of_mem_of_not_mem hj hi)]
      exact h.old_lt j hj
    · rw [List.mem_singleton.mp hj, Function.update_self]
      exact h.bucket_lt _ hk
  · intro k hlt
    rcases eq_or_ne k (t.bucketOf i) with rfl | hne
    · rwa [Function.update_self]
    · rw [Function.update_of_ne hne]
      exact hframe _ _ (h.buckets k hlt) (by rw [length_le]; omega) (by rw [length_le]; omega)
  · intro j hj
    rcases List.mem_append.mp hj with hj | hj
    · have hle := hapart j hj
      have hwidth := hfits.entry_le (i := j) (old j)
      rw [Function.update_of_ne (ne_of_mem_of_not_mem hj hi)]
      exact hframe _ _ (h.entries j hj) (by omega) (by omega)
    · rw [List.mem_singleton.mp hj, Function.update_self]
      exact hentry
  · intro pos piece hold hout
    exact hframe pos piece hold (by omega) (by omega)

/-- What the loop over the entries does. -/
theorem Filled.writeAll (h : t.Filled bucket old done metadata)
    (hfits : t.Fits (done ++ order) metadata.length) :
    ∃ metadata' bucket' old', order.foldlM (fun m i => t.writeOne i m) metadata = some metadata' ∧
      metadata'.length = metadata.length ∧ t.Filled bucket' old' (done ++ order) metadata' ∧
      ∀ pos piece, Holds metadata pos piece →
        pos + piece.length ≤ t.hashTable ∨ t.table + t.size ≤ pos → Holds metadata' pos piece := by
  induction order generalizing done metadata bucket old with
  | nil =>
    rw [List.append_nil] at hfits ⊢
    exact ⟨metadata, bucket, old, rfl, rfl, h, fun _ _ hold _ => hold⟩
  | cons i order ih =>
    rw [List.append_cons] at hfits ⊢
    obtain ⟨m, hwrite, hlen, hfilled, hframe⟩ := h.writeOne
      (hfits.of_sublist (List.sublist_append_left _ _))
    rw [← hlen] at hfits
    obtain ⟨metadata', bucket', old', hrest, hlen', hfilled', hframe'⟩ := ih hfilled hfits
    refine ⟨metadata', bucket', old', ?_, hlen'.trans hlen, hfilled',
      fun pos piece hold hout => ?_⟩
    · rw [List.foldlM_cons, hwrite]
      exact hrest
    · exact hframe' pos piece (hframe pos piece hold hout) hout

end EntryTable

end Ruzu.FileSys
