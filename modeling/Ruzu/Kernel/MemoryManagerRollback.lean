import Ruzu.Kernel.MemoryManagerGroups

/-!
# Failing group allocations

The walk of a pool never panics and leaves a group that joins what it was
handed. On an error the rollback gives back, for each entry, the part that lies
in the manager of its first page: everything, when no join crosses a seam.
-/

set_option autoImplicit false

namespace Ruzu.MemoryManager
open Ruzu.MemoryBlock (pageSize)
open Ruzu.PageHeap Ruzu.PageGroup Finset KMemoryManager
open Impl (Same)

/-- The pages of the blocks `l`. -/
def taken (l : List Handed) : Finset ℕ := l.toFinset.biUnion Handed.pages

theorem mem_taken {l : List Handed} {p : ℕ} : p ∈ taken l ↔ ∃ b ∈ l, p ∈ b.pages := by
  simp [taken]

theorem taken_snoc (l : List Handed) (b : Handed) : taken (l ++ [b]) = taken l ∪ b.pages := by
  ext p
  rw [mem_union, mem_taken, mem_taken]
  simp only [List.mem_append, List.mem_singleton, or_and_right, exists_or, exists_eq_left]

theorem handedPages_snoc (l : List Handed) (b : Handed) :
    handedPages (l ++ [b]) = handedPages l+b.numPages := by
  simp [handedPages]

variable {ms₀ ms : List Impl} {G : Finset ℕ} {random : Bool} {n : ℕ}

/-- The managers and the group in the middle of a walk from `ms₀`. -/
structure Taking (ms₀ : List Impl) (G : Finset ℕ) (ms : List Impl)
    (s : KPageGroup × List Handed) : Prop where
  same : SameAll ms₀ ms
  managed : Managed ms (G \ taken s.2)
  fair : ∀ b ∈ s.2, Fair ms₀ G b
  grouped : Grouped ms₀ s.1.blocks s.2

/-- A walk for `n` pages that stopped well. -/
def Taken (ms₀ : List Impl) (G : Finset ℕ) (n : ℕ) : Walk (KPageGroup × List Handed) → Prop
  | .going ms s remaining => Taking ms₀ G ms s ∧ handedPages s.2+remaining = n
  | .full ms s => Taking ms₀ G ms s ∧ handedPages s.2 < n

variable (random) in
theorem takeBlocks_taken (hM : Managed ms₀ G) {index idx : ℕ} (hindex : index < 7)
    (hidx : idx < ms₀.length) (fuel : ℕ) :
    ∀ (ms : List Impl) (s : KPageGroup × List Handed) (remaining : ℕ), Taking ms₀ G ms s →
      handedPages s.2+remaining = n →
      ∃ w, takeBlocks record random index idx fuel ms s remaining = some w ∧ Taken ms₀ G n w := by
  induction fuel with
  | zero =>
    intro ms s remaining ht hn
    exact ⟨_, rfl, ht, hn⟩
  | succ fuel ih =>
    intro ms s remaining ht hn
    rw [takeBlocks]
    dsimp only
    by_cases hle : KPageHeap.getBlockNumPages index ≤ remaining
    · rw [if_pos hle]
      obtain ⟨m, hm, hsm⟩ := ht.same.get (List.getElem?_eq_getElem hidx)
      obtain ⟨r, k, hk, hg⟩ := allocateBlock_granted (ht.managed.free idx m hm) hindex random
      obtain ⟨hsk, hres⟩ := ht.managed.granted hm hg
      simp only [bind, hm, Option.bind_some, hk]
      rcases hres with ⟨hr, hman⟩ | ⟨p, hr, hr0, hpm, hpG, hman⟩
      · rw [if_pos hr]
        exact ⟨_, rfl, ⟨ht.same.set hm hsk, hman, ht.fair, ht.grouped⟩, hn⟩
      · rw [if_neg hr0]
        have hfirst : Handed.first ⟨idx, r, KPageHeap.getBlockNumPages index⟩ = p := by
          rw [Handed.first, hr, Nat.mul_div_cancel _ (by decide)]
        have hpages : Handed.pages ⟨idx, r, KPageHeap.getBlockNumPages index⟩ =
            Ico p (p+width index) := by
          rw [Handed.pages, hfirst]
          rfl
        cases hadd : s.1.addBlock r (KPageHeap.getBlockNumPages index) with
        | none =>
          have hback := hman.freePages (getElem?_set_self hm) p (width index)
            (by rw [hsk.pages]; exact hpm) disjoint_sdiff_self_left
          obtain ⟨m', hm', hsm', hman'⟩ := hback
          have hrec : record idx r (KPageHeap.getBlockNumPages index) s = none := by
            rw [record, addToGroup, hadd]
            rfl
          rw [hr] at hrec ⊢
          simp only [hrec]
          change ∃ w, (Impl.free _ (p*pageSize) (width index)).bind _ = _ ∧ _
          rw [hm', Option.bind_some]
          rw [List.set_set, sdiff_union_of_subset hpG] at hman'
          have hw := width_pos index hindex
          have hle' : width index ≤ remaining := hle
          refine ⟨_, rfl, ⟨ht.same.set hm (hsk.trans hsm'), hman', ht.fair, ht.grouped⟩, ?_⟩
          omega
        | some g =>
          have hrec : record idx r (KPageHeap.getBlockNumPages index) s =
              some (g, s.2 ++ [⟨idx, r, KPageHeap.getBlockNumPages index⟩]) := by
            rw [record, addToGroup, hadd]
            rfl
          simp only [hrec]
          have hfair : Fair ms₀ G ⟨idx, r, KPageHeap.getBlockNumPages index⟩ := by
            constructor
            · rw [hfirst]
              exact hr
            · exact width_pos index hindex
            · refine ⟨_, List.getElem?_eq_getElem hidx, ?_⟩
              rw [hpages, ← hsm.pages]
              exact hpm
            · rw [hpages]
              exact hpG.trans sdiff_subset
          have hnew : ∀ c ∈ s.2, Disjoint c.pages
              (Handed.pages ⟨idx, r, KPageHeap.getBlockNumPages index⟩) := by
            intro c hc
            rw [hpages, disjoint_left]
            intro q hqc hqp
            exact (mem_sdiff.mp (hpG hqp)).2 (mem_taken.2 ⟨c, hc, hqc⟩)
          apply ih
          · constructor
            · exact ht.same.set hm hsk
            · rw [taken_snoc, hpages]
              rwa [sdiff_sdiff_left] at hman
            · intro b hb
              rcases List.mem_append.mp hb with hb | hb
              · exact ht.fair b hb
              · rw [List.mem_singleton] at hb
                rw [hb]
                exact hfair
            · exact ht.grouped.add hM hfair ht.fair hnew hadd
          · rw [handedPages_snoc]
            dsimp only
            omega
    · rw [if_neg hle]
      exact ⟨_, rfl, ht, hn⟩

theorem link_eq (h : SameAll ms₀ ms) {i : ℕ} {m : Impl} (hm : ms[i]? = some m)
    (dir : Direction) : link ms₀ dir i = nextManager m dir := by
  obtain ⟨m₀, hm₀, hs⟩ := h.get' hm
  rw [link, hm₀, Option.bind_some, hs.next]

variable (random) in
theorem walkManagers_taken (hM : Managed ms₀ G) {index : ℕ} {dir : Direction}
    (hindex : index < 7) (is : List ℕ) :
    ∀ (fuel : ℕ) (cur : Option ℕ) (ms : List Impl) (s : KPageGroup × List Handed) (remaining : ℕ),
      Linked.Chain (link ms₀ dir) cur is → (∀ i ∈ is, i < ms₀.length) → is.length ≤ fuel →
      Taking ms₀ G ms s → handedPages s.2+remaining = n →
      ∃ w, walkManagers record random dir index fuel cur ms s remaining = some w ∧
        Taken ms₀ G n w := by
  induction is with
  | nil =>
    intro fuel cur ms s remaining hc _ _ ht hn
    have hcur : cur = none := hc
    subst hcur
    refine ⟨.going ms s remaining, ?_, ht, hn⟩
    cases fuel with
    | zero => rfl
    | succ fuel => rfl
  | cons i is ih =>
    intro fuel cur ms s remaining hc hi hfuel ht hn
    obtain ⟨rfl, hrest⟩ := hc
    obtain ⟨f, rfl⟩ : ∃ f, fuel = f+1 := by
      cases fuel with
      | zero => simp at hfuel
      | succ f => exact ⟨f, rfl⟩
    obtain ⟨w, hw, htaken⟩ := takeBlocks_taken random hM hindex (hi i (by simp)) remaining ms s
      remaining ht hn
    rw [walkManagers, hw]
    cases w with
    | full ms' s' => exact ⟨_, rfl, htaken⟩
    | going ms' s' remaining' =>
      obtain ⟨ht', hn'⟩ := htaken
      obtain ⟨m, hm, hsm⟩ := ht'.same.get (List.getElem?_eq_getElem (hi i (by simp)))
      simp only [bind, Option.bind_some, hm]
      apply ih
      · rw [← link_eq ht'.same hm dir]
        exact hrest
      · intro j hj
        exact hi j (by simp [hj])
      · simpa using hfuel
      · exact ht'
      · exact hn'

variable (random) in
theorem walkSizes_taken (hM : Managed ms₀ G) {dir : Direction} {poolFirst : Option ℕ}
    {is : List ℕ} (hc : Linked.Chain (link ms₀ dir) poolFirst is)
    (hi : ∀ i ∈ is, i < ms₀.length) (index : ℕ) (hindex : index ≤ 7) :
    ∀ (ms : List Impl) (s : KPageGroup × List Handed) (remaining : ℕ), Taking ms₀ G ms s →
      handedPages s.2+remaining = n →
      ∃ w, walkSizes record random dir poolFirst index ms s remaining = some w ∧
        Taken ms₀ G n w := by
  induction index with
  | zero =>
    intro ms s remaining ht hn
    exact ⟨_, rfl, ht, hn⟩
  | succ index ih =>
    intro ms s remaining ht hn
    rw [walkSizes]
    by_cases h0 : remaining = 0
    · rw [if_pos h0]
      exact ⟨_, rfl, ht, hn⟩
    · rw [if_neg h0]
      have hlen : is.length ≤ ms.length := by
        rw [ht.same.length]
        exact chain_length hc hi
      obtain ⟨w, hw, htaken⟩ := walkManagers_taken random hM hindex is ms.length
        poolFirst ms s remaining hc hi hlen ht hn
      rw [hw]
      cases w with
      | full ms' s' => exact ⟨_, rfl, htaken⟩
      | going ms' s' remaining' => exact ih (by omega) ms' s' remaining' htaken.1 htaken.2

/-- A walk with its groups mapped. -/
def Walk.map {γ δ : Type} (f : γ → δ) : Walk γ → Walk δ
  | .going ms g remaining => .going ms (f g) remaining
  | .full ms g => .full ms (f g)

section Simulation

variable {γ δ : Type} {add : ℕ → ℕ → ℕ → γ → Option γ} {add' : ℕ → ℕ → ℕ → δ → Option δ}
  {f : γ → δ}

theorem takeBlocks_map (hadd : ∀ i a p g, add' i a p (f g) = (add i a p g).map f)
    (index idx fuel : ℕ) : ∀ (ms : List Impl) (g : γ) (remaining : ℕ),
    takeBlocks add' random index idx fuel ms (f g) remaining =
      (takeBlocks add random index idx fuel ms g remaining).map (Walk.map f) := by
  induction fuel with
  | zero =>
    intro ms g remaining
    rfl
  | succ fuel ih =>
    intro ms g remaining
    rw [takeBlocks, takeBlocks]
    dsimp only
    by_cases hle : KPageHeap.getBlockNumPages index ≤ remaining
    · rw [if_pos hle, if_pos hle]
      cases hm : ms[idx]? with
      | none => rfl
      | some m =>
        simp only [bind, Option.bind_some]
        cases hk : m.heap.allocateBlock index random with
        | none => rfl
        | some rk =>
          simp only [Option.bind_some]
          by_cases hr : rk.1 = 0
          · rw [if_pos hr, if_pos hr]
            rfl
          · rw [if_neg hr, if_neg hr, hadd]
            cases hg : add idx rk.1 (KPageHeap.getBlockNumPages index) g with
            | none =>
              simp only [Option.map_none]
              cases Impl.free { m with heap := rk.2 } rk.1
                  (KPageHeap.getBlockNumPages index) with
              | none => rfl
              | some m' => rfl
            | some g' => exact ih _ g' _
    · rw [if_neg hle, if_neg hle]
      rfl

theorem walkManagers_map (hadd : ∀ i a p g, add' i a p (f g) = (add i a p g).map f)
    (dir : Direction) (index fuel : ℕ) :
    ∀ (cur : Option ℕ) (ms : List Impl) (g : γ) (remaining : ℕ),
    walkManagers add' random dir index fuel cur ms (f g) remaining =
      (walkManagers add random dir index fuel cur ms g remaining).map (Walk.map f) := by
  induction fuel with
  | zero =>
    intro cur ms g remaining
    cases cur with
    | none => rfl
    | some i => rfl
  | succ fuel ih =>
    intro cur ms g remaining
    cases cur with
    | none => rfl
    | some i =>
      rw [walkManagers, walkManagers, takeBlocks_map hadd]
      cases takeBlocks add random index i remaining ms g remaining with
      | none => rfl
      | some w =>
        cases w with
        | full ms' g' => rfl
        | going ms' g' remaining' =>
          simp only [bind, Option.map_some, Option.bind_some, Walk.map]
          cases ms'[i]? with
          | none => rfl
          | some m => exact ih _ ms' g' remaining'

theorem walkSizes_map (hadd : ∀ i a p g, add' i a p (f g) = (add i a p g).map f)
    (dir : Direction) (poolFirst : Option ℕ) (index : ℕ) :
    ∀ (ms : List Impl) (g : γ) (remaining : ℕ),
    walkSizes add' random dir poolFirst index ms (f g) remaining =
      (walkSizes add random dir poolFirst index ms g remaining).map (Walk.map f) := by
  induction index with
  | zero =>
    intro ms g remaining
    rfl
  | succ index ih =>
    intro ms g remaining
    rw [walkSizes, walkSizes]
    by_cases h0 : remaining = 0
    · rw [if_pos h0, if_pos h0]
      rfl
    · rw [if_neg h0, if_neg h0, walkManagers_map hadd]
      cases walkManagers add random dir index ms.length poolFirst ms g remaining with
      | none => rfl
      | some w =>
        cases w with
        | full ms' g' => rfl
        | going ms' g' remaining' => exact ih ms' g' remaining'

end Simulation

theorem record_fst (i a p : ℕ) (s : KPageGroup × List Handed) :
    addToGroup i a p s.1 = (record i a p s).map Prod.fst := by
  rw [record, Option.map_map]
  cases addToGroup i a p s.1 with
  | none => rfl
  | some g => rfl

/-- What the rollback of an entry gives back. -/
def InFirst (ms : List Impl) (e : KBlockInfo) (p : ℕ) : Prop :=
  p ∈ entryPages e ∧ ∃ (i : ℕ) (m : Impl), ms[i]? = some m ∧ e.pageIndex ∈ m.pages ∧ p ∈ m.pages

theorem SameAll.inFirst {ms' : List Impl} (h : SameAll ms ms') (e : KBlockInfo) (p : ℕ) :
    InFirst ms' e p ↔ InFirst ms e p := by
  apply and_congr_right
  intro _
  constructor
  · rintro ⟨i, m', hm', he, hp⟩
    obtain ⟨m, hm, hs⟩ := h.get' hm'
    exact ⟨i, m, hm, by rwa [← hs.pages], by rwa [← hs.pages]⟩
  · rintro ⟨i, m, hm, he, hp⟩
    obtain ⟨m', hm', hs⟩ := h.get hm
    exact ⟨i, m', hm', by rwa [hs.pages], by rwa [hs.pages]⟩

theorem freePageGroupBlocks_managed (es : List KBlockInfo) :
    ∀ (ms : List Impl) (H : Finset ℕ), Managed ms H →
      es.Pairwise (fun e e' => Disjoint (entryPages e) (entryPages e')) →
      (∀ e ∈ es, Disjoint H (entryPages e)) →
      (∀ e ∈ es, 0 < e.numPages ∧ ∃ (i : ℕ) (m : Impl), ms[i]? = some m ∧ e.pageIndex ∈ m.pages) →
      ∃ ms' H', freePageGroupBlocks es ms = some ms' ∧ SameAll ms ms' ∧ Managed ms' H' ∧
        ∀ p, p ∈ H' ↔ p ∈ H ∨ ∃ e ∈ es, InFirst ms e p := by
  induction es with
  | nil =>
    intro ms H hM _ _ _
    exact ⟨ms, H, rfl, SameAll.refl ms, hM, by simp⟩
  | cons e es ih =>
    intro ms H hM hapart hdis hstarts
    obtain ⟨he0, i, m, hm, hei⟩ := hstarts e (by simp)
    obtain ⟨_, hend⟩ := hM.pageOffset hm hei
    have hmem : ∀ p, p ∈ Ico e.pageIndex (e.pageIndex+min e.numPages (m.stop - e.pageIndex)) ↔
        InFirst ms e p := by
      intro p
      have hei' := hei
      rw [Impl.pages, mem_Ico] at hei'
      constructor
      · intro hp
        rw [mem_Ico] at hp
        refine ⟨mem_entryPages.mpr (by omega), i, m, hm, hei, ?_⟩
        rw [Impl.pages, mem_Ico]
        omega
      · rintro ⟨hp, j, x, hx, hex, hpx⟩
        have hji := hM.index_eq hx hm hex hei
        subst hji
        rw [hm] at hx
        cases hx
        rw [mem_entryPages] at hp
        rw [Impl.pages, mem_Ico] at hpx
        rw [mem_Ico]
        omega
    have hin : Ico e.pageIndex (e.pageIndex+min e.numPages (m.stop - e.pageIndex)) ⊆ m.pages := by
      intro p hp
      rw [Impl.pages, mem_Ico] at hei ⊢
      rw [mem_Ico] at hp
      omega
    have hsub : Ico e.pageIndex (e.pageIndex+min e.numPages (m.stop - e.pageIndex)) ⊆
        entryPages e := fun p hp => ((hmem p).mp hp).1
    obtain ⟨m', hfree, hsame, hM'⟩ := hM.freePages hm e.pageIndex _ hin
      (disjoint_of_subset_right hsub (hdis e (by simp)))
    have hall := (SameAll.refl ms).set hm hsame
    rw [List.pairwise_cons] at hapart
    obtain ⟨ms', H', hrest, hs, hH', hmemH⟩ := ih (ms.set i m') _ hM' hapart.2
      (by
        intro e' he'
        rw [disjoint_union_left]
        exact ⟨hdis e' (by simp [he']), disjoint_of_subset_left hsub (hapart.1 e' he')⟩)
      (by
        intro e' he'
        obtain ⟨h0, j, x, hx, hex⟩ := hstarts e' (by simp [he'])
        obtain ⟨x', hx', hsx⟩ := hall.get hx
        exact ⟨h0, j, x', hx', by rwa [hsx.pages]⟩)
    refine ⟨ms', H', ?_, hall.trans hs, hH', ?_⟩
    · rw [freePageGroupBlocks, KBlockInfo.getAddress, hM.findManagerIndex hm hei]
      simp only [bind, Option.bind_some, hm, hend, hfree]
      exact hrest
    · intro p
      rw [hmemH, mem_union, hmem, or_assoc]
      simp only [hall.inFirst, List.mem_cons, or_and_right, exists_or, exists_eq_left]

/-- The rollback restores the free pages exactly when no entry crosses a seam. -/
theorem rollback_restores {s : KPageGroup × List Handed} (hM : Managed ms₀ G)
    (ht : Taking ms₀ G ms s) :
    ∃ ms' G', freePageGroupBlocks s.1.blocks ms = some ms' ∧ SameAll ms₀ ms' ∧ Managed ms' G' ∧
      G' ⊆ G ∧ (G' = G ↔ Seamless s.2) := by
  have hunion := ht.grouped.union
  have hstarts := ht.grouped.starts
  have hsubG : ∀ p, p ∈ taken s.2 → p ∈ G := by
    intro p hp
    obtain ⟨b, hb, hpb⟩ := mem_taken.1 hp
    exact (ht.fair b hb).free hpb
  have hentry : ∀ e ∈ s.1.blocks, ∀ p ∈ entryPages e, p ∈ taken s.2 := by
    intro e he p hp
    rw [mem_taken, ← hunion]
    exact ⟨e, he, hp⟩
  obtain ⟨ms', G', hfree, hs, hM', hmem⟩ := freePageGroupBlocks_managed s.1.blocks ms _ ht.managed
    ht.grouped.apart
    (by
      intro e he
      rw [disjoint_right]
      intro p hp hpG
      exact (mem_sdiff.mp hpG).2 (hentry e he p hp))
    (by
      intro e he
      obtain ⟨h0, i, m, hm, hem⟩ := hstarts e he
      obtain ⟨m', hm', hsm⟩ := ht.same.get hm
      exact ⟨h0, i, m', hm', by rwa [hsm.pages]⟩)
  have hle : G' ⊆ G := by
    intro p hp
    rcases (hmem p).mp hp with hp | ⟨e, he, hp⟩
    · exact (mem_sdiff.mp hp).1
    · exact hsubG p (hentry e he p hp.1)
  refine ⟨ms', G', hfree, ht.same.trans hs, hM', hle, ?_⟩
  rw [← ht.grouped.single]
  constructor
  · intro heq e he
    obtain ⟨h0, i, m, hm, hem⟩ := hstarts e he
    refine ⟨i, m, hm, ?_⟩
    intro p hp
    have hpG : p ∈ G' := by
      rw [heq]
      exact hsubG p (hentry e he p hp)
    rcases (hmem p).mp hpG with hpn | ⟨e', he', hin⟩
    · exact absurd (hentry e he p hp) (mem_sdiff.mp hpn).2
    · -- only the entry's own rollback can have given the page back
      have hee : e' = e := by
        by_contra hne
        have hsymm : Std.Symm fun e e' : KBlockInfo => Disjoint (entryPages e) (entryPages e') :=
          ⟨fun _ _ h => h.symm⟩
        have hd := ht.grouped.apart.forall he' he hne
        exact disjoint_left.mp hd hin.1 hp
      subst hee
      rw [ht.same.inFirst] at hin
      obtain ⟨_, j, x, hx, hex, hpx⟩ := hin
      have hji := hM.index_eq hx hm hex hem
      subst hji
      rw [hm] at hx
      cases hx
      exact hpx
  · intro hsingle
    apply Finset.Subset.antisymm hle
    intro p hp
    rw [hmem]
    by_cases hpt : p ∈ taken s.2
    · right
      obtain ⟨e, he, hpe⟩ := (hunion p).mpr (mem_taken.1 hpt)
      obtain ⟨i, m, hm, hsub⟩ := hsingle e he
      refine ⟨e, he, ?_⟩
      rw [ht.same.inFirst]
      refine ⟨hpe, i, m, hm, hsub ?_, hsub hpe⟩
      rw [mem_entryPages]
      have := (hstarts e he).1
      omega
    · left
      exact mem_sdiff.mpr ⟨hp, hpt⟩

end Ruzu.MemoryManager
