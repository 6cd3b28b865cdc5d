import Mathlib

/-!
# Tilings of an interval

A list of items, each spanning `[start x, stop x)`, tiles `[a, b)` when the
spans are non-empty and follow one another without gap or overlap. A tiling
reads as a piecewise-constant function of the position. Cutting one item in
two, joining two neighbours and rewriting an item in place are the three edits.
-/

set_option autoImplicit false

namespace Ruzu.Tiling

variable {β γ : Type*} (start stop : β → ℕ)

def Tiles : ℕ → ℕ → List β → Prop
  | a, b, [] => a = b
  | a, b, x::xs => start x = a ∧ a < stop x ∧ Tiles (stop x) b xs

/-- The value the item over `p` carries. -/
def valueAt (f : β → γ) (l : List β) (p : ℕ) : Option γ :=
  (l.find? (fun x => start x ≤ p ∧ p < stop x)).map f

variable {start stop}

theorem tiles_append (a b : ℕ) (xs ys : List β) :
    Tiles start stop a b (xs++ys) ↔
      ∃ c, Tiles start stop a c xs ∧ Tiles start stop c b ys := by
  induction xs generalizing a with
  | nil => simp [Tiles]
  | cons x xs ih => simp [Tiles, ih, and_assoc]

theorem tiles_cut {a b : ℕ} {pre post : List β} {x : β}
    (h : Tiles start stop a b (pre ++ x :: post)) :
    Tiles start stop a (start x) pre ∧ start x < stop x ∧
      Tiles start stop (stop x) b post := by
  obtain ⟨c, hpre, hx, hlt, hpost⟩ := (tiles_append a b pre (x :: post)).mp h
  subst hx
  exact ⟨hpre, hlt, hpost⟩

theorem tiles_of_cut {a b : ℕ} {pre post : List β} {x : β}
    (hpre : Tiles start stop a (start x) pre) (hx : start x < stop x)
    (hpost : Tiles start stop (stop x) b post) : Tiles start stop a b (pre ++ x :: post) :=
  (tiles_append a b pre (x :: post)).mpr ⟨start x, hpre, rfl, hx, hpost⟩

theorem tiles_le {a b : ℕ} {l : List β} (h : Tiles start stop a b l) : a ≤ b := by
  induction l generalizing a with
  | nil => exact Nat.le_of_eq h
  | cons x xs ih => exact Nat.le_trans (Nat.le_of_lt h.2.1) (ih h.2.2)

theorem tiles_mem {a b : ℕ} {l : List β} {x : β} (h : Tiles start stop a b l) (hx : x ∈ l) :
    a ≤ start x ∧ start x < stop x ∧ stop x ≤ b := by
  obtain ⟨pre, post, rfl⟩ := List.append_of_mem hx
  obtain ⟨hpre, hlt, hpost⟩ := tiles_cut h
  exact ⟨tiles_le hpre, hlt, tiles_le hpost⟩

/-- Every position of the interval lies under an item. -/
theorem tiles_cover {a b p : ℕ} {l : List β} (h : Tiles start stop a b l) (ha : a ≤ p)
    (hb : p < b) : ∃ x ∈ l, start x ≤ p ∧ p < stop x := by
  induction l generalizing a with
  | nil =>
    have hab : a = b := h
    omega
  | cons x xs ih =>
    obtain ⟨hx, hlt, hxs⟩ := h
    by_cases hp : p < stop x
    · exact ⟨x, by simp, by omega, hp⟩
    · obtain ⟨y, hy, hyp⟩ := ih hxs (by omega)
      exact ⟨y, by simp [hy], hyp⟩

theorem tiles_ordered {a b : ℕ} {l : List β} (h : Tiles start stop a b l) :
    l.Pairwise (fun x y => stop x ≤ start y) := by
  induction l generalizing a with
  | nil => exact List.Pairwise.nil
  | cons x xs ih =>
    refine List.Pairwise.cons (fun y hy => ?_) (ih h.2.2)
    exact (tiles_mem h.2.2 hy).1

/-- At most one item lies over a position. -/
theorem tiles_unique {a b p : ℕ} {l : List β} {x y : β} (h : Tiles start stop a b l)
    (hx : x ∈ l) (hy : y ∈ l) (hxp : start x ≤ p ∧ p < stop x)
    (hyp : start y ≤ p ∧ p < stop y) : x = y := by
  induction l generalizing a with
  | nil => simp at hx
  | cons z zs ih =>
    obtain ⟨hz, hlt, hzs⟩ := h
    rcases List.mem_cons.mp hx with hx | hx <;> rcases List.mem_cons.mp hy with hy | hy
    · rw [hx, hy]
    · have := (tiles_mem hzs hy).1
      subst hx
      omega
    · have := (tiles_mem hzs hx).1
      subst hy
      omega
    · exact ih hzs hx hy

/-- A tiling falls apart at the start of any of its items. -/
theorem tiles_boundary {a b c : ℕ} {l : List β} (h : Tiles start stop a b l)
    (hc : c = b ∨ ∃ x ∈ l, start x = c) :
    ∃ pre post, l = pre ++ post ∧ Tiles start stop a c pre ∧ Tiles start stop c b post := by
  rcases hc with rfl | ⟨x, hx, rfl⟩
  · exact ⟨l, [], by simp, h, rfl⟩
  · obtain ⟨pre, post, rfl⟩ := List.append_of_mem hx
    obtain ⟨hpre, hlt, hpost⟩ := tiles_cut h
    exact ⟨pre, x :: post, rfl, hpre, rfl, hlt, hpost⟩

theorem value_at_mem {a b p : ℕ} {l : List β} {x : β} (f : β → γ)
    (h : Tiles start stop a b l) (hx : x ∈ l) (hp : start x ≤ p ∧ p < stop x) :
    valueAt start stop f l p = some (f x) := by
  cases hf : l.find? (fun x => start x ≤ p ∧ p < stop x) with
  | none =>
    have hn := List.find?_eq_none.mp hf x hx
    simp [hp] at hn
  | some y =>
    have hy : start y ≤ p ∧ p < stop y := by simpa using List.find?_some hf
    rw [valueAt, hf, tiles_unique h (List.mem_of_find?_eq_some hf) hx hy hp]
    rfl

theorem value_at_isSome {a b p : ℕ} {l : List β} (f : β → γ)
    (h : Tiles start stop a b l) :
    (valueAt start stop f l p).isSome ↔ a ≤ p ∧ p < b := by
  constructor
  · intro hs
    obtain ⟨v, hv⟩ := Option.isSome_iff_exists.mp hs
    obtain ⟨x, hx, -⟩ := Option.map_eq_some_iff.mp hv
    have hb : start x ≤ p ∧ p < stop x := by simpa using List.find?_some hx
    have hm := tiles_mem h (List.mem_of_find?_eq_some hx)
    omega
  · rintro ⟨ha, hb⟩
    obtain ⟨x, hx, hp⟩ := tiles_cover h ha hb
    rw [value_at_mem f h hx hp]
    rfl

/-- Two tilings of one interval that agree item by item agree as functions. -/
theorem value_at_eq {a b p : ℕ} {l l' : List β} (f : β → γ) (h : Tiles start stop a b l)
    (h' : Tiles start stop a b l')
    (hv : ∀ x ∈ l, ∀ y ∈ l', start x ≤ p ∧ p < stop x → start y ≤ p ∧ p < stop y → f x = f y) :
    valueAt start stop f l p = valueAt start stop f l' p := by
  by_cases hp : a ≤ p ∧ p < b
  · obtain ⟨x, hx, hxp⟩ := tiles_cover h hp.1 hp.2
    obtain ⟨y, hy, hyp⟩ := tiles_cover h' hp.1 hp.2
    rw [value_at_mem f h hx hxp, value_at_mem f h' hy hyp, hv x hx y hy hxp hyp]
  · have hn := mt (value_at_isSome f h).mp hp
    have hn' := mt (value_at_isSome f h').mp hp
    rw [Option.not_isSome_iff_eq_none] at hn hn'
    rw [hn, hn']

section Edits

variable {a b : ℕ} {pre post : List β} {x y z : β}

theorem tiles_rewrite (h : Tiles start stop a b (pre ++ x :: post))
    (hs : start y = start x) (he : stop y = stop x) :
    Tiles start stop a b (pre ++ y :: post) := by
  obtain ⟨hpre, hlt, hpost⟩ := tiles_cut h
  exact tiles_of_cut (by rwa [hs]) (by rwa [hs, he]) (by rwa [he])

theorem tiles_divide (h : Tiles start stop a b (pre ++ x :: post))
    (hs : start y = start x) (hm : stop y = start z) (he : stop z = stop x)
    (hy : start y < stop y) (hz : start z < stop z) :
    Tiles start stop a b (pre ++ y :: z :: post) := by
  obtain ⟨hpre, -, hpost⟩ := tiles_cut h
  refine tiles_of_cut (by rwa [hs]) hy ?_
  exact ⟨hm.symm, by rwa [hm], by rwa [he]⟩

theorem tiles_join (h : Tiles start stop a b (pre ++ y :: z :: post))
    (hs : start x = start y) (he : stop x = stop z) :
    Tiles start stop a b (pre ++ x :: post) := by
  obtain ⟨hpre, hlt, hmid, hlt', hpost⟩ := tiles_cut h
  exact tiles_of_cut (by rwa [hs]) (by omega) (by rwa [he])

theorem value_at_rewrite (f : β → γ) (h : Tiles start stop a b (pre ++ x :: post))
    (hs : start y = start x) (he : stop y = stop x) (p : ℕ) :
    valueAt start stop f (pre ++ y :: post) p =
      if start x ≤ p ∧ p < stop x then some (f y)
      else valueAt start stop f (pre ++ x :: post) p := by
  have h' := tiles_rewrite h hs he
  split
  · next hp => exact value_at_mem f h' (by simp) (by rwa [hs, he])
  · next hp =>
    refine value_at_eq f h' h fun u hu w hw hup hwp => ?_
    have hu' : u ∈ pre ++ x :: post := by
      rcases List.mem_append.mp hu with hu | hu
      · simp [hu]
      · rcases List.mem_cons.mp hu with rfl | hu
        · exact absurd (by rwa [hs, he] at hup) hp
        · simp [hu]
    rw [tiles_unique h hu' hw hup hwp]

theorem value_at_divide (f : β → γ) (h : Tiles start stop a b (pre ++ x :: post))
    (hs : start y = start x) (hm : stop y = start z) (he : stop z = stop x)
    (hy : start y < stop y) (hz : start z < stop z) (hfy : f y = f x) (hfz : f z = f x)
    (p : ℕ) : valueAt start stop f (pre ++ y :: z :: post) p =
      valueAt start stop f (pre ++ x :: post) p := by
  refine value_at_eq f (tiles_divide h hs hm he hy hz) h fun u hu w hw hup hwp => ?_
  have hx : x ∈ pre ++ x :: post := by simp
  rcases List.mem_append.mp hu with hu | hu
  · rw [tiles_unique h (by simp [hu]) hw hup hwp]
  · rcases List.mem_cons.mp hu with rfl | hu
    · rw [hfy, tiles_unique h hx hw (by omega) hwp]
    · rcases List.mem_cons.mp hu with rfl | hu
      · rw [hfz, tiles_unique h hx hw (by omega) hwp]
      · rw [tiles_unique h (by simp [hu]) hw hup hwp]

theorem value_at_join (f : β → γ) (h : Tiles start stop a b (pre ++ y :: z :: post))
    (hs : start x = start y) (he : stop x = stop z) (hfy : f y = f x) (hfz : f z = f x)
    (p : ℕ) : valueAt start stop f (pre ++ x :: post) p =
      valueAt start stop f (pre ++ y :: z :: post) p := by
  obtain ⟨-, hy, hm, hz, -⟩ := tiles_cut h
  exact (value_at_divide f (tiles_join h hs he) hs.symm hm.symm he.symm hy (by omega)
    hfy hfz p).symm

end Edits

end Ruzu.Tiling
