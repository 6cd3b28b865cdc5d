import Mathlib
import Ruzu.Common.BoundedThreadsafeQueue
import Ruzu.Lib.Transition

/-!
# Who holds the mutexes of a bounded queue

Where a thread stands says which mutexes it holds and what it sleeps on. At
most one thread is inside `emplace` and at most one inside `pop`.
-/

set_option autoImplicit false

namespace Ruzu.BoundedQueue

variable {α : Type} {cfg : Config} {s s' : State α} {t u v : ℕ} {e : Effect α} {pc pc' : Pc α}

/-- Past the outer lock of `try_emplace` and `emplace_wait`. -/
def Pc.emplacing : Pc α → Bool
  | .loadWriteIndex _ _ | .checkRoom _ _ _ | .lockProducerCv _ _ | .checkFull _ _ => true
  | .producerToSleep _ _ | .producerAsleep _ _ | .unlockProducerCv _ _ | .writeSlot _ _ => true
  | .storeWriteIndex _ | .lockToNotifyConsumer | .notifyConsumer => true
  | .unlockAfterConsumer | .unlockWrite => true
  | _ => false

def Pc.popping : Pc α → Bool
  | .loadReadIndex _ | .checkItem _ _ | .lockConsumerCv _ _ | .checkStop _ => true
  | .checkEmpty _ _ | .consumerToSleep _ _ | .consumerAsleep _ _ | .recheckStop _ => true
  | .recheckEmpty _ | .unlockConsumerCv _ | .unlockStopped | .readSlot _ => true
  | .storeReadIndex _ | .lockToNotifyProducer | .notifyProducer => true
  | .unlockAfterProducer | .unlockRead => true
  | _ => false

def Pc.inProducerCv : Pc α → Bool
  | .checkFull _ _ | .producerToSleep _ _ | .unlockProducerCv _ _ => true
  | .notifyProducer | .unlockAfterProducer => true
  | _ => false

def Pc.inConsumerCv : Pc α → Bool
  | .checkStop _ | .checkEmpty _ _ | .consumerToSleep _ _ | .recheckStop _ => true
  | .recheckEmpty _ | .unlockConsumerCv _ | .unlockStopped => true
  | .notifyConsumer | .unlockAfterConsumer => true
  | _ => false

def Pc.holds (cfg : Config) (pc : Pc α) : Mutex → Bool
  | .write => cfg.writeLocked && pc.emplacing
  | .read => cfg.readLocked && pc.popping
  | .producerCv => pc.inProducerCv
  | .consumerCv => pc.inConsumerCv

def Pc.asleepOn : Pc α → Option Condvar
  | .producerAsleep _ _ => some .producer
  | .consumerAsleep _ _ => some .consumer
  | _ => none

/-- Whether a thread holds `m` after the effect. -/
def Effect.holds (m : Mutex) (held : Bool) : Effect α → Bool
  | .lock n => held || n == m
  | .unlock n => held && n != m
  | .sleep cv => held && cv.mutex != m
  | _ => held

def Effect.asleepOn : Effect α → Option Condvar
  | .sleep cv => some cv
  | _ => none

/-- The outer locks are taken only by the queues that have them. -/
def Pc.Admitted (cfg : Config) : Pc α → Prop
  | .lockWrite _ _ => cfg.writeLocked = true
  | .lockRead _ => cfg.readLocked = true
  | _ => True

theorem next_holds (hn : s.next cfg pc = some (e, pc')) (ha : pc.Admitted cfg) (m : Mutex) :
    pc'.holds cfg m = e.holds m (pc.holds cfg m) := by
  cases pc
  case readSlot r =>
    obtain ⟨v, -, he⟩ := Option.map_eq_some_iff.mp hn
    cases he
    cases m <;> rfl
  all_goals
    simp only [State.next, State.afterWait, Option.some.injEq, Prod.mk.injEq, reduceCtorEq] at hn
    try obtain ⟨rfl, rfl⟩ := hn
  all_goals
    cases m <;> (try split_ifs) <;>
      simp_all [Pc.holds, Effect.holds, Pc.emplacing, Pc.popping, Pc.inProducerCv,
        Pc.inConsumerCv, Condvar.mutex, Pc.Admitted]

/-- What a thread gives up it has held. -/
def Effect.releases : Effect α → Option Mutex
  | .unlock m => some m
  | .sleep cv => some cv.mutex
  | _ => none

theorem next_releases (hn : s.next cfg pc = some (e, pc')) {m : Mutex}
    (hr : e.releases = some m) : pc.holds cfg m = true := by
  cases pc
  case readSlot r =>
    obtain ⟨v, -, he⟩ := Option.map_eq_some_iff.mp hn
    cases he
    cases hr
  all_goals
    simp only [State.next, Option.some.injEq, Prod.mk.injEq, reduceCtorEq] at hn
    try obtain ⟨rfl, rfl⟩ := hn
  case unlockWrite =>
    cases hw : cfg.writeLocked <;> rw [hw] at hr <;> cases hr
    simpa [Pc.holds, Pc.emplacing] using hw
  case unlockRead =>
    cases hw : cfg.readLocked <;> rw [hw] at hr <;> cases hr
    simpa [Pc.holds, Pc.popping] using hw
  all_goals
    first
      | cases hr; rfl
      | cases hr

/-- Inside a call a thread goes on inside it, or is back at `idle`. -/
theorem next_inside (hn : s.next cfg pc = some (e, pc')) (ha : pc.Admitted cfg) :
    (cfg.writeLocked = false → pc'.emplacing = true → pc.emplacing = true) ∧
      (cfg.readLocked = false → pc'.popping = true → pc.popping = true) ∧ pc'.Admitted cfg := by
  cases pc
  case readSlot r =>
    obtain ⟨v, -, he⟩ := Option.map_eq_some_iff.mp hn
    cases he
    exact ⟨nofun, fun _ _ => rfl, trivial⟩
  all_goals
    simp only [State.next, State.afterWait, Option.some.injEq, Prod.mk.injEq, reduceCtorEq] at hn
    try obtain ⟨rfl, rfl⟩ := hn
  all_goals
    (try split_ifs) <;> simp_all [Pc.emplacing, Pc.popping, Pc.Admitted]

theorem next_asleepOn (hn : s.next cfg pc = some (e, pc')) :
    pc.asleepOn = none ∧ pc'.asleepOn = e.asleepOn := by
  cases pc
  case readSlot r =>
    obtain ⟨v, -, he⟩ := Option.map_eq_some_iff.mp hn
    cases he
    exact ⟨rfl, rfl⟩
  all_goals
    simp only [State.next, State.afterWait, Option.some.injEq, Prod.mk.injEq, reduceCtorEq] at hn
    try obtain ⟨rfl, rfl⟩ := hn
  all_goals
    (try split_ifs) <;> exact ⟨rfl, rfl⟩

@[simp] theorem woken_holds (pc : Pc α) (m : Mutex) :
    (State.woken pc).holds cfg m = pc.holds cfg m := by
  cases pc <;> cases m <;> rfl

@[simp] theorem woken_emplacing (pc : Pc α) : (State.woken pc).emplacing = pc.emplacing := by
  cases pc <;> rfl

@[simp] theorem woken_popping (pc : Pc α) : (State.woken pc).popping = pc.popping := by
  cases pc <;> rfl

@[simp] theorem woken_asleepOn (pc : Pc α) : (State.woken pc).asleepOn = none := by
  cases pc <;> rfl

theorem woken_of_awake (ha : pc.asleepOn = none) : State.woken pc = pc := by
  cases pc <;> first | rfl | cases ha

structure Locked (cfg : Config) (s : State α) : Prop where
  holds : ∀ t m, (s.pc t).holds cfg m = true → s.mutex m = some t
  producer : cfg.writeLocked = false → ∀ t, (s.pc t).emplacing = true → t = 0
  consumer : cfg.readLocked = false → ∀ t, (s.pc t).popping = true → t = 1
  admitted : ∀ t, (s.pc t).Admitted cfg
  waiting : ∀ t cv, (s.pc t).asleepOn = some cv ↔ t ∈ s.waiters cv
  nodup : ∀ cv, (s.waiters cv).Nodup

theorem Locked.emplacing_unique (h : Locked cfg s) (ht : (s.pc t).emplacing = true)
    (hu : (s.pc u).emplacing = true) : t = u := by
  cases hw : cfg.writeLocked with
  | false => rw [h.producer hw t ht, h.producer hw u hu]
  | true =>
    have hs := h.holds t .write (by simp [Pc.holds, hw, ht])
    exact Option.some.inj (hs.symm.trans (h.holds u .write (by simp [Pc.holds, hw, hu])))

theorem Locked.popping_unique (h : Locked cfg s) (ht : (s.pc t).popping = true)
    (hu : (s.pc u).popping = true) : t = u := by
  cases hw : cfg.readLocked with
  | false => rw [h.consumer hw t ht, h.consumer hw u hu]
  | true =>
    have hs := h.holds t .read (by simp [Pc.holds, hw, ht])
    exact Option.some.inj (hs.symm.trans (h.holds u .read (by simp [Pc.holds, hw, hu])))

/-- The thread that the effect wakes, if any. -/
theorem perform_pc (hp : s.perform t u e = some s') (v : ℕ) :
    s'.pc v = s.pc v ∨ s'.pc v = State.woken (s.pc v) := by
  cases e with
  | lock m =>
    rw [State.perform] at hp
    split at hp
    · cases hp
      exact .inl rfl
    · cases hp
  | notifyOne cv =>
    rw [State.perform] at hp
    split at hp
    · cases hp
      exact .inl rfl
    split at hp
    · cases hp
      rcases eq_or_ne v u with rfl | hne
      · exact .inr (Function.update_self _ _ _)
      · exact .inl (Function.update_of_ne hne _ _)
    · cases hp
  | notifyAll cv =>
    cases hp
    dsimp only
    split
    · exact .inr rfl
    · exact .inl rfl
  | _ =>
    cases hp
    exact .inl rfl

/-- A mutex that another thread holds is left alone. -/
theorem perform_mutex (hp : s.perform t u e = some s') {m : Mutex}
    (hv : s.mutex m = some v) (hr : e.releases ≠ some m) : s'.mutex m = some v := by
  cases e with
  | lock n =>
    rw [State.perform] at hp
    split at hp
    case isTrue hfree =>
      cases hp
      have hne : m ≠ n := by
        rintro rfl
        rw [hv] at hfree
        cases hfree
      exact (Function.update_of_ne hne _ _).trans hv
    case isFalse => cases hp
  | unlock n =>
    cases hp
    have hne : m ≠ n := fun he => hr (congrArg some he.symm)
    exact (Function.update_of_ne hne _ _).trans hv
  | sleep cv =>
    cases hp
    have hne : m ≠ cv.mutex := fun he => hr (congrArg some he.symm)
    exact (Function.update_of_ne hne _ _).trans hv
  | notifyOne cv =>
    rw [State.perform] at hp
    split at hp
    · cases hp
      exact hv
    split at hp
    · cases hp
      exact hv
    · cases hp
  | _ =>
    cases hp
    exact hv

theorem perform_takes (hp : s.perform t u e = some s') {m : Mutex} {held : Bool}
    (hs : held = true → s.mutex m = some t) (he : e.holds m held = true) :
    s'.mutex m = some t := by
  cases e with
  | lock n =>
    rw [State.perform] at hp
    split at hp
    · cases hp
      rcases eq_or_ne m n with rfl | hne
      · exact Function.update_self _ _ _
      · refine (Function.update_of_ne hne _ _).trans (hs ?_)
        simpa [Effect.holds, Ne.symm hne] using he
    · cases hp
  | unlock n =>
    simp only [Effect.holds, Bool.and_eq_true, bne_iff_ne] at he
    exact perform_mutex hp (hs he.1) fun hc => he.2 (Option.some.inj hc)
  | sleep cv =>
    simp only [Effect.holds, Bool.and_eq_true, bne_iff_ne] at he
    exact perform_mutex hp (hs he.1) fun hc => he.2 (Option.some.inj hc)
  | _ => exact perform_mutex hp (hs he) nofun

theorem wake_nodup (h : Locked cfg s) (c : Condvar) (u : ℕ) (cv : Condvar) :
    ((s.wake c u).waiters cv).Nodup := by
  show (Function.update s.waiters c ((s.waiters c).erase u) cv).Nodup
  rcases eq_or_ne cv c with rfl | hne
  · rw [Function.update_self]
    exact (h.nodup cv).erase u
  · rw [Function.update_of_ne hne]
    exact h.nodup cv

theorem mem_wake_waiters (h : Locked cfg s) (c : Condvar) (u v : ℕ) (cv : Condvar) :
    v ∈ (s.wake c u).waiters cv ↔ v ∈ s.waiters cv ∧ (cv = c → v ≠ u) := by
  show v ∈ Function.update s.waiters c ((s.waiters c).erase u) cv ↔ _
  rcases eq_or_ne cv c with rfl | hne
  · rw [Function.update_self, (h.nodup cv).mem_erase_iff]
    tauto
  · rw [Function.update_of_ne hne]
    tauto

theorem wake_subset (h : Locked cfg s) (c : Condvar) (u : ℕ) (cv : Condvar)
    (hv : v ∈ (s.wake c u).waiters cv) : v ∈ s.waiters cv :=
  ((mem_wake_waiters h c u v cv).mp hv).1

/-- Who still sleeps after `u` has been woken. -/
theorem wake_waiting (h : Locked cfg s) {c : Condvar} (hu : u ∈ s.waiters c) (v : ℕ)
    (cv : Condvar) :
    ((s.wake c u).pc v).asleepOn = some cv ↔ v ∈ (s.wake c u).waiters cv := by
  rw [mem_wake_waiters h]
  show (Function.update s.pc u (State.woken (s.pc u)) v).asleepOn = some cv ↔ _
  rcases eq_or_ne v u with rfl | hne
  · rw [Function.update_self, woken_asleepOn]
    refine ⟨nofun, fun ⟨hv, hc⟩ => ?_⟩
    have hcv := ((h.waiting v c).mpr hu).symm.trans ((h.waiting v cv).mpr hv)
    exact absurd rfl (hc (Option.some.inj hcv).symm)
  · rw [Function.update_of_ne hne, h.waiting]
    exact ⟨fun hv => ⟨hv, fun _ => hne⟩, And.left⟩

theorem perform_waiters (h : Locked cfg s) (awake : (s.pc t).asleepOn = none)
    (hp : s.perform t u e = some s') (cv : Condvar) :
    (∀ v, v ≠ t → ((s'.pc v).asleepOn = some cv ↔ v ∈ s'.waiters cv)) ∧
      (e.asleepOn = some cv ↔ t ∈ s'.waiters cv) ∧ (s'.waiters cv).Nodup := by
  have hout : ∀ c, t ∉ s.waiters c := by
    intro c ht
    rw [(h.waiting t c).mpr ht] at awake
    cases awake
  have hkeep : (∀ v, v ≠ t → ((s.pc v).asleepOn = some cv ↔ v ∈ s.waiters cv)) ∧
      ((none : Option Condvar) = some cv ↔ t ∈ s.waiters cv) ∧ (s.waiters cv).Nodup :=
    ⟨fun v _ => h.waiting v cv, ⟨nofun, fun ht => absurd ht (hout cv)⟩, h.nodup cv⟩
  cases e with
  | lock m =>
    rw [State.perform] at hp
    split at hp
    · cases hp
      exact hkeep
    · cases hp
  | sleep c =>
    cases hp
    dsimp only
    rcases eq_or_ne cv c with rfl | hne
    · rw [Function.update_self]
      refine ⟨fun v hv => ?_, ⟨fun _ => List.mem_append_right _ List.mem_cons_self, fun _ => rfl⟩,
        ?_⟩
      · rw [h.waiting, List.mem_append, List.mem_singleton, or_iff_left hv]
      · rw [List.nodup_append]
        refine ⟨h.nodup cv, List.nodup_singleton t, fun a ha b hb => ?_⟩
        rw [List.mem_singleton.mp hb]
        rintro rfl
        exact hout cv ha
    · rw [Function.update_of_ne hne]
      exact ⟨hkeep.1, ⟨fun he => absurd (Option.some.inj he).symm hne, fun ht => absurd ht (hout cv)⟩,
        hkeep.2.2⟩
  | notifyOne c =>
    rw [State.perform] at hp
    split at hp
    · cases hp
      exact hkeep
    split at hp
    case isFalse.isTrue hu =>
      cases hp
      refine ⟨fun v _ => wake_waiting h hu v cv, ⟨nofun, fun ht => ?_⟩, wake_nodup h c u cv⟩
      exact absurd (wake_subset h c u cv ht) (hout cv)
    case isFalse.isFalse => cases hp
  | notifyAll c =>
    cases hp
    have hmem : ∀ v, v ∈ Function.update s.waiters c [] cv ↔ v ∈ s.waiters cv ∧ cv ≠ c := by
      intro v
      rcases eq_or_ne cv c with rfl | hne
      · simp
      · simp [hne]
    refine ⟨fun v _ => ?_, ⟨nofun, fun ht => absurd ((hmem t).mp ht).1 (hout cv)⟩, ?_⟩
    · show ((if v ∈ s.waiters c then State.woken (s.pc v) else s.pc v).asleepOn = some cv) ↔
        v ∈ Function.update s.waiters c [] cv
      rw [hmem]
      split
      case isTrue hv =>
        rw [woken_asleepOn]
        refine ⟨nofun, fun ⟨hv', hne⟩ => ?_⟩
        have hcv := ((h.waiting v c).mpr hv).symm.trans ((h.waiting v cv).mpr hv')
        exact absurd (Option.some.inj hcv).symm hne
      case isFalse hv =>
        rw [h.waiting]
        refine ⟨fun hv' => ⟨hv', ?_⟩, And.left⟩
        rintro rfl
        exact hv hv'
    · show (Function.update s.waiters c [] cv).Nodup
      rcases eq_or_ne cv c with rfl | hne
      · rw [Function.update_self]
        exact List.nodup_nil
      · rw [Function.update_of_ne hne]
        exact h.nodup cv
  | _ =>
    cases hp
    exact hkeep

theorem woken_admitted (ha : pc.Admitted cfg) : (State.woken pc).Admitted cfg := by
  cases pc <;> first | exact trivial | exact ha

theorem perform_admitted (h : Locked cfg s) (hp : s.perform t u e = some s') (v : ℕ) :
    (s'.pc v).Admitted cfg := by
  rcases perform_pc hp v with hv | hv
  · rw [hv]
    exact h.admitted v
  · rw [hv]
    exact woken_admitted (h.admitted v)

theorem wake_pc (s : State α) (cv : Condvar) (t v : ℕ) :
    (s.wake cv t).pc v = s.pc v ∨ (s.wake cv t).pc v = State.woken (s.pc v) := by
  rcases eq_or_ne v t with rfl | hv
  · exact .inr (Function.update_self _ _ _)
  · exact .inl (Function.update_of_ne hv _ _)

theorem Locked.wake (h : Locked cfg s) {cv : Condvar} (ht : t ∈ s.waiters cv) :
    Locked cfg (s.wake cv t) where
  holds v m hv := by
    refine h.holds v m ?_
    rcases wake_pc s cv t v with hpc | hpc <;> rw [hpc] at hv
    · exact hv
    · rwa [woken_holds] at hv
  producer hw v hv := by
    refine h.producer hw v ?_
    rcases wake_pc s cv t v with hpc | hpc <;> rw [hpc] at hv
    · exact hv
    · rwa [woken_emplacing] at hv
  consumer hr v hv := by
    refine h.consumer hr v ?_
    rcases wake_pc s cv t v with hpc | hpc <;> rw [hpc] at hv
    · exact hv
    · rwa [woken_popping] at hv
  admitted v := by
    rcases wake_pc s cv t v with hpc | hpc <;> rw [hpc]
    · exact h.admitted v
    · exact woken_admitted (h.admitted v)
  waiting := wake_waiting h ht
  nodup := wake_nodup h cv t

theorem Locked.run (h : Locked cfg s) (hn : s.next cfg (s.pc t) = some (e, pc'))
    (hp : s.perform t u e = some s') : Locked cfg (s'.goto t pc') where
  holds v m hv := by
    rcases eq_or_ne v t with rfl | hne
    · rw [State.goto_self, next_holds hn (h.admitted v)] at hv
      exact perform_takes hp (h.holds v m) hv
    · have hm : s.mutex m = some v := by
        refine h.holds v m ?_
        rw [State.goto_ne _ hne] at hv
        rcases perform_pc hp v with hpc | hpc
        · rwa [hpc] at hv
        · rwa [hpc, woken_holds] at hv
      refine perform_mutex hp hm fun hr => hne ?_
      exact Option.some.inj (hm.symm.trans (h.holds t m (next_releases hn hr)))
  producer hw v hv := by
    rcases eq_or_ne v t with rfl | hne
    · rw [State.goto_self] at hv
      exact h.producer hw v ((next_inside hn (h.admitted v)).1 hw hv)
    · rw [State.goto_ne _ hne] at hv
      refine h.producer hw v ?_
      rcases perform_pc hp v with hpc | hpc
      · rwa [hpc] at hv
      · rwa [hpc, woken_emplacing] at hv
  consumer hr v hv := by
    rcases eq_or_ne v t with rfl | hne
    · rw [State.goto_self] at hv
      exact h.consumer hr v ((next_inside hn (h.admitted v)).2.1 hr hv)
    · rw [State.goto_ne _ hne] at hv
      refine h.consumer hr v ?_
      rcases perform_pc hp v with hpc | hpc
      · rwa [hpc] at hv
      · rwa [hpc, woken_popping] at hv
  admitted v := by
    rcases eq_or_ne v t with rfl | hne
    · rw [State.goto_self]
      exact (next_inside hn (h.admitted v)).2.2
    · rw [State.goto_ne _ hne]
      exact perform_admitted h hp v
  waiting v cv := by
    obtain ⟨hothers, hself, -⟩ := perform_waiters h (next_asleepOn hn).1 hp cv
    rcases eq_or_ne v t with rfl | hne
    · rw [State.goto_self, (next_asleepOn hn).2]
      exact hself
    · rw [State.goto_ne _ hne]
      exact hothers v hne
  nodup cv := (perform_waiters h (next_asleepOn hn).1 hp cv).2.2

/-- A thread starts a call: it holds nothing yet. -/
theorem Locked.begin (h : Locked cfg s) (idle : (s.pc t).isIdle = true)
    (holds : ∀ m, pc'.holds cfg m = false)
    (producer : cfg.writeLocked = false → pc'.emplacing = true → t = 0)
    (consumer : cfg.readLocked = false → pc'.popping = true → t = 1)
    (admitted : pc'.Admitted cfg) (awake : pc'.asleepOn = none) : Locked cfg (s.goto t pc') where
  holds v m hv := by
    rcases eq_or_ne v t with rfl | hne
    · rw [State.goto_self, holds m] at hv
      cases hv
    · rw [State.goto_ne _ hne] at hv
      exact h.holds v m hv
  producer hw v hv := by
    rcases eq_or_ne v t with rfl | hne
    · rw [State.goto_self] at hv
      exact producer hw hv
    · rw [State.goto_ne _ hne] at hv
      exact h.producer hw v hv
  consumer hr v hv := by
    rcases eq_or_ne v t with rfl | hne
    · rw [State.goto_self] at hv
      exact consumer hr hv
    · rw [State.goto_ne _ hne] at hv
      exact h.consumer hr v hv
  admitted v := by
    rcases eq_or_ne v t with rfl | hne
    · rw [State.goto_self]
      exact admitted
    · rw [State.goto_ne _ hne]
      exact h.admitted v
  waiting v cv := by
    rcases eq_or_ne v t with rfl | hne
    · rw [State.goto_self, awake]
      refine ⟨nofun, fun hv => ?_⟩
      have hasleep := (h.waiting v cv).mpr hv
      cases hpc : s.pc v <;> rw [hpc] at idle hasleep <;> first | cases hasleep; done | cases idle
    · rw [State.goto_ne _ hne]
      exact h.waiting v cv
  nodup := h.nodup

end Ruzu.BoundedQueue
