import Ruzu.Common.BoundedQueueOrder

/-!
# Wake-ups of a bounded queue

A thread that goes to sleep has checked its predicate under the mutex of the
condition variable. `write_at` and `read_at` take that mutex before they
notify, so the notification comes after the sleep. `notify_all` does not take
it: between the check of the flag and the sleep it wakes nobody.
-/

set_option autoImplicit false

namespace Ruzu.BoundedQueue

open Transition

variable {α : Type} {cfg : Config} {s s' : State α} {t u v : ℕ} {e : Effect α} {pc pc' : Pc α}
variable {es : List (Event α)} {cv : Condvar} {i : BitVec 64}

/-- The index with which a thread goes to sleep or sleeps. -/
def Pc.sleepsWith : Condvar → Pc α → Option (BitVec 64)
  | .producer, .producerToSleep _ w | .producer, .producerAsleep _ w => some w
  | .consumer, .consumerToSleep _ r | .consumer, .consumerAsleep _ r => some r
  | _, _ => none

/-- Between storing an index and notifying the other side. -/
def Pc.notifies : Condvar → Pc α → Bool
  | .producer, .lockToNotifyProducer | .producer, .notifyProducer => true
  | .consumer, .lockToNotifyConsumer | .consumer, .notifyConsumer => true
  | _, _ => false

def Pc.notifiesAll : Condvar → Pc α → Bool
  | _, .notifyAllProducers => true
  | .consumer, .notifyAllConsumers => true
  | _, _ => false

/-- A notification that the thread has still to perform. -/
def Pc.willNotify (cv : Condvar) (pc : Pc α) : Bool := pc.notifies cv || pc.notifiesAll cv

/-- Past the check of the flag, awake. -/
def Pc.pastStopCheck : Pc α → Bool
  | .checkEmpty .popWaitWithStop _ | .consumerToSleep .popWaitWithStop _ => true
  | _ => false

/-- Going to sleep, or asleep, whatever the flag is. -/
def Pc.ignoresStop : Pc α → Bool
  | .consumerAsleep .popWaitWithStop _ => true
  | pc => pc.pastStopCheck

/-- The predicate of the wait on an index. -/
def State.blocked (cfg : Config) (s : State α) : Condvar → BitVec 64 → Bool
  | .producer, w => s.full cfg w
  | .consumer, r => s.empty r

def Pc.atNotifyAllConsumers : Pc α → Bool
  | .notifyAllConsumers => true
  | _ => false

/-- `notify_all` does not fall between the check of the flag and the sleep. -/
def State.timely (s : State α) : Action α → Bool
  | .run t _ =>
    !((s.pc t).atNotifyAllConsumers &&
      (s.mutex .consumerCv).any fun v => (s.pc v).pastStopCheck)
  | _ => true

/-- Whoever sleeps although it could go on will be notified. -/
structure Wakes (cfg : Config) (s : State α) : Prop where
  index : ∀ cv t i, (s.pc t).sleepsWith cv = some i → s.blocked cfg cv i = false →
    ∃ u, (s.pc u).notifies cv = true
  stop : ∀ t, (s.pc t).ignoresStop = true → s.shouldStop = true →
    ∃ u, (s.pc u).notifiesAll .consumer = true

/-! ### What a step does to sleepers and notifiers -/

theorem next_sleepsWith (hn : s.next cfg pc = some (e, pc')) (hi : pc'.sleepsWith cv = some i) :
    pc.sleepsWith cv = some i ∨ e.Quiet ∧ s.blocked cfg cv i = true := by
  cases pc
  case readSlot r =>
    obtain ⟨v, -, he⟩ := Option.map_eq_some_iff.mp hn
    cases he
    cases cv <;> cases hi
  all_goals
    simp only [State.next, State.afterWait, Option.some.injEq, Prod.mk.injEq, reduceCtorEq] at hn
    try obtain ⟨rfl, rfl⟩ := hn
  all_goals
    cases cv <;> (try split_ifs at hi) <;>
      simp_all [Pc.sleepsWith, State.blocked, Effect.Quiet]

/-- A notifier goes on to its notification. -/
theorem next_notifies (hn : s.next cfg pc = some (e, pc')) (h : pc.notifies cv = true) :
    pc'.notifies cv = true ∨ e = .notifyOne cv ∧ pc.holds cfg cv.mutex = true := by
  cases pc <;> cases cv <;> first | cases h; done | skip
  all_goals
    obtain ⟨rfl, rfl⟩ := Prod.mk.inj (Option.some.inj hn)
    first
      | exact .inl rfl
      | exact .inr ⟨rfl, rfl⟩

theorem next_notifiesAll (hn : s.next cfg pc = some (e, pc'))
    (h : pc.notifiesAll .consumer = true) :
    pc'.notifiesAll .consumer = true ∨ e = .notifyAll .consumer ∧ pc.atNotifyAllConsumers = true := by
  cases pc <;> first | cases h; done | skip
  all_goals
    obtain ⟨rfl, rfl⟩ := Prod.mk.inj (Option.some.inj hn)
    first
      | exact .inl rfl
      | exact .inr ⟨rfl, rfl⟩

/-- A thread passes the check of the flag only while the flag is off. -/
theorem next_ignoresStop (hn : s.next cfg pc = some (e, pc')) (h : pc'.ignoresStop = true) :
    pc.ignoresStop = true ∨ e = .load ∧ s.shouldStop = false := by
  cases pc
  case readSlot r =>
    obtain ⟨v, -, he⟩ := Option.map_eq_some_iff.mp hn
    cases he
    cases h
  case lockConsumerCv mode r =>
    obtain ⟨rfl, rfl⟩ := Prod.mk.inj (Option.some.inj hn)
    cases mode <;> cases h
  case checkEmpty mode r =>
    obtain ⟨rfl, rfl⟩ := Prod.mk.inj (Option.some.inj hn)
    split_ifs at h
    · cases mode <;> first | exact .inl rfl | cases h
    · cases mode <;> cases h
  case consumerToSleep mode r =>
    obtain ⟨rfl, rfl⟩ := Prod.mk.inj (Option.some.inj hn)
    cases mode <;> first | exact .inl rfl | cases h
  all_goals
    simp only [State.next, Option.some.injEq, Prod.mk.injEq, reduceCtorEq] at hn
    try obtain ⟨rfl, rfl⟩ := hn
  all_goals
    (try split_ifs at h) <;> simp_all [Pc.ignoresStop, Pc.pastStopCheck]

theorem woken_sleepsWith (h : (State.woken pc).sleepsWith cv = some i) :
    pc.sleepsWith cv = some i := by
  cases pc <;> cases cv <;> first | exact h | cases h

@[simp] theorem woken_notifies (pc : Pc α) (cv : Condvar) :
    (State.woken pc).notifies cv = pc.notifies cv := by
  cases pc <;> cases cv <;> rfl

@[simp] theorem woken_notifiesAll (pc : Pc α) (cv : Condvar) :
    (State.woken pc).notifiesAll cv = pc.notifiesAll cv := by
  cases pc <;> cases cv <;> rfl

theorem woken_ignoresStop (h : (State.woken pc).ignoresStop = true) : pc.ignoresStop = true := by
  cases pc <;> first | exact h | cases h

/-- An index that lets a thread go on is stored before a notification. -/
theorem perform_blocked (hn : s.next cfg pc = some (e, pc')) (hp : s.perform t u e = some s')
    (cv : Condvar) (i : BitVec 64) :
    s'.blocked cfg cv i = s.blocked cfg cv i ∨ pc'.notifies cv = true := by
  have hquiet : e.Quiet → s'.blocked cfg cv i = s.blocked cfg cv i := by
    intro hq
    obtain ⟨hread, hwrite, -, -⟩ := perform_quiet hp hq
    cases cv <;> simp only [State.blocked, State.full, State.empty, hread, hwrite]
  cases e with
  | publish j =>
    obtain ⟨w, -, rfl, -⟩ := next_publish hn
    cases hp
    cases cv
    · exact .inl rfl
    · exact .inr rfl
  | consume j =>
    obtain ⟨r, -, rfl, -⟩ := next_consume hn
    cases hp
    cases cv
    · exact .inr rfl
    · exact .inl rfl
  | write n x =>
    cases hp
    cases cv <;> exact .inl rfl
  | take n x =>
    cases hp
    cases cv <;> exact .inl rfl
  | _ => exact .inl (hquiet trivial)

theorem perform_stop (hn : s.next cfg pc = some (e, pc')) (hp : s.perform t u e = some s') :
    s'.shouldStop = s.shouldStop ∨ pc'.notifiesAll .consumer = true := by
  cases e with
  | stop =>
    right
    cases pc
    case setStop =>
      obtain ⟨-, rfl⟩ := Prod.mk.inj (Option.some.inj hn)
      rfl
    case readSlot r =>
      obtain ⟨v, -, he⟩ := Option.map_eq_some_iff.mp hn
      cases he
    all_goals
      simp only [State.next, Option.some.injEq, Prod.mk.injEq, reduceCtorEq, false_and] at hn
    all_goals
      obtain ⟨he, -⟩ := hn
      split_ifs at he
  | lock m =>
    rw [State.perform] at hp
    split at hp <;> cases hp
    exact .inl rfl
  | notifyOne c =>
    rw [State.perform] at hp
    split at hp
    · cases hp
      exact .inl rfl
    · split at hp <;> cases hp
      exact .inl rfl
  | _ =>
    cases hp
    exact .inl rfl

/-! ### A notification reaches the sleeper -/

theorem sleepsWith_holds (cfg : Config) (h : pc.sleepsWith cv = some i) :
    pc.asleepOn = some cv ∨ pc.holds cfg cv.mutex = true := by
  cases pc <;> cases cv <;> first | exact .inl rfl | exact .inr rfl | cases h

theorem Locked.asleep_unique (h : Locked cfg s) (ht : (s.pc t).asleepOn = some cv)
    (hu : (s.pc u).asleepOn = some cv) : t = u := by
  cases cv with
  | producer =>
    refine h.emplacing_unique ?_ ?_
    · cases hpc : s.pc t <;> rw [hpc] at ht <;> first | rfl | cases ht
    · cases hpc : s.pc u <;> rw [hpc] at hu <;> first | rfl | cases hu
  | consumer =>
    refine h.popping_unique ?_ ?_
    · cases hpc : s.pc t <;> rw [hpc] at ht <;> first | rfl | cases ht
    · cases hpc : s.pc u <;> rw [hpc] at hu <;> first | rfl | cases hu

/-- `notify_one` under the mutex leaves nobody asleep or going to sleep. -/
theorem Locked.notified (h : Locked cfg s) (hnot : (s.pc t).notifies cv = true)
    (hhold : (s.pc t).holds cfg cv.mutex = true) (hv : (s.pc v).sleepsWith cv = some i)
    (hp : s.perform t u (.notifyOne cv) = some s') :
    v ≠ t ∧ (s'.pc v).sleepsWith cv = none := by
  have hne : v ≠ t := by
    rintro rfl
    cases hpc : s.pc v <;> rw [hpc] at hnot hv <;> cases cv <;>
      first | cases hnot; done | cases hv
  refine ⟨hne, ?_⟩
  rcases sleepsWith_holds cfg hv with hasleep | hholds
  · have hmem := (h.waiting v cv).mp hasleep
    rw [State.perform, if_neg (List.ne_nil_of_mem hmem)] at hp
    split at hp
    case isTrue hu =>
      cases hp
      have huv := h.asleep_unique hasleep ((h.waiting u cv).mpr hu)
      subst huv
      show (Function.update s.pc v (State.woken (s.pc v)) v).sleepsWith cv = none
      rw [Function.update_self]
      cases hpc : s.pc v <;> rw [hpc] at hasleep <;> cases hasleep <;> rfl
    case isFalse => cases hp
  · have hmutex := (h.holds v _ hholds).symm.trans (h.holds t _ hhold)
    exact absurd (Option.some.inj hmutex) hne

theorem pastStopCheck_holds (h : pc.pastStopCheck = true) : pc.holds cfg .consumerCv = true := by
  cases pc <;> first | rfl | cases h

theorem ignoresStop_cases (h : pc.ignoresStop = true) :
    pc.asleepOn = some .consumer ∨ pc.pastStopCheck = true := by
  cases pc <;> first | exact .inl rfl | exact .inr h

/-- A timely `notify_all` leaves nobody who has missed the flag. -/
theorem Locked.notifiedAll (h : Locked cfg s) (timely : s.timely (.run t u) = true)
    (hat : (s.pc t).atNotifyAllConsumers = true) (hv : (s.pc v).ignoresStop = true)
    (hp : s.perform t u (.notifyAll .consumer) = some s') :
    v ≠ t ∧ (s'.pc v).ignoresStop = false := by
  have hne : v ≠ t := by
    rintro rfl
    cases hpc : s.pc v <;> rw [hpc] at hat hv <;> first | cases hat; done | cases hv
  refine ⟨hne, ?_⟩
  rcases ignoresStop_cases hv with hasleep | hpast
  · cases hp
    dsimp only
    rw [if_pos ((h.waiting v .consumer).mp hasleep)]
    cases hpc : s.pc v <;> rw [hpc] at hasleep <;> cases hasleep
    rfl
  · rw [State.timely, hat, h.holds v .consumerCv (pastStopCheck_holds hpast)] at timely
    rw [Option.any_some, hpast] at timely
    cases timely

/-! ### Every step -/

theorem Wakes.run (h : Wakes cfg s) (hl : Locked cfg s) (timely : s.timely (.run t u) = true)
    (hn : s.next cfg (s.pc t) = some (e, pc')) (hp : s.perform t u e = some s') :
    Wakes cfg (s'.goto t pc') where
  index cv v i hi hb := by
    rcases perform_blocked hn hp cv i with hsame | hnot
    case inr => exact ⟨t, by rwa [State.goto_self]⟩
    replace hb : s.blocked cfg cv i = false := hsame.symm.trans hb
    have hv : (s.pc v).sleepsWith cv = some i := by
      rcases eq_or_ne v t with rfl | hne
      · rw [State.goto_self] at hi
        exact (next_sleepsWith hn hi).resolve_right fun hc => nomatch hb.symm.trans hc.2
      · rw [State.goto_ne _ hne] at hi
        rcases perform_pc hp v with hpc | hpc <;> rw [hpc] at hi
        · exact hi
        · exact woken_sleepsWith hi
    obtain ⟨n, hn'⟩ := h.index cv v i hv hb
    rcases eq_or_ne n t with rfl | hne
    · rcases next_notifies hn hn' with hgo | ⟨rfl, hhold⟩
      · exact ⟨n, by rwa [State.goto_self]⟩
      · obtain ⟨hne, hnone⟩ := hl.notified hn' hhold hv hp
        rw [State.goto_ne _ hne, hnone] at hi
        cases hi
    · refine ⟨n, ?_⟩
      rw [State.goto_ne _ hne]
      rcases perform_pc hp n with hpc | hpc <;> simpa [hpc] using hn'
  stop v hi hs := by
    rcases perform_stop hn hp with hsame | hnot
    case inr => exact ⟨t, by rwa [State.goto_self]⟩
    replace hs : s.shouldStop = true := hsame.symm.trans hs
    have hv : (s.pc v).ignoresStop = true := by
      rcases eq_or_ne v t with rfl | hne
      · rw [State.goto_self] at hi
        exact (next_ignoresStop hn hi).resolve_right fun hc => nomatch hs.symm.trans hc.2
      · rw [State.goto_ne _ hne] at hi
        rcases perform_pc hp v with hpc | hpc <;> rw [hpc] at hi
        · exact hi
        · exact woken_ignoresStop hi
    obtain ⟨n, hn'⟩ := h.stop v hv hs
    rcases eq_or_ne n t with rfl | hne
    · rcases next_notifiesAll hn hn' with hgo | ⟨rfl, hat⟩
      · exact ⟨n, by rwa [State.goto_self]⟩
      · obtain ⟨hne, hnone⟩ := hl.notifiedAll timely hat hv hp
        rw [State.goto_ne _ hne, hnone] at hi
        cases hi
    · refine ⟨n, ?_⟩
      rw [State.goto_ne _ hne]
      rcases perform_pc hp n with hpc | hpc <;> simpa [hpc] using hn'

/-- A step that keeps the notifiers, makes no sleeper and leaves the shared part alone. -/
theorem Wakes.keep (h : Wakes cfg s) (hb : ∀ cv i, s'.blocked cfg cv i = s.blocked cfg cv i)
    (hs : s'.shouldStop = s.shouldStop)
    (hi : ∀ v cv i, (s'.pc v).sleepsWith cv = some i → (s.pc v).sleepsWith cv = some i)
    (hg : ∀ v, (s'.pc v).ignoresStop = true → (s.pc v).ignoresStop = true)
    (hn : ∀ v cv, (s.pc v).notifies cv = true → (s'.pc v).notifies cv = true)
    (hall : ∀ v, (s.pc v).notifiesAll .consumer = true →
      (s'.pc v).notifiesAll .consumer = true) : Wakes cfg s' where
  index cv v i hv hf := by
    rw [hb] at hf
    obtain ⟨n, hnot⟩ := h.index cv v i (hi v cv i hv) hf
    exact ⟨n, hn n cv hnot⟩
  stop v hv hstop := by
    rw [hs] at hstop
    obtain ⟨n, hnot⟩ := h.stop v (hg v hv) hstop
    exact ⟨n, hall n hnot⟩

theorem Wakes.wake (h : Wakes cfg s) (cv : Condvar) (t : ℕ) : Wakes cfg (s.wake cv t) := by
  refine h.keep (fun c i => by cases c <;> rfl) rfl (fun v c i hv => ?_) (fun v hv => ?_)
    (fun v c hv => ?_) (fun v hv => ?_) <;>
    rcases wake_pc s cv t v with hpc | hpc
  · rwa [hpc] at hv
  · rw [hpc] at hv
    exact woken_sleepsWith hv
  · rwa [hpc] at hv
  · rw [hpc] at hv
    exact woken_ignoresStop hv
  · rwa [hpc]
  · rwa [hpc, woken_notifies]
  · rwa [hpc]
  · rwa [hpc, woken_notifiesAll]

theorem Wakes.begin (h : Wakes cfg s) (idle : s.pc t = .idle)
    (awake : ∀ cv, pc'.sleepsWith cv = none) (obeys : pc'.ignoresStop = false) :
    Wakes cfg (s.goto t pc') := by
  refine h.keep (fun c i => by cases c <;> rfl) rfl (fun v c i hv => ?_) (fun v hv => ?_)
    (fun v c hv => ?_) (fun v hv => ?_) <;>
    rcases eq_or_ne v t with rfl | hne
  · rw [State.goto_self, awake] at hv
    cases hv
  · rwa [State.goto_ne _ hne] at hv
  · rw [State.goto_self, obeys] at hv
    cases hv
  · rwa [State.goto_ne _ hne] at hv
  · rw [idle] at hv
    cases c <;> cases hv
  · rwa [State.goto_ne _ hne]
  · rw [idle] at hv
    cases hv
  · rwa [State.goto_ne _ hne]

/-- Where a call of thread `t` may begin. -/
def Pc.Entry (cfg : Config) (t : ℕ) : Pc α → Prop
  | .lockWrite _ _ => cfg.writeLocked = true
  | .loadWriteIndex _ _ => cfg.writeLocked = false ∧ t = 0
  | .lockRead _ => cfg.readLocked = true
  | .loadReadIndex _ => cfg.readLocked = false ∧ t = 1
  | .setStop => True
  | _ => False

theorem isIdle_iff : pc.isIdle = true ↔ pc = .idle := by
  cases pc <;> simp [Pc.isIdle]

theorem step_cases {a : Action α} {ev : Event α} (h : step cfg s a = some (s', ev)) :
    (∃ t pc', s.pc t = .idle ∧ pc'.Entry cfg t ∧ s' = s.goto t pc' ∧ ev = .other) ∨
    (∃ t u e pc' s₁, a = .run t u ∧ s.next cfg (s.pc t) = some (e, pc') ∧
      s.perform t u e = some s₁ ∧ s' = s₁.goto t pc' ∧ ev = e.event) ∨
    ∃ cv t, t ∈ s.waiters cv ∧ s' = s.wake cv t ∧ ev = .other := by
  cases a with
  | emplace t wait x =>
    left
    rw [step] at h
    split_ifs at h with hidle hlocked ht <;> cases h
    · refine ⟨t, _, isIdle_iff.1 hidle, ?_, rfl, rfl⟩
      exact hlocked
    · refine ⟨t, _, isIdle_iff.1 hidle, ?_, rfl, rfl⟩
      exact ⟨Bool.eq_false_iff.mpr hlocked, ht⟩
  | pop t mode =>
    left
    rw [step] at h
    split_ifs at h with hidle hlocked ht <;> cases h
    · refine ⟨t, _, isIdle_iff.1 hidle, ?_, rfl, rfl⟩
      exact hlocked
    · refine ⟨t, _, isIdle_iff.1 hidle, ?_, rfl, rfl⟩
      exact ⟨Bool.eq_false_iff.mpr hlocked, ht⟩
  | stop t =>
    left
    rw [step] at h
    split_ifs at h with hidle
    cases h
    refine ⟨t, _, isIdle_iff.1 hidle, ?_, rfl, rfl⟩
    trivial
  | run t u =>
    right; left
    obtain ⟨⟨e, pc'⟩, hn, hm⟩ := Option.bind_eq_some_iff.mp h
    obtain ⟨s₁, hp, he⟩ := Option.map_eq_some_iff.mp hm
    cases he
    exact ⟨t, u, e, pc', s₁, rfl, hn, hp, rfl, rfl⟩
  | wakeSpuriously cv t =>
    right; right
    rw [step] at h
    split_ifs at h with ht
    cases h
    exact ⟨cv, t, ht, rfl, rfl⟩

theorem Pc.Entry.knows (h : pc.Entry cfg t) : Knows cfg es s pc := by
  cases pc <;> first | exact h.elim | exact Knows.nothing rfl rfl rfl rfl rfl rfl rfl

theorem Locked.enter (h : Locked cfg s) (idle : s.pc t = .idle) (entry : pc'.Entry cfg t) :
    Locked cfg (s.goto t pc') := by
  have hidle : (s.pc t).isIdle = true := by
    rw [idle]
    rfl
  cases pc' with
  | lockWrite wait x =>
    exact h.begin hidle (fun m => by cases m <;> simp [Pc.holds, Pc.emplacing, Pc.popping,
      Pc.inProducerCv, Pc.inConsumerCv]) (fun _ h => by cases h) (fun _ h => by cases h) entry rfl
  | loadWriteIndex wait x =>
    exact h.begin hidle (fun m => by cases m <;> simp [Pc.holds, entry.1, Pc.popping,
      Pc.inProducerCv, Pc.inConsumerCv]) (fun _ _ => entry.2) (fun _ h => by cases h) trivial rfl
  | lockRead mode =>
    exact h.begin hidle (fun m => by cases m <;> simp [Pc.holds, Pc.emplacing, Pc.popping,
      Pc.inProducerCv, Pc.inConsumerCv]) (fun _ h => by cases h) (fun _ h => by cases h) entry rfl
  | loadReadIndex mode =>
    exact h.begin hidle (fun m => by cases m <;> simp [Pc.holds, entry.1, Pc.emplacing,
      Pc.inProducerCv, Pc.inConsumerCv]) (fun _ h => by cases h) (fun _ _ => entry.2) trivial rfl
  | setStop =>
    exact h.begin hidle (fun m => by cases m <;> simp [Pc.holds, Pc.emplacing, Pc.popping,
      Pc.inProducerCv, Pc.inConsumerCv]) (fun _ h => by cases h) (fun _ h => by cases h) trivial rfl
  | _ => exact entry.elim

/-- What holds of a queue and its history in every state reached. -/
structure Sound (cfg : Config) (es : List (Event α)) (s : State α) : Prop where
  locked : Locked cfg s
  ordered : Ordered cfg es s

theorem Sound.start : Sound cfg [] (State.new α) where
  locked :=
    { holds := fun _ m hm => by cases m <;> simp [State.new, Pc.holds, Pc.emplacing, Pc.popping,
        Pc.inProducerCv, Pc.inConsumerCv] at hm
      producer := fun _ _ => nofun
      consumer := fun _ _ => nofun
      admitted := fun _ => trivial
      waiting := fun _ _ => ⟨nofun, nofun⟩
      nodup := fun _ => List.nodup_nil }
  ordered :=
    { writeIndex := rfl
      readIndex := rfl
      knows := fun _ => Knows.nothing rfl rfl rfl rfl rfl rfl rfl
      written := fun _ => rfl
      taken := fun _ => rfl
      bounds := ⟨Nat.le_refl _, Nat.le_refl _, Nat.le_refl _, Nat.zero_le _⟩
      inOrder := List.prefix_refl _
      live := fun _ _ => nofun
      dead := fun _ _ _ => rfl }

theorem Sound.step (h : Sound cfg es s) {a : Action α} {ev : Event α}
    (taken : step cfg s a = some (s', ev)) : Sound cfg (es ++ [ev]) s' := by
  rcases step_cases taken with ⟨t, pc', idle, entry, rfl, rfl⟩ |
    ⟨t, u, e, pc', s₁, rfl, hn, hp, rfl, rfl⟩ | ⟨cv, t, ht, rfl, rfl⟩
  · refine ⟨h.locked.enter idle entry, h.ordered.begin idle entry.knows ?_ ?_⟩
    · cases pc' <;> first | rfl | exact entry.elim
    · cases pc' <;> first | rfl | exact entry.elim
  · exact ⟨h.locked.run hn hp, h.ordered.run h.locked hn hp⟩
  · exact ⟨h.locked.wake ht, h.ordered.wake cv t⟩

theorem Wakes.step (h : Wakes cfg s) (hl : Locked cfg s) {a : Action α} {ev : Event α}
    (timely : s.timely a = true) (taken : step cfg s a = some (s', ev)) : Wakes cfg s' := by
  rcases step_cases taken with ⟨t, pc', idle, entry, rfl, rfl⟩ |
    ⟨t, u, e, pc', s₁, rfl, hn, hp, rfl, rfl⟩ | ⟨cv, t, ht, rfl, rfl⟩
  · refine h.begin idle (fun cv => ?_) ?_
    · cases pc' <;> cases cv <;> first | rfl | exact entry.elim
    · cases pc' <;> first | rfl | exact entry.elim
  · exact h.run hl timely hn hp
  · exact h.wake cv t

theorem Wakes.start : Wakes cfg (State.new α) where
  index cv t i h := by cases cv <;> cases h
  stop t h := by cases h

theorem run_sound {ok : State α → Action α → Prop}
    (run : Run (step cfg) ok (State.new α) es s) : Sound cfg es s :=
  run.invariant (Sound cfg) .start fun _ _ _ _ _ h _ taken => h.step taken

theorem run_wakes (run : Run (step cfg) (fun s a => s.timely a = true) (State.new α) es s) :
    Sound cfg es s ∧ Wakes cfg s :=
  run.invariant (fun es s => Sound cfg es s ∧ Wakes cfg s) ⟨.start, .start⟩
    fun _ _ _ _ _ h ok taken => ⟨h.1.step taken, h.2.step h.1.locked ok taken⟩

/-- A thread asleep on a condition variable has nothing left to notify. -/
theorem asleep_silent (h : (s.pc t).asleepOn = some cv) (hu : (s.pc u).willNotify cv = true) :
    u ≠ t := by
  rintro rfl
  cases hpc : s.pc u <;> rw [hpc] at h hu <;> first | cases h; done | cases cv <;> cases hu

theorem values_in_order {ok : State α → Action α → Prop}
    (run : Run (step cfg) ok (State.new α) es s) :
    took es <+: wrote es ∧
      (∀ t x w, s.pc t = .writeSlot x w → s.data (w.toNat % cfg.capacity) = none) ∧
      ∀ t r, s.pc t = .readSlot r → ∃ x, s.data (r.toNat % cfg.capacity) = some x := by
  obtain ⟨hl, ho⟩ := run_sound run
  refine ⟨ho.inOrder, fun t x w ht => (ho.slot_dead hl ht).2.2.2, fun t r ht => ?_⟩
  obtain ⟨-, -, -, hlt, hdata⟩ := ho.slot_live hl ht
  exact ⟨_, hdata⟩

/-- Values leave in the order they are written, no live slot is overwritten and no dead one
read; while every `notify_all` is timely, no sleeper that could go on is forgotten. -/
theorem order_and_wakeups
    (run : Run (step cfg) (fun s a => s.timely a = true) (State.new α) es s) :
    took es <+: wrote es ∧
      (∀ t x w, s.pc t = .writeSlot x w → s.data (w.toNat % cfg.capacity) = none) ∧
      (∀ t r, s.pc t = .readSlot r → ∃ x, s.data (r.toNat % cfg.capacity) = some x) ∧
      (∀ t mode r, s.pc t = .consumerAsleep mode r →
        s.empty r = false ∨ mode = .popWaitWithStop ∧ s.shouldStop = true →
        ∃ u, u ≠ t ∧ (s.pc u).willNotify .consumer = true) ∧
      ∀ t x w, s.pc t = .producerAsleep x w → s.full cfg w = false →
        ∃ u, u ≠ t ∧ (s.pc u).willNotify .producer = true := by
  obtain ⟨horder, hdead, hlive⟩ := values_in_order run
  obtain ⟨-, hw⟩ := run_wakes run
  refine ⟨horder, hdead, hlive, fun t mode r ht hgo => ?_, fun t x w ht hgo => ?_⟩
  · have hnotify : ∃ u, (s.pc u).willNotify .consumer = true := by
      rcases hgo with hgo | ⟨rfl, hstop⟩
      · obtain ⟨u, hu⟩ := hw.index .consumer t r (by rw [ht]; rfl) hgo
        exact ⟨u, Bool.or_eq_true_iff.mpr (.inl hu)⟩
      · obtain ⟨u, hu⟩ := hw.stop t (by rw [ht]; rfl) hstop
        exact ⟨u, Bool.or_eq_true_iff.mpr (.inr hu)⟩
    obtain ⟨u, hu⟩ := hnotify
    exact ⟨u, asleep_silent (by rw [ht]; rfl) hu, hu⟩
  · obtain ⟨u, hu⟩ := hw.index .producer t w (by rw [ht]; rfl) hgo
    have hu' : (s.pc u).willNotify .producer = true := Bool.or_eq_true_iff.mpr (.inl hu)
    exact ⟨u, asleep_silent (by rw [ht]; rfl) hu', hu'⟩

/-- Thread `t` goes on for `n` steps; thread 1 is the one to wake. -/
def goOn (t n : ℕ) : List (Action ℕ) := List.replicate n (.run t 1)

def twoSlots : Config := ⟨.spsc, 1, by decide⟩

/-- The consumer falls asleep, the producer writes 5 and wakes it. -/
def sleepAndWrite : List (Action ℕ) :=
  [.pop 1 .popWait] ++ goOn 1 5 ++ [.emplace 0 false 5] ++ goOn 0 8 ++ goOn 1 9

def sleepAndWriteEvents : List (Event ℕ) :=
  List.replicate 9 .other ++ [.wrote 5, .published] ++ List.replicate 7 .other ++
    [.took 5, .consumed] ++ List.replicate 4 .other

theorem order_and_wakeups_one_value : ∃ s,
    Run (step twoSlots) (fun s a => s.timely a = true) (State.new ℕ) sleepAndWriteEvents s ∧
      took sleepAndWriteEvents <+: wrote sleepAndWriteEvents := by
  obtain ⟨s, run⟩ : ∃ s, Run (step twoSlots) (fun s a => s.timely a = true) (State.new ℕ)
      sleepAndWriteEvents s := exec_events sleepAndWrite (by decide +kernel)
  exact ⟨s, run, (order_and_wakeups run).1⟩

/-- The flag is set and everybody notified while the consumer, which has read the flag, is not
asleep yet. -/
def stopTooEarly : List (Action ℕ) :=
  [.pop 1 .popWaitWithStop] ++ goOn 1 4 ++ [.stop 2] ++ goOn 2 3 ++ goOn 1 2

theorem stop_forgotten : ∃ es s,
    Run (step twoSlots) (fun _ _ => True) (State.new ℕ) es s ∧
      s.pc 1 = .consumerAsleep .popWaitWithStop 0 ∧ s.shouldStop = true ∧
      ∀ u, u ≠ 1 → s.pc u = .idle := by
  have hexec : exec (step twoSlots) (fun _ _ => True) (State.new ℕ) stopTooEarly = some (_, _) :=
    rfl
  refine ⟨_, _, exec_run hexec, rfl, rfl, fun u hu => ?_⟩
  match u with
  | 0 => rfl
  | 1 => exact absurd rfl hu
  | 2 => rfl
  | u + 3 => rfl

end Ruzu.BoundedQueue
