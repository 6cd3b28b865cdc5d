import Mathlib

/-!
# Bounded queues between threads

`BoundedSPSCQueue`, `BoundedMPSCQueue` and `BoundedMPMCQueue` as in
`bounded_threadsafe_queue.rs`, one atomic step at a time. A thread is where it
stands in the code; what it does next is an effect on the shared state. The
indices wrap around as `usize` does. A slot is `none` while it holds no live
value. The single producer is thread 0, the single consumer thread 1.
-/

set_option autoImplicit false

namespace Ruzu.BoundedQueue

inductive Kind
  | spsc | mpsc | mpmc
  deriving DecidableEq

/-- `new` asserts that the capacity is a power of two. -/
structure Config where
  kind : Kind
  log : ℕ
  small : log < 64

namespace Config

variable (cfg : Config)

def capacity : ℕ := 2 ^ cfg.log
def writeLocked : Bool := cfg.kind != .spsc
def readLocked : Bool := cfg.kind == .mpmc

end Config

inductive Mutex
  | write | read | producerCv | consumerCv
  deriving DecidableEq

inductive Condvar
  | producer | consumer
  deriving DecidableEq

/-- The mutex a condition variable is waited on with. -/
def Condvar.mutex : Condvar → Mutex
  | .producer => .producerCv
  | .consumer => .consumerCv

inductive PopMode
  | tryPop | popWait | popWaitWithStop
  deriving DecidableEq

/-- Where a thread stands; the arguments are its locals. -/
inductive Pc (α : Type)
  | idle
  -- `try_emplace` and `emplace_wait`
  | lockWrite (wait : Bool) (value : α)
  | loadWriteIndex (wait : Bool) (value : α)
  | checkRoom (wait : Bool) (value : α) (writeIndex : BitVec 64)
  | lockProducerCv (value : α) (writeIndex : BitVec 64)
  | checkFull (value : α) (writeIndex : BitVec 64)
  | producerToSleep (value : α) (writeIndex : BitVec 64)
  | producerAsleep (value : α) (writeIndex : BitVec 64)
  | unlockProducerCv (value : α) (writeIndex : BitVec 64)
  | writeSlot (value : α) (writeIndex : BitVec 64)
  | storeWriteIndex (writeIndex : BitVec 64)
  | lockToNotifyConsumer
  | notifyConsumer
  | unlockAfterConsumer
  | unlockWrite
  -- `try_pop`, `pop_wait` and `pop_wait_with_stop`
  | lockRead (mode : PopMode)
  | loadReadIndex (mode : PopMode)
  | checkItem (mode : PopMode) (readIndex : BitVec 64)
  | lockConsumerCv (mode : PopMode) (readIndex : BitVec 64)
  | checkStop (readIndex : BitVec 64)
  | checkEmpty (mode : PopMode) (readIndex : BitVec 64)
  | consumerToSleep (mode : PopMode) (readIndex : BitVec 64)
  | consumerAsleep (mode : PopMode) (readIndex : BitVec 64)
  | recheckStop (readIndex : BitVec 64)
  | recheckEmpty (readIndex : BitVec 64)
  | unlockConsumerCv (readIndex : BitVec 64)
  | unlockStopped
  | readSlot (readIndex : BitVec 64)
  | storeReadIndex (readIndex : BitVec 64)
  | lockToNotifyProducer
  | notifyProducer
  | unlockAfterProducer
  | unlockRead
  -- the thread that stops the queue
  | setStop
  | notifyAllProducers
  | notifyAllConsumers

structure State (α : Type) where
  readIndex : BitVec 64
  writeIndex : BitVec 64
  data : ℕ → Option α
  mutex : Mutex → Option ℕ
  waiters : Condvar → List ℕ
  shouldStop : Bool
  pc : ℕ → Pc α

def State.new (α : Type) : State α := ⟨0, 0, fun _ => none, fun _ => none, fun _ => [], false,
  fun _ => .idle⟩

/-- What one atomic step does to the shared state. -/
inductive Effect (α : Type)
  | load
  | lock (m : Mutex)
  | unlock (m : Mutex)
  | sleep (cv : Condvar)
  | write (position : ℕ) (value : α)
  | publish (writeIndex : BitVec 64)
  | take (position : ℕ) (value : α)
  | consume (readIndex : BitVec 64)
  | notifyOne (cv : Condvar)
  | notifyAll (cv : Condvar)
  | stop

variable {α : Type}

namespace State

variable (cfg : Config) (s : State α)

def full (writeIndex : BitVec 64) : Bool :=
  writeIndex - s.readIndex == BitVec.ofNat 64 cfg.capacity

def empty (readIndex : BitVec 64) : Bool := readIndex == s.writeIndex

/-- After the wait: `pop_wait` goes on to read, `pop_wait_with_stop` looks at the flag again. -/
def afterWait (mode : PopMode) (readIndex : BitVec 64) : Pc α :=
  if mode = .popWaitWithStop then .recheckStop readIndex else .unlockConsumerCv readIndex

/-- The next step of a thread, given what it would load; a thread that reads a slot without a
live value has none, nor has one that is asleep or idle. -/
def next : Pc α → Option (Effect α × Pc α)
  | .idle => none
  | .lockWrite wait v => some (.lock .write, .loadWriteIndex wait v)
  | .loadWriteIndex wait v => some (.load, .checkRoom wait v s.writeIndex)
  | .checkRoom wait v w =>
    some (.load, if s.full cfg w then if wait then .lockProducerCv v w else .unlockWrite
      else .writeSlot v w)
  | .lockProducerCv v w => some (.lock .producerCv, .checkFull v w)
  | .checkFull v w =>
    some (.load, if s.full cfg w then .producerToSleep v w else .unlockProducerCv v w)
  | .producerToSleep v w => some (.sleep .producer, .producerAsleep v w)
  | .producerAsleep _ _ => none
  | .unlockProducerCv v w => some (.unlock .producerCv, .writeSlot v w)
  | .writeSlot v w => some (.write (w.toNat % cfg.capacity) v, .storeWriteIndex w)
  | .storeWriteIndex w => some (.publish (w + 1), .lockToNotifyConsumer)
  | .lockToNotifyConsumer => some (.lock .consumerCv, .notifyConsumer)
  | .notifyConsumer => some (.notifyOne .consumer, .unlockAfterConsumer)
  | .unlockAfterConsumer => some (.unlock .consumerCv, .unlockWrite)
  | .unlockWrite => some (if cfg.writeLocked then .unlock .write else .load, .idle)
  | .lockRead mode => some (.lock .read, .loadReadIndex mode)
  | .loadReadIndex mode => some (.load, .checkItem mode s.readIndex)
  | .checkItem mode r =>
    some (.load, if s.empty r then if mode = .tryPop then .unlockRead else .lockConsumerCv mode r
      else .readSlot r)
  | .lockConsumerCv mode r =>
    some (.lock .consumerCv, if mode = .popWaitWithStop then .checkStop r else .checkEmpty mode r)
  | .checkStop r =>
    some (.load, if s.shouldStop then .recheckStop r else .checkEmpty .popWaitWithStop r)
  | .checkEmpty mode r => some (.load, if s.empty r then .consumerToSleep mode r else afterWait mode r)
  | .consumerToSleep mode r => some (.sleep .consumer, .consumerAsleep mode r)
  | .consumerAsleep _ _ => none
  | .recheckStop r => some (.load, if s.shouldStop then .recheckEmpty r else .unlockConsumerCv r)
  | .recheckEmpty r => some (.load, if s.empty r then .unlockStopped else .unlockConsumerCv r)
  | .unlockConsumerCv r => some (.unlock .consumerCv, .readSlot r)
  | .unlockStopped => some (.unlock .consumerCv, .unlockRead)
  | .readSlot r =>
    (s.data (r.toNat % cfg.capacity)).map fun v =>
      (.take (r.toNat % cfg.capacity) v, .storeReadIndex r)
  | .storeReadIndex r => some (.consume (r + 1), .lockToNotifyProducer)
  | .lockToNotifyProducer => some (.lock .producerCv, .notifyProducer)
  | .notifyProducer => some (.notifyOne .producer, .unlockAfterProducer)
  | .unlockAfterProducer => some (.unlock .producerCv, .unlockRead)
  | .unlockRead => some (if cfg.readLocked then .unlock .read else .load, .idle)
  | .setStop => some (.stop, .notifyAllProducers)
  | .notifyAllProducers => some (.notifyAll .producer, .notifyAllConsumers)
  | .notifyAllConsumers => some (.notifyAll .consumer, .idle)

/-- A thread that has been woken takes the mutex again and checks its predicate again. -/
def woken : Pc α → Pc α
  | .producerAsleep v w => .lockProducerCv v w
  | .consumerAsleep mode r => .lockConsumerCv mode r
  | pc => pc

def wake (cv : Condvar) (t : ℕ) : State α :=
  { s with
    waiters := Function.update s.waiters cv ((s.waiters cv).erase t)
    pc := Function.update s.pc t (woken (s.pc t)) }

/-- The shared part of a step of thread `t`; `u` is the waiter that `notify_one` picks. -/
def perform (t u : ℕ) : Effect α → Option (State α)
  | .load => some s
  | .lock m =>
    if s.mutex m = none then some { s with mutex := Function.update s.mutex m (some t) } else none
  | .unlock m => some { s with mutex := Function.update s.mutex m none }
  | .sleep cv =>
    some { s with
      mutex := Function.update s.mutex cv.mutex none
      waiters := Function.update s.waiters cv (s.waiters cv ++ [t]) }
  | .write position v => some { s with data := Function.update s.data position (some v) }
  | .publish w => some { s with writeIndex := w }
  | .take position _ => some { s with data := Function.update s.data position none }
  | .consume r => some { s with readIndex := r }
  | .notifyOne cv =>
    if s.waiters cv = [] then some s else if u ∈ s.waiters cv then some (s.wake cv u) else none
  | .notifyAll cv =>
    some { s with
      waiters := Function.update s.waiters cv []
      pc := fun v => if v ∈ s.waiters cv then woken (s.pc v) else s.pc v }
  | .stop => some { s with shouldStop := true }

def goto (t : ℕ) (pc : Pc α) : State α := { s with pc := Function.update s.pc t pc }

@[simp] theorem goto_self (t : ℕ) (pc : Pc α) : (s.goto t pc).pc t = pc := by
  simp [goto]

@[simp] theorem goto_ne {t v : ℕ} (h : v ≠ t) (pc : Pc α) : (s.goto t pc).pc v = s.pc v := by
  simp [goto, h]

end State

inductive Action (α : Type)
  | emplace (t : ℕ) (wait : Bool) (value : α)
  | pop (t : ℕ) (mode : PopMode)
  | stop (t : ℕ)
  | run (t u : ℕ)
  | wakeSpuriously (cv : Condvar) (t : ℕ)

/-- What a step does to the values: writing a slot, publishing it, taking it, giving it back. -/
inductive Event (α : Type)
  | wrote (value : α)
  | published
  | took (value : α)
  | consumed
  | other
  deriving DecidableEq

def Effect.event : Effect α → Event α
  | .write _ v => .wrote v
  | .publish _ => .published
  | .take _ v => .took v
  | .consume _ => .consumed
  | _ => .other

def Pc.isIdle : Pc α → Bool
  | .idle => true
  | _ => false

/-- One atomic step; an idle thread may start a call its queue allows it. -/
def step (cfg : Config) (s : State α) : Action α → Option (State α × Event α)
  | .emplace t wait v =>
    if (s.pc t).isIdle then
      if cfg.writeLocked then some (s.goto t (.lockWrite wait v), .other)
      else if t = 0 then some (s.goto t (.loadWriteIndex wait v), .other) else none
    else none
  | .pop t mode =>
    if (s.pc t).isIdle then
      if cfg.readLocked then some (s.goto t (.lockRead mode), .other)
      else if t = 1 then some (s.goto t (.loadReadIndex mode), .other) else none
    else none
  | .stop t => if (s.pc t).isIdle then some (s.goto t .setStop, .other) else none
  | .run t u =>
    (s.next cfg (s.pc t)).bind fun r =>
      (s.perform t u r.1).map fun s' => (s'.goto t r.2, r.1.event)
  | .wakeSpuriously cv t => if t ∈ s.waiters cv then some (s.wake cv t, .other) else none

end Ruzu.BoundedQueue
