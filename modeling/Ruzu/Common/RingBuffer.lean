import Mathlib

/-!
# The ring buffer

`ring_buffer.rs`: one producer and one consumer, each with its own index. An
operation loads its own index, then the other one, copies slot by slot and
stores its own index; the steps of the two sides interleave freely.
-/

set_option autoImplicit false

namespace Ruzu.Spsc

variable {T : Type}

/-- The index type's operations: `none` where the result leaves the type. -/
def checkedAdd (a b : ℕ) : Option ℕ := if a + b < 2 ^ 64 then some (a + b) else none

def checkedSub (a b : ℕ) : Option ℕ := if b ≤ a then some (a - b) else none

/-- `_ASSERT_POWER_OF_TWO`. -/
def AssertPowerOfTwo (capacity : ℕ) : Prop := capacity > 0 ∧ capacity &&& (capacity - 1) = 0

structure RingBuffer (T : Type) where
  readIndex : ℕ
  writeIndex : ℕ
  data : ℕ → T

def RingBuffer.new [Inhabited T] : RingBuffer T := ⟨0, 0, fun _ => default⟩

/-- Where the producer is: `push` with its own index loaded, the copies of `push`, `size` with the
write index loaded. -/
inductive Producer (T : Type) where
  | idle
  | push (slots : List T) (writeIndex : ℕ)
  | copy (slots : List T) (writeIndex pushCount firstCopy copied : ℕ)
  | size (writeIndex : ℕ)

inductive Consumer (T : Type) where
  | idle
  | popInto (output : List T) (readIndex : ℕ)
  | copy (output : List T) (readIndex popCount firstCopy copied : ℕ)
  | size (writeIndex : ℕ)

/-- The buffer and its two sides, with what was pushed and popped so far. -/
structure System (T : Type) where
  ring : RingBuffer T
  producer : Producer T
  consumer : Consumer T
  pushed : List T
  popped : List T

inductive Event (T : Type) where
  | push (slots : List T)
  | sizeByProducer
  | producer
  | popInto (output : List T)
  | pop (maxSlots : ℕ)
  | sizeByConsumer
  | consumer

/-- What a call returns with its last step. -/
inductive Reply (T : Type) where
  | running
  | pushed (pushCount : ℕ)
  | popped (popCount : ℕ) (output : List T)
  | size (n : ℕ)

/-- The slot of the `k`-th copy: the second piece starts at the first slot. -/
def slot (pos firstCopy k : ℕ) : ℕ := if k < firstCopy then pos + k else k - firstCopy

namespace System

def new [Inhabited T] : System T := ⟨.new, .idle, .idle, [], []⟩

def stepProducer (capacity : ℕ) (s : System T) : Option (Reply T × System T) :=
  match s.producer with
  | .idle => none
  | .push slots writeIndex => do
    let sum ← checkedAdd capacity s.ring.readIndex
    let slotsFree ← checkedSub sum writeIndex
    let pushCount := min slots.length slotsFree
    let room ← checkedSub capacity (writeIndex % capacity)
    let firstCopy := min room pushCount
    let _secondCopy ← checkedSub pushCount firstCopy
    some (.running, { s with producer := .copy slots writeIndex pushCount firstCopy 0 })
  | .copy slots writeIndex pushCount firstCopy copied =>
    if copied < pushCount then do
      let value ← slots[copied]?
      let data := Function.update s.ring.data (slot (writeIndex % capacity) firstCopy copied) value
      some (.running, { s with
        ring := { s.ring with data := data }
        producer := .copy slots writeIndex pushCount firstCopy (copied + 1) })
    else do
      let writeIndex ← checkedAdd writeIndex pushCount
      some (.pushed pushCount, { s with
        ring := { s.ring with writeIndex := writeIndex }
        producer := .idle
        pushed := s.pushed ++ slots.take pushCount })
  | .size writeIndex => do
    let n ← checkedSub writeIndex s.ring.readIndex
    some (.size n, { s with producer := .idle })

def stepConsumer (capacity : ℕ) (s : System T) : Option (Reply T × System T) :=
  match s.consumer with
  | .idle => none
  | .popInto output readIndex => do
    let slotsFilled ← checkedSub s.ring.writeIndex readIndex
    let popCount := min slotsFilled output.length
    let room ← checkedSub capacity (readIndex % capacity)
    let firstCopy := min room popCount
    let _secondCopy ← checkedSub popCount firstCopy
    some (.running, { s with consumer := .copy output readIndex popCount firstCopy 0 })
  | .copy output readIndex popCount firstCopy copied =>
    if copied < popCount then
      let value := s.ring.data (slot (readIndex % capacity) firstCopy copied)
      some (.running, { s with
        consumer := .copy (output.set copied value) readIndex popCount firstCopy (copied + 1) })
    else do
      let readIndex ← checkedAdd readIndex popCount
      some (.popped popCount output, { s with
        ring := { s.ring with readIndex := readIndex }
        consumer := .idle
        popped := s.popped ++ output.take popCount })
  | .size writeIndex => do
    let n ← checkedSub writeIndex s.ring.readIndex
    some (.size n, { s with consumer := .idle })

/-- One step: a call starts with the load of its first index. `pop` is `pop_into` a vector of its
own, cut to what was popped. -/
def step [Inhabited T] (capacity : ℕ) (s : System T) : Event T → Option (Reply T × System T)
  | .push slots => some (.running, { s with producer := .push slots s.ring.writeIndex })
  | .sizeByProducer => some (.running, { s with producer := .size s.ring.writeIndex })
  | .producer => s.stepProducer capacity
  | .popInto output => some (.running, { s with consumer := .popInto output s.ring.readIndex })
  | .pop maxSlots =>
    let output := List.replicate (min maxSlots capacity) default
    some (.running, { s with consumer := .popInto output s.ring.readIndex })
  | .sizeByConsumer => some (.running, { s with consumer := .size s.ring.writeIndex })
  | .consumer => s.stepConsumer capacity

/-- What the push under way adds to the total. -/
def underWay : Producer T → ℕ
  | .copy _ _ pushCount _ _ => pushCount
  | _ => 0

/-- Each side makes one call at a time, and fewer than `2 ^ 64` slots are pushed in total. -/
def Allowed (s : System T) : Event T → Prop
  | .push _ | .sizeByProducer => s.producer = .idle
  | .producer => s.producer ≠ .idle ∧ s.pushed.length + underWay s.producer < 2 ^ 64
  | .popInto _ | .pop _ | .sizeByConsumer => s.consumer = .idle
  | .consumer => s.consumer ≠ .idle

/-- A push that loads the read index finds it at least the capacity below the end of its type. -/
def BelowEnd (capacity : ℕ) (s : System T) (e : Event T) : Prop :=
  ∀ slots writeIndex, e = .producer → s.producer = .push slots writeIndex →
    capacity + s.ring.readIndex < 2 ^ 64

/-- The states of all interleavings whose steps meet `P`. -/
inductive Reachable [Inhabited T] (capacity : ℕ) (P : System T → Event T → Prop) :
    System T → Prop
  | new : Reachable capacity P new
  | step {s s' : System T} {e : Event T} {r : Reply T} : Reachable capacity P s → s.Allowed e →
      P s e → s.step capacity e = some (r, s') → Reachable capacity P s'

end System

/-! ### Slots -/

section Slots

variable {capacity index count i j k : ℕ}

/-- Around the wrap or not, the copies go to the slots of consecutive indices. -/
theorem slot_eq (hcap : 0 < capacity) (hcount : count ≤ capacity) (hk : k < count) :
    slot (index % capacity) (min (capacity - index % capacity) count) k =
      (index + k) % capacity := by
  have hpos := Nat.mod_lt index hcap
  have hmod : (index + k) % capacity = (index % capacity + k) % capacity := by
    rw [Nat.mod_add_mod]
  rw [hmod, slot]
  generalize index % capacity = pos at hpos ⊢
  split
  case isTrue hlt =>
    rw [Nat.mod_eq_of_lt]
    omega
  case isFalse hge =>
    have hfirst : min (capacity - pos) count = capacity - pos := by omega
    rw [hfirst] at hge ⊢
    rw [Nat.mod_eq_sub_mod (by omega), Nat.mod_eq_of_lt (by omega)]
    omega

/-- Indices less than the capacity apart have different slots. -/
theorem mod_ne (hi : i < j) (hj : j < i + capacity) : i % capacity ≠ j % capacity := by
  intro heq
  have hdvd : capacity ∣ j - i := Nat.dvd_of_mod_eq_zero (Nat.sub_mod_eq_zero_of_mod_eq heq.symm)
  have := Nat.le_of_dvd (by omega) hdvd
  omega

theorem checkedAdd_eq (h : i + j < 2 ^ 64) : checkedAdd i j = some (i + j) := if_pos h

theorem checkedSub_eq (h : j ≤ i) : checkedSub i j = some (i - j) := if_pos h

end Slots

namespace System

/-! ### The invariant -/

/-- The producer's copies are free slots: the read index it saw is no further than the current
one. -/
def ProducerSound (capacity : ℕ) (ring : RingBuffer T) : Producer T → Prop
  | .idle => True
  | .push _ writeIndex => writeIndex = ring.writeIndex
  | .copy slots writeIndex pushCount firstCopy copied => writeIndex = ring.writeIndex ∧
      firstCopy = min (capacity - writeIndex % capacity) pushCount ∧ copied ≤ pushCount ∧
      pushCount ≤ slots.length ∧ writeIndex + pushCount ≤ ring.readIndex + capacity ∧
      ∀ j < copied, slots[j]? = some (ring.data ((writeIndex + j) % capacity))
  | .size writeIndex => writeIndex = ring.writeIndex

/-- The consumer's copies are published slots. -/
def ConsumerSound (capacity : ℕ) (ring : RingBuffer T) (pushed : List T) : Consumer T → Prop
  | .idle => True
  | .popInto _ readIndex => readIndex = ring.readIndex
  | .copy output readIndex popCount firstCopy copied => readIndex = ring.readIndex ∧
      firstCopy = min (capacity - readIndex % capacity) popCount ∧ copied ≤ popCount ∧
      popCount ≤ output.length ∧ readIndex + popCount ≤ ring.writeIndex ∧
      ∀ j < copied, output[j]? = pushed[readIndex + j]?
  | .size writeIndex => ring.readIndex ≤ writeIndex ∧ writeIndex ≤ ring.writeIndex

structure Sound (capacity : ℕ) (s : System T) : Prop where
  read : s.ring.readIndex = s.popped.length
  written : s.ring.writeIndex = s.pushed.length
  order : s.ring.readIndex ≤ s.ring.writeIndex
  room : s.ring.writeIndex ≤ s.ring.readIndex + capacity
  total : s.ring.writeIndex < 2 ^ 64
  front : s.popped = s.pushed.take s.ring.readIndex
  kept : ∀ i, s.ring.readIndex ≤ i → i < s.ring.writeIndex →
    s.pushed[i]? = some (s.ring.data (i % capacity))
  producer : ProducerSound capacity s.ring s.producer
  consumer : ConsumerSound capacity s.ring s.pushed s.consumer

section Steps

variable {capacity : ℕ} {s : System T}

theorem sound_new [Inhabited T] : Sound capacity (new : System T) :=
  ⟨rfl, rfl, Nat.le_refl 0, Nat.zero_le _, Nat.two_pow_pos 64, rfl,
    fun i _ hi => absurd hi (Nat.not_lt_zero i), trivial, trivial⟩

/-- The load of the read index by `push`. -/
theorem Sound.push_load (h : Sound capacity s) (hcap : 0 < capacity) {slots : List T}
    {writeIndex : ℕ} (hp : s.producer = .push slots writeIndex)
    (hend : capacity + s.ring.readIndex < 2 ^ 64) :
    ∃ s', s.stepProducer capacity = some (.running, s') ∧ Sound capacity s' ∧
      ∃ firstCopy, s' = { s with
        producer := .copy slots s.ring.writeIndex
          (min slots.length (capacity - (s.ring.writeIndex - s.ring.readIndex))) firstCopy 0 } := by
  have hsound := h.producer
  rw [hp] at hsound
  obtain rfl : writeIndex = s.ring.writeIndex := hsound
  have hroom := h.room
  have horder := h.order
  have hpos := Nat.mod_lt s.ring.writeIndex hcap
  have hfree : capacity + s.ring.readIndex - s.ring.writeIndex =
      capacity - (s.ring.writeIndex - s.ring.readIndex) := by omega
  rw [stepProducer, hp]
  dsimp only [bind, Option.bind]
  rw [checkedAdd_eq hend]
  dsimp only
  rw [checkedSub_eq (by omega), hfree]
  dsimp only
  rw [checkedSub_eq (Nat.le_of_lt hpos)]
  dsimp only
  rw [checkedSub_eq (by omega)]
  refine ⟨_, rfl, ⟨h.read, h.written, horder, hroom, h.total, h.front, h.kept, ?_, h.consumer⟩,
    _, rfl⟩
  exact ⟨rfl, rfl, Nat.zero_le _, Nat.min_le_left _ _, by dsimp only; omega,
    fun j hj => absurd hj (Nat.not_lt_zero j)⟩

/-- A copy of `push` goes to a slot that is not waiting to be popped. -/
theorem Sound.push_slot (h : Sound capacity s) (hcap : 0 < capacity) {slots : List T}
    {writeIndex pushCount firstCopy copied : ℕ}
    (hp : s.producer = .copy slots writeIndex pushCount firstCopy copied)
    (hlt : copied < pushCount) :
    slot (writeIndex % capacity) firstCopy copied = (s.ring.writeIndex + copied) % capacity ∧
      ∀ i, s.ring.readIndex ≤ i → i < s.ring.writeIndex + copied →
        (s.ring.writeIndex + copied) % capacity ≠ i % capacity := by
  have hsound := h.producer
  rw [hp] at hsound
  obtain ⟨rfl, rfl, -, -, hroom, -⟩ := hsound
  have horder := h.order
  refine ⟨slot_eq hcap (by omega) hlt, fun i hi hin => (mod_ne hin ?_).symm⟩
  omega

theorem Sound.push_copy (h : Sound capacity s) (hcap : 0 < capacity) {slots : List T}
    {writeIndex pushCount firstCopy copied : ℕ}
    (hp : s.producer = .copy slots writeIndex pushCount firstCopy copied)
    (hlt : copied < pushCount) :
    ∃ s', s.stepProducer capacity = some (.running, s') ∧ Sound capacity s' ∧
      s'.producer = .copy slots writeIndex pushCount firstCopy (copied + 1) ∧
      s'.consumer = s.consumer ∧ s'.pushed = s.pushed ∧ s'.popped = s.popped := by
  obtain ⟨hslot, hapart⟩ := h.push_slot hcap hp hlt
  have hsound := h.producer
  rw [hp] at hsound
  obtain ⟨rfl, hfirst, hle, hlen, hroom, hcopied⟩ := hsound
  obtain ⟨value, hget⟩ : ∃ value, slots[copied]? = some value :=
    ⟨_, List.getElem?_eq_getElem (Nat.lt_of_lt_of_le hlt hlen)⟩
  have hout : ∀ i, s.ring.readIndex ≤ i → i < s.ring.writeIndex + copied → ∀ value,
      Function.update s.ring.data ((s.ring.writeIndex + copied) % capacity) value (i % capacity) =
        s.ring.data (i % capacity) := fun i hi hin value =>
    Function.update_of_ne (hapart i hi hin).symm ..
  have horder := h.order
  rw [stepProducer, hp]
  dsimp only [bind, Option.bind]
  rw [if_pos hlt, hget, hslot]
  refine ⟨_, rfl, ⟨h.read, h.written, horder, h.room, h.total, h.front, fun i hi hin => ?_,
    ⟨rfl, hfirst, hlt, hlen, hroom, fun j hj => ?_⟩, ?_⟩, rfl, rfl, rfl, rfl⟩
  · dsimp only at hi hin ⊢
    rw [hout i hi (by omega)]
    exact h.kept i hi hin
  · dsimp only
    rcases Nat.lt_succ_iff_lt_or_eq.mp hj with hj | rfl
    · rw [hout _ (by omega) (by omega)]
      exact hcopied j hj
    · rw [Function.update_self]
      exact hget
  · exact h.consumer

/-- The store of the write index publishes the copies. -/
theorem Sound.push_store (h : Sound capacity s) {slots : List T}
    {writeIndex pushCount firstCopy copied : ℕ}
    (hp : s.producer = .copy slots writeIndex pushCount firstCopy copied)
    (hge : ¬ copied < pushCount) (htotal : s.pushed.length + pushCount < 2 ^ 64) :
    ∃ s', s.stepProducer capacity = some (.pushed pushCount, s') ∧ Sound capacity s' ∧
      s'.pushed = s.pushed ++ slots.take pushCount ∧ s'.producer = .idle ∧
      s'.consumer = s.consumer ∧ s'.popped = s.popped := by
  have hsound := h.producer
  rw [hp] at hsound
  obtain ⟨rfl, hfirst, hle, hlen, hroom, hcopied⟩ := hsound
  obtain rfl : copied = pushCount := by omega
  have hwritten := h.written
  have horder := h.order
  rw [stepProducer, hp]
  dsimp only [bind, Option.bind]
  rw [if_neg hge, checkedAdd_eq (by omega)]
  refine ⟨_, rfl, ⟨h.read, ?_, ?_, hroom, ?_, ?_, fun i hi hin => ?_, trivial, ?_⟩, rfl,
    rfl, rfl, rfl⟩
  · dsimp only
    rw [List.length_append, List.length_take, hwritten]
    omega
  · dsimp only
    omega
  · dsimp only
    omega
  · dsimp only
    rw [List.take_append_of_le_length (by omega)]
    exact h.front
  · dsimp only at hi hin ⊢
    rcases Nat.lt_or_ge i s.ring.writeIndex with hlt | hge'
    · rw [List.getElem?_append_left (by omega)]
      exact h.kept i hi hlt
    · rw [List.getElem?_append_right (by omega), List.getElem?_take_of_lt (by omega),
        hcopied _ (by omega)]
      congr 3
      omega
  · -- what is published stays published
    have hc := h.consumer
    cases hcon : s.consumer with
    | idle => trivial
    | popInto output readIndex =>
      rw [hcon] at hc
      exact hc
    | copy output readIndex popCount firstCopy' copied' =>
      rw [hcon] at hc
      obtain ⟨hr, hf, hle', hlen', hpub, hout⟩ := hc
      refine ⟨hr, hf, hle', hlen', by dsimp only; omega, fun j hj => ?_⟩
      rw [hout j hj, List.getElem?_append_left (by omega)]
    | size w =>
      rw [hcon] at hc
      exact ⟨hc.1, Nat.le_trans hc.2 (by dsimp only; omega)⟩

theorem Sound.producer_size (h : Sound capacity s) {writeIndex : ℕ}
    (hp : s.producer = .size writeIndex) :
    ∃ s', s.stepProducer capacity = some (.size (s.ring.writeIndex - s.ring.readIndex), s') ∧
      Sound capacity s' := by
  have hsound := h.producer
  rw [hp] at hsound
  obtain rfl : writeIndex = s.ring.writeIndex := hsound
  rw [stepProducer, hp]
  dsimp only [bind, Option.bind]
  rw [checkedSub_eq h.order]
  exact ⟨_, rfl, h.read, h.written, h.order, h.room, h.total, h.front, h.kept, trivial, h.consumer⟩

/-- The load of the write index by `pop_into`. -/
theorem Sound.pop_load (h : Sound capacity s) (hcap : 0 < capacity) {output : List T}
    {readIndex : ℕ} (hc : s.consumer = .popInto output readIndex) :
    ∃ s', s.stepConsumer capacity = some (.running, s') ∧ Sound capacity s' ∧
      ∃ firstCopy, s' = { s with
        consumer := .copy output s.ring.readIndex
          (min (s.ring.writeIndex - s.ring.readIndex) output.length) firstCopy 0 } := by
  have hsound := h.consumer
  rw [hc] at hsound
  obtain rfl : readIndex = s.ring.readIndex := hsound
  have horder := h.order
  have hpos := Nat.mod_lt s.ring.readIndex hcap
  rw [stepConsumer, hc]
  dsimp only [bind, Option.bind]
  rw [checkedSub_eq horder]
  dsimp only
  rw [checkedSub_eq (Nat.le_of_lt hpos)]
  dsimp only
  rw [checkedSub_eq (by omega)]
  refine ⟨_, rfl, ⟨h.read, h.written, horder, h.room, h.total, h.front, h.kept, h.producer, ?_⟩,
    _, rfl⟩
  exact ⟨rfl, rfl, Nat.zero_le _, Nat.min_le_right _ _, by dsimp only; omega,
    fun j hj => absurd hj (Nat.not_lt_zero j)⟩

theorem Sound.pop_copy (h : Sound capacity s) (hcap : 0 < capacity) {output : List T}
    {readIndex popCount firstCopy copied : ℕ}
    (hc : s.consumer = .copy output readIndex popCount firstCopy copied)
    (hlt : copied < popCount) :
    ∃ s' output', s.stepConsumer capacity = some (.running, s') ∧ Sound capacity s' ∧
      s'.consumer = .copy output' readIndex popCount firstCopy (copied + 1) ∧
      output'.length = output.length ∧ s'.producer = s.producer ∧ s'.pushed = s.pushed ∧
      s'.popped = s.popped := by
  have hsound := h.consumer
  rw [hc] at hsound
  obtain ⟨rfl, rfl, hle, hlen, hpub, hout⟩ := hsound
  have hroom := h.room
  rw [stepConsumer, hc]
  dsimp only
  rw [if_pos hlt, slot_eq hcap (by omega) hlt]
  refine ⟨_, _, rfl, ⟨h.read, h.written, h.order, hroom, h.total, h.front, h.kept, h.producer,
    rfl, rfl, hlt, by rwa [List.length_set], hpub, fun j hj => ?_⟩, rfl, List.length_set ..,
    rfl, rfl, rfl⟩
  dsimp only
  rcases Nat.lt_succ_iff_lt_or_eq.mp hj with hj | rfl
  · rw [List.getElem?_set_ne (by omega)]
    exact hout j hj
  · rw [List.getElem?_set_self (by omega)]
    exact (h.kept _ (by omega) (by omega)).symm

/-- The store of the read index gives the slots back. -/
theorem Sound.pop_store (h : Sound capacity s) {output : List T}
    {readIndex popCount firstCopy copied : ℕ}
    (hc : s.consumer = .copy output readIndex popCount firstCopy copied)
    (hge : ¬ copied < popCount) :
    ∃ s', s.stepConsumer capacity = some (.popped popCount output, s') ∧ Sound capacity s' ∧
      s'.popped = s.popped ++ output.take popCount ∧ s'.consumer = .idle ∧
      s'.producer = s.producer ∧ s'.pushed = s.pushed := by
  have hsound := h.consumer
  rw [hc] at hsound
  obtain ⟨rfl, hfirst, hle, hlen, hpub, hout⟩ := hsound
  obtain rfl : copied = popCount := by omega
  have htotal := h.total
  have hroom := h.room
  have hread := h.read
  have hwritten := h.written
  have htake : output.take copied = (s.pushed.drop s.ring.readIndex).take copied := by
    refine List.ext_getElem? fun j => ?_
    rcases Nat.lt_or_ge j copied with hj | hj
    · rw [List.getElem?_take_of_lt hj, List.getElem?_take_of_lt hj, List.getElem?_drop, hout j hj]
    · rw [List.getElem?_eq_none (by rw [List.length_take]; omega),
        List.getElem?_eq_none (by rw [List.length_take]; omega)]
  rw [stepConsumer, hc]
  dsimp only [bind, Option.bind]
  rw [if_neg hge, checkedAdd_eq (by omega)]
  refine ⟨_, rfl, ⟨?_, hwritten, hpub, ?_, htotal, ?_, fun i hi hin => ?_, ?_, trivial⟩, rfl,
    rfl, rfl, rfl⟩
  · dsimp only
    rw [List.length_append, List.length_take, hread]
    omega
  · dsimp only
    omega
  · dsimp only
    rw [htake, List.take_add, ← h.front]
  · exact h.kept i (by dsimp only at hi; omega) hin
  · -- what was free stays free
    have hp := h.producer
    cases hpro : s.producer with
    | idle => trivial
    | push slots writeIndex =>
      rw [hpro] at hp
      exact hp
    | copy slots writeIndex pushCount firstCopy' copied' =>
      rw [hpro] at hp
      obtain ⟨hw, hf, hle', hlen', hfree, hcopied⟩ := hp
      exact ⟨hw, hf, hle', hlen', by dsimp only; omega, hcopied⟩
    | size w =>
      rw [hpro] at hp
      exact hp

theorem Sound.consumer_size (h : Sound capacity s) {writeIndex : ℕ}
    (hc : s.consumer = .size writeIndex) :
    ∃ s', s.stepConsumer capacity = some (.size (writeIndex - s.ring.readIndex), s') ∧
      Sound capacity s' := by
  have hsound := h.consumer
  rw [hc] at hsound
  rw [stepConsumer, hc]
  dsimp only [bind, Option.bind]
  rw [checkedSub_eq hsound.1]
  exact ⟨_, rfl, h.read, h.written, h.order, h.room, h.total, h.front, h.kept, h.producer, trivial⟩

end Steps

/-! ### Runs -/

section Runs

variable [Inhabited T] {capacity : ℕ} {s : System T}

/-- An allowed step runs and keeps the invariant, the load of a full index type apart. -/
theorem Sound.step (h : Sound capacity s) (hcap : 0 < capacity) {e : Event T} (ha : s.Allowed e)
    (hend : s.BelowEnd capacity e) :
    ∃ r s', s.step capacity e = some (r, s') ∧ Sound capacity s' := by
  cases e with
  | push slots =>
    exact ⟨_, _, rfl, h.read, h.written, h.order, h.room, h.total, h.front, h.kept, rfl, h.consumer⟩
  | sizeByProducer =>
    exact ⟨_, _, rfl, h.read, h.written, h.order, h.room, h.total, h.front, h.kept, rfl, h.consumer⟩
  | popInto output =>
    exact ⟨_, _, rfl, h.read, h.written, h.order, h.room, h.total, h.front, h.kept, h.producer, rfl⟩
  | pop maxSlots =>
    exact ⟨_, _, rfl, h.read, h.written, h.order, h.room, h.total, h.front, h.kept, h.producer, rfl⟩
  | sizeByConsumer =>
    exact ⟨_, _, rfl, h.read, h.written, h.order, h.room, h.total, h.front, h.kept, h.producer,
      h.order, Nat.le_refl _⟩
  | producer =>
    obtain ⟨hbusy, htotal⟩ := ha
    cases hp : s.producer with
    | idle => exact absurd hp hbusy
    | push slots writeIndex =>
      obtain ⟨s', hrun, hsound, -⟩ := h.push_load hcap hp (hend slots writeIndex rfl hp)
      exact ⟨_, s', hrun, hsound⟩
    | copy slots writeIndex pushCount firstCopy copied =>
      rw [hp] at htotal
      by_cases hlt : copied < pushCount
      · obtain ⟨s', hrun, hsound, -⟩ := h.push_copy hcap hp hlt
        exact ⟨_, s', hrun, hsound⟩
      · obtain ⟨s', hrun, hsound, -⟩ := h.push_store hp hlt htotal
        exact ⟨_, s', hrun, hsound⟩
    | size writeIndex =>
      obtain ⟨s', hrun, hsound⟩ := h.producer_size hp
      exact ⟨_, s', hrun, hsound⟩
  | consumer =>
    cases hc : s.consumer with
    | idle => exact absurd hc ha
    | popInto output readIndex =>
      obtain ⟨s', hrun, hsound, -⟩ := h.pop_load hcap hc
      exact ⟨_, s', hrun, hsound⟩
    | copy output readIndex popCount firstCopy copied =>
      by_cases hlt : copied < popCount
      · obtain ⟨s', -, hrun, hsound, -⟩ := h.pop_copy hcap hc hlt
        exact ⟨_, s', hrun, hsound⟩
      · obtain ⟨s', hrun, hsound, -⟩ := h.pop_store hc hlt
        exact ⟨_, s', hrun, hsound⟩
    | size writeIndex =>
      obtain ⟨s', hrun, hsound⟩ := h.consumer_size hc
      exact ⟨_, s', hrun, hsound⟩

theorem Reachable.imp {P Q : System T → Event T → Prop} (h : Reachable capacity P s)
    (hPQ : ∀ s e, P s e → Q s e) : Reachable capacity Q s := by
  induction h with
  | new => exact .new
  | step _ ha hP hstep ih => exact .step ih ha (hPQ _ _ hP) hstep

theorem Reachable.sound (hcap : 0 < capacity)
    (h : Reachable capacity (fun s e => s.BelowEnd capacity e) s) : Sound capacity s := by
  induction h with
  | new => exact sound_new
  | step _ ha hend hstep ih =>
    obtain ⟨r, s', hrun, hsound⟩ := ih.step hcap ha hend
    obtain ⟨-, rfl⟩ := Prod.mk.inj (Option.some.inj (hrun.symm.trans hstep))
    exact hsound

/-- In every interleaving whose pushes load a read index below the end of its type: what is popped
is a front part of what is pushed, the indices stay within the capacity of each other, the slots
between them hold what was pushed and are not written, a push takes what is free and a pop what is
published at its load, and no step leaves the index type. -/
theorem reachable_buffer (hcap : AssertPowerOfTwo capacity)
    (h : Reachable capacity (fun s e => s.BelowEnd capacity e) s) :
    s.popped <+: s.pushed ∧
      (s.ring.readIndex = s.popped.length ∧ s.ring.writeIndex = s.pushed.length) ∧
      (s.ring.readIndex ≤ s.ring.writeIndex ∧ s.ring.writeIndex - s.ring.readIndex ≤ capacity) ∧
      (∀ i, s.ring.readIndex ≤ i → i < s.ring.writeIndex →
        s.pushed[i]? = some (s.ring.data (i % capacity))) ∧
      (∀ slots writeIndex pushCount firstCopy copied,
        s.producer = .copy slots writeIndex pushCount firstCopy copied → copied < pushCount →
        slot (writeIndex % capacity) firstCopy copied < capacity ∧
        ∀ i, s.ring.readIndex ≤ i → i < s.ring.writeIndex →
          slot (writeIndex % capacity) firstCopy copied ≠ i % capacity) ∧
      (∀ slots writeIndex, s.producer = .push slots writeIndex →
        capacity + s.ring.readIndex < 2 ^ 64 →
        ∃ firstCopy, s.step capacity .producer = some (.running, { s with
          producer := .copy slots s.ring.writeIndex
            (min slots.length (capacity - (s.ring.writeIndex - s.ring.readIndex)))
            firstCopy 0 })) ∧
      (∀ output readIndex, s.consumer = .popInto output readIndex →
        ∃ firstCopy, s.step capacity .consumer = some (.running, { s with
          consumer := .copy output s.ring.readIndex
            (min (s.ring.writeIndex - s.ring.readIndex) output.length) firstCopy 0 })) ∧
      (∀ slots writeIndex pushCount firstCopy copied,
        s.producer = .copy slots writeIndex pushCount firstCopy copied → ¬ copied < pushCount →
        s.pushed.length + pushCount < 2 ^ 64 → ∃ s', s.step capacity .producer =
          some (.pushed pushCount, s') ∧ s'.pushed = s.pushed ++ slots.take pushCount) ∧
      (∀ output readIndex popCount firstCopy copied,
        s.consumer = .copy output readIndex popCount firstCopy copied → ¬ copied < popCount →
        ∃ s', s.step capacity .consumer = some (.popped popCount output, s') ∧
          s'.popped = s.popped ++ output.take popCount) ∧
      ∀ e, s.Allowed e → s.BelowEnd capacity e → (s.step capacity e).isSome := by
  have hs := h.sound hcap.1
  have hroom := hs.room
  refine ⟨?_, ⟨hs.read, hs.written⟩, ⟨hs.order, by omega⟩, hs.kept, ?_, ?_, ?_, ?_, ?_, ?_⟩
  · rw [hs.front]
    exact List.take_prefix _ _
  · intro slots writeIndex pushCount firstCopy copied hp hlt
    obtain ⟨hslot, hapart⟩ := hs.push_slot hcap.1 hp hlt
    rw [hslot]
    exact ⟨Nat.mod_lt _ hcap.1, fun i hi hin => hapart i hi (by omega)⟩
  · intro slots writeIndex hp hend
    obtain ⟨s', hrun, -, firstCopy, rfl⟩ := hs.push_load hcap.1 hp hend
    exact ⟨firstCopy, hrun⟩
  · intro output readIndex hc
    obtain ⟨s', hrun, -, firstCopy, rfl⟩ := hs.pop_load hcap.1 hc
    exact ⟨firstCopy, hrun⟩
  · intro slots writeIndex pushCount firstCopy copied hp hge htotal
    obtain ⟨s', hrun, -, hpushed, -⟩ := hs.push_store hp hge htotal
    exact ⟨s', hrun, hpushed⟩
  · intro output readIndex popCount firstCopy copied hc hge
    obtain ⟨s', hrun, -, hpopped, -⟩ := hs.pop_store hc hge
    exact ⟨s', hrun, hpopped⟩
  · intro e ha hend
    obtain ⟨r, s', hrun, -⟩ := hs.step hcap.1 ha hend
    rw [hrun]
    rfl

/-- `push` of what is free completes when it runs alone. -/
theorem Reachable.push_alone (hcap : 0 < capacity)
    (h : Reachable capacity (fun s e => s.BelowEnd capacity e) s) (slots : List T)
    (hidle : s.producer = .idle)
    (hfree : slots.length ≤ capacity - (s.ring.writeIndex - s.ring.readIndex))
    (hend : capacity + s.ring.readIndex < 2 ^ 64)
    (htotal : s.pushed.length + slots.length < 2 ^ 64) :
    ∃ s', Reachable capacity (fun s e => s.BelowEnd capacity e) s' ∧ s'.producer = .idle ∧
      s'.consumer = s.consumer ∧ s'.pushed = s.pushed ++ slots ∧ s'.popped = s.popped := by
  have h₁ : Reachable capacity (fun s e => s.BelowEnd capacity e)
      { s with producer := .push slots s.ring.writeIndex } :=
    .step (e := .push slots) h hidle nofun rfl
  obtain ⟨s₂, hrun₂, -, firstCopy, rfl⟩ := (h₁.sound hcap).push_load hcap rfl hend
  dsimp only at hrun₂
  rw [Nat.min_eq_left hfree] at hrun₂
  have h₂ := Reachable.step (e := .producer) h₁ ⟨nofun, by
    dsimp only [underWay]
    omega⟩ (fun _ _ _ _ => hend) hrun₂
  have hcopies : ∀ k ≤ slots.length, ∃ s',
      Reachable capacity (fun s e => s.BelowEnd capacity e) s' ∧
      s'.producer = .copy slots s.ring.writeIndex slots.length firstCopy k ∧
      s'.consumer = s.consumer ∧ s'.pushed = s.pushed ∧ s'.popped = s.popped := by
    intro k hk
    induction k with
    | zero => exact ⟨_, h₂, rfl, rfl, rfl, rfl⟩
    | succ k ih =>
      obtain ⟨s', h', hp, hc, hpushed, hpopped⟩ := ih (by omega)
      obtain ⟨s'', hrun, -, hp', hc', hpushed', hpopped'⟩ := (h'.sound hcap).push_copy hcap hp hk
      have h'' := Reachable.step (e := .producer) h' ⟨by rw [hp]; nofun, by
        rw [hp, hpushed]
        exact htotal⟩ (fun _ _ _ hpush => by
          rw [hp] at hpush
          cases hpush) hrun
      exact ⟨s'', h'', hp', hc'.trans hc, hpushed'.trans hpushed, hpopped'.trans hpopped⟩
  obtain ⟨s₃, h₃, hp, hc, hpushed, hpopped⟩ := hcopies slots.length (Nat.le_refl _)
  obtain ⟨s₄, hrun, -, hpushed', hidle', hc', hpopped'⟩ :=
    (h₃.sound hcap).push_store hp (Nat.lt_irrefl _) (by rw [hpushed]; exact htotal)
  have h₄ := Reachable.step (e := .producer) h₃ ⟨by rw [hp]; nofun, by
    rw [hp, hpushed]
    exact htotal⟩ (fun _ _ _ hpush => by
      rw [hp] at hpush
      cases hpush) hrun
  rw [hpushed, List.take_length] at hpushed'
  exact ⟨s₄, h₄, hidle', hc'.trans hc, hpushed', hpopped'.trans hpopped⟩

/-- `pop_into` of everything published completes when it runs alone. -/
theorem Reachable.pop_alone (hcap : 0 < capacity)
    (h : Reachable capacity (fun s e => s.BelowEnd capacity e) s) (output : List T)
    (hidle : s.consumer = .idle)
    (hall : output.length = s.ring.writeIndex - s.ring.readIndex) :
    ∃ s', Reachable capacity (fun s e => s.BelowEnd capacity e) s' ∧ s'.consumer = .idle ∧
      s'.producer = s.producer ∧ s'.pushed = s.pushed ∧ s'.popped.length = s.pushed.length := by
  have h₁ : Reachable capacity (fun s e => s.BelowEnd capacity e)
      { s with consumer := .popInto output s.ring.readIndex } :=
    .step (e := .popInto output) h hidle nofun rfl
  obtain ⟨s₂, hrun₂, -, firstCopy, rfl⟩ := (h₁.sound hcap).pop_load hcap rfl
  dsimp only at hrun₂
  rw [← hall, Nat.min_self] at hrun₂
  have h₂ := Reachable.step (e := .consumer) h₁ nofun nofun hrun₂
  have hcopies : ∀ k ≤ output.length, ∃ s' output',
      Reachable capacity (fun s e => s.BelowEnd capacity e) s' ∧
      s'.consumer = .copy output' s.ring.readIndex output.length firstCopy k ∧
      output'.length = output.length ∧ s'.producer = s.producer ∧ s'.pushed = s.pushed ∧
      s'.popped = s.popped := by
    intro k hk
    induction k with
    | zero => exact ⟨_, output, h₂, rfl, rfl, rfl, rfl, rfl⟩
    | succ k ih =>
      obtain ⟨s', out, h', hc, hlen, hp, hpushed, hpopped⟩ := ih (by omega)
      obtain ⟨s'', out', hrun, -, hc', hlen', hp', hpushed', hpopped'⟩ :=
        (h'.sound hcap).pop_copy hcap hc hk
      have h'' := Reachable.step (e := .consumer) h' (by rw [Allowed, hc]; nofun) nofun hrun
      exact ⟨s'', out', h'', hc', hlen'.trans hlen, hp'.trans hp, hpushed'.trans hpushed,
        hpopped'.trans hpopped⟩
  obtain ⟨s₃, out, h₃, hc, hlen, hp, hpushed, hpopped⟩ := hcopies output.length (Nat.le_refl _)
  obtain ⟨s₄, hrun, -, hpopped', hidle', hp', hpushed'⟩ :=
    (h₃.sound hcap).pop_store hc (Nat.lt_irrefl _)
  have h₄ := Reachable.step (e := .consumer) h₃ (by rw [Allowed, hc]; nofun) nofun hrun
  refine ⟨s₄, h₄, hidle', hp'.trans hp, hpushed'.trans hpushed, ?_⟩
  have hs := h.sound hcap
  have horder := hs.order
  rw [hpopped', hpopped, List.length_append, List.length_take, hlen, hall, ← hs.read, ← hs.written]
  omega

end Runs

/-- A push of three slots to a buffer of two takes two, and one of them is popped while the next
push waits at its load. -/
theorem reachable_buffer_waiting :
    ∃ s : System ℕ, s.pushed = [1, 2] ∧ s.popped = [1] ∧ s.producer = .push [4] 2 ∧
      s.popped <+: s.pushed := by
  have h₁ : Reachable 2 (fun s e => s.BelowEnd 2 e) _ :=
    .step (e := .push [1, 2, 3]) (.new : Reachable 2 _ (new : System ℕ)) rfl nofun rfl
  have h₂ := Reachable.step (e := .producer) h₁ ⟨nofun, by decide⟩ (fun _ _ _ _ => by decide) rfl
  have h₃ := Reachable.step (e := .producer) h₂ ⟨nofun, by decide⟩ (fun _ _ _ _ => by decide) rfl
  have h₄ := Reachable.step (e := .producer) h₃ ⟨nofun, by decide⟩ (fun _ _ _ _ => by decide) rfl
  have h₅ := Reachable.step (e := .producer) h₄ ⟨nofun, by decide⟩ (fun _ _ _ _ => by decide) rfl
  have h₆ := Reachable.step (e := .push [4]) h₅ rfl nofun rfl
  have h₇ := Reachable.step (e := .pop 1) h₆ rfl nofun rfl
  have h₈ := Reachable.step (e := .consumer) h₇ nofun nofun rfl
  have h₉ := Reachable.step (e := .consumer) h₈ nofun nofun rfl
  have h₁₀ := Reachable.step (e := .consumer) h₉ nofun nofun rfl
  exact ⟨_, rfl, rfl, rfl, (reachable_buffer ⟨by decide, by decide⟩ h₁₀).1⟩

/-- Behind `2 ^ 63` slots that are pushed and popped again, the next push leaves the index type at
its load. -/
theorem push_overflows :
    ∃ s : System Unit, Reachable (2 ^ 63) (fun _ _ => True) s ∧ s.producer = .push [()] (2 ^ 63) ∧
      s.ring.readIndex = 2 ^ 63 ∧ s.ring.writeIndex = 2 ^ 63 ∧ s.pushed.length + 1 < 2 ^ 64 ∧
      s.Allowed .producer ∧ s.step (2 ^ 63) .producer = none := by
  have hcap : 0 < 2 ^ 63 := by decide
  have hlen : (List.replicate (2 ^ 63) ()).length = 2 ^ 63 := List.length_replicate
  obtain ⟨s₁, h₁, hp₁, hc₁, hpushed₁, hpopped₁⟩ := Reachable.push_alone hcap
    (.new : Reachable (2 ^ 63) (fun s e => s.BelowEnd (2 ^ 63) e) (new : System Unit))
    (List.replicate (2 ^ 63) ()) rfl (by rw [hlen]; decide) (by decide) (by rw [hlen]; decide)
  have hs₁ := h₁.sound hcap
  have hw₁ : s₁.ring.writeIndex = 2 ^ 63 := by rw [hs₁.written, hpushed₁, new, List.nil_append, hlen]
  have hr₁ : s₁.ring.readIndex = 0 := by rw [hs₁.read, hpopped₁, new, List.length_nil]
  obtain ⟨s₂, h₂, hc₂, hp₂, hpushed₂, hpopped₂⟩ := h₁.pop_alone hcap (List.replicate (2 ^ 63) ()) hc₁
    (by rw [hlen, hw₁, hr₁, Nat.sub_zero])
  have hs₂ := h₂.sound hcap
  have hall : s₂.pushed.length = 2 ^ 63 := by rw [hpushed₂, ← hs₁.written, hw₁]
  have hw₂ : s₂.ring.writeIndex = 2 ^ 63 := hs₂.written.trans hall
  have hr₂ : s₂.ring.readIndex = 2 ^ 63 := by rw [hs₂.read, hpopped₂, ← hs₁.written, hw₁]
  refine ⟨{ s₂ with producer := .push [()] s₂.ring.writeIndex },
    .step (e := .push [()]) (h₂.imp fun _ _ _ => trivial) (hp₂.trans hp₁) trivial rfl, ?_, hr₂, hw₂,
    ?_, ⟨nofun, ?_⟩, ?_⟩
  · rw [hw₂]
  · rw [hall]
    decide
  · dsimp only [underWay]
    rw [hall]
    decide
  · have hfull : checkedAdd (2 ^ 63) s₂.ring.readIndex = none := by
      rw [hr₂]
      decide
    rw [step, stepProducer]
    dsimp only [bind, Option.bind]
    rw [hfull]


end System


end Ruzu.Spsc
