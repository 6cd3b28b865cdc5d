import Mathlib
import Ruzu.Lib.BTreeMap
import Ruzu.Lib.DoublyLinked

/-!
# The priority queue of the scheduler

`k_priority_queue.rs`: for each core and priority a list of the threads that
are scheduled on the core and a list of those that are suggested to it. The
links of a thread are kept beside its properties, one node a core. `none`
stands for an index outside an array.
-/

set_option autoImplicit false

namespace Ruzu.PriorityQueue

open DoublyLinked

def numPriority : ℕ := 64
def numCores : ℕ := 4
def lowestPriority : ℤ := 63
def highestPriority : ℤ := 0

def IsValidCore (core : ℤ) : Prop := 0 ≤ core ∧ core < numCores

def IsValidPriority (priority : ℤ) : Prop :=
  highestPriority ≤ priority ∧ priority ≤ lowestPriority + 1

instance (core : ℤ) : Decidable (IsValidCore core) := inferInstanceAs (Decidable (_ ∧ _))

instance (p : ℤ) : Decidable (IsValidPriority p) :=
  inferInstanceAs (Decidable (_ ∧ _))

/-- `core as usize`, as an index of an array with an element a core. -/
def coreIndex (core : ℤ) : Option (Fin numCores) :=
  if h : 0 ≤ core ∧ core < numCores then some ⟨core.toNat, by omega⟩ else none

/-- `priority as usize`, as an index of the queues. -/
def priorityIndex (priority : ℤ) : Option (Fin numPriority) :=
  if h : 0 ≤ priority ∧ priority < numPriority then some ⟨priority.toNat, by omega⟩ else none

/-! ### Bit sets -/

structure BitSet64 where
  bits : BitVec 64

def leadingZeros (bits : BitVec 64) : ℕ := 63 - Nat.log2 bits.toNat

namespace BitSet64

def new : BitSet64 := ⟨0⟩

/-- The bits are stored from the most significant one on. -/
def setBit (b : BitSet64) (bit : ℕ) : BitSet64 := ⟨b.bits ||| 1#64 <<< (63 - bit)⟩

def clearBit (b : BitSet64) (bit : ℕ) : BitSet64 := ⟨b.bits &&& ~~~(1#64 <<< (63 - bit))⟩

def countLeadingZero (b : BitSet64) : ℕ := if b.bits = 0 then 64 else leadingZeros b.bits

def getNextSet (b : BitSet64) (bit : ℤ) : ℕ :=
  let shift := 63 - bit
  let masked := if shift ≤ 0 then 0 else b.bits &&& (1#64 <<< shift.toNat - 1)
  if masked = 0 then 64 else leadingZeros masked

end BitSet64

/-! ### Members -/

abbrev QueueEntry := Node ℕ

/-- The counter of the process is shared, so it is known by its number. -/
structure ThreadProps where
  priority : ℤ
  activeCore : ℤ
  affinity : BitVec 64
  isDummy : Bool
  lastScheduledTick : ℤ
  processScheduleCount : Option ℕ

structure MemberSlot where
  entries : Fin numCores → QueueEntry
  props : ThreadProps

def MemberSlot.new (props : ThreadProps) : MemberSlot := ⟨fun _ => ⟨none, none⟩, props⟩

abbrev MemberMap := BTreeMap ℕ MemberSlot

/-- A write to the entry behind a link, if both are there. -/
def writeEntry (c : Fin numCores) (link : Option ℕ) (f : QueueEntry → QueueEntry)
    (members : MemberMap) : MemberMap :=
  match link with
  | none => members
  | some id =>
    members.modify id fun slot =>
      { slot with entries := Function.update slot.entries c (f (slot.entries c)) }

def entryOf (c : Fin numCores) (members : MemberMap) (id : ℕ) : Option QueueEntry :=
  (members.get id).map fun slot => slot.entries c

/-! ### One list for each core -/

structure KPerCoreQueue where
  roots : Fin numCores → QueueEntry

namespace KPerCoreQueue

def new : KPerCoreQueue := ⟨fun _ => ⟨none, none⟩⟩

def setRoot (q : KPerCoreQueue) (c : Fin numCores) (root : QueueEntry) : KPerCoreQueue :=
  ⟨Function.update q.roots c root⟩

def getFront (q : KPerCoreQueue) (c : Fin numCores) : Option ℕ := (q.roots c).next

/-- The queue, the entries and whether the list was empty. -/
def pushBack (q : KPerCoreQueue) (c : Fin numCores) (id : ℕ) (members : MemberMap) :
    KPerCoreQueue × MemberMap × Bool :=
  let root := q.roots c
  match members.get id with
  | none => (q, members, false)
  | some _ =>
    let members := writeEntry c (some id) (fun _ => ⟨root.prev, none⟩) members
    let members := writeEntry c root.prev (setNext (some id)) members
    let next := if root.prev = none then some id else root.next
    (q.setRoot c ⟨some id, next⟩, members, root.prev.isNone)

def pushFront (q : KPerCoreQueue) (c : Fin numCores) (id : ℕ) (members : MemberMap) :
    KPerCoreQueue × MemberMap × Bool :=
  let root := q.roots c
  match members.get id with
  | none => (q, members, false)
  | some _ =>
    let members := writeEntry c (some id) (fun _ => ⟨none, root.next⟩) members
    let members := writeEntry c root.next (setPrev (some id)) members
    let prev := if root.next = none then some id else root.prev
    (q.setRoot c ⟨prev, some id⟩, members, root.next.isNone)

/-- The links of a member, none for a member that is not known. -/
def links (c : Fin numCores) (members : MemberMap) (id : ℕ) : QueueEntry :=
  (entryOf c members id).getD ⟨none, none⟩

/-- Both neighbours, or the root at an end, point at the member. -/
def memberIsLinked (q : KPerCoreQueue) (c : Fin numCores) (id : ℕ) (members : MemberMap) : Bool :=
  let root := q.roots c
  let e := links c members id
  let before := match e.prev with
    | none => root.next
    | some p => (entryOf c members p).bind Node.next
  let after := match e.next with
    | none => root.prev
    | some n => (entryOf c members n).bind Node.prev
  before = some id && after = some id

/-- The queue, the entries and whether the list is empty now. -/
def remove (q : KPerCoreQueue) (c : Fin numCores) (id : ℕ) (members : MemberMap) :
    KPerCoreQueue × MemberMap × Bool :=
  let root := q.roots c
  let e := links c members id
  if q.memberIsLinked c id members then
    let members := writeEntry c e.prev (setNext e.next) members
    let members := writeEntry c e.next (setPrev e.prev) members
    let prev := if e.next = none then e.prev else root.prev
    let next := if e.prev = none then e.next else root.next
    (q.setRoot c ⟨prev, next⟩, members, next.isNone)
  else (q, members, root.next.isNone)

/-- What the properties say about a list: the priority, the core and on which side of it. -/
def belongs (c : Fin numCores) (priority : ℤ) (scheduled : Bool) (slot : MemberSlot) : Bool :=
  slot.props.priority = priority && slot.props.affinity.getLsbD c &&
    (decide (slot.props.activeCore = (c : ℕ)) == scheduled)

/-- The walk from the root: the members passed so far, and those of them that are kept. -/
def keptFrom (c : Fin numCores) (keeps : ℕ → Bool) (members : MemberMap) :
    ℕ → Option ℕ → List ℕ → List ℕ → List ℕ
  | 0, _, _, kept => kept
  | _ + 1, none, _, kept => kept
  | limit + 1, some id, seen, kept =>
    if seen.contains id then kept
    else
      keptFrom c keeps members limit ((entryOf c members id).bind Node.next) (seen ++ [id])
        (if keeps id then kept ++ [id] else kept)

/-- The second pass, over the members in the order of the map: those that belong to the list and
touch the removed member or its old end. -/
def keptBeside (c : Fin numCores) (id : ℕ) (oldTail : Option ℕ) (belongsTo : MemberSlot → Bool)
    (members : MemberMap) (order : List ℕ) (kept : List ℕ) : List ℕ :=
  order.foldl (fun kept x =>
    match members.get x with
    | none => kept
    | some slot =>
      if x = id ∨ kept.contains x ∨ ¬belongsTo slot then kept
      else if oldTail = some x ∨ (slot.entries c).prev = some id ∨ (slot.entries c).next = some id
      then kept ++ [x]
      else kept) kept

/-- `order` is the order in which the map yields its keys. -/
def removeAllMatching (order : List ℕ → List ℕ) (q : KPerCoreQueue) (c : Fin numCores)
    (priority : ℤ) (scheduled : Bool) (id : ℕ) (members : MemberMap) :
    KPerCoreQueue × MemberMap × Bool :=
  let root := q.roots c
  let belongsTo := belongs c priority scheduled
  let keeps := fun x => x ≠ id && (members.get x).any belongsTo
  let kept := keptFrom c keeps members (members.len + 1) root.next [] []
  let kept := keptBeside c id root.prev belongsTo members
    (order (members.entries.map Prod.fst)) kept
  let members := kept.zipIdx.foldl (fun members q => writeEntry c (some q.1) (fun _ =>
    ⟨if q.2 = 0 then none else kept[q.2 - 1]?, kept[q.2 + 1]?⟩) members) members
  let members := writeEntry c (some id) (fun _ => ⟨none, none⟩) members
  (q.setRoot c ⟨kept.getLast?, kept.head?⟩, members, kept.head?.isNone)

end KPerCoreQueue

/-! ### The lists of all priorities -/

structure KPriorityQueueImpl where
  queues : Fin numPriority → KPerCoreQueue
  availablePriorities : Fin numCores → BitSet64

/-- What is done to the lists and the entries together. -/
abbrev QueueOp := KPriorityQueueImpl → MemberMap → Option (KPriorityQueueImpl × MemberMap)

namespace KPriorityQueueImpl

def new : KPriorityQueueImpl := ⟨fun _ => .new, fun _ => .new⟩

def setQueue (impl : KPriorityQueueImpl) (p : Fin numPriority) (q : KPerCoreQueue) :
    KPriorityQueueImpl :=
  { impl with queues := Function.update impl.queues p q }

def setAvailable (impl : KPriorityQueueImpl) (c : Fin numCores) (b : BitSet64) :
    KPriorityQueueImpl :=
  { impl with availablePriorities := Function.update impl.availablePriorities c b }

def pushBack (priority core : ℤ) (id : ℕ) : QueueOp := fun impl members =>
  if priority > lowestPriority then some (impl, members)
  else do
    let p ← priorityIndex priority
    let c ← coreIndex core
    let (q, members, wasEmpty) := (impl.queues p).pushBack c id members
    let impl := impl.setQueue p q
    if wasEmpty then
      some (impl.setAvailable c ((impl.availablePriorities c).setBit p), members)
    else some (impl, members)

def pushFront (priority core : ℤ) (id : ℕ) : QueueOp := fun impl members =>
  if priority > lowestPriority then some (impl, members)
  else do
    let p ← priorityIndex priority
    let c ← coreIndex core
    let (q, members, wasEmpty) := (impl.queues p).pushFront c id members
    let impl := impl.setQueue p q
    if wasEmpty then
      some (impl.setAvailable c ((impl.availablePriorities c).setBit p), members)
    else some (impl, members)

def remove (priority core : ℤ) (id : ℕ) : QueueOp := fun impl members =>
  if priority > lowestPriority then some (impl, members)
  else do
    let p ← priorityIndex priority
    let c ← coreIndex core
    let (q, members, isEmpty) := (impl.queues p).remove c id members
    let impl := impl.setQueue p q
    if isEmpty then
      some (impl.setAvailable c ((impl.availablePriorities c).clearBit p), members)
    else some (impl, members)

/-- The queues are indexed without the check that the other operations make. -/
def removeAllMatching (order : List ℕ → List ℕ) (priority core : ℤ) (scheduled : Bool) (id : ℕ) :
    QueueOp := fun impl members => do
  let p ← priorityIndex priority
  let c ← coreIndex core
  let (q, members, isEmpty) :=
    (impl.queues p).removeAllMatching order c priority scheduled id members
  let impl := impl.setQueue p q
  if isEmpty then
    some (impl.setAvailable c ((impl.availablePriorities c).clearBit p), members)
  else some (impl, members)

def getFront (impl : KPriorityQueueImpl) (core : ℤ) : Option (Option ℕ) := do
  let c ← coreIndex core
  let priority : ℤ := (impl.availablePriorities c).countLeadingZero
  if priority ≤ lowestPriority then
    let p ← priorityIndex priority
    some ((impl.queues p).getFront c)
  else some none

def getFrontAtPriority (impl : KPriorityQueueImpl) (priority core : ℤ) : Option (Option ℕ) :=
  if priority ≤ lowestPriority then do
    let p ← priorityIndex priority
    let c ← coreIndex core
    some ((impl.queues p).getFront c)
  else some none

def getNext (impl : KPriorityQueueImpl) (core : ℤ) (id : ℕ) (memberPriority : ℤ)
    (members : MemberMap) : Option (Option ℕ) := do
  let c ← coreIndex core
  match (entryOf c members id).bind Node.next with
  | some next => some (some next)
  | none =>
    let nextPriority : ℤ := (impl.availablePriorities c).getNextSet memberPriority
    if nextPriority ≤ lowestPriority then
      let p ← priorityIndex nextPriority
      some ((impl.queues p).getFront c)
    else some none

def moveToFront (priority core : ℤ) (id : ℕ) : QueueOp := fun impl members =>
  if priority ≤ lowestPriority then do
    let p ← priorityIndex priority
    let c ← coreIndex core
    let (q, members, _) := (impl.queues p).remove c id members
    let (q, members, _) := q.pushFront c id members
    some (impl.setQueue p q, members)
  else some (impl, members)

/-- The lists and entries, and the front of the list. -/
def moveToBack (priority core : ℤ) (id : ℕ) (impl : KPriorityQueueImpl) (members : MemberMap) :
    Option ((KPriorityQueueImpl × MemberMap) × Option ℕ) :=
  if priority ≤ lowestPriority then do
    let p ← priorityIndex priority
    let c ← coreIndex core
    let (q, members, _) := (impl.queues p).remove c id members
    let (q, members, _) := q.pushBack c id members
    some ((impl.setQueue p q, members), q.getFront c)
  else some ((impl, members), none)

end KPriorityQueueImpl

/-! ### The queue -/

structure KPriorityQueue where
  scheduledQueue : KPriorityQueueImpl
  suggestedQueue : KPriorityQueueImpl
  members : MemberMap

def clearAffinityBit (affinity : BitVec 64) (core : ℤ) : BitVec 64 :=
  affinity &&& ~~~(1#64 <<< core.toNat)

/-- The cores that `get_next_core` takes off the mask, one after the other. -/
def coresOf (affinity : BitVec 64) : List ℤ :=
  ((List.range 64).filter fun i => affinity.getLsbD i).map fun (i : ℕ) => (i : ℤ)

namespace KPriorityQueue

def new : KPriorityQueue := ⟨.new, .new, BTreeMap.empty⟩

def getThreadProps (s : KPriorityQueue) (id : ℕ) : Option ThreadProps :=
  (s.members.get id).map MemberSlot.props

def setLastScheduledTick (s : KPriorityQueue) (id : ℕ) (tick : ℤ) : KPriorityQueue :=
  { s with members := s.members.modify id fun slot =>
      { slot with props := { slot.props with lastScheduledTick := tick } } }

def impl (s : KPriorityQueue) (scheduled : Bool) : KPriorityQueueImpl :=
  if scheduled then s.scheduledQueue else s.suggestedQueue

/-- An operation on the scheduled or the suggested lists. -/
def on (scheduled : Bool) (op : QueueOp) (s : KPriorityQueue) : Option KPriorityQueue := do
  let (impl, members) ← op (s.impl scheduled) s.members
  if scheduled then some { s with scheduledQueue := impl, members := members }
  else some { s with suggestedQueue := impl, members := members }

/-- The shape of the `_impl` functions: one operation for the scheduled list of the active core,
one for the suggested lists of the other cores. -/
def onQueues (scheduled suggested : ℤ → QueueOp) (activeCore : ℤ) (affinity : BitVec 64)
    (s : KPriorityQueue) : Option KPriorityQueue := do
  let s ← if activeCore ≥ 0 then s.on true (scheduled activeCore) else some s
  let affinity := if activeCore ≥ 0 then clearAffinityBit affinity activeCore else affinity
  (coresOf affinity).foldlM (fun s core => s.on false (suggested core)) s

def pushBackImpl (priority : ℤ) (id : ℕ) : ℤ → BitVec 64 → KPriorityQueue → Option KPriorityQueue :=
  onQueues (fun core => KPriorityQueueImpl.pushBack priority core id)
    fun core => KPriorityQueueImpl.pushBack priority core id

/-- The suggested queues get the thread at the back here as well. -/
def pushFrontImpl (priority : ℤ) (id : ℕ) :
    ℤ → BitVec 64 → KPriorityQueue → Option KPriorityQueue :=
  onQueues (fun core => KPriorityQueueImpl.pushFront priority core id)
    fun core => KPriorityQueueImpl.pushBack priority core id

def removeImpl (priority : ℤ) (id : ℕ) : ℤ → BitVec 64 → KPriorityQueue → Option KPriorityQueue :=
  onQueues (fun core => KPriorityQueueImpl.remove priority core id)
    fun core => KPriorityQueueImpl.remove priority core id

def removeAllExpectedImpl (order : List ℕ → List ℕ) (priority : ℤ) (id : ℕ) :
    ℤ → BitVec 64 → KPriorityQueue → Option KPriorityQueue :=
  onQueues (fun core => KPriorityQueueImpl.removeAllMatching order priority core true id)
    fun core => KPriorityQueueImpl.removeAllMatching order priority core false id

/-- The properties of a known member, a new slot for an unknown one. -/
def setProps (id : ℕ) (props : ThreadProps) (s : KPriorityQueue) : KPriorityQueue :=
  match s.members.get id with
  | some _ => { s with members := s.members.modify id fun slot => { slot with props := props } }
  | none => { s with members := s.members.insert id (.new props) }

/-- The part that the two pushes share: the member leaves its lists and gets its properties. -/
def enter (id : ℕ) (props : ThreadProps) (s : KPriorityQueue) : Option KPriorityQueue := do
  let s ← match s.getThreadProps id with
    | some existing => s.removeImpl existing.priority id existing.activeCore existing.affinity
    | none => some s
  some (s.setProps id props)

def pushBack (s : KPriorityQueue) (id : ℕ) (priority activeCore : ℤ) (affinity : BitVec 64)
    (isDummy : Bool) (processScheduleCount : Option ℕ) : Option KPriorityQueue :=
  if isDummy then some s
  else do
    let s ← s.enter id ⟨priority, activeCore, affinity, isDummy, 0, processScheduleCount⟩
    s.pushBackImpl priority id activeCore affinity

def pushFront (s : KPriorityQueue) (id : ℕ) (priority activeCore : ℤ) (affinity : BitVec 64)
    (isDummy : Bool) (processScheduleCount : Option ℕ) : Option KPriorityQueue :=
  if isDummy then some s
  else do
    let s ← s.enter id ⟨priority, activeCore, affinity, isDummy, 0, processScheduleCount⟩
    s.pushFrontImpl priority id activeCore affinity

/-- What the queue knows about a member goes before what the caller says. -/
def effective (s : KPriorityQueue) (id : ℕ) (priority activeCore : ℤ) (affinity : BitVec 64) :
    ℤ × ℤ × BitVec 64 :=
  match s.getThreadProps id with
  | some props => (props.priority, props.activeCore, props.affinity)
  | none => (priority, activeCore, affinity)

def remove (order : List ℕ → List ℕ) (s : KPriorityQueue) (id : ℕ) (priority activeCore : ℤ)
    (affinity : BitVec 64) (isDummy : Bool) : Option KPriorityQueue :=
  if isDummy then some s
  else do
    let (priority, activeCore, affinity) := s.effective id priority activeCore affinity
    let s ← s.removeImpl priority id activeCore affinity
    let s ← s.removeAllExpectedImpl order priority id activeCore affinity
    some { s with members := s.members.remove id }

def moveToScheduledFront (s : KPriorityQueue) (id : ℕ) (priority activeCore : ℤ)
    (isDummy : Bool) : Option KPriorityQueue :=
  if isDummy then some s
  else
    let (priority, activeCore, _) := s.effective id priority activeCore 0
    s.on true (KPriorityQueueImpl.moveToFront priority activeCore id)

def moveToScheduledBack (s : KPriorityQueue) (id : ℕ) (priority activeCore : ℤ)
    (isDummy : Bool) : Option (KPriorityQueue × Option ℕ) :=
  if isDummy then some (s, none)
  else do
    let (priority, activeCore, _) := s.effective id priority activeCore 0
    let ((impl, members), front) ←
      KPriorityQueueImpl.moveToBack priority activeCore id s.scheduledQueue s.members
    some ({ s with scheduledQueue := impl, members := members }, front)

def changePriority (s : KPriorityQueue) (prevPriority : ℤ) (isRunning : Bool) (id : ℕ)
    (newPriority activeCore : ℤ) (affinity : BitVec 64) (isDummy : Bool) :
    Option KPriorityQueue :=
  if isDummy then some s
  else do
    let (_, activeCore, affinity) := s.effective id prevPriority activeCore affinity
    let s ← s.removeImpl prevPriority id activeCore affinity
    let s ← if isRunning then s.pushFrontImpl newPriority id activeCore affinity
      else s.pushBackImpl newPriority id activeCore affinity
    some { s with members := s.members.modify id fun slot =>
      { slot with props := { slot.props with priority := newPriority } } }

/-- One operation for each core of the mask, on the scheduled lists of the one core and the
suggested lists of the others. -/
def onCores (op : ℤ → QueueOp) (activeCore : ℤ) (affinity : BitVec 64) (s : KPriorityQueue) :
    Option KPriorityQueue :=
  (List.range numCores).foldlM (fun s i =>
    if affinity.getLsbD i then s.on (decide ((i : ℤ) = activeCore)) (op i) else some s) s

def changeAffinityMask (s : KPriorityQueue) (prevCore : ℤ) (prevAffinity : BitVec 64) (id : ℕ)
    (newCore : ℤ) (newAffinity : BitVec 64) (priority : ℤ) (isDummy : Bool) :
    Option KPriorityQueue :=
  if isDummy then some s
  else do
    let s ← s.onCores (fun core => KPriorityQueueImpl.remove priority core id)
      prevCore prevAffinity
    let s ← s.onCores (fun core => KPriorityQueueImpl.pushBack priority core id)
      newCore newAffinity
    some { s with members := s.members.modify id fun slot =>
      { slot with props := { slot.props with activeCore := newCore, affinity := newAffinity } } }

/-- The three parts of a change of core: off the scheduled list of the old core, from the
suggested to the scheduled list of the new one, onto the suggested list of the old one. -/
def leaveCore (order : List ℕ → List ℕ) (priority prevCore : ℤ) (id : ℕ) (s : KPriorityQueue) :
    Option KPriorityQueue :=
  if prevCore ≥ 0 then
    s.on true (KPriorityQueueImpl.removeAllMatching order priority prevCore true id)
  else some s

def enterCore (priority newCore : ℤ) (id : ℕ) (toFront : Bool) (s : KPriorityQueue) :
    Option KPriorityQueue :=
  if newCore ≥ 0 then do
    let s ← s.on false (KPriorityQueueImpl.remove priority newCore id)
    s.on true (if toFront then KPriorityQueueImpl.pushFront priority newCore id
      else KPriorityQueueImpl.pushBack priority newCore id)
  else some s

def suggestCore (priority prevCore : ℤ) (id : ℕ) (s : KPriorityQueue) : Option KPriorityQueue :=
  if prevCore ≥ 0 then s.on false (KPriorityQueueImpl.pushBack priority prevCore id) else some s

def changeCore (order : List ℕ → List ℕ) (s : KPriorityQueue) (prevCore : ℤ) (id : ℕ)
    (newCore priority : ℤ) (isDummy toFront : Bool) : Option KPriorityQueue :=
  if isDummy then some s
  else if prevCore = newCore then some s
  else do
    let s ← s.leaveCore order priority prevCore id
    let s ← s.enterCore priority newCore id toFront
    let s ← s.suggestCore priority prevCore id
    some { s with members := s.members.modify id fun slot =>
      { slot with props := { slot.props with activeCore := newCore } } }

def getFront (s : KPriorityQueue) (scheduled : Bool) (core : ℤ) : Option (Option ℕ) :=
  (s.impl scheduled).getFront core

def getFrontAtPriority (s : KPriorityQueue) (scheduled : Bool) (core priority : ℤ) :
    Option (Option ℕ) :=
  (s.impl scheduled).getFrontAtPriority priority core

def getNext (s : KPriorityQueue) (scheduled : Bool) (core : ℤ) (id : ℕ) (memberPriority : ℤ) :
    Option (Option ℕ) :=
  (s.impl scheduled).getNext core id memberPriority s.members

def getSamePriorityNext (s : KPriorityQueue) (core : ℤ) (id : ℕ) : Option (Option ℕ) :=
  match s.members.get id with
  | none => some none
  | some slot => (coreIndex core).map fun c => (slot.entries c).next

end KPriorityQueue

end Ruzu.PriorityQueue
