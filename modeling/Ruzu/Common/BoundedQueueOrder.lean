import Mathlib
import Ruzu.Common.BoundedQueueLocks

/-!
# The order of values in a bounded queue

The history says which values have been written to a slot, how many of them
are published, which have been taken from a slot and how many are given back.
The live slots are those between the values taken and the values written; they
hold the written values in order.
-/

set_option autoImplicit false

namespace Ruzu.BoundedQueue

variable {α : Type} {cfg : Config} {s s' : State α} {t u v : ℕ} {e : Effect α} {pc pc' : Pc α}
variable {es : List (Event α)}

def wrote (es : List (Event α)) : List α := es.filterMap fun | .wrote v => some v | _ => none
def took (es : List (Event α)) : List α := es.filterMap fun | .took v => some v | _ => none
def published (es : List (Event α)) : ℕ := es.countP fun | .published => true | _ => false
def consumed (es : List (Event α)) : ℕ := es.countP fun | .consumed => true | _ => false

/-! ### Indices -/

theorem Config.capacity_pos (cfg : Config) : 0 < cfg.capacity := Nat.two_pow_pos cfg.log

theorem Config.capacity_lt (cfg : Config) : cfg.capacity < 2 ^ 64 :=
  Nat.pow_lt_pow_right (by decide) cfg.small

/-- The position of an index does not depend on the wraps of the index. -/
theorem Config.position (cfg : Config) (n : ℕ) :
    (BitVec.ofNat 64 n).toNat % cfg.capacity = n % cfg.capacity := by
  rw [BitVec.toNat_ofNat]
  exact Nat.mod_mod_of_dvd n (Nat.pow_dvd_pow 2 (Nat.le_of_lt cfg.small))

theorem full_iff {w r : ℕ} (hr : s.readIndex = BitVec.ofNat 64 r) (hle : r ≤ w)
    (hw : w ≤ r + cfg.capacity) :
    s.full cfg (BitVec.ofNat 64 w) = true ↔ w = r + cfg.capacity := by
  obtain ⟨d, rfl⟩ := Nat.exists_eq_add_of_le hle
  have hsub : BitVec.ofNat 64 (r + d) - BitVec.ofNat 64 r = BitVec.ofNat 64 d := by
    bv_omega
  have hcap := cfg.capacity_lt
  rw [State.full, hr, hsub, beq_iff_eq]
  constructor
  · intro he
    have hnat := congrArg BitVec.toNat he
    rw [BitVec.toNat_ofNat, BitVec.toNat_ofNat, Nat.mod_eq_of_lt (by omega),
      Nat.mod_eq_of_lt hcap] at hnat
    omega
  · intro he
    rw [show d = cfg.capacity by omega]

theorem empty_iff (cfg : Config) {w r : ℕ} (hi : s.writeIndex = BitVec.ofNat 64 w) (hle : r ≤ w)
    (hw : w ≤ r + cfg.capacity) : s.empty (BitVec.ofNat 64 r) = true ↔ r = w := by
  have hcap := cfg.capacity_lt
  rw [State.empty, hi, beq_iff_eq]
  constructor
  · intro he
    obtain ⟨d, rfl⟩ := Nat.exists_eq_add_of_le hle
    have hzero : BitVec.ofNat 64 d = 0 := by
      bv_omega
    have hnat := congrArg BitVec.toNat hzero
    rw [BitVec.toNat_ofNat, Nat.mod_eq_of_lt (by omega)] at hnat
    exact (Nat.add_eq_left.mpr hnat).symm
  · rintro rfl
    rfl

theorem mod_ne {i j n : ℕ} (hlt : i < j) (hn : j < i + n) : i % n ≠ j % n := by
  intro he
  have hzero := Nat.sub_mod_eq_zero_of_mod_eq he.symm
  rw [Nat.mod_eq_of_lt (by omega)] at hzero
  omega

/-! ### What a place in the code knows -/

/-- The write index a thread has loaded. -/
def Pc.localWrite : Pc α → Option (BitVec 64)
  | .checkRoom _ _ w | .lockProducerCv _ w | .checkFull _ w | .producerToSleep _ w => some w
  | .producerAsleep _ w | .unlockProducerCv _ w | .writeSlot _ w | .storeWriteIndex w => some w
  | _ => none

def Pc.localRead : Pc α → Option (BitVec 64)
  | .checkItem _ r | .lockConsumerCv _ r | .checkStop r | .checkEmpty _ r => some r
  | .consumerToSleep _ r | .consumerAsleep _ r | .recheckStop r | .recheckEmpty r => some r
  | .unlockConsumerCv r | .readSlot r | .storeReadIndex r => some r
  | _ => none

def Pc.hasRoom : Pc α → Bool
  | .unlockProducerCv _ _ | .writeSlot _ _ => true
  | _ => false

def Pc.hasItem : Pc α → Bool
  | .unlockConsumerCv _ | .readSlot _ => true
  | _ => false

/-- Between writing a slot and storing the index. -/
def Pc.unpublished : Pc α → Bool
  | .storeWriteIndex _ => true
  | _ => false

def Pc.unconsumed : Pc α → Bool
  | .storeReadIndex _ => true
  | _ => false

def Pc.atRecheck : Pc α → Bool
  | .recheckStop _ => true
  | _ => false

/-- What a thread may rely on where it stands. -/
structure Knows (cfg : Config) (es : List (Event α)) (s : State α) (pc : Pc α) : Prop where
  localWrite : ∀ w, pc.localWrite = some w → w = BitVec.ofNat 64 (published es)
  localRead : ∀ r, pc.localRead = some r → r = BitVec.ofNat 64 (consumed es)
  room : pc.hasRoom = true → published es < consumed es + cfg.capacity
  item : pc.hasItem = true → consumed es < published es
  recheck : pc.atRecheck = true → s.shouldStop = true ∨ consumed es < published es
  writing : pc.unpublished = true → (wrote es).length = published es + 1
  taking : pc.unconsumed = true → (took es).length = consumed es + 1

structure Ordered (cfg : Config) (es : List (Event α)) (s : State α) : Prop where
  writeIndex : s.writeIndex = BitVec.ofNat 64 (published es)
  readIndex : s.readIndex = BitVec.ofNat 64 (consumed es)
  knows : ∀ t, Knows cfg es s (s.pc t)
  written : (∀ t, (s.pc t).unpublished = false) → (wrote es).length = published es
  taken : (∀ t, (s.pc t).unconsumed = false) → (took es).length = consumed es
  bounds : consumed es ≤ (took es).length ∧ (took es).length ≤ published es ∧
    published es ≤ (wrote es).length ∧ (wrote es).length ≤ consumed es + cfg.capacity
  inOrder : took es <+: wrote es
  live : ∀ i, (took es).length ≤ i → (h : i < (wrote es).length) →
    s.data (i % cfg.capacity) = some (wrote es)[i]
  dead : ∀ i, (wrote es).length ≤ i → i < (took es).length + cfg.capacity →
    s.data (i % cfg.capacity) = none

/-- The effects that move no value and no index. -/
def Effect.Quiet : Effect α → Prop
  | .write _ _ | .publish _ | .take _ _ | .consume _ => False
  | _ => True

/-- What a quiet step lets a place know anew, and how it has learnt it. -/
theorem next_quiet (hn : s.next cfg pc = some (e, pc')) (hq : e.Quiet) :
    (∀ w, pc'.localWrite = some w → pc.localWrite = some w ∨ w = s.writeIndex) ∧
    (∀ r, pc'.localRead = some r → pc.localRead = some r ∨ r = s.readIndex) ∧
    (pc'.hasRoom = true → pc.hasRoom = true ∨
      ∃ w, pc.localWrite = some w ∧ s.full cfg w = false) ∧
    (pc'.hasItem = true → pc.hasItem = true ∨ pc.atRecheck = true ∧ s.shouldStop = false ∨
      ∃ r, pc.localRead = some r ∧ s.empty r = false) ∧
    (pc'.atRecheck = true → s.shouldStop = true ∨
      ∃ r, pc.localRead = some r ∧ s.empty r = false) ∧
    pc.unpublished = false ∧ pc'.unpublished = false ∧
    pc.unconsumed = false ∧ pc'.unconsumed = false := by
  cases pc
  case readSlot r =>
    obtain ⟨v, -, he⟩ := Option.map_eq_some_iff.mp hn
    cases he
    exact hq.elim
  all_goals
    simp only [State.next, State.afterWait, Option.some.injEq, Prod.mk.injEq, reduceCtorEq] at hn
    try obtain ⟨rfl, rfl⟩ := hn
  all_goals
    (try split_ifs) <;>
      simp_all [Pc.localWrite, Pc.localRead, Pc.hasRoom, Pc.hasItem, Pc.atRecheck, Pc.unpublished,
        Pc.unconsumed, Effect.Quiet]

theorem localWrite_emplacing {w : BitVec 64} (h : pc.localWrite = some w) :
    pc.emplacing = true := by
  cases pc <;> first | rfl | cases h

theorem localRead_popping {r : BitVec 64} (h : pc.localRead = some r) : pc.popping = true := by
  cases pc <;> first | rfl | cases h

theorem hasRoom_emplacing (h : pc.hasRoom = true) : pc.emplacing = true := by
  cases pc <;> first | rfl | cases h

theorem hasItem_popping (h : pc.hasItem = true) : pc.popping = true := by
  cases pc <;> first | rfl | cases h

theorem unpublished_emplacing (h : pc.unpublished = true) : pc.emplacing = true := by
  cases pc <;> first | rfl | cases h

theorem unconsumed_popping (h : pc.unconsumed = true) : pc.popping = true := by
  cases pc <;> first | rfl | cases h

theorem atRecheck_popping (h : pc.atRecheck = true) : pc.popping = true := by
  cases pc <;> first | rfl | cases h

theorem Knows.woken (h : Knows cfg es s pc) : Knows cfg es s (State.woken pc) := by
  cases pc <;> exact ⟨h.localWrite, h.localRead, h.room, h.item, h.recheck, h.writing, h.taking⟩

/-- A thread outside the side that moves keeps what it knows. -/
theorem Knows.change {es' : List (Event α)} (h : Knows cfg es s pc)
    (stop : s.shouldStop = true → s'.shouldStop = true)
    (writes : pc.emplacing = true →
      published es' = published es ∧ (wrote es').length = (wrote es).length)
    (reads : pc.popping = true → consumed es' = consumed es ∧ (took es').length = (took es).length)
    (more : published es ≤ published es' ∧ consumed es ≤ consumed es') : Knows cfg es' s' pc where
  localWrite w hw := by
    rw [(writes (localWrite_emplacing hw)).1]
    exact h.localWrite w hw
  localRead r hr := by
    rw [(reads (localRead_popping hr)).1]
    exact h.localRead r hr
  room hp := by
    rw [(writes (hasRoom_emplacing hp)).1]
    exact Nat.lt_of_lt_of_le (h.room hp) (Nat.add_le_add_right more.2 _)
  item hp := by
    rw [(reads (hasItem_popping hp)).1]
    exact Nat.lt_of_lt_of_le (h.item hp) more.1
  recheck hp := by
    rw [(reads (atRecheck_popping hp)).1]
    exact (h.recheck hp).imp stop fun hlt => Nat.lt_of_lt_of_le hlt more.1
  writing hp := by
    obtain ⟨hpub, hlen⟩ := writes (unpublished_emplacing hp)
    rw [hpub, hlen]
    exact h.writing hp
  taking hp := by
    obtain ⟨hcon, hlen⟩ := reads (unconsumed_popping hp)
    rw [hcon, hlen]
    exact h.taking hp

/-- At a place that knows nothing. -/
theorem Knows.nothing (hw : pc.localWrite = none) (hr : pc.localRead = none) (room : pc.hasRoom = false)
    (item : pc.hasItem = false) (re : pc.atRecheck = false) (up : pc.unpublished = false)
    (uc : pc.unconsumed = false) : Knows cfg es s pc where
  localWrite w h := by rw [hw] at h; cases h
  localRead r h := by rw [hr] at h; cases h
  room h := by rw [room] at h; cases h
  item h := by rw [item] at h; cases h
  recheck h := by rw [re] at h; cases h
  writing h := by rw [up] at h; cases h
  taking h := by rw [uc] at h; cases h

theorem perform_quiet (hp : s.perform t u e = some s') (hq : e.Quiet) :
    s'.readIndex = s.readIndex ∧ s'.writeIndex = s.writeIndex ∧ s'.data = s.data ∧
      (s.shouldStop = true → s'.shouldStop = true) := by
  cases e with
  | lock m =>
    rw [State.perform] at hp
    split at hp
    · cases hp
      exact ⟨rfl, rfl, rfl, id⟩
    · cases hp
  | notifyOne cv =>
    rw [State.perform] at hp
    split at hp
    · cases hp
      exact ⟨rfl, rfl, rfl, id⟩
    split at hp
    · cases hp
      exact ⟨rfl, rfl, rfl, id⟩
    · cases hp
  | stop =>
    cases hp
    exact ⟨rfl, rfl, rfl, fun _ => rfl⟩
  | write _ _ => exact hq.elim
  | publish _ => exact hq.elim
  | take _ _ => exact hq.elim
  | consume _ => exact hq.elim
  | _ =>
    cases hp
    exact ⟨rfl, rfl, rfl, id⟩

theorem quiet_event (hq : e.Quiet) : e.event = .other := by
  cases e <;> first | rfl | exact hq.elim

theorem counts_other (es : List (Event α)) :
    wrote (es ++ [.other]) = wrote es ∧ took (es ++ [.other]) = took es ∧
      published (es ++ [.other]) = published es ∧ consumed (es ++ [.other]) = consumed es := by
  simp [wrote, took, published, consumed]

theorem Ordered.full (h : Ordered cfg es s) {w : BitVec 64} (hw : (s.pc t).localWrite = some w) :
    s.full cfg w = true ↔ published es = consumed es + cfg.capacity := by
  obtain ⟨hle, hle', hle'', hle'''⟩ := h.bounds
  rw [(h.knows t).localWrite w hw]
  exact full_iff h.readIndex (by omega) (by omega)

theorem Ordered.empty (h : Ordered cfg es s) {r : BitVec 64} (hr : (s.pc t).localRead = some r) :
    s.empty r = true ↔ consumed es = published es := by
  obtain ⟨hle, hle', hle'', hle'''⟩ := h.bounds
  rw [(h.knows t).localRead r hr]
  exact empty_iff cfg h.writeIndex (by omega) (by omega)

/-- What the thread that takes a quiet step knows afterwards. -/
theorem Ordered.knows_next (h : Ordered cfg es s) (hn : s.next cfg (s.pc t) = some (e, pc'))
    (hq : e.Quiet) : Knows cfg es s pc' := by
  obtain ⟨hle, hle', hle'', hle'''⟩ := h.bounds
  obtain ⟨hlw, hlr, hroom, hitem, hre, -, hup, -, huc⟩ := next_quiet hn hq
  have hnotempty : ∀ r, (s.pc t).localRead = some r → s.empty r = false →
      consumed es < published es := by
    intro r hr he
    have hne := mt (h.empty hr).mpr (by rw [he]; nofun)
    omega
  constructor
  case localWrite =>
    intro w hw
    rcases hlw w hw with hw | rfl
    · exact (h.knows t).localWrite w hw
    · exact h.writeIndex
  case localRead =>
    intro r hr
    rcases hlr r hr with hr | rfl
    · exact (h.knows t).localRead r hr
    · exact h.readIndex
  case room =>
    intro hp
    rcases hroom hp with hp | ⟨w, hw, hf⟩
    · exact (h.knows t).room hp
    · have hne := mt (h.full hw).mpr (by rw [hf]; nofun)
      omega
  case item =>
    intro hp
    rcases hitem hp with hp | ⟨hp, hs⟩ | ⟨r, hr, he⟩
    · exact (h.knows t).item hp
    · exact ((h.knows t).recheck hp).resolve_left (by rw [hs]; nofun)
    · exact hnotempty r hr he
  case recheck =>
    intro hp
    rcases hre hp with hs | ⟨r, hr, he⟩
    · exact .inl hs
    · exact .inr (hnotempty r hr he)
  case writing =>
    intro hp
    rw [hup] at hp
    cases hp
  case taking =>
    intro hp
    rw [huc] at hp
    cases hp

/-- A step that moves no value and no index. -/
theorem Ordered.keep (h : Ordered cfg es s) (hread : s'.readIndex = s.readIndex)
    (hwrite : s'.writeIndex = s.writeIndex) (hdata : s'.data = s.data)
    (hstop : s.shouldStop = true → s'.shouldStop = true)
    (hknown : ∀ v, Knows cfg es s (s'.pc v))
    (hpub : ∀ v, (s'.pc v).unpublished = (s.pc v).unpublished)
    (hcon : ∀ v, (s'.pc v).unconsumed = (s.pc v).unconsumed) :
    Ordered cfg (es ++ [.other]) s' := by
  obtain ⟨hwrote, htook, hpublished, hconsumed⟩ := counts_other es
  constructor
  case knows =>
    refine fun v => (hknown v).change hstop (fun _ => ?_) (fun _ => ?_) ?_
    · rw [hwrote, hpublished]
      exact ⟨rfl, rfl⟩
    · rw [htook, hconsumed]
      exact ⟨rfl, rfl⟩
    · rw [hpublished, hconsumed]
      exact ⟨Nat.le_refl _, Nat.le_refl _⟩
  case live =>
    intro i hi hlt
    rw [htook] at hi
    simp only [hwrote] at hlt ⊢
    rw [hdata]
    exact h.live i hi hlt
  all_goals simp only [hwrote, htook, hpublished, hconsumed, hpub, hcon]
  case writeIndex => exact hwrite.trans h.writeIndex
  case readIndex => exact hread.trans h.readIndex
  case written => exact h.written
  case taken => exact h.taken
  case bounds => exact h.bounds
  case inOrder => exact h.inOrder
  case dead =>
    intro i hi hlt
    rw [hdata]
    exact h.dead i hi hlt

@[simp] theorem woken_unpublished (pc : Pc α) :
    (State.woken pc).unpublished = pc.unpublished := by
  cases pc <;> rfl

@[simp] theorem woken_unconsumed (pc : Pc α) :
    (State.woken pc).unconsumed = pc.unconsumed := by
  cases pc <;> rfl

theorem Ordered.run_quiet (h : Ordered cfg es s) (hn : s.next cfg (s.pc t) = some (e, pc'))
    (hp : s.perform t u e = some s') (hq : e.Quiet) :
    Ordered cfg (es ++ [e.event]) (s'.goto t pc') := by
  obtain ⟨hread, hwrite, hdata, hstop⟩ := perform_quiet hp hq
  obtain ⟨-, -, -, -, -, hup, hup', huc, huc'⟩ := next_quiet hn hq
  rw [quiet_event hq]
  refine h.keep hread hwrite hdata hstop (fun v => ?_) (fun v => ?_) fun v => ?_ <;>
    rcases eq_or_ne v t with rfl | hv
  · rw [State.goto_self]
    exact h.knows_next hn hq
  · rw [State.goto_ne _ hv]
    rcases perform_pc hp v with hpc | hpc <;> rw [hpc]
    · exact h.knows v
    · exact (h.knows v).woken
  · rw [State.goto_self, hup, hup']
  · rw [State.goto_ne _ hv]
    rcases perform_pc hp v with hpc | hpc <;> simp [hpc]
  · rw [State.goto_self, huc, huc']
  · rw [State.goto_ne _ hv]
    rcases perform_pc hp v with hpc | hpc <;> simp [hpc]

/-- A thread starts a call: it knows nothing yet. -/
theorem Ordered.begin (h : Ordered cfg es s) (idle : s.pc t = .idle)
    (nothing : Knows cfg es s pc') (hup : pc'.unpublished = false) (huc : pc'.unconsumed = false) :
    Ordered cfg (es ++ [.other]) (s.goto t pc') := by
  refine h.keep rfl rfl rfl id (fun v => ?_) (fun v => ?_) fun v => ?_ <;>
    rcases eq_or_ne v t with rfl | hv
  · rw [State.goto_self]
    exact nothing
  · rw [State.goto_ne _ hv]
    exact h.knows v
  · rw [State.goto_self, hup, idle]
    rfl
  · rw [State.goto_ne _ hv]
  · rw [State.goto_self, huc, idle]
    rfl
  · rw [State.goto_ne _ hv]

theorem Ordered.wake (h : Ordered cfg es s) (cv : Condvar) (t : ℕ) :
    Ordered cfg (es ++ [.other]) (s.wake cv t) := by
  refine h.keep rfl rfl rfl id (fun v => ?_) (fun v => ?_) fun v => ?_ <;>
    rcases wake_pc s cv t v with hpc | hpc <;> rw [hpc]
  · exact h.knows v
  · exact (h.knows v).woken
  · exact woken_unpublished _
  · exact woken_unconsumed _

/-! ### The four steps that move a value or an index -/

theorem next_write {n : ℕ} {x : α} (hn : s.next cfg pc = some (.write n x, pc')) :
    ∃ w, pc = .writeSlot x w ∧ pc' = .storeWriteIndex w ∧ n = w.toNat % cfg.capacity := by
  cases pc
  case readSlot r =>
    obtain ⟨v, -, he⟩ := Option.map_eq_some_iff.mp hn
    cases he
  case unlockWrite =>
    rw [State.next] at hn
    split at hn <;> cases hn
  case unlockRead =>
    rw [State.next] at hn
    split at hn <;> cases hn
  case writeSlot y w =>
    cases hn
    exact ⟨w, rfl, rfl, rfl⟩
  all_goals cases hn

theorem next_publish {i : BitVec 64} (hn : s.next cfg pc = some (.publish i, pc')) :
    ∃ w, pc = .storeWriteIndex w ∧ pc' = .lockToNotifyConsumer ∧ i = w + 1 := by
  cases pc
  case readSlot r =>
    obtain ⟨v, -, he⟩ := Option.map_eq_some_iff.mp hn
    cases he
  case unlockWrite =>
    rw [State.next] at hn
    split at hn <;> cases hn
  case unlockRead =>
    rw [State.next] at hn
    split at hn <;> cases hn
  case storeWriteIndex w =>
    cases hn
    exact ⟨w, rfl, rfl, rfl⟩
  all_goals cases hn

theorem next_take {n : ℕ} {x : α} (hn : s.next cfg pc = some (.take n x, pc')) :
    ∃ r, pc = .readSlot r ∧ pc' = .storeReadIndex r ∧ n = r.toNat % cfg.capacity ∧
      s.data n = some x := by
  cases pc
  case readSlot r =>
    obtain ⟨v, hv, he⟩ := Option.map_eq_some_iff.mp hn
    cases he
    exact ⟨r, rfl, rfl, rfl, hv⟩
  case unlockWrite =>
    rw [State.next] at hn
    split at hn <;> cases hn
  case unlockRead =>
    rw [State.next] at hn
    split at hn <;> cases hn
  all_goals cases hn

theorem next_consume {i : BitVec 64} (hn : s.next cfg pc = some (.consume i, pc')) :
    ∃ r, pc = .storeReadIndex r ∧ pc' = .lockToNotifyProducer ∧ i = r + 1 := by
  cases pc
  case readSlot r =>
    obtain ⟨v, -, he⟩ := Option.map_eq_some_iff.mp hn
    cases he
  case unlockWrite =>
    rw [State.next] at hn
    split at hn <;> cases hn
  case unlockRead =>
    rw [State.next] at hn
    split at hn <;> cases hn
  case storeReadIndex r =>
    cases hn
    exact ⟨r, rfl, rfl, rfl⟩
  all_goals cases hn

/-- Nobody else has an unpublished value while a thread emplaces. -/
theorem Locked.no_unpublished (h : Locked cfg s) (ht : (s.pc t).emplacing = true)
    (hup : (s.pc t).unpublished = false) : ∀ v, (s.pc v).unpublished = false := by
  intro v
  by_contra hv
  have hv : (s.pc v).unpublished = true := by simpa using hv
  rw [h.emplacing_unique (unpublished_emplacing hv) ht, hup] at hv
  cases hv

theorem Locked.no_unconsumed (h : Locked cfg s) (ht : (s.pc t).popping = true)
    (huc : (s.pc t).unconsumed = false) : ∀ v, (s.pc v).unconsumed = false := by
  intro v
  by_contra hv
  have hv : (s.pc v).unconsumed = true := by simpa using hv
  rw [h.popping_unique (unconsumed_popping hv) ht, huc] at hv
  cases hv

/-- The slot about to be written holds no live value. -/
theorem Ordered.slot_dead (h : Ordered cfg es s) (hl : Locked cfg s) {x : α} {w : BitVec 64}
    (ht : s.pc t = .writeSlot x w) :
    w.toNat % cfg.capacity = (wrote es).length % cfg.capacity ∧
      (wrote es).length = published es ∧ (wrote es).length < consumed es + cfg.capacity ∧
      s.data (w.toNat % cfg.capacity) = none := by
  have hroom := (h.knows t).room (by rw [ht]; rfl)
  have hlen := h.written (hl.no_unpublished (t := t) (by rw [ht]; rfl) (by rw [ht]; rfl))
  have hpos : w.toNat % cfg.capacity = (wrote es).length % cfg.capacity := by
    rw [(h.knows t).localWrite w (by rw [ht]; rfl), cfg.position, hlen]
  obtain ⟨hle, -, -, -⟩ := h.bounds
  exact ⟨hpos, hlen, by omega, by rw [hpos]; exact h.dead _ (Nat.le_refl _) (by omega)⟩

/-- The slot about to be read holds the next value. -/
theorem Ordered.slot_live (h : Ordered cfg es s) (hl : Locked cfg s) {r : BitVec 64}
    (ht : s.pc t = .readSlot r) :
    r.toNat % cfg.capacity = (took es).length % cfg.capacity ∧
      (took es).length = consumed es ∧ (took es).length < published es ∧
      ∃ hlt : (took es).length < (wrote es).length,
        s.data (r.toNat % cfg.capacity) = some (wrote es)[(took es).length] := by
  have hitem := (h.knows t).item (by rw [ht]; rfl)
  have hlen := h.taken (hl.no_unconsumed (t := t) (by rw [ht]; rfl) (by rw [ht]; rfl))
  have hpos : r.toNat % cfg.capacity = (took es).length % cfg.capacity := by
    rw [(h.knows t).localRead r (by rw [ht]; rfl), cfg.position, hlen]
  obtain ⟨-, -, hle, -⟩ := h.bounds
  have hlt : (took es).length < (wrote es).length := by omega
  exact ⟨hpos, hlen, by omega, hlt, by rw [hpos]; exact h.live _ (Nat.le_refl _) hlt⟩

theorem Ordered.run_write (h : Ordered cfg es s) (hl : Locked cfg s) {x : α} {w : BitVec 64}
    (ht : s.pc t = .writeSlot x w) :
    Ordered cfg (es ++ [.wrote x])
      ({ s with data := Function.update s.data (w.toNat % cfg.capacity) (some x) }.goto t
        (.storeWriteIndex w)) := by
  obtain ⟨hpos, hlen, hlt, -⟩ := h.slot_dead hl ht
  obtain ⟨hle, hle', -, -⟩ := h.bounds
  have hwrote : wrote (es ++ [.wrote x]) = wrote es ++ [x] := by simp [wrote]
  have hlen' : (wrote (es ++ [.wrote x])).length = (wrote es).length + 1 := by simp [hwrote]
  have htook : took (es ++ [.wrote x]) = took es := by simp [took]
  have hpublished : published (es ++ [.wrote x]) = published es := by simp [published]
  have hconsumed : consumed (es ++ [.wrote x]) = consumed es := by simp [consumed]
  constructor
  case knows =>
    intro v
    rcases eq_or_ne v t with rfl | hv
    · rw [State.goto_self]
      refine ⟨fun i hi => ?_, nofun, nofun, nofun, nofun, fun _ => ?_, nofun⟩
      · rw [hpublished]
        exact (h.knows v).localWrite i (by rw [ht]; exact hi)
      · rw [hlen', hpublished, hlen]
    · rw [State.goto_ne _ hv]
      refine (h.knows v).change id (fun he => ?_) (fun _ => by rw [htook, hconsumed]; exact ⟨rfl, rfl⟩)
        (by rw [hpublished, hconsumed]; exact ⟨Nat.le_refl _, Nat.le_refl _⟩)
      exact absurd (hl.emplacing_unique he (by rw [ht]; rfl)) hv
  case written =>
    intro hnone
    have := hnone t
    rw [State.goto_self] at this
    cases this
  case taken =>
    intro hnone
    rw [htook, hconsumed]
    refine h.taken fun v => ?_
    rcases eq_or_ne v t with rfl | hv
    · rw [ht]
      rfl
    · rw [← hnone v, State.goto_ne _ hv]
  case live =>
    intro i hi hlt'
    show Function.update s.data (w.toNat % cfg.capacity) (some x) (i % cfg.capacity) = _
    rw [htook] at hi
    simp only [hwrote] at hlt' ⊢
    rw [List.length_append, List.length_singleton] at hlt'
    rcases eq_or_ne i (wrote es).length with rfl | hne
    · rw [hpos, Function.update_self, List.getElem_append_right (Nat.le_refl _)]
      simp
    · have hlt'' : i < (wrote es).length := by omega
      rw [hpos, Function.update_of_ne (mod_ne hlt'' (by omega)), List.getElem_append_left hlt'']
      exact h.live i hi hlt''
  case dead =>
    intro i hi hlt'
    rw [hlen'] at hi
    rw [htook] at hlt'
    show Function.update s.data (w.toNat % cfg.capacity) (some x) (i % cfg.capacity) = _
    rw [hpos, Function.update_of_ne (mod_ne (by omega) (by omega)).symm]
    exact h.dead i (by omega) hlt'
  case bounds =>
    rw [hlen', htook, hpublished, hconsumed]
    omega
  case inOrder =>
    rw [hwrote, htook]
    exact h.inOrder.trans (List.prefix_append _ _)
  case writeIndex => exact h.writeIndex.trans (by rw [hpublished])
  case readIndex => exact h.readIndex.trans (by rw [hconsumed])

theorem Ordered.run_publish (h : Ordered cfg es s) (hl : Locked cfg s) {w : BitVec 64}
    (ht : s.pc t = .storeWriteIndex w) :
    Ordered cfg (es ++ [.published]) ({ s with writeIndex := w + 1 }.goto t
      .lockToNotifyConsumer) := by
  have hlen := (h.knows t).writing (by rw [ht]; rfl)
  have hw := (h.knows t).localWrite w (by rw [ht]; rfl)
  obtain ⟨hle, hle', -, hle'''⟩ := h.bounds
  have hwrote : wrote (es ++ [.published]) = wrote es := by simp [wrote]
  have htook : took (es ++ [.published]) = took es := by simp [took]
  have hpublished : published (es ++ [.published]) = published es + 1 := by simp [published]
  have hconsumed : consumed (es ++ [.published]) = consumed es := by simp [consumed]
  constructor
  case knows =>
    intro v
    rcases eq_or_ne v t with rfl | hv
    · rw [State.goto_self]
      exact Knows.nothing rfl rfl rfl rfl rfl rfl rfl
    · rw [State.goto_ne _ hv]
      refine (h.knows v).change id (fun he => ?_) (fun _ => by rw [htook, hconsumed]; exact ⟨rfl, rfl⟩)
        (by rw [hpublished, hconsumed]; exact ⟨Nat.le_succ _, Nat.le_refl _⟩)
      exact absurd (hl.emplacing_unique he (by rw [ht]; rfl)) hv
  case live =>
    intro i hi hlt
    rw [htook] at hi
    simp only [hwrote] at hlt ⊢
    exact h.live i hi hlt
  all_goals simp only [hwrote, htook, hpublished, hconsumed]
  case writeIndex =>
    show w + 1 = _
    rw [hw, BitVec.ofNat_add]
    rfl
  case readIndex => exact h.readIndex
  case written => exact fun _ => hlen
  case taken =>
    intro hnone
    refine h.taken fun v => ?_
    rcases eq_or_ne v t with rfl | hv
    · rw [ht]
      rfl
    · rw [← hnone v, State.goto_ne _ hv]
  case bounds => omega
  case inOrder => exact h.inOrder
  case dead => exact h.dead

theorem Ordered.run_take (h : Ordered cfg es s) (hl : Locked cfg s) {x : α} {r : BitVec 64}
    (ht : s.pc t = .readSlot r) (hx : s.data (r.toNat % cfg.capacity) = some x) :
    Ordered cfg (es ++ [.took x])
      ({ s with data := Function.update s.data (r.toNat % cfg.capacity) none }.goto t
        (.storeReadIndex r)) := by
  obtain ⟨hpos, hlen, hlt, hlt', hdata⟩ := h.slot_live hl ht
  obtain ⟨-, -, hle, hle'⟩ := h.bounds
  have hnext : x = (wrote es)[(took es).length] := Option.some.inj (hx.symm.trans hdata)
  have hwrote : wrote (es ++ [.took x]) = wrote es := by simp [wrote]
  have htook : took (es ++ [.took x]) = took es ++ [x] := by simp [took]
  have hlen' : (took (es ++ [.took x])).length = (took es).length + 1 := by simp [htook]
  have hpublished : published (es ++ [.took x]) = published es := by simp [published]
  have hconsumed : consumed (es ++ [.took x]) = consumed es := by simp [consumed]
  constructor
  case knows =>
    intro v
    rcases eq_or_ne v t with rfl | hv
    · rw [State.goto_self]
      refine ⟨nofun, fun i hi => ?_, nofun, nofun, nofun, nofun, fun _ => ?_⟩
      · rw [hconsumed]
        exact (h.knows v).localRead i (by rw [ht]; exact hi)
      · rw [hlen', hconsumed, hlen]
    · rw [State.goto_ne _ hv]
      refine (h.knows v).change id (fun _ => by rw [hwrote, hpublished]; exact ⟨rfl, rfl⟩)
        (fun hp => ?_) (by rw [hpublished, hconsumed]; exact ⟨Nat.le_refl _, Nat.le_refl _⟩)
      exact absurd (hl.popping_unique hp (by rw [ht]; rfl)) hv
  case written =>
    intro hnone
    rw [hwrote, hpublished]
    refine h.written fun v => ?_
    rcases eq_or_ne v t with rfl | hv
    · rw [ht]
      rfl
    · rw [← hnone v, State.goto_ne _ hv]
  case taken =>
    intro hnone
    have := hnone t
    rw [State.goto_self] at this
    cases this
  case live =>
    intro i hi hi'
    rw [hlen'] at hi
    simp only [hwrote] at hi' ⊢
    show Function.update s.data (r.toNat % cfg.capacity) none (i % cfg.capacity) = _
    rw [hpos, Function.update_of_ne (mod_ne (by omega) (by omega)).symm]
    exact h.live i (by omega) hi'
  case dead =>
    intro i hi hi'
    rw [hwrote] at hi
    rw [hlen'] at hi'
    show Function.update s.data (r.toNat % cfg.capacity) none (i % cfg.capacity) = _
    rcases eq_or_ne i ((took es).length + cfg.capacity) with rfl | hne
    · rw [hpos, Nat.add_mod_right, Function.update_self]
    · rw [hpos, Function.update_of_ne (mod_ne (by omega) (by omega)).symm]
      exact h.dead i hi (by omega)
  case bounds =>
    rw [hlen', hwrote, hpublished, hconsumed]
    omega
  case inOrder =>
    rw [htook, hwrote, hnext]
    obtain ⟨rest, hrest⟩ := h.inOrder
    have htake : took es = (wrote es).take (took es).length := by
      rw [← hrest, List.take_left]
    rw [show took es ++ [(wrote es)[(took es).length]] =
      (wrote es).take ((took es).length + 1) by
        rw [List.take_succ_eq_append_getElem hlt', ← htake]]
    exact List.take_prefix _ _
  case writeIndex => exact h.writeIndex.trans (by rw [hpublished])
  case readIndex => exact h.readIndex.trans (by rw [hconsumed])

theorem Ordered.run_consume (h : Ordered cfg es s) (hl : Locked cfg s) {r : BitVec 64}
    (ht : s.pc t = .storeReadIndex r) :
    Ordered cfg (es ++ [.consumed]) ({ s with readIndex := r + 1 }.goto t
      .lockToNotifyProducer) := by
  have hlen := (h.knows t).taking (by rw [ht]; rfl)
  have hr := (h.knows t).localRead r (by rw [ht]; rfl)
  obtain ⟨-, hle', hle'', hle'''⟩ := h.bounds
  have hwrote : wrote (es ++ [.consumed]) = wrote es := by simp [wrote]
  have htook : took (es ++ [.consumed]) = took es := by simp [took]
  have hpublished : published (es ++ [.consumed]) = published es := by simp [published]
  have hconsumed : consumed (es ++ [.consumed]) = consumed es + 1 := by simp [consumed]
  constructor
  case knows =>
    intro v
    rcases eq_or_ne v t with rfl | hv
    · rw [State.goto_self]
      exact Knows.nothing rfl rfl rfl rfl rfl rfl rfl
    · rw [State.goto_ne _ hv]
      refine (h.knows v).change id (fun _ => by rw [hwrote, hpublished]; exact ⟨rfl, rfl⟩)
        (fun hp => ?_) (by rw [hpublished, hconsumed]; exact ⟨Nat.le_refl _, Nat.le_succ _⟩)
      exact absurd (hl.popping_unique hp (by rw [ht]; rfl)) hv
  case live =>
    intro i hi hlt
    rw [htook] at hi
    simp only [hwrote] at hlt ⊢
    exact h.live i hi hlt
  all_goals simp only [hwrote, htook, hpublished, hconsumed]
  case writeIndex => exact h.writeIndex
  case readIndex =>
    show r + 1 = _
    rw [hr, BitVec.ofNat_add]
    rfl
  case written =>
    intro hnone
    refine h.written fun v => ?_
    rcases eq_or_ne v t with rfl | hv
    · rw [ht]
      rfl
    · rw [← hnone v, State.goto_ne _ hv]
  case taken => exact fun _ => hlen
  case bounds => omega
  case inOrder => exact h.inOrder
  case dead => exact h.dead

theorem Ordered.run (h : Ordered cfg es s) (hl : Locked cfg s)
    (hn : s.next cfg (s.pc t) = some (e, pc')) (hp : s.perform t u e = some s') :
    Ordered cfg (es ++ [e.event]) (s'.goto t pc') := by
  cases e with
  | write n x =>
    obtain ⟨w, ht, rfl, rfl⟩ := next_write hn
    cases hp
    exact h.run_write hl ht
  | publish i =>
    obtain ⟨w, ht, rfl, rfl⟩ := next_publish hn
    cases hp
    exact h.run_publish hl ht
  | take n x =>
    obtain ⟨r, ht, rfl, rfl, hx⟩ := next_take hn
    cases hp
    exact h.run_take hl ht hx
  | consume i =>
    obtain ⟨r, ht, rfl, rfl⟩ := next_consume hn
    cases hp
    exact h.run_consume hl ht
  | _ => exact h.run_quiet hn hp trivial

end Ruzu.BoundedQueue
