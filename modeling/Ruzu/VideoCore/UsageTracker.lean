import Mathlib

/-!
# The usage tracker of a buffer

`usage_tracker.rs`: a bit for every 64 bytes of a buffer, 64 bits to a page.
A call turns its range into masks of its first and its last page, with all the
pages between. The number of bits of a mask is the size divided by 64, so a
granule that is used in part at the end of a range can be left out.
-/

set_option autoImplicit false

namespace Ruzu.BufferCache

def bytesPerBitShift : ℕ := 6
def pageShift : ℕ := 6 + bytesPerBitShift
def pageBytes : ℕ := 1 <<< pageShift

def alignDown (value align : ℕ) : ℕ := value - value % align

/-- The bits of a page that a range from `offset` on covers; all from the first one on for a range
of less than 64 bytes. -/
def pageMask (offset size : ℕ) : BitVec 64 :=
  let offsetInPage := offset % pageBytes
  let firstBit := offsetInPage >>> bytesPerBitShift
  let numBits := min size pageBytes >>> bytesPerBitShift
  let mask := if numBits = 0 then BitVec.allOnes 64 else BitVec.allOnes 64 >>> (64 - numBits)
  (BitVec.allOnes 64 &&& mask) <<< firstBit

structure UsageTracker where
  pages : List (BitVec 64)

namespace UsageTracker

def new (size : ℕ) : UsageTracker := ⟨List.replicate ((size >>> pageShift) + 1) 0⟩

def reset (t : UsageTracker) : UsageTracker := ⟨t.pages.map fun _ => 0⟩

def trackPage (pages : List (BitVec 64)) (page offset size : ℕ) : List (BitVec 64) :=
  pages.modify page fun bits => bits ||| pageMask offset size

def isPageUsed (pages : List (BitVec 64)) (page offset size : ℕ) : Bool :=
  (pages[page]?).any fun bits => bits &&& pageMask offset size ≠ 0

def track (t : UsageTracker) (offset size : ℕ) : UsageTracker :=
  let page := offset >>> pageShift
  let offsetEnd := (offset + size) % 2 ^ 64
  let pageEnd := offsetEnd >>> pageShift
  if pageEnd < page ∨ t.pages.length ≤ pageEnd then t
  else
    let pages := trackPage t.pages page offset size
    if page = pageEnd then ⟨pages⟩
    else
      let pages := (List.range' (page + 1) (pageEnd - (page + 1))).foldl
        (fun pages i => pages.set i (BitVec.allOnes 64)) pages
      let aligned := alignDown offsetEnd pageBytes
      ⟨trackPage pages pageEnd aligned (offsetEnd - aligned)⟩

def isUsed (t : UsageTracker) (offset size : ℕ) : Bool :=
  let page := offset >>> pageShift
  let offsetEnd := (offset + size) % 2 ^ 64
  let pageEnd := offsetEnd >>> pageShift
  if pageEnd < page ∨ t.pages.length ≤ pageEnd then false
  else if isPageUsed t.pages page offset size then true
  else if page = pageEnd then false
  else if (List.range' (page + 1) (pageEnd - (page + 1))).any fun i =>
      (t.pages[i]?).any fun bits => bits ≠ 0 then true
  else
    let aligned := alignDown offsetEnd pageBytes
    isPageUsed t.pages pageEnd aligned (offsetEnd - aligned)

end UsageTracker

/-! ### The bits of a call -/

theorem shift_page (x : ℕ) : x >>> pageShift = x / 4096 := Nat.shiftRight_eq_div_pow x 12

theorem shift_bit (x : ℕ) : x >>> bytesPerBitShift = x / 64 := Nat.shiftRight_eq_div_pow x 6

theorem getLsbD_pageMask (offset size : ℕ) {b : ℕ} (hb : b < 64) :
    (pageMask offset size).getLsbD b = true ↔ offset % 4096 / 64 ≤ b ∧
      (size < 64 ∨ b < offset % 4096 / 64 + min size 4096 / 64) := by
  have hpage : pageBytes = 4096 := rfl
  simp only [pageMask, shift_bit, hpage]
  have hmin : min size 4096 ≤ 4096 := Nat.min_le_right ..
  rw [BitVec.allOnes_and, BitVec.getLsbD_shiftLeft]
  split
  case isTrue hzero =>
    have hsize : size < 64 := by
      rw [Nat.div_eq_zero_iff_lt (by decide)] at hzero
      omega
    simp only [BitVec.getLsbD_allOnes, Bool.and_eq_true, decide_eq_true_eq, Bool.not_eq_true',
      decide_eq_false_iff_not]
    omega
  case isFalse hsome =>
    have hsize : ¬size < 64 := fun hlt => hsome (Nat.div_eq_of_lt (by omega))
    simp only [BitVec.getLsbD_ushiftRight, BitVec.getLsbD_allOnes, Bool.and_eq_true,
      decide_eq_true_eq, Bool.not_eq_true', decide_eq_false_iff_not]
    omega

/-- The bits that a call goes over: those of its masks and of the pages between. -/
def marked (offset size page bit : ℕ) : Prop :=
  page = offset / 4096 ∧ (pageMask offset size).getLsbD bit = true ∨
    offset / 4096 < page ∧ page < (offset + size) / 4096 ∨
      offset / 4096 < page ∧ page = (offset + size) / 4096 ∧
        (pageMask (alignDown (offset + size) 4096) ((offset + size) % 4096)).getLsbD bit = true

namespace UsageTracker

variable {t : UsageTracker} {offset size page bit : ℕ}

def has (pages : List (BitVec 64)) (page bit : ℕ) : Prop :=
  ∃ bits, pages[page]? = some bits ∧ bits.getLsbD bit = true

theorem has_trackPage {pages : List (BitVec 64)} {index : ℕ} (hat : index < pages.length) :
    has (trackPage pages index offset size) page bit ↔
      has pages page bit ∨ page = index ∧ (pageMask offset size).getLsbD bit = true := by
  rw [has, has, trackPage]
  by_cases hpage : page = index
  · subst hpage
    rw [List.getElem?_modify_eq, List.getElem?_eq_getElem hat]
    simp
  · rw [List.getElem?_modify_ne _ _ fun heq => hpage heq.symm]
    simp [hpage]

theorem length_trackPage (pages : List (BitVec 64)) (page offset size : ℕ) :
    (trackPage pages page offset size).length = pages.length :=
  List.length_modify ..

/-- The loop over the pages between. -/
def fill (pages : List (BitVec 64)) (is : List ℕ) : List (BitVec 64) :=
  is.foldl (fun pages i => pages.set i (BitVec.allOnes 64)) pages

theorem length_fill (pages : List (BitVec 64)) (is : List ℕ) :
    (fill pages is).length = pages.length := by
  induction is generalizing pages with
  | nil => rfl
  | cons i is ih => exact (ih _).trans (List.length_set ..)

theorem has_fill {pages : List (BitVec 64)} {is : List ℕ} (his : ∀ i ∈ is, i < pages.length)
    (hbit : bit < 64) : has (fill pages is) page bit ↔ has pages page bit ∨ page ∈ is := by
  induction is generalizing pages with
  | nil => simp [fill]
  | cons i is ih =>
    have hi := his i (List.mem_cons_self ..)
    have hset : has (pages.set i (BitVec.allOnes 64)) page bit ↔
        has pages page bit ∨ page = i := by
      rw [has, has]
      by_cases hpage : page = i
      · subst hpage
        rw [List.getElem?_set_self hi]
        simp only [Option.some.injEq, exists_eq_left', BitVec.getLsbD_allOnes, hbit, decide_true,
          or_true]
      · rw [List.getElem?_set_ne fun heq => hpage heq.symm]
        simp [hpage]
    have hrest : ∀ j ∈ is, j < (pages.set i (BitVec.allOnes 64)).length := fun j hj =>
      (his j (List.mem_cons_of_mem _ hj)).trans_eq (List.length_set ..).symm
    rw [fill, List.foldl_cons, ← fill, ih hrest, hset, List.mem_cons, or_assoc]

/-- The call does not end early: the range ends inside the pages. -/
def Inside (t : UsageTracker) (offset size : ℕ) : Prop :=
  offset + size < 2 ^ 64 ∧ (offset + size) / 4096 < t.pages.length

theorem length_track (t : UsageTracker) (offset size : ℕ) :
    (t.track offset size).pages.length = t.pages.length := by
  simp only [track]
  split
  · rfl
  · split
    · exact length_trackPage ..
    · rw [length_trackPage]
      exact (length_fill _ _).trans (length_trackPage ..)

theorem not_early (h : t.Inside offset size) :
    ¬((offset + size) / 4096 < offset / 4096 ∨ t.pages.length ≤ (offset + size) / 4096) := by
  have hle : offset / 4096 ≤ (offset + size) / 4096 := Nat.div_le_div_right (Nat.le_add_right ..)
  have hlt := h.2
  omega

theorem sub_alignDown (x : ℕ) : x - alignDown x 4096 = x % 4096 := by
  have hle := Nat.mod_le x 4096
  rw [alignDown]
  omega

/-- A tracked range adds the bits that it goes over. -/
theorem has_track (h : t.Inside offset size) (hbit : bit < 64) :
    has (t.track offset size).pages page bit ↔
      has t.pages page bit ∨ marked offset size page bit := by
  have hle : offset / 4096 ≤ (offset + size) / 4096 := Nat.div_le_div_right (Nat.le_add_right ..)
  have hend := h.2
  have hpage : pageBytes = 4096 := rfl
  simp only [track, shift_page, Nat.mod_eq_of_lt h.1, if_neg (not_early h), hpage, sub_alignDown,
    marked]
  split
  case isTrue heq =>
    rw [has_trackPage (heq.trans_lt hend)]
    refine or_congr Iff.rfl ⟨.inl, ?_⟩
    rintro (hfirst | hmiddle | hlast)
    · exact hfirst
    · omega
    · omega
  case isFalse hne =>
    have hmiddle : ∀ i ∈ List.range' (offset / 4096 + 1)
        ((offset + size) / 4096 - (offset / 4096 + 1)),
          i < (trackPage t.pages (offset / 4096) offset size).length := by
      intro i hi
      rw [List.mem_range'_1] at hi
      rw [length_trackPage]
      omega
    rw [← fill, has_trackPage, has_fill hmiddle hbit, has_trackPage (by omega),
      List.mem_range'_1, or_assoc, or_assoc]
    · refine or_congr Iff.rfl (or_congr Iff.rfl (or_congr ?_ ?_))
      · omega
      · refine ⟨fun hlast => ⟨?_, hlast⟩, fun hlast => hlast.2⟩
        omega
    · rw [length_fill, length_trackPage]
      exact hend

theorem ne_zero_iff (bits : BitVec 64) :
    bits ≠ 0 ↔ ∃ bit < 64, bits.getLsbD bit = true := by
  constructor
  · intro hne
    by_contra hnone
    refine hne (BitVec.eq_of_getLsbD_eq fun i hi => ?_)
    rw [Bool.eq_false_iff.mpr fun hbit => hnone ⟨i, hi, hbit⟩]
    exact BitVec.getLsbD_zero.symm
  · rintro ⟨bit, -, hbit⟩ rfl
    exact Bool.false_ne_true (BitVec.getLsbD_zero.symm.trans hbit)

theorem isPageUsed_iff {pages : List (BitVec 64)} {index : ℕ} :
    isPageUsed pages index offset size = true ↔
      ∃ bit < 64, (pageMask offset size).getLsbD bit = true ∧ has pages index bit := by
  rw [isPageUsed]
  cases hget : pages[index]? with
  | none => simp [has, hget]
  | some bits =>
    rw [Option.any_some, decide_eq_true_eq, ne_zero_iff]
    refine exists_congr fun bit => and_congr_right fun _ => ?_
    rw [BitVec.getLsbD_and, Bool.and_eq_true, and_comm, has]
    simp [hget]

theorem any_set_iff {pages : List (BitVec 64)} {index : ℕ} :
    ((pages[index]?).any fun bits => bits ≠ 0) = true ↔ ∃ bit < 64, has pages index bit := by
  cases hget : pages[index]? with
  | none => simp [has, hget]
  | some bits =>
    rw [Option.any_some, decide_eq_true_eq, ne_zero_iff]
    simp [has, hget]

/-- A query finds just the bits that it goes over. -/
theorem isUsed_iff (h : t.Inside offset size) : t.isUsed offset size = true ↔
    ∃ page, ∃ bit < 64, marked offset size page bit ∧ has t.pages page bit := by
  have hle : offset / 4096 ≤ (offset + size) / 4096 := Nat.div_le_div_right (Nat.le_add_right ..)
  have hpage : pageBytes = 4096 := rfl
  simp only [isUsed, shift_page, Nat.mod_eq_of_lt h.1, if_neg (not_early h), hpage, sub_alignDown,
    marked]
  by_cases hfirst : isPageUsed t.pages (offset / 4096) offset size = true
  · rw [if_pos hfirst]
    obtain ⟨bit, hbit, hmask, hhas⟩ := isPageUsed_iff.1 hfirst
    exact iff_of_true rfl ⟨_, bit, hbit, .inl ⟨rfl, hmask⟩, hhas⟩
  rw [if_neg hfirst]
  have hout : ∀ bit < 64, (pageMask offset size).getLsbD bit = true →
      ¬has t.pages (offset / 4096) bit := fun bit hbit hmask hhas =>
    hfirst (isPageUsed_iff.2 ⟨bit, hbit, hmask, hhas⟩)
  split
  case isTrue heq =>
    refine iff_of_false Bool.false_ne_true ?_
    rintro ⟨page, bit, hbit, ⟨rfl, hmask⟩ | hmiddle | hlast, hhas⟩
    · exact hout bit hbit hmask hhas
    · omega
    · omega
  case isFalse hne =>
    split
    case isTrue hmiddle =>
      obtain ⟨page, hpage, hset⟩ := List.any_eq_true.mp hmiddle
      obtain ⟨bit, hbit, hhas⟩ := any_set_iff.1 hset
      rw [List.mem_range'_1] at hpage
      exact iff_of_true rfl ⟨page, bit, hbit, .inr (.inl (by omega)), hhas⟩
    case isFalse hmiddle =>
      rw [isPageUsed_iff]
      constructor
      · rintro ⟨bit, hbit, hmask, hhas⟩
        exact ⟨_, bit, hbit, .inr (.inr ⟨by omega, rfl, hmask⟩), hhas⟩
      · rintro ⟨page, bit, hbit, ⟨rfl, hmask⟩ | hbetween | ⟨-, rfl, hmask⟩, hhas⟩
        · exact absurd hhas (hout bit hbit hmask)
        · refine absurd (List.any_eq_true.mpr ⟨page, ?_, any_set_iff.2 ⟨bit, hbit, hhas⟩⟩) hmiddle
          rw [List.mem_range'_1]
          omega
        · exact ⟨bit, hbit, hmask, hhas⟩

/-! ### Ranges whose masks miss nothing -/

/-- The masks of a range cover all granules that it touches. In one page the range is shorter than
a granule or made of granules; over several pages the first mask reaches the end of its page, and
the last one is of all bits or of a range that ends with a granule. -/
def Whole (offset size : ℕ) : Prop :=
  if offset / 4096 = (offset + size) / 4096 then size < 64 ∨ offset % 64 = 0 ∧ size % 64 = 0
  else (size < 64 ∨ 64 ≤ offset % 4096 / 64 + min size 4096 / 64) ∧
    ((offset + size) % 4096 < 64 ∨ (offset + size) % 64 = 0)

instance (offset size : ℕ) : Decidable (Whole offset size) := by
  unfold Whole
  infer_instance

/-- The byte is in the range. -/
def Covers (offset size byte : ℕ) : Prop := offset ≤ byte ∧ byte < offset + size

theorem alignDown_mod (x : ℕ) : alignDown x 4096 % 4096 = 0 := by
  have hle := Nat.mod_le x 4096
  rw [alignDown]
  omega

theorem marked_of_whole (h : Whole offset size) {byte : ℕ} (hbyte : Covers offset size byte) :
    marked offset size (byte / 4096) (byte % 4096 / 64) := by
  obtain ⟨hfrom, hto⟩ := hbyte
  have hbit : byte % 4096 / 64 < 64 := by omega
  have hlow : offset / 4096 ≤ byte / 4096 := Nat.div_le_div_right hfrom
  have hhigh : byte / 4096 ≤ (offset + size) / 4096 := Nat.div_le_div_right hto.le
  rw [marked, getLsbD_pageMask _ _ hbit, getLsbD_pageMask _ _ hbit, alignDown_mod]
  rw [Whole] at h
  split at h
  case isTrue hone => exact .inl ⟨by omega, by omega⟩
  case isFalse hmore =>
    rcases Nat.lt_or_ge (offset / 4096) (byte / 4096) with hlater | hfirst
    · rcases Nat.lt_or_ge (byte / 4096) ((offset + size) / 4096) with hbetween | hlast
      · exact .inr (.inl ⟨hlater, hbetween⟩)
      · exact .inr (.inr ⟨hlater, by omega, by omega, by omega⟩)
    · exact .inl ⟨by omega, by omega⟩

/-- A range that is not whole has a byte whose granule no mask of it covers. -/
theorem missed_of_not_whole (h : ¬Whole offset size) : ∃ byte, Covers offset size byte ∧
    byte % 64 = 0 ∧ ∀ bit, byte % 4096 / 64 ≤ bit → bit < 64 →
      ¬marked offset size (byte / 4096) bit := by
  rw [Whole] at h
  split at h
  case isTrue hone =>
    refine ⟨offset / 64 * 64 + size / 64 * 64, ⟨by omega, by omega⟩, by omega,
      fun bit hlow hbit => ?_⟩
    rw [marked, getLsbD_pageMask _ _ hbit, getLsbD_pageMask _ _ hbit]
    omega
  case isFalse hmore =>
    rw [not_and_or] at h
    rcases h with hfirst | hlast
    · refine ⟨offset / 4096 * 4096 + 4032, ⟨by omega, by omega⟩, by omega, fun bit hlow hbit => ?_⟩
      rw [marked, getLsbD_pageMask _ _ hbit, getLsbD_pageMask _ _ hbit]
      omega
    · refine ⟨(offset + size) / 64 * 64, ⟨by omega, by omega⟩, by omega, fun bit hlow hbit => ?_⟩
      rw [marked, getLsbD_pageMask _ _ hbit, getLsbD_pageMask _ _ hbit, alignDown_mod]
      omega

/-! ### Runs -/

inductive Call
  | track (offset size : ℕ)
  | reset

def Call.apply (t : UsageTracker) : Call → UsageTracker
  | .track offset size => t.track offset size
  | .reset => t.reset

def run (t : UsageTracker) (calls : List Call) : UsageTracker := calls.foldl Call.apply t

/-- The range was tracked and no reset came after it. -/
def Tracked (calls : List Call) (offset size : ℕ) : Prop :=
  ∃ before after, calls = before ++ .track offset size :: after ∧ .reset ∉ after

/-- Every tracked range ends inside the buffer and is whole. -/
def AllWhole (bufferSize : ℕ) (calls : List Call) : Prop :=
  ∀ offset size, .track offset size ∈ calls → offset + size ≤ bufferSize ∧ Whole offset size

theorem length_new (bufferSize : ℕ) : (new bufferSize).pages.length = bufferSize / 4096 + 1 := by
  rw [new, List.length_replicate, shift_page]

theorem length_run (t : UsageTracker) (calls : List Call) :
    (t.run calls).pages.length = t.pages.length := by
  induction calls generalizing t with
  | nil => rfl
  | cons call calls ih =>
    rw [run, List.foldl_cons, ← run, ih]
    cases call with
    | track offset size => exact length_track t offset size
    | reset => exact List.length_map ..

theorem run_append (t : UsageTracker) (calls calls' : List Call) :
    t.run (calls ++ calls') = (t.run calls).run calls' :=
  List.foldl_append ..

/-- Tracking more ranges clears no bit. -/
theorem has_run {calls : List Call} (hreset : .reset ∉ calls)
    (hinside : ∀ offset size, .track offset size ∈ calls → t.Inside offset size)
    (hbit : bit < 64) (h : has t.pages page bit) : has (t.run calls).pages page bit := by
  induction calls generalizing t with
  | nil => exact h
  | cons call calls ih =>
    rw [List.mem_cons, not_or] at hreset
    cases call with
    | reset => exact absurd rfl hreset.1
    | track offset size =>
      have hin := hinside offset size (List.mem_cons_self ..)
      refine ih hreset.2 (fun offset' size' hmem => ?_) ((has_track hin hbit).mpr (.inl h))
      obtain ⟨hend, hpages⟩ := hinside offset' size' (List.mem_cons_of_mem _ hmem)
      exact ⟨hend, by rw [Call.apply, length_track]; exact hpages⟩

/-- After whole ranges were tracked, a query of a whole range sees every one that it shares a byte
with. -/
theorem run_used {bufferSize : ℕ} {calls : List Call} (hbuffer : bufferSize < 2 ^ 64)
    (hcalls : AllWhole bufferSize calls) {offset' size' : ℕ} (byte : ℕ)
    (htracked : Tracked calls offset' size') (hshared : Covers offset' size' byte)
    (hquery : offset + size ≤ bufferSize) (hwhole : Whole offset size)
    (hbyte : Covers offset size byte) :
    ((new bufferSize).run calls).isUsed offset size = true := by
  have hinside : ∀ {t : UsageTracker} {offset size : ℕ},
      t.pages.length = bufferSize / 4096 + 1 → offset + size ≤ bufferSize →
        t.Inside offset size := fun hlength hle =>
    ⟨hle.trans_lt hbuffer, hlength ▸ Nat.lt_succ_of_le (Nat.div_le_div_right hle)⟩
  have hbit : byte % 4096 / 64 < 64 := by omega
  obtain ⟨before, after, rfl, hreset⟩ := htracked
  obtain ⟨hle, hwhole'⟩ := hcalls offset' size' (by simp)
  have hbefore : ((new bufferSize).run before).pages.length = bufferSize / 4096 + 1 :=
    (length_run ..).trans (length_new bufferSize)
  have hset : has (((new bufferSize).run before).track offset' size').pages (byte / 4096)
      (byte % 4096 / 64) :=
    (has_track (hinside hbefore hle) hbit).mpr (.inr (marked_of_whole hwhole' hshared))
  have hafter : ∀ offset size, Call.track offset size ∈ after →
      (((new bufferSize).run before).track offset' size').Inside offset size := fun o s hmem =>
    hinside ((length_track ..).trans hbefore) (hcalls o s (by simp [hmem])).1
  have hend := has_run hreset hafter hbit hset
  rw [run_append]
  refine (isUsed_iff (hinside ((length_run ..).trans hbefore) hquery)).mpr
    ⟨_, _, hbit, marked_of_whole hwhole hbyte, hend⟩

theorem run_used_granule : ((new 4096).run [.track 0 128]).isUsed 96 16 = true :=
  run_used (by decide) (fun offset size hmem => by
    obtain ⟨rfl, rfl⟩ : offset = 0 ∧ size = 128 := by simpa using hmem
    decide) 100 ⟨[], [], rfl, List.not_mem_nil⟩ (by constructor <;> decide) (by decide)
    (by decide) (by constructor <;> decide)

/-- Of 100 tracked bytes the last 36 are not seen in use. -/
theorem run_used_missed : ∃ calls, Tracked calls 0 100 ∧ Covers 0 100 64 ∧ Covers 64 1 64 ∧
    ((new 4096).run calls).isUsed 64 1 = false :=
  ⟨[.track 0 100], ⟨[], [], rfl, List.not_mem_nil⟩, by constructor <;> decide,
    by constructor <;> decide, by decide⟩

/-- The condition on a tracked range cannot be dropped: of any other range, one byte is not seen
in use right after it was tracked. -/
theorem new_missed {bufferSize : ℕ} (hbuffer : bufferSize < 2 ^ 64)
    (hrange : offset + size ≤ bufferSize) (h : ¬Whole offset size) :
    ∃ byte, Covers offset size byte ∧ Whole byte 1 ∧
      ((new bufferSize).track offset size).isUsed byte 1 = false := by
  obtain ⟨byte, hbyte, hfirst, hmissed⟩ := missed_of_not_whole h
  have hin : ∀ offset size, offset + size ≤ bufferSize →
      (new bufferSize).Inside offset size := fun o s hle =>
    ⟨hle.trans_lt hbuffer, (length_new bufferSize).symm ▸
      Nat.lt_succ_of_le (Nat.div_le_div_right hle)⟩
  have hone : byte / 4096 = (byte + 1) / 4096 := by omega
  refine ⟨byte, hbyte, ?_, ?_⟩
  · rw [Whole, if_pos hone]
    exact .inl (by decide)
  · have hquery : ((new bufferSize).track offset size).Inside byte 1 := by
      obtain ⟨hend, hpages⟩ := hin byte 1 (Nat.succ_le_of_lt (hbyte.2.trans_le hrange))
      exact ⟨hend, by rw [length_track]; exact hpages⟩
    rw [Bool.eq_false_iff]
    intro hused
    obtain ⟨page, bit, hbit, hmark, hhas⟩ := (isUsed_iff hquery).mp hused
    have hnew : ¬has (new bufferSize).pages page bit := by
      rintro ⟨bits, hbits, hset⟩
      obtain rfl := (List.mem_replicate.mp (List.mem_of_getElem? hbits)).2
      exact Bool.false_ne_true (BitVec.getLsbD_zero.symm.trans hset)
    have hmark' := ((has_track (hin offset size hrange) hbit).mp hhas).resolve_left hnew
    rw [marked, getLsbD_pageMask _ _ hbit] at hmark
    rcases hmark with ⟨rfl, hlow, -⟩ | hmiddle | hlast
    · exact hmissed bit hlow hbit hmark'
    · omega
    · omega

end UsageTracker

end Ruzu.BufferCache
