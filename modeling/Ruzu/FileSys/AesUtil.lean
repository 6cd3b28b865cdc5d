import Mathlib
import Ruzu.Lib.Image

/-!
# Block ciphers in counter and in tweaked mode

`aes_util.rs` and `utility.rs`. The block cipher is any keyed permutation of
blocks of 16 bytes. The counter of the counter mode is a big-endian number of
16 bytes that wraps around; the tweaked mode multiplies its tweak from block to
block.
-/

set_option autoImplicit false

namespace Ruzu.FileSys

def blockSize : ℕ := 16

/-- A keyed permutation of blocks. -/
structure Aes where
  encrypt : List UInt8 → List UInt8 → List UInt8
  decrypt : List UInt8 → List UInt8 → List UInt8
  length_encrypt : ∀ key block, (encrypt key block).length = block.length
  length_decrypt : ∀ key block, (decrypt key block).length = block.length
  decrypt_encrypt : ∀ key block, block.length = blockSize → decrypt key (encrypt key block) = block
  encrypt_decrypt : ∀ key block, block.length = blockSize → encrypt key (decrypt key block) = block

inductive Op
  | encrypt
  | decrypt

def Aes.apply (aes : Aes) : Op → List UInt8 → List UInt8 → List UInt8
  | .encrypt => aes.encrypt
  | .decrypt => aes.decrypt

theorem Aes.length_apply (aes : Aes) (op : Op) (key block : List UInt8) :
    (aes.apply op key block).length = block.length := by
  cases op with
  | encrypt => exact aes.length_encrypt key block
  | decrypt => exact aes.length_decrypt key block

/-! ### Counters -/

/-- The loop of `add_counter`, from the last byte of the counter on. -/
def addCounterFrom : List UInt8 → ℕ → ℕ → List UInt8
  | [], _, _ => []
  | byte :: bytes, remaining, carry =>
    let sum := byte.toNat + remaining % 256 + carry
    let carry := sum / 256
    let remaining := remaining / 256
    UInt8.ofNat (sum % 256) ::
      if carry = 0 ∧ remaining = 0 then bytes else addCounterFrom bytes remaining carry

def addCounter (counter : List UInt8) (value : ℕ) : List UInt8 :=
  (addCounterFrom counter.reverse value 0).reverse

/-- The counter `n` steps on, a number of 16 bytes with the highest byte first. -/
def counterBlock (counter : List UInt8) (n : ℕ) : List UInt8 :=
  (Image.le blockSize (Image.fromLe counter.reverse + n)).reverse

theorem addCounterFrom_eq (bytes : List UInt8) (remaining carry : ℕ) :
    addCounterFrom bytes remaining carry =
      Image.le bytes.length (Image.fromLe bytes + remaining + carry) := by
  induction bytes generalizing remaining carry with
  | nil => rfl
  | cons byte bytes ih =>
    have hlt : byte.toNat < 256 := byte.toNat_lt
    have hlow : (byte.toNat + 256 * Image.fromLe bytes + remaining + carry) % 256 =
        (byte.toNat + remaining % 256 + carry) % 256 := by omega
    have hhigh : (byte.toNat + 256 * Image.fromLe bytes + remaining + carry) / 256 =
        Image.fromLe bytes + remaining / 256 + (byte.toNat + remaining % 256 + carry) / 256 := by
      omega
    have hbyte : UInt8.ofNat (byte.toNat + 256 * Image.fromLe bytes + remaining + carry) =
        UInt8.ofNat ((byte.toNat + remaining % 256 + carry) % 256) := by
      refine UInt8.toNat_inj.mp ?_
      rw [UInt8.toNat_ofNat', UInt8.toNat_ofNat']
      omega
    rw [List.length_cons, Image.le, Image.fromLe, hhigh, hbyte, addCounterFrom]
    refine congrArg _ ?_
    split
    case isTrue hdone =>
      rw [hdone.1, hdone.2]
      exact (Image.le_fromLe bytes).symm
    case isFalse => exact ih ..

theorem addCounter_eq {counter : List UInt8} (h : counter.length = blockSize) (value : ℕ) :
    addCounter counter value = counterBlock counter value := by
  rw [addCounter, counterBlock, addCounterFrom_eq, List.length_reverse, h, Nat.add_zero]

theorem length_counterBlock (counter : List UInt8) (n : ℕ) :
    (counterBlock counter n).length = blockSize := by
  rw [counterBlock, List.length_reverse, Image.length_le]

/-- The counter goes on from where it is, also when it wraps around. -/
theorem counterBlock_add (counter : List UInt8) (m n : ℕ) :
    counterBlock (counterBlock counter m) n = counterBlock counter (m + n) := by
  have hvalue : Image.fromLe (counterBlock counter m).reverse =
      (Image.fromLe counter.reverse + m) % 256 ^ blockSize := by
    rw [counterBlock, List.reverse_reverse, ← Image.le_mod,
      Image.fromLe_le _ _ (Nat.mod_lt _ (by decide))]
  have hsum : ((Image.fromLe counter.reverse + m) % 256 ^ blockSize + n) % 256 ^ blockSize =
      (Image.fromLe counter.reverse + (m + n)) % 256 ^ blockSize := by
    rw [Nat.mod_add_mod, Nat.add_assoc]
  rw [counterBlock, hvalue, ← Image.le_mod, hsum, Image.le_mod, counterBlock]

/-! ### The counter mode -/

def keystream (aes : Aes) (key counter : List UInt8) (i : ℕ) : UInt8 :=
  ((aes.encrypt key (counterBlock counter (i / blockSize)))[i % blockSize]?).getD 0

/-- `transcode_ctr`: the keystream of the counters from the initial one on. -/
def transcodeCtr (aes : Aes) (key iv data : List UInt8) : List UInt8 :=
  data.mapIdx fun i byte => byte ^^^ keystream aes key iv i

theorem getElem?_transcodeCtr (aes : Aes) (key iv data : List UInt8) (i : ℕ) :
    (transcodeCtr aes key iv data)[i]? = data[i]?.map (· ^^^ keystream aes key iv i) :=
  List.getElem?_mapIdx

theorem length_transcodeCtr (aes : Aes) (key iv data : List UInt8) :
    (transcodeCtr aes key iv data).length = data.length :=
  List.length_mapIdx

theorem keystream_add (aes : Aes) (key counter : List UInt8) (n i : ℕ) :
    keystream aes key (counterBlock counter n) i =
      keystream aes key counter (blockSize * n + i) := by
  rw [keystream, keystream, counterBlock_add, Nat.mul_add_div (by decide), Nat.mul_add_mod]

/-! ### The tweaked mode -/

/-- The shift of the bytes to the left, with the bit that came out last. -/
def shiftTweak : List UInt8 → UInt8 → List UInt8 × UInt8
  | [], carry => ([], carry)
  | byte :: bytes, carry =>
    let (bytes, out) := shiftTweak bytes (byte >>> 7)
    (((byte <<< 1) ||| carry) :: bytes, out)

def xtsMultiplyTweak (tweak : List UInt8) : List UInt8 :=
  let (tweak, carry) := shiftTweak tweak 0
  if carry ≠ 0 then tweak.modify 0 (· ^^^ 0x87) else tweak

def xorBytes (bytes bytes' : List UInt8) : List UInt8 := List.zipWith (· ^^^ ·) bytes bytes'

def xtsBlock (aes : Aes) (op : Op) (key tweak block : List UInt8) : List UInt8 :=
  xorBytes (aes.apply op key (xorBytes block tweak)) tweak

/-- The loop over the full blocks. A part of a block at the end stays as it is. -/
def xtsChunks (aes : Aes) (op : Op) (key : List UInt8) : ℕ → List UInt8 → List UInt8 → List UInt8
  | 0, _, data => data
  | n + 1, tweak, data => xtsBlock aes op key tweak (data.take blockSize) ++
      xtsChunks aes op key n (xtsMultiplyTweak tweak) (data.drop blockSize)

/-- `transcode_xts`, with the first half of the key for the data and the second one for the
tweak. -/
def transcodeXts (aes : Aes) (op : Op) (key iv data : List UInt8) : List UInt8 :=
  xtsChunks aes op (key.take blockSize) (data.length / blockSize)
    (aes.encrypt ((key.drop blockSize).take blockSize) iv) data

theorem length_shiftTweak (bytes : List UInt8) (carry : UInt8) :
    (shiftTweak bytes carry).1.length = bytes.length := by
  induction bytes generalizing carry with
  | nil => rfl
  | cons byte bytes ih => exact congrArg (· + 1) (ih _)

theorem length_xtsMultiplyTweak (tweak : List UInt8) :
    (xtsMultiplyTweak tweak).length = tweak.length := by
  rw [xtsMultiplyTweak]
  dsimp only
  split
  · rw [List.length_modify, length_shiftTweak]
  · exact length_shiftTweak ..

theorem length_xtsBlock {aes : Aes} {op : Op} {key tweak block : List UInt8}
    (h : block.length = tweak.length) : (xtsBlock aes op key tweak block).length = block.length := by
  rw [xtsBlock, xorBytes, List.length_zipWith, aes.length_apply, xorBytes, List.length_zipWith]
  omega

theorem length_xtsChunks {aes : Aes} {op : Op} {key : List UInt8} (n : ℕ) {tweak data : List UInt8}
    (htweak : tweak.length = blockSize) (hdata : blockSize * n ≤ data.length) :
    (xtsChunks aes op key n tweak data).length = data.length := by
  induction n generalizing tweak data with
  | zero => rfl
  | succ n ih =>
    have hblock : (data.take blockSize).length = blockSize := by
      rw [List.length_take]
      exact Nat.min_eq_left ((Nat.le_mul_of_pos_right _ n.succ_pos).trans hdata)
    have hrest : (data.drop blockSize).length = data.length - blockSize := List.length_drop ..
    rw [Nat.mul_succ] at hdata
    rw [xtsChunks, List.length_append, length_xtsBlock (hblock.trans htweak.symm), hblock,
      ih ((length_xtsMultiplyTweak tweak).trans htweak) (by omega), hrest]
    omega

/-- A block of the result depends on the block at its place and on its number. -/
theorem getElem?_xtsChunks {aes : Aes} {op : Op} {key : List UInt8} (n : ℕ)
    {tweak data : List UInt8} (htweak : tweak.length = blockSize)
    (hdata : blockSize * n ≤ data.length) {i : ℕ} (hi : i < blockSize * n) :
    (xtsChunks aes op key n tweak data)[i]? =
      (xtsBlock aes op key (xtsMultiplyTweak^[i / blockSize] tweak)
        ((data.drop (i / blockSize * blockSize)).take blockSize))[i % blockSize]? := by
  induction n generalizing tweak data i with
  | zero => exact absurd hi (Nat.not_lt_zero _)
  | succ n ih =>
    have hblock : (data.take blockSize).length = blockSize := by
      rw [List.length_take]
      exact Nat.min_eq_left ((Nat.le_mul_of_pos_right _ n.succ_pos).trans hdata)
    have hfirst : (xtsBlock aes op key tweak (data.take blockSize)).length = blockSize :=
      (length_xtsBlock (hblock.trans htweak.symm)).trans hblock
    rw [Nat.mul_succ] at hdata hi
    rw [xtsChunks]
    rcases Nat.lt_or_ge i blockSize with hlt | hge
    · rw [List.getElem?_append_left (hlt.trans_eq hfirst.symm), Nat.div_eq_of_lt hlt,
        Nat.mod_eq_of_lt hlt, Nat.zero_mul]
      rfl
    · obtain ⟨j, rfl⟩ := Nat.exists_eq_add_of_le hge
      have hdiv : (blockSize + j) / blockSize = j / blockSize + 1 :=
        Nat.add_div_left j (by decide)
      rw [List.getElem?_append_right (hfirst.trans_le hge), hfirst, Nat.add_sub_cancel_left,
        ih ((length_xtsMultiplyTweak tweak).trans htweak) (by rw [List.length_drop]; omega)
          (by omega), hdiv, Function.iterate_succ_apply, List.drop_drop, Nat.add_mod_left,
        Nat.succ_mul, Nat.add_comm blockSize]

theorem length_transcodeXts {aes : Aes} {op : Op} {key iv data : List UInt8}
    (hiv : iv.length = blockSize) : (transcodeXts aes op key iv data).length = data.length :=
  length_xtsChunks _ ((aes.length_encrypt _ iv).trans hiv) (Nat.mul_div_le ..)

theorem getElem?_transcodeXts {aes : Aes} {op : Op} {key iv data : List UInt8}
    (hiv : iv.length = blockSize) (hdata : data.length % blockSize = 0) {i : ℕ}
    (hi : i < data.length) :
    (transcodeXts aes op key iv data)[i]? =
      (xtsBlock aes op (key.take blockSize)
        (xtsMultiplyTweak^[i / blockSize] (aes.encrypt ((key.drop blockSize).take blockSize) iv))
        ((data.drop (i / blockSize * blockSize)).take blockSize))[i % blockSize]? :=
  getElem?_xtsChunks _ ((aes.length_encrypt _ iv).trans hiv) (Nat.mul_div_le ..)
    (hi.trans_eq (Nat.mul_div_cancel' (Nat.dvd_of_mod_eq_zero hdata)).symm)

end Ruzu.FileSys
