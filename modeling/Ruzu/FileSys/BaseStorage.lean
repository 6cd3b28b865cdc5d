import Ruzu.Lib.Image

/-!
# A storage below another one

The file that a storage layer reads and writes. A read fills a buffer from its
front on with as much of the range as there is, and a write past the end makes
the file longer, as `VectorVfsFile` does. The accesses are kept in order.
-/

set_option autoImplicit false

namespace Ruzu.FileSys

structure BaseStorage where
  data : List UInt8
  /-- The offset and the length of each access. -/
  accesses : List (ℕ × ℕ)

namespace BaseStorage

def size (base : BaseStorage) : ℕ := base.data.length

/-- The buffer after the read, and the storage. -/
def read (base : BaseStorage) (buffer : List UInt8) (length offset : ℕ) :
    List UInt8 × BaseStorage :=
  let piece := (base.data.drop offset).take length
  (piece ++ buffer.drop piece.length, { base with accesses := base.accesses ++ [(offset, length)] })

def write (base : BaseStorage) (buffer : List UInt8) (length offset : ℕ) : BaseStorage :=
  let data := base.data ++ List.replicate (offset + length - base.data.length) 0
  ⟨data.take offset ++ buffer.take length ++ data.drop (offset + length),
    base.accesses ++ [(offset, length)]⟩

variable {base : BaseStorage} {buffer : List UInt8} {length offset : ℕ}

@[simp]
theorem read_data : (base.read buffer length offset).2.data = base.data := rfl

@[simp]
theorem read_accesses :
    (base.read buffer length offset).2.accesses = base.accesses ++ [(offset, length)] := rfl

@[simp]
theorem write_accesses :
    (base.write buffer length offset).accesses = base.accesses ++ [(offset, length)] := rfl

/-- A range inside the storage is read in full. -/
theorem getElem?_read (h : offset + length ≤ base.size) (i : ℕ) :
    (base.read buffer length offset).1[i]? =
      if i < length then base.data[offset + i]? else buffer[i]? := by
  have hlength : ((base.data.drop offset).take length).length = length := by
    rw [size] at h
    rw [List.length_take, List.length_drop]
    omega
  simp only [read, hlength]
  split
  case isTrue hlt =>
    rw [List.getElem?_append_left (hlt.trans_eq hlength.symm), List.getElem?_take_of_lt hlt,
      List.getElem?_drop]
  case isFalse hge =>
    rw [List.getElem?_append_right (hlength.trans_le (not_lt.mp hge)), hlength, List.getElem?_drop,
      Nat.add_sub_cancel' (not_lt.mp hge)]

theorem length_read (hbuffer : length ≤ buffer.length) :
    (base.read buffer length offset).1.length = buffer.length := by
  simp only [read, List.length_append, List.length_take, List.length_drop]
  omega

/-- A range inside the storage is replaced. -/
theorem getElem?_write (h : offset + length ≤ base.size) (hbuffer : length ≤ buffer.length)
    (i : ℕ) : (base.write buffer length offset).data[i]? =
      if offset ≤ i ∧ i < offset + length then buffer[i - offset]? else base.data[i]? := by
  have hnone : offset + length - base.data.length = 0 := Nat.sub_eq_zero_of_le h
  have hpiece : (buffer.take length).length = length := by
    rw [List.length_take]
    omega
  have hwrite : Image.write base.data offset (buffer.take length) =
      some (base.write buffer length offset).data := by
    rw [Image.write, hpiece, if_pos (show offset + length ≤ base.data.length from h)]
    simp only [write, hnone, List.replicate_zero, List.append_nil]
  rw [Image.getElem?_write hwrite, hpiece]
  split
  case isTrue hin => rw [List.getElem?_take_of_lt (by omega)]
  case isFalse => rfl

theorem size_write (h : offset + length ≤ base.size) (hbuffer : length ≤ buffer.length) :
    (base.write buffer length offset).size = base.size := by
  rw [size] at h
  simp only [size, write, List.length_append, List.length_take, List.length_drop,
    List.length_replicate]
  omega

end BaseStorage

end Ruzu.FileSys
