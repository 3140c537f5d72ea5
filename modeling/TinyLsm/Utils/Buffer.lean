import TinyLsm.Library.Cursor
import TinyLsm.Utils.LittleEndian

/-!
# Buffers of bytes

Bytes are copied into a buffer at an offset, and taken from what is left of the data at a cursor.
A copy past the end of a buffer, and a read past the end of the data, are undefined behaviour.
-/

namespace TinyLsm

/-- Copy bytes into a buffer, from an offset on. -/
def memcpy (buffer : Bytes) (offset : ℕ) (bytes : Bytes) : Except Fault Bytes :=
  if offset + bytes.length ≤ buffer.length then
    .ok (buffer.take offset ++ bytes ++ buffer.drop (offset + bytes.length))
  else
    .error .undefinedBehavior

/-- Take a number of bytes from those that are left of the data. -/
def readBytes (count : ℕ) (rest : Bytes) : Except Fault (Bytes × Bytes) :=
  if count ≤ rest.length then .ok (rest.take count, rest.drop count)
  else .error .undefinedBehavior

/-- Take a byte from those that are left of the data. -/
def readByte : Bytes → Except Fault (Byte × Bytes)
  | [] => .error .undefinedBehavior
  | byte :: rest => .ok (byte, rest)

/-- Take a number of so many bytes from those that are left of the data. -/
def readNumber (count : ℕ) (rest : Bytes) : Except Fault (ℕ × Bytes) := do
  let (bytes, rest) ← readBytes count rest
  return (littleEndian bytes, rest)

/-- `std::vector::resize`. -/
def resize (buffer : Bytes) (size : ℕ) : Bytes :=
  buffer.take size ++ List.replicate (size - buffer.length) 0

@[simp]
theorem length_resize (buffer : Bytes) (size : ℕ) : (resize buffer size).length = size
  := by
  rw [resize, List.length_append, List.length_take, List.length_replicate]
  omega

/-! ### Copying -/

/-- A copy behind what is done replaces what was there. -/
theorem memcpy_append {done bytes old : Bytes} (h : bytes.length ≤ old.length) :
  memcpy (done ++ old) done.length bytes = .ok (done ++ bytes ++ old.drop bytes.length)
  := by
  have hfits : done.length + bytes.length ≤ (done ++ old).length := by
    rw [List.length_append]
    omega
  rw [memcpy, if_pos hfits, List.take_left, List.drop_append, List.drop_of_length_le (by omega),
    List.nil_append, Nat.add_sub_cancel_left]

/-! ### Reading -/

theorem readBytes_append (bytes rest : Bytes) :
  readBytes bytes.length (bytes ++ rest) = .ok (bytes, rest)
  := by
  rw [readBytes, if_pos (by rw [List.length_append]; omega), List.take_left, List.drop_left]

theorem readNumber_of_length
    {count : ℕ} {bytes : Bytes} (h : bytes.length = count) (rest : Bytes) :
  readNumber count (bytes ++ rest) = .ok (littleEndian bytes, rest)
  := by
  rw [← h, readNumber, Except.bind_eq_of_ok _ (readBytes_append bytes rest)]
  rfl

theorem readNumber_append {count n : ℕ} (h : n < 256 ^ count) (rest : Bytes) :
  readNumber count (toLittleEndian count n ++ rest) = .ok (n, rest)
  := by
  rw [readNumber_of_length (length_toLittleEndian count n), littleEndian_toLittleEndian h]

/-- Bytes that are taken were there. -/
theorem readBytes_eq_ok {count : ℕ} {input bytes rest : Bytes}
    (h : readBytes count input = .ok (bytes, rest)) :
  bytes.length = count ∧ input = bytes ++ rest
  := by
  rw [readBytes] at h
  split at h
  next hle =>
    cases h
    exact ⟨List.length_take_of_le hle, (List.take_append_drop count input).symm⟩
  next => cases h

/-- A number that is taken was there, and fits. -/
theorem readNumber_eq_ok {count n : ℕ} {input rest : Bytes}
    (h : readNumber count input = .ok (n, rest)) :
  n < 256 ^ count ∧ input = toLittleEndian count n ++ rest
  := by
  rw [readNumber] at h
  obtain ⟨⟨bytes, rest'⟩, hread, hpure⟩ := Except.exists_of_bind_eq_ok h
  clear h
  obtain ⟨rfl, rfl⟩ := readBytes_eq_ok hread
  cases hpure
  rw [toLittleEndian_littleEndian]
  exact ⟨littleEndian_lt bytes, rfl⟩

theorem readBytes_of_le {count : ℕ} {input : Bytes} (h : count ≤ input.length) :
  readBytes count input = .ok (input.take count, input.drop count)
  := if_pos h

theorem readBytes_of_lt {count : ℕ} {input : Bytes} (h : input.length < count) :
  readBytes count input = .error .undefinedBehavior
  := if_neg (Nat.not_le_of_lt h)

theorem readNumber_of_le {count : ℕ} {input : Bytes} (h : count ≤ input.length) :
  readNumber count input = .ok (littleEndian (input.take count), input.drop count)
  := by
  rw [readNumber, Except.bind_eq_of_ok _ (readBytes_of_le h)]
  rfl

theorem readNumber_of_lt {count : ℕ} {input : Bytes} (h : input.length < count) :
  readNumber count input = .error .undefinedBehavior
  := by
  rw [readNumber, readBytes_of_lt h]
  rfl

end TinyLsm
