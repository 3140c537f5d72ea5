import TinyLsm.Utils.LittleEndian

/-!
# Reading from files

Numbers are read from the bytes of a file at an offset.  A number that is not wholly inside the
file is not read.  Bytes are written over those that are there; a file does not get shorter.
-/

namespace TinyLsm

namespace FileObj

/-- Read a number of so many bytes. -/
def readUint (width : ℕ) (content : Bytes) (offset : ℕ) : Except Fault ℕ :=
  if content.length < offset + width then .error (.outOfRange "Read beyond file size")
  else .ok (littleEndian ((content.drop offset).take width))

def readUint16 (content : Bytes) (offset : ℕ) : Except Fault ℕ := readUint 2 content offset

def readUint64 (content : Bytes) (offset : ℕ) : Except Fault ℕ := readUint 8 content offset

/-- Write bytes over those from an offset on.  A gap behind the end is filled with zeros. -/
def write (content : Bytes) (offset : ℕ) (buf : Bytes) : Bytes :=
  content.take offset ++ List.replicate (offset - content.length) 0 ++ buf ++
    content.drop (offset + buf.length)

theorem readUint_of_le {width : ℕ} {content : Bytes} {offset : ℕ}
    (h : offset + width ≤ content.length) :
  readUint width content offset = .ok (littleEndian ((content.drop offset).take width))
  := if_neg (Nat.not_lt_of_le h)

theorem readUint_of_lt {width : ℕ} {content : Bytes} {offset : ℕ}
    (h : content.length < offset + width) :
  readUint width content offset = .error (.outOfRange "Read beyond file size")
  := if_pos h

/-- A number reads back from where its bytes are. -/
theorem readUint_append {width n : ℕ} (h : n < 256 ^ width) (front rest : Bytes) :
  readUint width (front ++ (toLittleEndian width n ++ rest)) front.length = .ok n
  := by
  have hwidth := length_toLittleEndian width n
  rw [readUint_of_le (by rw [List.length_append, List.length_append]; omega), List.drop_left,
    List.take_left' hwidth, littleEndian_toLittleEndian h]

theorem write_zero (content buf : Bytes) :
  write content 0 buf = buf ++ content.drop buf.length
  := by
  rw [write, List.take_zero, Nat.zero_sub, List.replicate_zero, List.nil_append, List.nil_append,
    Nat.zero_add]

end FileObj

end TinyLsm
