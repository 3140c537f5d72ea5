import TinyLsm.Sst.Sst
import TinyLsm.Utils.Text

/-!
# Values in the value log

A table with storage mode `1` holds a value itself, if it is empty or not longer than a threshold,
and otherwise a reference of twelve bytes into the value log.  `resolve_value` takes whatever is
twelve bytes long or longer for a reference.  So a value that is held itself resolves to itself if
and only if it is shorter than that, or the value log happens to answer it.
-/

namespace TinyLsm

/-- The twelve bytes of a reference into the value log. -/
def VLog.reference (offset size : ℕ) : Bytes := toLittleEndian 8 offset ++ toLittleEndian 4 size

/-- What a table holds of a value: the value, or the reference that appending it has answered. -/
def SSTBuilder.storedForm (wisckeyThreshold : ℕ) (value : Bytes) (offset size : ℕ) : Bytes :=
  if value = [] ∨ value.length ≤ wisckeyThreshold then value else VLog.reference offset size

namespace SST

/-- A value as it is held of a WiscKey table resolves as what the first twelve bytes refer to. -/
theorem resolveValue_of_le {sst : SST} (hmode : sst.storageMode = 1) {vlog : VLog}
    (hvlog : sst.vlog = some vlog) {rawValue : Bytes} (hlength : 12 ≤ rawValue.length) :
  sst.resolveValue rawValue =
    vlog.readValue (littleEndian (rawValue.take 8)) (littleEndian ((rawValue.drop 8).take 4))
  := by
  have hne : ¬ (sst.storageMode = 0 ∨ rawValue = []) := by
    rintro (hzero | rfl)
    · rw [hmode] at hzero
      cases hzero
    · cases hlength
  rw [resolveValue, if_neg hne, if_neg (Nat.not_lt_of_le hlength), hvlog]

theorem resolveValue_of_lt (sst : SST) {rawValue : Bytes} (hlength : rawValue.length < 12) :
  sst.resolveValue rawValue = .ok rawValue
  := by
  rw [resolveValue, if_pos hlength, ite_self]

/-- A reference resolves to what the value log answers for it. -/
theorem resolveValue_reference {sst : SST} (hmode : sst.storageMode = 1) {vlog : VLog}
    (hvlog : sst.vlog = some vlog) {offset size : ℕ} (hoffset : offset < 2 ^ 64)
    (hsize : size < 2 ^ 32) :
  sst.resolveValue (VLog.reference offset size) = vlog.readValue offset size
  := by
  have hlength : (VLog.reference offset size).length = 12 := by
    rw [VLog.reference, List.length_append, length_toLittleEndian, length_toLittleEndian]
  have htake : (VLog.reference offset size).take 8 = toLittleEndian 8 offset :=
    List.take_left' (length_toLittleEndian 8 offset)
  have hdrop : (VLog.reference offset size).drop 8 = toLittleEndian 4 size :=
    List.drop_left' (length_toLittleEndian 8 offset)
  have hrest : (toLittleEndian 4 size).take 4 = toLittleEndian 4 size :=
    List.take_of_length_le (length_toLittleEndian 4 size).le
  have hoffset' : offset < 256 ^ 8 := hoffset
  have hsize' : size < 256 ^ 4 := hsize
  rw [resolveValue_of_le hmode hvlog hlength.ge, htake, hdrop, hrest,
    littleEndian_toLittleEndian hoffset', littleEndian_toLittleEndian hsize']

/-- What a WiscKey table holds of a value resolves to the value if and only if the value is empty
or shorter than a reference, or is longer than the threshold, or the value log answers it for its
own first twelve bytes. -/
theorem resolveValue_storedForm_iff (sst : SST) (hmode : sst.storageMode = 1) (vlog : VLog)
    (hvlog : sst.vlog = some vlog) (wisckeyThreshold : ℕ) (value : Bytes) (offset size : ℕ)
    (hoffset : offset < 2 ^ 64) (hsize : size < 2 ^ 32)
    (happended : value ≠ [] → wisckeyThreshold < value.length →
      vlog.readValue offset size = .ok value) :
  sst.resolveValue (SSTBuilder.storedForm wisckeyThreshold value offset size) = .ok value ↔
    value.length < 12 ∨ wisckeyThreshold < value.length ∨
      vlog.readValue (littleEndian (value.take 8)) (littleEndian ((value.drop 8).take 4)) =
        .ok value
  := by
  rw [SSTBuilder.storedForm]
  split
  next hinline =>
    have hle : ¬ wisckeyThreshold < value.length := by
      rcases hinline with rfl | hle
      · exact Nat.not_lt_zero _
      · exact Nat.not_lt_of_le hle
    obtain hshort | hlong := Nat.lt_or_ge value.length 12
    · exact iff_of_true (sst.resolveValue_of_lt hshort) (.inl hshort)
    · rw [resolveValue_of_le hmode hvlog hlong]
      simp only [Nat.not_lt_of_le hlong, hle, false_or]
  next hseparate =>
    obtain ⟨hne, hlt⟩ := not_or.mp hseparate
    have hgt := Nat.lt_of_not_le hlt
    rw [resolveValue_reference hmode hvlog hoffset hsize]
    exact iff_of_true (happended hne hgt) (.inr (.inl hgt))

/-- A value log of one value, of thirteen bytes at the offset `0`. -/
def oneValueLog : VLog where
  readValue offset size :=
    if offset = 0 ∧ size = 13 then .ok (bytes "thirteenbytes")
    else .error (.outOfRange "Read beyond file size")

theorem resolveValue_storedForm_iff_thirteen :
  (SST.mk 0 [] 1 (some oneValueLog)).resolveValue
      (SSTBuilder.storedForm 12 (bytes "thirteenbytes") 0 13) = .ok (bytes "thirteenbytes") ↔
    (bytes "thirteenbytes").length < 12 ∨ 12 < (bytes "thirteenbytes").length ∨
      oneValueLog.readValue (littleEndian ((bytes "thirteenbytes").take 8))
        (littleEndian (((bytes "thirteenbytes").drop 8).take 4)) = .ok (bytes "thirteenbytes")
  := resolveValue_storedForm_iff _ rfl oneValueLog rfl 12 (bytes "thirteenbytes") 0 13 (by decide)
    (by decide) (fun _ _ => rfl)

/-- A value of twelve bytes that is not longer than the threshold is taken for a reference. -/
theorem resolveValue_storedForm_twelve :
  (SST.mk 0 [] 1 (some oneValueLog)).resolveValue
      (SSTBuilder.storedForm 64 (bytes "twelve bytes") 0 0) ≠ .ok (bytes "twelve bytes")
  := by decide

end SST

end TinyLsm
