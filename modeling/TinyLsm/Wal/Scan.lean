import TinyLsm.Library.Loops
import TinyLsm.Utils.Files
import TinyLsm.Wal.Codec
import TinyLsm.Wal.Directory

/-!
# Scanning a log file

Cleaning goes through a log file from record to record, by the lengths stored in it, and looks
at the transaction ids only.  It stops at a record after the checkpoint, at the end of the file,
or where an id is cut off.

* On the encodings of records it finds out whether there is a record after the checkpoint:
  `run_scanStep_layout`.
* On arbitrary bytes it stops unless the stored lengths lead to a record that is not after the
  checkpoint and whose stored length is `0`: `scan_ends_iff`.
-/

namespace TinyLsm

namespace WAL

/-- A round of the loop over the records of a file, at an offset.  The loop is left with whether
there is a record after the checkpoint. -/
def scanStep (checkpointTrancId : TrancId) (content : Bytes) (offset : ℕ) :
    Except Fault Bool ⊕ ℕ :=
  if offset + 2 < content.length then
    match FileObj.readUint16 content offset with
    | .error fault => .inl (.error fault)
    | .ok recordSize =>
        match FileObj.readUint64 content (offset + 2) with
        | .error fault => .inl (.error fault)
        | .ok trancId =>
            if checkpointTrancId < trancId then .inl (.ok true) else .inr (offset + recordSize)
  else
    .inl (.ok false)

/-- The length stored at an offset. -/
def storedLength (content : Bytes) (offset : ℕ) : ℕ := littleEndian ((content.drop offset).take 2)

/-- The transaction id stored after the length at an offset. -/
def storedTrancId (content : Bytes) (offset : ℕ) : ℕ :=
  littleEndian ((content.drop (offset + 2)).take 8)

/-- There are a length and an id at an offset, and the id is not after the checkpoint. -/
def Passes (checkpointTrancId : TrancId) (content : Bytes) (offset : ℕ) : Prop :=
  offset + 10 ≤ content.length ∧ storedTrancId content offset ≤ checkpointTrancId

/-- The offsets that the stored lengths lead to from the beginning of a file, as long as the ids
are not after the checkpoint. -/
inductive Border (checkpointTrancId : TrancId) (content : Bytes) : ℕ → Prop
  | first : Border checkpointTrancId content 0
  | next {offset : ℕ} : Border checkpointTrancId content offset →
      Passes checkpointTrancId content offset →
      Border checkpointTrancId content (offset + storedLength content offset)

section

variable {checkpointTrancId : TrancId} {content : Bytes} {offset : ℕ}

theorem scanStep_end (h : content.length ≤ offset + 2) :
  scanStep checkpointTrancId content offset = .inl (.ok false)
  := if_neg (Nat.not_lt_of_le h)

theorem scanStep_cut (h : offset + 2 < content.length) (hcut : content.length < offset + 10) :
  scanStep checkpointTrancId content offset = .inl (.error (.outOfRange "Read beyond file size"))
  := by
  rw [scanStep, if_pos h, FileObj.readUint16, FileObj.readUint_of_le (by omega)]
  dsimp only
  rw [FileObj.readUint64, FileObj.readUint_of_lt (by omega)]

theorem scanStep_of_le (h : offset + 10 ≤ content.length) :
  scanStep checkpointTrancId content offset =
    if checkpointTrancId < storedTrancId content offset then .inl (.ok true)
    else .inr (offset + storedLength content offset)
  := by
  rw [scanStep, if_pos (by omega), FileObj.readUint16, FileObj.readUint_of_le (by omega)]
  dsimp only
  rw [FileObj.readUint64, FileObj.readUint_of_le (by omega)]
  rfl

/-- The loop goes on to what the stored length leads to. -/
theorem scanStep_eq_inr_iff {offset' : ℕ} :
  scanStep checkpointTrancId content offset = .inr offset' ↔
    Passes checkpointTrancId content offset ∧ offset' = offset + storedLength content offset
  := by
  obtain hmore | hend := Nat.lt_or_ge (offset + 2) content.length
  swap
  · rw [scanStep_end hend]
    constructor
    · intro h
      cases h
    · rintro ⟨⟨hle, -⟩, -⟩
      omega
  obtain hcut | hle := Nat.lt_or_ge content.length (offset + 10)
  · rw [scanStep_cut hmore hcut]
    constructor
    · intro h
      cases h
    · rintro ⟨⟨hle, -⟩, -⟩
      omega
  rw [scanStep_of_le hle]
  split
  next hlt =>
    constructor
    · intro h
      cases h
    · rintro ⟨⟨-, hid⟩, -⟩
      exact absurd hlt (Nat.not_lt_of_le hid)
  next hid =>
    constructor
    · intro h
      cases h
      exact ⟨⟨hle, Nat.le_of_not_lt hid⟩, rfl⟩
    · rintro ⟨-, rfl⟩
      rfl

theorem visits_scanStep_iff :
  Loops.Visits (scanStep checkpointTrancId content) 0 offset ↔
    Border checkpointTrancId content offset
  := by
  constructor
  · intro h
    induction h with
    | start => exact .first
    | next _ hstep ih =>
        obtain ⟨hpasses, rfl⟩ := scanStep_eq_inr_iff.mp hstep
        exact ih.next hpasses
  · intro h
    induction h with
    | first => exact .start
    | next _ hpasses ih => exact ih.next (scanStep_eq_inr_iff.mpr ⟨hpasses, rfl⟩)

end

/-! ### Records that fit -/

/-- What is stored at the beginning of a record that fits. -/
theorem stored_layout {record : Record} (h : record.Fits) (done rest : Bytes) :
  storedLength (done ++ (record.header ++ record.body ++ rest)) done.length =
      record.recordLen.toNat ∧
    storedTrancId (done ++ (record.header ++ record.body ++ rest)) done.length = record.trancId
  := by
  have hlen : record.recordLen.toNat < 256 ^ 2 := record.recordLen.toNat_lt
  have hid : record.trancId < 256 ^ 8 := h.trancId_lt
  constructor
  · rw [storedLength, List.drop_left]
    simp only [Record.header, List.append_assoc]
    rw [List.take_left' (length_toLittleEndian 2 record.recordLen.toNat),
      littleEndian_toLittleEndian hlen]
  · rw [storedTrancId, ← List.drop_drop, List.drop_left]
    simp only [Record.header, List.append_assoc]
    rw [List.drop_left' (length_toLittleEndian 2 record.recordLen.toNat),
      List.take_left' (length_toLittleEndian 8 record.trancId), littleEndian_toLittleEndian hid]

/-- On the encodings of records the loop goes from one to the next, and finds out whether there
is one after the checkpoint. -/
theorem run_scanStep_layout (checkpointTrancId : TrancId) :
  ∀ {records : List Record}, (∀ record ∈ records, record.Fits) → ∀ done : Bytes,
    Loops.run (scanStep checkpointTrancId (done ++ Record.layout records)) (records.length + 1)
      done.length = some (.ok (hasUnfinished checkpointTrancId records))
  | [], _, done => by
      apply Loops.run_of_left
      apply scanStep_end
      rw [Record.layout, List.flatMap_nil, List.append_nil]
      omega
  | record :: records, h, done => by
      have hfits := h record List.mem_cons_self
      have hrecord := hfits.length_encode
      have hlen := hfits.recordLen_eq
      rw [Record.headerSize] at hlen
      obtain ⟨hlength, hid⟩ := stored_layout hfits done (Record.layout records)
      have hle : done.length + 10 ≤
          (done ++ (record.header ++ record.body ++ Record.layout records)).length := by
        rw [List.length_append, List.length_append, hrecord]
        omega
      have hstep : scanStep checkpointTrancId _ _ = _ := scanStep_of_le hle
      rw [hlength, hid] at hstep
      rw [Record.layout_cons, List.length_cons]
      split at hstep
      next hlt =>
        rw [Loops.run_of_left hstep, hasUnfinished, List.any_cons, decide_eq_true hlt,
          Bool.true_or]
      next hge =>
        have ih := run_scanStep_layout checkpointTrancId
          (fun r hr => h r (List.mem_cons_of_mem record hr))
          (done ++ (record.header ++ record.body))
        rw [Loops.run_of_right hstep, hasUnfinished, List.any_cons, decide_eq_false hge,
          Bool.false_or, ← hrecord, ← List.length_append, ← List.append_assoc]
        exact ih

/-! ### Arbitrary bytes -/

/-- The loop over the records of a file ends if and only if the stored lengths do not lead to a
length `0` before an id that is not after the checkpoint. -/
theorem scan_ends_iff (checkpointTrancId : TrancId) (content : Bytes) :
  Loops.Ends (scanStep checkpointTrancId content) 0 ↔
    ∀ offset, Border checkpointTrancId content offset → Passes checkpointTrancId content offset →
      storedLength content offset ≠ 0
  := by
  have hround : ∀ offset offset', Loops.Visits (scanStep checkpointTrancId content) 0 offset →
      scanStep checkpointTrancId content offset = .inr offset' →
      offset' = offset ∨ content.length - offset' < content.length - offset := by
    intro offset offset' _ hstep
    obtain ⟨⟨hle, -⟩, rfl⟩ := scanStep_eq_inr_iff.mp hstep
    omega
  rw [Loops.ends_iff (fun offset => content.length - offset) hround]
  constructor
  · intro h offset hborder hpasses hzero
    apply h offset (visits_scanStep_iff.mpr hborder)
    apply scanStep_eq_inr_iff.mpr ⟨hpasses, by omega⟩
  · intro h offset hvisits hstep
    obtain ⟨hpasses, heq⟩ := scanStep_eq_inr_iff.mp hstep
    apply h offset (visits_scanStep_iff.mp hvisits) hpasses (by omega)

/-- The loop over a file that ends with zeros where a record would start does not end. -/
theorem scan_zeros : ¬ Loops.Ends (scanStep 0 (List.replicate 11 0)) 0
  := Loops.not_ends_of_fixed rfl

end WAL

end TinyLsm
