import TinyLsm.Library.OrderedSet
import TinyLsm.Wal.Record

/-!
# The log files

The log is kept in files in a directory, each under its sequence number.  A file is taken as
the records whose encodings it holds.  Records are appended to the active file, which stays
open when it is removed from the directory: what is appended to it then is gone.

Cleaning deletes files, but not the one with the greatest number, and not one with a record
after the checkpoint.  So records that are in the directory, with one after the checkpoint,
stay there under appending, cleaning, and starting a new file.
-/

namespace TinyLsm

/-- The files of a directory that hold a log. -/
abbrev WalFiles := OrderedMap ℕ (List Record)

structure WAL where
  files : WalFiles
  activeSeq : ℕ
  checkpointTrancId : TrancId

namespace WAL

/-- The constructor, which opens the file with the number `0`, or creates it. -/
def construct (files : WalFiles) (checkpointTrancId : TrancId) : WAL where
  files := if files.pairs.any (fun p => decide (p.1 = 0)) then files else files.assign 0 []
  activeSeq := 0
  checkpointTrancId

/-- Append records to the active file. -/
def log (w : WAL) (records : List Record) : WAL :=
  { w with files := w.files.modify w.activeSeq (fun file => file ++ records) }

/-- Create a file with the next number, and make it the active one. -/
def resetFile (w : WAL) : WAL :=
  { w with files := w.files.assign (w.activeSeq + 1) [], activeSeq := w.activeSeq + 1 }

/-- A file has a record after the checkpoint. -/
def hasUnfinished (checkpointTrancId : TrancId) (file : List Record) : Bool :=
  file.any (fun record => decide (checkpointTrancId < record.trancId))

/-- The files that cleaning leaves: the last one is not looked at. -/
def unfinishedFiles (checkpointTrancId : TrancId) :
    List (ℕ × List Record) → List (ℕ × List Record)
  | [] => []
  | [last] => [last]
  | p :: q :: ps =>
      if hasUnfinished checkpointTrancId p.2 then
        p :: unfinishedFiles checkpointTrancId (q :: ps)
      else
        unfinishedFiles checkpointTrancId (q :: ps)

theorem unfinishedFiles_sublist (checkpointTrancId : TrancId) :
  ∀ ps : List (ℕ × List Record), (unfinishedFiles checkpointTrancId ps).Sublist ps
  | [] => List.Sublist.refl _
  | [_] => List.Sublist.refl _
  | p :: q :: ps => by
      have ih := unfinishedFiles_sublist checkpointTrancId (q :: ps)
      rw [unfinishedFiles]
      split
      · apply ih.cons_cons p
      · apply ih.cons p

theorem unfinishedFiles_concat (checkpointTrancId : TrancId) :
  ∀ (ps : List (ℕ × List Record)) (last : ℕ × List Record),
    unfinishedFiles checkpointTrancId (ps ++ [last]) =
      ps.filter (fun p => hasUnfinished checkpointTrancId p.2) ++ [last]
  | [], _ => rfl
  | p :: ps, last => by
      have ih := unfinishedFiles_concat checkpointTrancId ps last
      obtain ⟨q, qs, hqs⟩ := List.exists_cons_of_ne_nil (List.concat_ne_nil last ps)
      rw [hqs] at ih
      rw [List.cons_append, hqs, unfinishedFiles, ih, List.filter_cons]
      split <;> rfl

/-- Delete the files without a record after the checkpoint, but not the last one. -/
def cleanWALFile (w : WAL) : WAL :=
  { w with
    files := ⟨unfinishedFiles w.checkpointTrancId w.files.pairs,
      w.files.ascending.sublist (unfinishedFiles_sublist _ _)⟩ }

/-- The log when its files have been removed from the directory. -/
def removed (w : WAL) : WAL := { w with files := .empty }

/-- The active file is in the directory. -/
def Present (w : WAL) : Prop := ∃ p ∈ w.files.pairs, p.1 = w.activeSeq

instance (w : WAL) : Decidable w.Present := inferInstanceAs (Decidable (∃ p ∈ _, _))

/-- A file in the directory has the records, one after the other. -/
def Holds (w : WAL) (records : List Record) : Prop :=
  ∃ p ∈ w.files.pairs, records <:+: p.2

instance (w : WAL) (records : List Record) : Decidable (w.Holds records) :=
  inferInstanceAs (Decidable (∃ p ∈ _, _))

/-- The records are in the directory, and one of them is after the checkpoint. -/
structure Keeps (w : WAL) (records : List Record) : Prop where
  holds : w.Holds records
  unfinished : ∃ record ∈ records, w.checkpointTrancId < record.trancId

/-- No file has a greater number than the active one. -/
def ActiveLast (w : WAL) : Prop := ∀ p ∈ w.files.pairs, p.1 ≤ w.activeSeq

/-! ### What stays in the directory -/

theorem Keeps.log {w : WAL} {records : List Record} (h : w.Keeps records)
    (records' : List Record) :
  (w.log records').Keeps records
  := by
  obtain ⟨⟨p, hp, hinfix⟩, hunfinished⟩ := h
  refine ⟨⟨_, OrderedMap.mem_modify.mpr ⟨p, hp, rfl⟩, ?_⟩, hunfinished⟩
  split
  · exact hinfix.trans (List.prefix_append _ _).isInfix
  · exact hinfix

/-- What is appended to a file in the directory is there. -/
theorem Present.holds_log {w : WAL} (h : w.Present) (records : List Record) :
  (w.log records).Holds records
  := by
  obtain ⟨p, hp, hactive⟩ := h
  refine ⟨_, OrderedMap.mem_modify.mpr ⟨p, hp, rfl⟩, ?_⟩
  rw [if_pos hactive]
  exact (List.suffix_append _ _).isInfix

theorem Keeps.resetFile {w : WAL} {records : List Record} (h : w.Keeps records)
    (hlast : w.ActiveLast) :
  w.resetFile.Keeps records
  := by
  obtain ⟨⟨p, hp, hinfix⟩, hunfinished⟩ := h
  have hne : p.1 ≠ w.activeSeq + 1 := (Nat.lt_succ_of_le (hlast p hp)).ne
  exact ⟨⟨p, OrderedMap.mem_assign_of_ne hp hne, hinfix⟩, hunfinished⟩

theorem mem_unfinishedFiles {checkpointTrancId : TrancId} {p : ℕ × List Record}
    (h : hasUnfinished checkpointTrancId p.2 = true) :
  ∀ {ps : List (ℕ × List Record)}, p ∈ ps → p ∈ unfinishedFiles checkpointTrancId ps
  | [_], hp => hp
  | q :: q' :: ps, hp => by
      rw [unfinishedFiles]
      rcases List.mem_cons.mp hp with rfl | hp
      · rw [if_pos h]
        apply List.mem_cons_self
      · have ih := mem_unfinishedFiles h hp
        split
        · apply List.mem_cons_of_mem _ ih
        · apply ih

theorem Keeps.cleanWALFile {w : WAL} {records : List Record} (h : w.Keeps records) :
  w.cleanWALFile.Keeps records
  := by
  obtain ⟨⟨p, hp, hinfix⟩, record, hrecord, hlt⟩ := h
  have hunfinished : hasUnfinished w.checkpointTrancId p.2 = true :=
    List.any_eq_true.mpr ⟨record, hinfix.subset hrecord, decide_eq_true hlt⟩
  exact ⟨⟨p, mem_unfinishedFiles hunfinished hp, hinfix⟩, record, hrecord, hlt⟩

/-! ### The numbers of the files -/

theorem ActiveLast.log {w : WAL} (h : w.ActiveLast) (records : List Record) :
  (w.log records).ActiveLast
  := by
  intro q hq
  obtain ⟨p, hp, rfl⟩ := OrderedMap.mem_modify.mp hq
  split <;> apply h p hp

theorem ActiveLast.resetFile {w : WAL} (h : w.ActiveLast) : w.resetFile.ActiveLast
  := by
  intro p hp
  rcases OrderedMap.mem_assignPair hp with rfl | hp
  · apply le_refl
  · apply Nat.le_succ_of_le (h p hp)

theorem ActiveLast.cleanWALFile {w : WAL} (h : w.ActiveLast) : w.cleanWALFile.ActiveLast
  := fun p hp => h p ((unfinishedFiles_sublist _ _).subset hp)

theorem activeLast_construct (checkpointTrancId : TrancId) :
  (construct .empty checkpointTrancId).ActiveLast
  := by
  intro p hp
  rw [List.mem_singleton.mp hp]
  apply le_refl

end WAL

end TinyLsm
