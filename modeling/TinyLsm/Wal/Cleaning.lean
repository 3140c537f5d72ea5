import Mathlib.Algebra.Order.BigOperators.Group.List
import Mathlib.Algebra.Order.Ring.Nat
import Mathlib.Data.List.Sort
import TinyLsm.Utils.Text
import TinyLsm.Wal.Scan

/-!
# Cleaning the log files

`cleanWALFile` takes the files of a directory whose names begin with `wal.`, orders them by the
number after the last dot, scans all but the last of them, and deletes those in which it has
found no record after the checkpoint.  How many files it scans it counts in an `int`.

* Cleaning never deletes the file with the greatest number, nor one with a record after the
  checkpoint: `cleanWALFile_keeps`.
* It deletes exactly the other files if the count fits: `cleans_iff`.
-/

namespace TinyLsm

/-- What a directory lists. -/
structure DirEntry where
  name : Bytes
  isRegular : Bool
  content : Bytes
deriving DecidableEq, Repr

namespace WalDirectory

open WAL

def IsWalPath (entry : DirEntry) : Prop :=
  entry.isRegular = true ∧ entry.name.take 4 = bytes "wal."

instance (entry : DirEntry) : Decidable (IsWalPath entry) :=
  inferInstanceAs (Decidable (_ ∧ _))

/-- What follows the last dot of a name. -/
def afterLastDot (name : Bytes) : Bytes := (name.reverse.takeWhile (fun b => b ≠ 46)).reverse

/-- The number of a file, with the file. -/
def walPath (entry : DirEntry) : Except Fault (ℕ × DirEntry) := do
  let seq ← stoull (afterLastDot entry.name)
  return (seq, entry)

/-- `std::sort` by the numbers. -/
def sortPaths (paths : List (ℕ × DirEntry)) : List (ℕ × DirEntry) :=
  paths.insertionSort (fun p q => p.1 ≤ q.1)

/-- The index of the last of so many files, `(int)wal_paths.size() - 1`. -/
def lastIndex (size : ℕ) : Except Fault ℤ :=
  let last := Int.bmod size (2 ^ 32) - 1
  if FitsSigned 32 last then .ok last else .error .undefinedBehavior

/-- Scan a file in so many rounds at most. -/
def scanFile (rounds : ℕ) (checkpointTrancId : TrancId) (content : Bytes) : Except Fault Bool :=
  match Loops.run (scanStep checkpointTrancId content) rounds 0 with
  | none => .error .outOfFuel
  | some found => found

/-- The files among those that are scanned that have no record after the checkpoint. -/
def delPaths (rounds : ℕ) (checkpointTrancId : TrancId) :
    List (ℕ × DirEntry) → Except Fault (List DirEntry)
  | [] => .ok []
  | path :: paths => do
      let unfinished ← scanFile rounds checkpointTrancId path.2.content
      let rest ← delPaths rounds checkpointTrancId paths
      return if unfinished then rest else path.2 :: rest

/-- Clean a directory: what it lists afterwards. -/
def cleanWALFile (rounds : ℕ) (checkpointTrancId : TrancId) (entries : List DirEntry) :
    Except Fault (List DirEntry) := do
  let paths ← (entries.filter (fun entry => IsWalPath entry)).mapM walPath
  let paths := sortPaths paths
  let last ← lastIndex paths.length
  let deleted ← delPaths rounds checkpointTrancId (paths.take last.toNat)
  return entries.filter (fun entry => entry.name ∉ deleted.map DirEntry.name)

/-! ### Directories with log files -/

/-- A log file: its number, the records that have been written to it, and the encodings of these
one after the other. -/
structure LogFile where
  seq : ℕ
  records : List Record
  content : Bytes
  seq_lt : seq < 2 ^ 64
  fits : ∀ record ∈ records, record.Fits
  encoded : (records.mapM Record.encode).map List.flatten = .ok content

namespace LogFile

theorem content_eq (file : LogFile) : file.content = Record.layout file.records
  := by
  have hencoded := file.encoded
  rw [Record.mapM_encode file.fits] at hencoded
  exact (Except.ok.inj hencoded).symm

/-- The file under its name in the directory. -/
def entry (file : LogFile) : DirEntry where
  name := bytes "wal." ++ natDecimal file.seq
  isRegular := true
  content := file.content

theorem seq_injective {file file' : LogFile} (h : file.entry.name = file'.entry.name) :
  file.seq = file'.seq
  := natDecimal_injective (List.append_cancel_left h)

/-- The records of a log file are all up to the checkpoint. -/
def Finished (checkpointTrancId : TrancId) (file : LogFile) : Prop :=
  ∀ record ∈ file.records, record.trancId ≤ checkpointTrancId

instance (checkpointTrancId : TrancId) (file : LogFile) :
    Decidable (file.Finished checkpointTrancId) :=
  inferInstanceAs (Decidable (∀ _ ∈ _, _))

theorem hasUnfinished_eq (checkpointTrancId : TrancId) (file : LogFile) :
  hasUnfinished checkpointTrancId file.records = !decide (file.Finished checkpointTrancId)
  := by
  rw [Bool.eq_iff_iff, hasUnfinished, List.any_eq_true, Bool.not_eq_true', decide_eq_false_iff_not,
    Finished]
  simp

theorem walPath_entry (file : LogFile) : walPath file.entry = .ok (file.seq, file.entry)
  := by
  have hdigits : ∀ b ∈ (natDecimal file.seq).reverse, decide (b ≠ 46) = true := by
    intro b hb
    apply decide_eq_true
    rintro rfl
    exact absurd (isDigit_of_mem_natDecimal (List.mem_reverse.mp hb)) (by decide)
  have hname : afterLastDot file.entry.name = natDecimal file.seq := by
    rw [afterLastDot, entry, List.reverse_append, List.takeWhile_append_of_pos hdigits]
    change ((natDecimal file.seq).reverse ++ []).reverse = _
    rw [List.append_nil, List.reverse_reverse]
  rw [walPath, hname, stoull_natDecimal file.seq_lt]
  rfl

/-- A scan of a log file finds out whether it is finished. -/
theorem scanFile_entry {rounds : ℕ} (checkpointTrancId : TrancId) (file : LogFile)
    (h : file.records.length < rounds) :
  scanFile rounds checkpointTrancId file.entry.content =
    .ok !decide (file.Finished checkpointTrancId)
  := by
  have hrun := run_scanStep_layout checkpointTrancId file.fits []
  rw [List.nil_append, List.length_nil, ← file.content_eq, file.hasUnfinished_eq] at hrun
  rw [scanFile, entry, Loops.run_mono hrun h]

end LogFile

/-- A directory in which the files named `wal.` are log files.  No two entries of a directory
have the same name. -/
structure LogDirectory where
  entries : List DirEntry
  files : List LogFile
  nodup_names : (entries.map DirEntry.name).Nodup
  filter_entries : entries.filter (fun entry => IsWalPath entry) = files.map LogFile.entry

namespace LogDirectory

variable (d : LogDirectory) (checkpointTrancId : TrancId)

/-- The log files by their numbers. -/
def sorted : List LogFile := d.files.insertionSort (fun file file' => file.seq ≤ file'.seq)

/-- A file that is not the one with the greatest number, and has no record after the checkpoint. -/
def Deletable (file : LogFile) : Prop :=
  (∃ other ∈ d.files, file.seq < other.seq) ∧ file.Finished checkpointTrancId

instance (file : LogFile) : Decidable (d.Deletable checkpointTrancId file) :=
  inferInstanceAs (Decidable ((∃ _ ∈ _, _) ∧ _))

/-- Cleaning deletes exactly the files that it may delete. -/
def Cleans : Prop :=
  ∃ bound, ∀ rounds ≥ bound, cleanWALFile rounds checkpointTrancId d.entries =
    .ok (d.entries.filter (fun entry =>
      ¬ ∃ file ∈ d.files, d.Deletable checkpointTrancId file ∧ file.entry = entry))

/-- The files that are not scanned, without the last one: there are none unless there are
`2 ^ 31` files. -/
def unscanned : List LogFile :=
  d.sorted.dropLast.drop (Int.bmod d.files.length (2 ^ 32) - 1).toNat

variable {d : LogDirectory} {checkpointTrancId : TrancId}

/-! ### What cleaning does -/

theorem nodup_seqs : (d.files.map LogFile.seq).Nodup
  := by
  have hnames : (d.files.map (fun file => file.entry.name)).Nodup := by
    have hsublist := (List.filter_sublist (l := d.entries)
      (p := fun entry => decide (IsWalPath entry))).map DirEntry.name
    rw [d.filter_entries, List.map_map] at hsublist
    exact d.nodup_names.sublist hsublist
  apply List.Nodup.of_map (fun seq => bytes "wal." ++ natDecimal seq)
  rw [List.map_map]
  exact hnames

theorem pairwise_sorted : d.sorted.Pairwise (fun file file' => file.seq < file'.seq)
  := by
  have hle : d.sorted.Pairwise (fun file file' => file.seq ≤ file'.seq) :=
    List.pairwise_insertionSort _ _
  have hnodup : (d.sorted.map LogFile.seq).Nodup :=
    ((List.perm_insertionSort _ _).map _).nodup_iff.mpr d.nodup_seqs
  have hne : d.sorted.Pairwise (fun file file' => file.seq ≠ file'.seq) :=
    List.pairwise_map.mp hnodup
  exact (hle.and hne).imp (fun h => lt_of_le_of_ne h.1 h.2)

theorem mem_sorted {file : LogFile} : file ∈ d.sorted ↔ file ∈ d.files
  := List.mem_insertionSort _

theorem length_sorted : d.sorted.length = d.files.length
  := List.length_insertionSort _ _

theorem entry_mem {file : LogFile} (h : file ∈ d.sorted) : file.entry ∈ d.entries
  := by
  have hentry := List.mem_map_of_mem (f := LogFile.entry) (d.mem_sorted.mp h)
  rw [← d.filter_entries] at hentry
  exact List.mem_of_mem_filter hentry

theorem eq_of_entry_eq {file file' : LogFile} (h : file ∈ d.files) (h' : file' ∈ d.files)
    (heq : file.entry = file'.entry) :
  file = file'
  := List.inj_on_of_nodup_map d.nodup_seqs h h'
    (LogFile.seq_injective (congrArg DirEntry.name heq))

/-- A file is not the one with the greatest number if and only if it is not the last one. -/
theorem mem_dropLast_sorted {file : LogFile} :
  file ∈ d.sorted.dropLast ↔ file ∈ d.files ∧ ∃ other ∈ d.files, file.seq < other.seq
  := by
  simp only [← d.mem_sorted]
  have hpairwise := d.pairwise_sorted
  obtain hnil | ⟨init, last, hsorted⟩ := List.eq_nil_or_concat d.sorted
  · simp [hnil]
  rw [List.concat_eq_append] at hsorted
  rw [hsorted, List.pairwise_append] at hpairwise
  obtain ⟨-, -, hlast⟩ := hpairwise
  rw [hsorted, List.dropLast_concat]
  constructor
  · intro hfile
    exact ⟨List.mem_append_left _ hfile, last, List.mem_append_right _ List.mem_cons_self,
      hlast file hfile last List.mem_cons_self⟩
  · rintro ⟨hfile, other, hother, hlt⟩
    obtain hfile | hfile := List.mem_append.mp hfile
    · exact hfile
    rw [List.mem_singleton.mp hfile] at hlt
    obtain hother | hother := List.mem_append.mp hother
    · exact absurd hlt (Nat.not_lt_of_gt (hlast other hother last List.mem_cons_self))
    · rw [List.mem_singleton.mp hother] at hlt
      exact absurd hlt (Nat.lt_irrefl _)

theorem mapM_walPath :
  ∀ files : List LogFile, (files.map LogFile.entry).mapM walPath =
    .ok (files.map (fun file => (file.seq, file.entry)))
  | [] => rfl
  | file :: files => by
      rw [List.map_cons, List.mapM_cons, Except.bind_eq_of_ok _ file.walPath_entry,
        Except.bind_eq_of_ok _ (mapM_walPath files)]
      rfl

theorem sortPaths_map :
  sortPaths (d.files.map (fun file => (file.seq, file.entry))) =
    d.sorted.map (fun file => (file.seq, file.entry))
  := by
  symm
  apply List.map_insertionSort
  intro file _ file' _
  exact Iff.rfl

theorem delPaths_map {rounds : ℕ} :
  ∀ {files : List LogFile}, (∀ file ∈ files, file.records.length < rounds) →
    delPaths rounds checkpointTrancId (files.map (fun file => (file.seq, file.entry))) =
      .ok ((files.filter (fun file => file.Finished checkpointTrancId)).map LogFile.entry)
  | [], _ => rfl
  | file :: files, h => by
      have hscan := file.scanFile_entry checkpointTrancId (h file List.mem_cons_self)
      have ih := delPaths_map (fun file' hfile' => h file' (List.mem_cons_of_mem file hfile'))
      rw [List.map_cons, delPaths]
      dsimp only
      rw [Except.bind_eq_of_ok _ hscan, Except.bind_eq_of_ok _ ih, List.filter_cons]
      by_cases hfinished : file.Finished checkpointTrancId
      · simp [hfinished, pure, Except.pure]
      · simp [hfinished, pure, Except.pure]

/-- Cleaning deletes the files without a record after the checkpoint among those it scans. -/
theorem cleanWALFile_eq {rounds : ℕ} (h : ∀ file ∈ d.files, file.records.length < rounds)
    {last : ℤ} (hlast : lastIndex d.files.length = .ok last) :
  cleanWALFile rounds checkpointTrancId d.entries =
    .ok (d.entries.filter (fun entry =>
      ¬ ∃ file ∈ d.sorted.take last.toNat,
        file.Finished checkpointTrancId ∧ file.entry = entry))
  := by
  have hrounds : ∀ file ∈ d.sorted.take last.toNat, file.records.length < rounds :=
    fun file hfile => h file (d.mem_sorted.mp (List.mem_of_mem_take hfile))
  have hdeleted : delPaths rounds checkpointTrancId _ = _ := delPaths_map hrounds
  rw [List.map_take] at hdeleted
  rw [cleanWALFile, d.filter_entries, Except.bind_eq_of_ok _ (mapM_walPath d.files)]
  dsimp only
  rw [d.sortPaths_map, List.length_map, d.length_sorted, Except.bind_eq_of_ok _ hlast,
    Except.bind_eq_of_ok _ hdeleted]
  apply congrArg Except.ok
  apply List.filter_congr
  intro entry hentry
  apply decide_eq_decide.mpr
  apply not_congr
  simp only [List.map_map, List.mem_map, List.mem_filter, decide_eq_true_iff, Function.comp_apply]
  constructor
  · rintro ⟨file, ⟨hfile, hfinished⟩, hname⟩
    have hlisted : file.entry ∈ d.entries := d.entry_mem (List.mem_of_mem_take hfile)
    exact ⟨file, hfile, hfinished, List.inj_on_of_nodup_map d.nodup_names hlisted hentry hname⟩
  · rintro ⟨file, hfile, hfinished, rfl⟩
    exact ⟨file, ⟨hfile, hfinished⟩, rfl⟩

theorem cleanWALFile_overflow {rounds : ℕ}
    (hlast : lastIndex d.files.length = .error .undefinedBehavior) :
  cleanWALFile rounds checkpointTrancId d.entries = .error .undefinedBehavior
  := by
  rw [cleanWALFile, d.filter_entries, Except.bind_eq_of_ok _ (mapM_walPath d.files)]
  dsimp only
  rw [d.sortPaths_map, List.length_map, d.length_sorted, hlast]
  rfl

/-- The index of the last file overflows for `2 ^ 31` files, and is otherwise that of a file that
is not after it. -/
theorem lastIndex_eq (size : ℕ) :
  lastIndex size =
    if size % 2 ^ 32 = 2 ^ 31 then .error .undefinedBehavior
    else .ok (Int.bmod size (2 ^ 32) - 1)
  := by
  have hfits : FitsSigned 32 (Int.bmod size (2 ^ 32) - 1) ↔ size % 2 ^ 32 ≠ 2 ^ 31 := by
    rw [FitsSigned, Int.bmod_def]
    split <;> omega
  rw [lastIndex]
  simp only [hfits]
  split <;> simp_all

theorem toNat_lastIndex_le (size : ℕ) : (Int.bmod size (2 ^ 32) - 1).toNat ≤ size - 1
  := by
  rw [Int.bmod_def]
  split <;> omega

/-- The files that are scanned are not the last one. -/
theorem take_sorted :
  d.sorted.take (Int.bmod d.files.length (2 ^ 32) - 1).toNat =
    d.sorted.dropLast.take (Int.bmod d.files.length (2 ^ 32) - 1).toNat
  := by
  have hle := toNat_lastIndex_le d.files.length
  rw [List.dropLast_eq_take, List.take_take, d.length_sorted, Nat.min_eq_left hle]

/-- The files that are scanned have smaller numbers than those that are not. -/
theorem seq_lt_of_unscanned {file file' : LogFile}
    (h : file ∈ d.sorted.take (Int.bmod d.files.length (2 ^ 32) - 1).toNat)
    (h' : file' ∈ d.unscanned) :
  file.seq < file'.seq
  := by
  have hpairwise := d.pairwise_sorted.sublist (List.dropLast_sublist _)
  rw [d.take_sorted] at h
  rw [← List.take_append_drop (Int.bmod d.files.length (2 ^ 32) - 1).toNat d.sorted.dropLast,
    List.pairwise_append] at hpairwise
  exact hpairwise.2.2 file h file' h'

theorem exists_rounds (d : LogDirectory) :
  ∃ bound, ∀ file ∈ d.files, file.records.length < bound
  := by
  use (d.files.map (fun file => file.records.length)).sum + 1
  intro file hfile
  apply Nat.lt_succ_of_le
  apply List.single_le_sum (fun n _ => Nat.zero_le n) _ (List.mem_map_of_mem hfile)

/-- A file that is scanned, or that is not scanned and not last, is deleted if and only if it may
be. -/
theorem deleted_iff (hunscanned : ∀ file ∈ d.unscanned, ¬ file.Finished checkpointTrancId)
    (entry : DirEntry) :
  (∃ file ∈ d.sorted.take (Int.bmod d.files.length (2 ^ 32) - 1).toNat,
      file.Finished checkpointTrancId ∧ file.entry = entry) ↔
    ∃ file ∈ d.files, d.Deletable checkpointTrancId file ∧ file.entry = entry
  := by
  constructor
  · rintro ⟨file, hfile, hfinished, rfl⟩
    rw [d.take_sorted] at hfile
    obtain ⟨hlisted, hother⟩ := d.mem_dropLast_sorted.mp (List.mem_of_mem_take hfile)
    exact ⟨file, hlisted, ⟨hother, hfinished⟩, rfl⟩
  · rintro ⟨file, hfile, ⟨hother, hfinished⟩, rfl⟩
    have hmem := d.mem_dropLast_sorted.mpr ⟨hfile, hother⟩
    rw [← List.take_append_drop (Int.bmod d.files.length (2 ^ 32) - 1).toNat d.sorted.dropLast,
      List.mem_append, ← d.take_sorted] at hmem
    obtain hscanned | hdrop := hmem
    · exact ⟨file, hscanned, hfinished, rfl⟩
    · exact absurd hfinished (hunscanned file hdrop)

/-- Cleaning deletes exactly what it may if and only if the index of the last file does not
overflow and no file that may be deleted is left out of the scan. -/
theorem cleans_iff_unscanned :
  d.Cleans checkpointTrancId ↔
    d.files.length % 2 ^ 32 ≠ 2 ^ 31 ∧
      ∀ file ∈ d.unscanned, ¬ file.Finished checkpointTrancId
  := by
  obtain ⟨bound, hbound⟩ := d.exists_rounds
  have hlast := lastIndex_eq d.files.length
  constructor
  · rintro ⟨bound', h⟩
    have hrun := h (max bound bound') (le_max_right _ _)
    have hrounds : ∀ file ∈ d.files, file.records.length < max bound bound' :=
      fun file hfile => lt_of_lt_of_le (hbound file hfile) (le_max_left _ _)
    split at hlast
    next hoverflow =>
      rw [d.cleanWALFile_overflow hlast] at hrun
      cases hrun
    next hfits =>
      use hfits
      intro file hfile hfinished
      rw [d.cleanWALFile_eq hrounds hlast] at hrun
      obtain ⟨hlisted, hother⟩ := d.mem_dropLast_sorted.mp (List.mem_of_mem_drop hfile)
      have hentry := d.entry_mem (d.mem_sorted.mpr hlisted)
      have hsame := congrArg (file.entry ∈ ·) (Except.ok.inj hrun)
      simp only [List.mem_filter, hentry, true_and, decide_eq_true_iff, eq_iff_iff] at hsame
      obtain ⟨file', hfile', -, heq⟩ :=
        (not_iff_not.mp hsame).mpr ⟨file, hlisted, ⟨hother, hfinished⟩, rfl⟩
      have hseq := LogFile.seq_injective (congrArg DirEntry.name heq)
      exact absurd hseq (d.seq_lt_of_unscanned hfile' hfile).ne
  · rintro ⟨hfits, hunscanned⟩
    rw [if_neg hfits] at hlast
    use bound
    intro rounds hle
    have hrounds : ∀ file ∈ d.files, file.records.length < rounds :=
      fun file hfile => lt_of_lt_of_le (hbound file hfile) hle
    rw [d.cleanWALFile_eq hrounds hlast]
    simp only [d.deleted_iff hunscanned]

theorem unscanned_of_lt (h : d.files.length < 2 ^ 31) : d.unscanned = []
  := by
  have hlast : (Int.bmod d.files.length (2 ^ 32) - 1).toNat = d.files.length - 1 := by
    rw [Int.bmod_def]
    split <;> omega
  rw [unscanned, hlast, List.drop_eq_nil_iff, List.length_dropLast, d.length_sorted]

/-- Cleaning deletes exactly the files that it may delete if and only if there are fewer than
`2 ^ 31` files, or there is no overflow and those it does not scan have records after the
checkpoint. -/
theorem cleans_iff (d : LogDirectory) (checkpointTrancId : TrancId) :
  d.Cleans checkpointTrancId ↔
    d.files.length < 2 ^ 31 ∨
      d.files.length % 2 ^ 32 ≠ 2 ^ 31 ∧
        ∀ file ∈ d.unscanned, ¬ file.Finished checkpointTrancId
  := by
  rw [d.cleans_iff_unscanned]
  constructor
  · exact Or.inr
  · rintro (hlt | h)
    · constructor
      · omega
      · intro file hfile
        rw [d.unscanned_of_lt hlt] at hfile
        cases hfile
    · exact h

/-- Cleaning keeps the file with the greatest number and the files with a record after the
checkpoint, however many files there are. -/
theorem cleanWALFile_keeps {rounds : ℕ} (h : ∀ file ∈ d.files, file.records.length < rounds)
    {entries : List DirEntry}
    (hrun : cleanWALFile rounds checkpointTrancId d.entries = .ok entries)
    {file : LogFile} (hfile : file ∈ d.files)
    (hkept : ¬ file.Finished checkpointTrancId ∨ ∀ other ∈ d.files, other.seq ≤ file.seq) :
  file.entry ∈ entries
  := by
  have hlast := lastIndex_eq d.files.length
  split at hlast
  next =>
    rw [d.cleanWALFile_overflow hlast] at hrun
    cases hrun
  next =>
    rw [d.cleanWALFile_eq h hlast] at hrun
    cases hrun
    rw [List.mem_filter]
    use d.entry_mem (d.mem_sorted.mpr hfile)
    apply decide_eq_true
    rintro ⟨file', hfile', hfinished, heq⟩
    obtain rfl := d.eq_of_entry_eq (d.mem_sorted.mp (List.mem_of_mem_take hfile')) hfile heq
    obtain hunfinished | hgreatest := hkept
    · exact hunfinished hfinished
    · rw [d.take_sorted] at hfile'
      obtain ⟨-, other, hother, hlt⟩ := d.mem_dropLast_sorted.mp (List.mem_of_mem_take hfile')
      exact absurd hlt (Nat.not_lt_of_le (hgreatest other hother))

/-- The files that may not be deleted are those that the log as a list of records keeps. -/
theorem unfinishedFiles_sorted (d : LogDirectory) (checkpointTrancId : TrancId) :
  unfinishedFiles checkpointTrancId (d.sorted.map (fun file => (file.seq, file.records))) =
    (d.sorted.filter (fun file => ¬ d.Deletable checkpointTrancId file)).map
      (fun file => (file.seq, file.records))
  := by
  have hdeletable : ∀ file ∈ d.sorted, d.Deletable checkpointTrancId file ↔
      file ∈ d.sorted.dropLast ∧ file.Finished checkpointTrancId := by
    intro file hfile
    rw [d.mem_dropLast_sorted, Deletable]
    simp only [d.mem_sorted.mp hfile, true_and]
  have hpairwise := d.pairwise_sorted
  obtain hnil | ⟨init, last, hsorted⟩ := List.eq_nil_or_concat d.sorted
  · rw [hnil]
    rfl
  rw [List.concat_eq_append] at hsorted
  rw [hsorted] at hdeletable hpairwise ⊢
  rw [List.dropLast_concat] at hdeletable
  have hlast : last ∉ init := by
    intro hmem
    exact absurd ((List.pairwise_append.mp hpairwise).2.2 last hmem last List.mem_cons_self)
      (Nat.lt_irrefl _)
  have hinit : init.filter (fun file => ¬ d.Deletable checkpointTrancId file) =
      init.filter (fun file => hasUnfinished checkpointTrancId file.records) := by
    apply List.filter_congr
    intro file hfile
    rw [file.hasUnfinished_eq, ← decide_not]
    apply decide_eq_decide.mpr
    rw [hdeletable file (List.mem_append_left _ hfile)]
    simp only [hfile, true_and]
  have hkept : ¬ d.Deletable checkpointTrancId last := by
    rw [hdeletable last (List.mem_append_right _ List.mem_cons_self)]
    exact fun h => hlast h.1
  rw [List.map_append, List.map_singleton, unfinishedFiles_concat, List.filter_append, hinit,
    List.filter_singleton, decide_eq_true hkept, cond_true, List.map_append, List.filter_map]
  rfl

end LogDirectory

/-! ### A directory with too many files -/

/-- The log file that so many records have been written to. -/
def recordsFile (seq : ℕ) (records : List Record) (h : seq < 2 ^ 64)
    (hfits : ∀ record ∈ records, record.Fits) : LogFile where
  seq := seq
  records := records
  content := Record.layout records
  seq_lt := h
  fits := hfits
  encoded := by
    rw [Record.mapM_encode hfits]
    rfl

/-- A log file whose transaction has committed. -/
def committedFile : LogFile :=
  recordsFile 1 [Record.createRecord 1, Record.putRecord 1 [1] [7], Record.commitRecord 1]
    (by decide) (by decide)

/-- A log file with two transactions, the second of which has not come to its end. -/
def mixedFile : LogFile :=
  recordsFile 2 [Record.createRecord 2, Record.deleteRecord 2 [1], Record.createRecord 3]
    (by decide) (by decide)

/-- A log file whose transaction has been aborted. -/
def rolledBackFile : LogFile :=
  recordsFile 10 [Record.createRecord 1, Record.rollbackRecord 1] (by decide) (by decide)

/-- Three log files, and the file of transaction ids. -/
def threeFiles : LogDirectory where
  entries := [rolledBackFile.entry, ⟨bytes "tranc_id", true, [3]⟩, mixedFile.entry,
    committedFile.entry]
  files := [rolledBackFile, mixedFile, committedFile]
  nodup_names := by decide
  filter_entries := rfl

/-- Of the three files cleaning deletes the one that is finished and not the last. -/
theorem cleans_iff_threeFiles :
  threeFiles.Cleans 2 ∧
    threeFiles.files.map (fun file => decide (threeFiles.Deletable 2 file)) = [false, false, true]
  := by
  refine ⟨(LogDirectory.cleans_iff threeFiles 2).mpr (.inl (by decide)), ?_⟩
  decide

/-- An empty log file. -/
def emptyFile (seq : ℕ) (h : seq < 2 ^ 64) : LogFile where
  seq := seq
  records := []
  content := []
  seq_lt := h
  fits := fun _ h => nomatch h
  encoded := rfl

/-- A directory with so many empty log files. -/
def emptyFiles (count : ℕ) (h : count ≤ 2 ^ 64) : LogDirectory where
  entries := (List.finRange count).map
    (fun seq : Fin count => (emptyFile seq.val (seq.isLt.trans_le h)).entry)
  files := (List.finRange count).map
    (fun seq : Fin count => emptyFile seq.val (seq.isLt.trans_le h))
  nodup_names := by
    rw [List.map_map]
    apply List.Nodup.map _ (List.nodup_finRange count)
    intro seq seq' heq
    exact Fin.ext (LogFile.seq_injective heq)
  filter_entries := by
    rw [List.map_map]
    apply List.filter_eq_self.mpr
    intro entry hentry
    obtain ⟨seq, -, rfl⟩ := List.mem_map.mp hentry
    exact decide_eq_true ⟨rfl, rfl⟩

theorem length_emptyFiles (count : ℕ) (h : count ≤ 2 ^ 64) :
  (emptyFiles count h).files.length = count
  := by
  rw [emptyFiles, List.length_map, List.length_finRange]

theorem finished_of_mem_emptyFiles {count : ℕ} (h : count ≤ 2 ^ 64) {file : LogFile}
    (hfile : file ∈ (emptyFiles count h).files) (checkpointTrancId : TrancId) :
  file.Finished checkpointTrancId
  := by
  obtain ⟨seq, -, rfl⟩ := List.mem_map.mp hfile
  intro record hrecord
  cases hrecord

/-- Of `2 ^ 31 + 1` empty files cleaning deletes none. -/
theorem not_cleans_emptyFiles :
  ¬ (emptyFiles (2 ^ 31 + 1) (by decide)).Cleans 0
  := by
  have hlength := length_emptyFiles (2 ^ 31 + 1) (by decide)
  have hlast : (Int.bmod (2 ^ 31 + 1 : ℕ) (2 ^ 32) - 1).toNat = 0 := by decide
  intro hcleans
  obtain ⟨-, hunfinished⟩ := LogDirectory.cleans_iff_unscanned.mp hcleans
  rw [LogDirectory.unscanned, hlength, hlast, List.drop_zero] at hunfinished
  have hpos : 0 < (emptyFiles (2 ^ 31 + 1) (by decide)).sorted.dropLast.length := by
    rw [List.length_dropLast, LogDirectory.length_sorted, hlength]
    decide
  obtain ⟨file, hfile⟩ := List.exists_mem_of_length_pos hpos
  have hlisted := LogDirectory.mem_sorted.mp ((List.dropLast_sublist _).subset hfile)
  exact hunfinished file hfile (finished_of_mem_emptyFiles (by decide) hlisted 0)

end WalDirectory

end TinyLsm
