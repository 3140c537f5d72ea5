import TinyLsm.Lsm.Calls
import TinyLsm.Lsm.Tables

/-!
# Histories

What has occurred in a system of transactions, the newest occurrence first: the writes and
reads of transactions and of plain calls, the versions applied to the engine, and the ends
of transactions.
-/

namespace TinyLsm

inductive Occurrence where
  | created (trancId : TrancId) (level : IsolationLevel)
  | wrote (trancId : TrancId) (w : WriteCall)
  | lsmWrote (trancId : TrancId) (w : WriteCall)
  | applied (writer : TrancId) (e : Entry)
  | read (trancId : TrancId) (key : Bytes) (value : Option Bytes)
  | committed (trancId : TrancId)
  | refused (trancId : TrancId)
  | aborted (trancId : TrancId)
deriving DecidableEq

abbrev History := List Occurrence

namespace History

/-- The version an occurrence applies. -/
def entry? : Occurrence → Option Entry
  | .applied _ e => some e
  | _ => none

/-- The versions applied, the newest first. -/
def entries (h : History) : List Entry := h.filterMap entry?

/-- The value an occurrence writes as a given transaction to a given key. -/
def written? (trancId : TrancId) (key : Bytes) : Occurrence → Option Bytes
  | .wrote trancId' w => if trancId' = trancId ∧ w.key = key then some w.value else none
  | _ => none

/-- The value a transaction wrote last to a key. -/
def lastWritten (trancId : TrancId) (key : Bytes) (h : History) : Option Bytes :=
  h.findSome? (written? trancId key)

/-- A transaction or a plain call wrote. -/
def Wrote (h : History) (trancId : TrancId) (w : WriteCall) : Prop :=
  .wrote trancId w ∈ h ∨ .lsmWrote trancId w ∈ h

/-- A transaction is one of those that check for conflicts. -/
def Checked (h : History) (trancId : TrancId) : Prop :=
  ∃ level : IsolationLevel, level.Checked ∧ .created trancId level ∈ h

def Buffered (h : History) (trancId : TrancId) : Prop :=
  ∃ level : IsolationLevel, level.Buffered ∧ .created trancId level ∈ h

theorem mem_entries {h : History} {e : Entry} :
  e ∈ entries h ↔ ∃ writer, .applied writer e ∈ h
  := by
  rw [entries, List.mem_filterMap]
  constructor
  · rintro ⟨o, ho, he⟩
    cases o with
    | applied writer e' =>
        rw [← Option.some.inj he]
        exact ⟨writer, ho⟩
    | _ => cases he
  · rintro ⟨writer, h⟩
    exact ⟨_, h, rfl⟩

theorem entries_append (h h' : History) : entries (h ++ h') = entries h ++ entries h'
  := List.filterMap_append

theorem lastWritten_cons (trancId : TrancId) (key : Bytes) (o : Occurrence) (h : History) :
  lastWritten trancId key (o :: h) = (written? trancId key o).or (lastWritten trancId key h)
  := by
  rw [lastWritten, List.findSome?_cons]
  cases written? trancId key o <;> rfl

theorem lastWritten_cons_wrote (trancId : TrancId) (key : Bytes) (w : WriteCall) (h : History) :
  lastWritten trancId key (.wrote trancId w :: h) =
    if w.key = key then some w.value else lastWritten trancId key h
  := by
  rw [lastWritten_cons, written?]
  by_cases hkey : w.key = key
  · rw [if_pos ⟨rfl, hkey⟩, if_pos hkey]
    rfl
  · rw [if_neg (fun h => hkey h.2), if_neg hkey]
    rfl

/-- Occurrences that are not writes of a transaction leave what it wrote last. -/
theorem lastWritten_append {trancId : TrancId} (key : Bytes) :
  ∀ {h : History} (h' : History), (∀ w, .wrote trancId w ∉ h) →
    lastWritten trancId key (h ++ h') = lastWritten trancId key h'
  | [], _, _ => rfl
  | o :: h, h', hnot => by
      rw [List.cons_append, lastWritten_cons,
        lastWritten_append key h' (fun w hw => hnot w (List.mem_cons_of_mem o hw))]
      cases o with
      | wrote trancId' w =>
          have hne : ¬ (trancId' = trancId ∧ w.key = key) := by
            rintro ⟨rfl, -⟩
            apply hnot w List.mem_cons_self
          rw [written?, if_neg hne]
          rfl
      | _ => rfl

theorem mem_of_lastWritten {trancId : TrancId} {key value : Bytes} {h : History}
    (hlast : lastWritten trancId key h = some value) :
  ∃ w, .wrote trancId w ∈ h ∧ w.key = key ∧ w.value = value
  := by
  obtain ⟨o, ho, hwritten⟩ := List.exists_of_findSome?_eq_some hlast
  cases o with
  | wrote trancId' w =>
      rw [written?] at hwritten
      split at hwritten
      next hw =>
        obtain ⟨rfl, hkey⟩ := hw
        exact ⟨w, ho, hkey, Option.some.inj hwritten⟩
      next => cases hwritten
  | _ => cases hwritten

theorem lastWritten_isSome {trancId : TrancId} {w : WriteCall} {h : History}
    (hw : .wrote trancId w ∈ h) :
  ∃ value, lastWritten trancId w.key h = some value
  := by
  apply Option.isSome_iff_exists.mp
  rw [lastWritten, List.findSome?_isSome_iff]
  refine ⟨_, hw, ?_⟩
  rw [written?, if_pos ⟨rfl, rfl⟩]
  rfl

end History

end TinyLsm
