import TinyLsm.Lsm.Journal
import TinyLsm.Lsm.Notifications
import TinyLsm.Lsm.TrancIdFile
import TinyLsm.Wal.Directory
import TinyLsm.Wal.Replay

/-!
# The store

A store is a system over the tables of an engine, with the log files and the file of
transaction ids in its directory.  It is closed or crashes, and is opened again: the tables
on disk are there still, the log is replayed into the memtable, and a new log is started.

A store also notes what it owes to the transactions: which commits have returned since the
store was cleared, with the records they passed to the log, and whose markers have been moved
to disk.
-/

namespace TinyLsm

/-! ### Opening -/

namespace WAL

/-- Add a record to those of its transaction. -/
def collect (transactions : OrderedMap TrancId (List Record)) (record : Record) :
    OrderedMap TrancId (List Record) :=
  let found := transactions.pairs.find? (fun p => decide (p.1 = record.trancId))
  transactions.assign record.trancId ((found.map Prod.snd).getD [] ++ [record])

/-- The records in the files after a checkpoint, by transaction. -/
def recover (files : WalFiles) (checkpointTrancId : TrancId) :
    OrderedMap TrancId (List Record) :=
  ((files.pairs.flatMap Prod.snd).filter
    (fun record => decide (checkpointTrancId < record.trancId))).foldl collect .empty

end WAL

namespace Tables

/-- Put the records of transactions that have not been flushed into the memtable. -/
def replay (t : Tables) (flushedTrancIds : OrderedSet TrancId)
    (transactions : OrderedMap TrancId (List Record)) : Tables :=
  let records := (transactions.pairs.filter
    (fun p => decide (p.1 ∉ flushedTrancIds.elems))).flatMap Prod.snd
  (records.filterMap Record.entry?).foldl put t

end Tables

/-- Open a directory with tables, log files and a file of transaction ids: the log is replayed,
and its files are removed as a new log is started.  Answers the system, its log, and the file
of transaction ids. -/
def openDirectory (ssts : List (List Entry)) (files : WalFiles) (file : TrancIdFile) :
    Except Fault (System Tables × WAL × TrancIdFile) := do
  let (constructed, file') := TranManager.construct file
  let manager ← constructed
  match manager.flushedTrancIds.min? with
  | none => throw .undefinedBehavior
  | some checkpoint =>
      let engine : Tables :=
        Tables.replay { ssts } manager.flushedTrancIds (WAL.recover files checkpoint)
      let maxFlushed ← manager.getMaxFlushedTrancId
      let system : System Tables :=
        { engine
          manager := manager.initNewWal
          contexts := fun _ => none
          pending := fun _ => {}
          history := [] }
      return (system, WAL.construct .empty maxFlushed, file')

/-! ### What a step owes -/

namespace System

variable {ε : Type}

/-- The records a step passes to the log. -/
def logged [LSMEngine ε] (s : System ε) (event : Event) : List Record :=
  (s.effects event).reverse.flatMap Effect.records

/-- The commits that return in a step, each with the records that it passed to the log. -/
def returned [LSMEngine ε] (s : System ε) : Event → List (TrancId × List Record)
  | .commit trancId writes walOk =>
      match s.idle? trancId with
      | none => []
      | some c =>
          if c.isolationLevel = .readUnopCommitted then []
          else
            match (c.commit s.engine s.manager writes walOk).1 with
            | .ok true => [(trancId, c.commitRecords)]
            | _ => []
  | .proceed trancId =>
      match s.pending trancId, s.contexts trancId with
      | ⟨[], some .opCommitted⟩, some c => [(trancId, c.operations)]
      | _, _ => []
  | _ => []

/-- The table a step moves to disk. -/
def flushedTables (s : System Tables) : Event → List (List Entry)
  | .flush => (s.engine.oldest.map Prod.fst).toList
  | _ => []

/-- The transactions whose markers, put by their commits, a step moves to disk. -/
def landing [DocumentedEngine ε] (s : System ε) : Event → List TrancId
  | .flush => (DocumentedEngine.flush s.engine).1.filter (fun i => decide (s.MarkerPut i))
  | _ => []

end System

/-! ### The steps of a store -/

/-- A system with its directory, and what it owes: the commits that have returned since the
store was cleared, those whose markers have been moved to disk, and the records of the commits
before the store was opened that had not. -/
structure Store where
  system : System Tables
  sstFiles : List (List Entry) := []
  wal : WAL
  trancIdFile : TrancIdFile
  trancIdFileLinked : Bool := true
  acknowledged : List (TrancId × List Record) := []
  landed : List TrancId := []
  earlier : List (List Record) := []

/-- A call on the system or the log; the two parts of clearing the store, the second of which
another call may go on meanwhile; and closing the store, or crashing, and opening it again. -/
inductive StoreEvent where
  | call (event : Event)
  | cleanWALFile
  | resetFile
  | clearTables
  | clearFiles (during : Option Event)
  | reopen (closed : Bool)

namespace Store

/-- The store that opening an empty directory leads to. -/
def start : Store where
  system := System.start
  wal := WAL.construct .empty 0
  trancIdFile := some []

theorem openDirectory_empty :
  openDirectory [] .empty none = .ok (start.system, start.wal, start.trancIdFile)
  := rfl

/-- A call on the system.  What it passes to the log is appended to the active file. -/
def call (s : Store) (event : Event) : Option Store :=
  (System.step s.system event).map (fun system =>
    { s with
      system
      sstFiles := s.system.flushedTables event ++ s.sstFiles
      wal := s.wal.log (s.system.logged event)
      acknowledged := s.system.returned event ++ s.acknowledged
      landed := s.system.landing event ++ s.landed })

/-- The first part of `LSMEngine::clear`. -/
def clearTables (s : Store) : Store :=
  { s with system := { s.system with engine := {} } }

/-- The second part, which removes all files of the directory. -/
def clearFiles (s : Store) : Store :=
  { s with
    sstFiles := []
    wal := s.wal.removed
    trancIdFile := none
    trancIdFileLinked := false
    acknowledged := []
    earlier := [] }

/-- The file of transaction ids after the store is closed, or has crashed.  It is written on
closing, which is lost if it has been removed from the directory. -/
def leftFile (s : Store) (closed : Bool) : Except Fault TrancIdFile :=
  if closed then do
    let words ← s.system.manager.writeTrancIdFile (s.trancIdFile.getD [])
    return if s.trancIdFileLinked then some words else s.trancIdFile
  else return s.trancIdFile

/-- Close the store, or crash, and open it again.  Before it is closed, all tables are
flushed.  Closing it while the file of transaction ids cannot be written is a crash. -/
def reopen (s : Store) (closed : Bool) : Option Store :=
  if closed ∧ s.system.engine.memtable ≠ [] then none
  else
    match s.leftFile closed >>= openDirectory s.sstFiles s.wal.files with
    | .error _ => none
    | .ok (system, wal, trancIdFile) =>
        some
          { system
            sstFiles := s.sstFiles
            wal
            trancIdFile
            earlier := ((s.acknowledged.filter (fun p => decide (p.1 ∉ s.landed))).map Prod.snd) ++
              s.earlier }

def step (s : Store) : StoreEvent → Option Store
  | .call event => s.call event
  | .cleanWALFile => some { s with wal := s.wal.cleanWALFile }
  | .resetFile => some { s with wal := s.wal.resetFile }
  | .clearTables => some s.clearTables
  | .clearFiles none => some s.clearFiles
  | .clearFiles (some event) =>
      (s.call event).map (fun t => { t.clearFiles with acknowledged := s.system.returned event })
  | .reopen closed => s.reopen closed

/-- The states a store reaches through events that are allowed. -/
abbrev Reached (allowed : Store → StoreEvent → Prop) : Store → Prop :=
  Transition.Reached step start allowed

/-- Every commit that has returned since the store was cleared, and whose marker has not been
moved to disk, has its records in a log file in the directory. -/
def Recoverable (s : Store) : Prop :=
  (∀ p ∈ s.acknowledged, p.1 ∉ s.landed → s.wal.Holds p.2) ∧
    ∀ records ∈ s.earlier, s.wal.Holds records

/-- What a store may not do: log while the active file is not in the directory, remove its files
between the logging and the return of a commit, or end with a commit whose marker has not been
moved to disk. -/
def Guarded (s : Store) : StoreEvent → Prop
  | .call event => s.system.logged event = [] ∨ s.wal.Present
  | .clearFiles during =>
      (∀ i < s.system.manager.nextTransactionId,
        (s.system.pending i).ending ≠ some .opCommitted) ∧
      ∀ event ∈ during, s.system.logged event = []
  | .reopen _ => ∀ p ∈ s.acknowledged, p.1 ∈ s.landed
  | _ => True

instance (s : Store) : Decidable s.Recoverable := inferInstanceAs (Decidable (_ ∧ _))

instance (s : Store) : ∀ event : StoreEvent, Decidable (s.Guarded event)
  | .call _ => inferInstanceAs (Decidable (_ = _ ∨ _))
  | .clearFiles _ => inferInstanceAs (Decidable ((∀ i < _, _) ∧ _))
  | .reopen _ => inferInstanceAs (Decidable (∀ p ∈ _, _))
  | .cleanWALFile | .resetFile | .clearTables => .isTrue trivial

end Store

end TinyLsm
