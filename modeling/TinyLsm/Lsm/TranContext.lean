import TinyLsm.Lsm.Engine
import TinyLsm.Lsm.TranManager
import Mathlib.Data.List.AList

/-!
# Transactions

A transaction at the level `READ_UNOP_COMMITTED` writes to the engine at once, and notes in
its rollback map what it overwrites.  At the other levels, the buffered ones, it keeps its
writes in a temporary map until it commits.  At the levels `REPEATABLE_READ` and
`SERIALIZABLE` it also keeps what it has read, and checks at commit that no key it writes
has a version with a greater id.

The unordered maps have no order of their own: the methods that iterate over one take the
order as an argument.
-/

namespace TinyLsm

inductive IsolationLevel where
  | readUnopCommitted
  | readOpCommitted
  | repeatableRead
  | serializable
deriving DecidableEq, Repr

/-- The level at which writes go to the engine at once is the only unbuffered one. -/
def IsolationLevel.Buffered (level : IsolationLevel) : Prop := level ≠ .readUnopCommitted

instance (level : IsolationLevel) : Decidable level.Buffered :=
  inferInstanceAs (Decidable (_ ≠ _))

/-- The levels that keep what they read and check for conflicts. -/
def IsolationLevel.Checked (level : IsolationLevel) : Prop :=
  level = .repeatableRead ∨ level = .serializable

instance (level : IsolationLevel) : Decidable level.Checked :=
  inferInstanceAs (Decidable (_ ∨ _))

theorem IsolationLevel.Checked.buffered {level : IsolationLevel} (h : level.Checked) :
  level.Buffered
  := by
  rintro rfl
  rcases h with h | h <;> cases h

/-- An unordered map from keys. -/
abbrev UnorderedMap (β : Type) := AList (fun _ : Bytes => β)

/-- The pairs of an unordered map in the order of an iteration. -/
abbrev Iteration (β : Type) := List (Σ _ : Bytes, β)

/-- The versions an iteration over a temporary map is put as. -/
def tempEntries (trancId : TrancId) (writes : Iteration Bytes) : List Entry :=
  writes.map (fun w => ⟨w.1, w.2, trancId⟩)

structure TranContext where
  trancId : TrancId
  isolationLevel : IsolationLevel
  operations : List Record
  tempMap : UnorderedMap Bytes := ∅
  readMap : UnorderedMap (Option (Bytes × TrancId)) := ∅
  rollbackMap : UnorderedMap (Option (Bytes × TrancId)) := ∅
  isCommited : Bool := false
  isAborted : Bool := false

namespace TranContext

/-- The context of a new transaction. -/
def new (trancId : TrancId) (isolationLevel : IsolationLevel) : TranContext :=
  { trancId, isolationLevel, operations := [Record.createRecord trancId] }

variable {ε : Type} [LSMEngine ε]

/-! ### Writing -/

/-- What `put` and `remove` do before they write to the engine: they log the operation, and
either note what the engine holds or keep the value. -/
def prepare (c : TranContext) (e : ε) (record : Record) (key value : Bytes) : TranContext :=
  let c := { c with operations := c.operations ++ [record] }
  if c.isolationLevel = .readUnopCommitted then
    { c with rollbackMap := c.rollbackMap.insert key (LSMEngine.get e key 0) }
  else
    { c with tempMap := c.tempMap.insert key value }

def put (c : TranContext) (e : ε) (key value : Bytes) : TranContext × ε :=
  (c.prepare e (Record.putRecord c.trancId key value) key value,
    if c.isolationLevel = .readUnopCommitted then LSMEngine.put e key value c.trancId else e)

def remove (c : TranContext) (e : ε) (key : Bytes) : TranContext × ε :=
  (c.prepare e (Record.deleteRecord c.trancId key) key [],
    if c.isolationLevel = .readUnopCommitted then LSMEngine.remove e key c.trancId else e)

/-! ### Reading -/

/-- The query `get` makes when the temporary map does not have the key. -/
def query (c : TranContext) (e : ε) (key : Bytes) : Option (Bytes × TrancId) × TranContext :=
  match c.isolationLevel with
  | .readUnopCommitted => (LSMEngine.get e key 0, c)
  | .readOpCommitted => (LSMEngine.get e key c.trancId, c)
  | _ =>
      match c.readMap.lookup key with
      | some query => (query, c)
      | none =>
          (LSMEngine.get e key c.trancId,
            { c with readMap := c.readMap.insert key (LSMEngine.get e key c.trancId) })

def get (c : TranContext) (e : ε) (key : Bytes) : Option Bytes × TranContext :=
  match c.tempMap.lookup key with
  | some value => (some value, c)
  | none => ((c.query e key).1.map Prod.fst, (c.query e key).2)

/-! ### Committing -/

/-- Whether the memtable has a version of a key with an id greater than that of the
transaction. -/
def conflictsInMemtable (c : TranContext) (e : ε) (key : Bytes) : Bool :=
  match LSMEngine.memtableGet_ e key 0 with
  | some version => !version.key.isEmpty && decide (c.trancId < version.trancId)
  | none => false

/-- Whether a table on disk has one. -/
def conflictsInSst (c : TranContext) (e : ε) (key : Bytes) : Bool :=
  match LSMEngine.sstGet_ e key 0 with
  | some (_, trancId) => decide (c.trancId < trancId)
  | none => false

/-- Whether a key has a version with an id greater than that of the transaction: in the
memtable, or, unless no flushed id is greater, in a table. -/
def conflictsOn (c : TranContext) (e : ε) (m : TranManager) (key : Bytes) : Except Fault Bool :=
  if c.conflictsInMemtable e key then
    .ok true
  else do
    let maxFlushed ← m.getMaxFlushedTrancId
    if maxFlushed ≤ c.trancId then
      return false
    else
      return c.conflictsInSst e key

/-- Whether one of the keys conflicts, asking up to the first that does. -/
def conflicts (c : TranContext) (e : ε) (m : TranManager) : Iteration Bytes → Except Fault Bool
  | [] => .ok false
  | ⟨key, _⟩ :: writes => do
      if ← c.conflictsOn e m key then
        return true
      else
        conflicts c e m writes

/-- Put the kept writes into the memtable, and the marker of the commit after them. -/
def applyWrites (c : TranContext) (e : ε) (writes : Iteration Bytes) : ε :=
  LSMEngine.memtablePut_
    (writes.foldl (fun e w => LSMEngine.memtablePut_ e w.1 w.2 c.trancId) e) [] [] c.trancId

/-- The records a commit passes to the log. -/
def commitRecords (c : TranContext) : List Record :=
  c.operations ++ [Record.commitRecord c.trancId]

/-- The context when a commit has passed its records to the log. -/
def logged (c : TranContext) : TranContext := { c with operations := c.commitRecords }

/-- How a call ended, by returning or by an exception, and the states it left. -/
abbrev Ended (ε ρ : Type) := Except Fault ρ × TranContext × ε × TranManager

/-- `commit` at the level `READ_UNOP_COMMITTED`: only the marker is left to put. -/
def commitUnbuffered (c : TranContext) (e : ε) (m : TranManager) (walOk : Bool) :
    Ended ε Bool :=
  let (success, m') := m.writeToWal walOk c.commitRecords
  if success then
    (.ok true, { c.logged with isCommited := true },
      LSMEngine.memtablePut_ e [] [] c.trancId,
      m'.addReadyToFlushTrancId c.trancId .opCommitted)
  else
    (.error (.runtimeError "write to wal failed"), c.logged, e, m')

/-- `commit` at the buffered levels, when no conflict is found. -/
def commitBuffered (c : TranContext) (e : ε) (m : TranManager) (writes : Iteration Bytes)
    (walOk testFail : Bool) : Ended ε Bool :=
  let (success, m') := m.writeToWal walOk c.commitRecords
  if success then
    (.ok true, { c.logged with isCommited := true },
      if testFail then e else c.applyWrites e writes,
      m'.addReadyToFlushTrancId c.trancId .opCommitted)
  else
    (.error (.runtimeError "write to wal failed"), c.logged, e, m')

/-- `commit`, with an iteration over the temporary map, whether writing the log succeeds,
and whether the writes are left out, as a test does to simulate a crash. -/
def commit (c : TranContext) (e : ε) (m : TranManager) (writes : Iteration Bytes)
    (walOk : Bool) (testFail : Bool := false) : Ended ε Bool :=
  if c.isolationLevel = .readUnopCommitted then
    c.commitUnbuffered e m walOk
  else if c.isolationLevel.Checked then
    match c.conflicts e m writes with
    | .error fault => (.error fault, c, e, m)
    | .ok true =>
        (.ok false, { c with isAborted := true }, e,
          m.addReadyToFlushTrancId c.trancId .aborted)
    | .ok false => c.commitBuffered e m writes walOk testFail
  else
    c.commitBuffered e m writes walOk testFail

/-! ### Aborting -/

/-- Put back what the rollback map has for a key. -/
def restore (c : TranContext) (e : ε) (key : Bytes) (previous : Option (Bytes × TrancId)) : ε :=
  match previous with
  | some (value, trancId) => LSMEngine.put e key value trancId
  | none => LSMEngine.remove e key c.trancId

/-- `abort`, with an iteration over the rollback map. -/
def abort (c : TranContext) (e : ε) (m : TranManager)
    (rollbacks : Iteration (Option (Bytes × TrancId))) : Bool × TranContext × ε × TranManager :=
  (true, { c with isAborted := true },
    if c.isolationLevel = .readUnopCommitted then
      rollbacks.foldl (fun e r => c.restore e r.1 r.2) e
    else e,
    m.addReadyToFlushTrancId c.trancId .aborted)

end TranContext

end TinyLsm
