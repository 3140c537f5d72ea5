import TinyLsm.Lsm.History
import TinyLsm.Library.Transition
import Mathlib.Logic.Function.Basic

/-!
# The system

Any number of transactions and plain calls share an engine and a manager.  A step is a call
of one of them, or the freezing or flushing of a table.  A buffered transaction commits under
the locks of the memtable, in one step.  What an unbuffered transaction or a plain call does
to the engine are steps of their own, so that others may step in between: such a call leaves
calls of the engine pending, and, if it ends a transaction, the state it ends in.

A context has one owner, which makes a call only when the one before has returned.
-/

namespace TinyLsm

/-- A call of the engine. -/
inductive EngineCall where
  | write (w : WriteCall) (trancId : TrancId)
  | marker (trancId : TrancId)
deriving DecidableEq

namespace EngineCall

def perform {ε : Type} [LSMEngine ε] (e : ε) : EngineCall → ε
  | .write w trancId => w.apply trancId e
  | .marker trancId => LSMEngine.memtablePut_ e [] [] trancId

/-- The version a call of the engine applies. -/
def entry : EngineCall → Entry
  | .write w trancId => ⟨w.key, w.value, trancId⟩
  | .marker trancId => ⟨[], [], trancId⟩

theorem tables_perform {ε : Type} [DocumentedEngine ε] (e : ε) (call : EngineCall) :
  DocumentedEngine.tables (call.perform e) = (DocumentedEngine.tables e).put call.entry
  := by
  cases call with
  | write w trancId =>
      cases w with
      | put key value => apply DocumentedEngine.tables_put
      | remove key => apply DocumentedEngine.tables_remove
  | marker trancId => apply DocumentedEngine.tables_memtablePut_

end EngineCall

/-- A buffered commit applies the writes in the order of the iteration, and the marker. -/
theorem TranContext.latest_applyWrites {ε : Type} [DocumentedEngine ε] (c : TranContext) (e : ε)
    (writes : Iteration Bytes) (key : Bytes) (trancId : TrancId) :
  latest key trancId (DocumentedEngine.tables (c.applyWrites e writes)).versions =
    latest key trancId (⟨[], [], c.trancId⟩ ::
      ((tempEntries c.trancId writes).reverse ++ (DocumentedEngine.tables e).versions))
  := by
  have hfold : ∀ (writes : Iteration Bytes) (e : ε), latest key trancId (DocumentedEngine.tables
      (writes.foldl (fun e w => LSMEngine.memtablePut_ e w.1 w.2 c.trancId) e)).versions =
      latest key trancId
        ((tempEntries c.trancId writes).reverse ++ (DocumentedEngine.tables e).versions) := by
    intro writes
    induction writes with
    | nil =>
        intro e
        rfl
    | cons w writes ih =>
        intro e
        have hcons : tempEntries c.trancId (w :: writes) =
            ⟨w.1, w.2, c.trancId⟩ :: tempEntries c.trancId writes := rfl
        rw [List.foldl_cons, ih, latest_append, DocumentedEngine.tables_memtablePut_,
          Tables.latest_put, ← latest_append, hcons, List.reverse_cons, List.append_assoc]
        rfl
  rw [applyWrites, DocumentedEngine.tables_memtablePut_, Tables.latest_put, latest_cons, hfold,
    latest_cons]

theorem TranContext.ssts_applyWrites {ε : Type} [DocumentedEngine ε] (c : TranContext) (e : ε)
    (writes : Iteration Bytes) :
  (DocumentedEngine.tables (c.applyWrites e writes)).ssts = (DocumentedEngine.tables e).ssts
  := by
  have hfold : ∀ (writes : Iteration Bytes) (e : ε), (DocumentedEngine.tables
      (writes.foldl (fun e w => LSMEngine.memtablePut_ e w.1 w.2 c.trancId) e)).ssts =
      (DocumentedEngine.tables e).ssts := by
    intro writes
    induction writes with
    | nil =>
        intro e
        rfl
    | cons w writes ih =>
        intro e
        rw [List.foldl_cons, ih, DocumentedEngine.tables_memtablePut_, Tables.put]
  rw [applyWrites, DocumentedEngine.tables_memtablePut_, Tables.put, hfold]

/-- What is left to do of a call: calls of the engine, and then ending a transaction. -/
structure Pending where
  calls : List EngineCall := []
  ending : Option TransactionState := none
deriving DecidableEq

structure System (ε : Type) where
  engine : ε
  manager : TranManager
  contexts : TrancId → Option TranContext
  pending : TrancId → Pending
  history : History

inductive Event where
  | newTranc (level : IsolationLevel)
  | write (trancId : TrancId) (w : WriteCall)
  | get (trancId : TrancId) (key : Bytes)
  | commit (trancId : TrancId) (writes : Iteration Bytes) (walOk : Bool)
  | abort (trancId : TrancId) (rollbacks : Iteration (Option (Bytes × TrancId)))
  | lsmWrite (w : WriteCall)
  | proceed (trancId : TrancId)
  | frozenCurTable
  | flush

namespace TranContext

/-- The call of the engine that puts back what a rollback map has for a key. -/
def restoreCall (c : TranContext) (r : Σ _ : Bytes, Option (Bytes × TrancId)) : EngineCall :=
  match r.2 with
  | some (value, trancId) => .write (.put r.1 value) trancId
  | none => .write (.remove r.1) c.trancId

/-- The context when its transaction has ended. -/
def ended (c : TranContext) : TransactionState → TranContext
  | .opCommitted => { c with isCommited := true }
  | .aborted => { c with isAborted := true }

end TranContext

namespace System

variable {ε : Type} [DocumentedEngine ε]

/-- A system without transactions on a fresh engine. -/
def start : System ε where
  engine := DocumentedEngine.fresh
  manager := {}
  contexts _ := none
  pending _ := {}
  history := []

def newTranc (s : System ε) (level : IsolationLevel) : System ε :=
  let (trancId, manager) := s.manager.getNextTransactionId
  { s with
    manager
    contexts := Function.update s.contexts trancId (some (TranContext.new trancId level))
    history := .created trancId level :: s.history }

/-- A put or a removal of a transaction.  If it is unbuffered, writing to the engine is left
to do. -/
def write (s : System ε) (trancId : TrancId) (c : TranContext) (w : WriteCall) : System ε :=
  let c' := c.prepare s.engine (w.record c.trancId) w.key w.value
  let calls := if c.isolationLevel = .readUnopCommitted then [.write w c.trancId] else []
  { s with
    contexts := Function.update s.contexts trancId (some c')
    pending := Function.update s.pending trancId { calls }
    history := .wrote trancId w :: s.history }

def get (s : System ε) (trancId : TrancId) (c : TranContext) (key : Bytes) : System ε :=
  { s with
    contexts := Function.update s.contexts trancId (some (c.get s.engine key).2)
    history := .read trancId key (c.get s.engine key).1 :: s.history }

/-- A commit of an unbuffered transaction up to the log. -/
def beginCommit (s : System ε) (trancId : TrancId) (c : TranContext) (walOk : Bool) : System ε :=
  let (success, manager) := s.manager.writeToWal walOk c.commitRecords
  { s with
    manager
    contexts := Function.update s.contexts trancId (some c.logged)
    pending :=
      if success then
        Function.update s.pending trancId ⟨[.marker c.trancId], some .opCommitted⟩
      else s.pending }

/-- The versions a commit of a buffered transaction applies: what it kept, and the marker. -/
def applications (trancId : TrancId) (writes : Iteration Bytes) : History :=
  .applied trancId ⟨[], [], trancId⟩ ::
    (tempEntries trancId writes).reverse.map (Occurrence.applied trancId)

/-- What occurs in a commit of a buffered transaction. -/
def commitOccurrences (trancId : TrancId) (writes : Iteration Bytes) :
    Except Fault Bool → History
  | .ok true => .committed trancId :: applications trancId writes
  | .ok false => [.refused trancId]
  | .error _ => []

/-- A commit of a buffered transaction. -/
def commit (s : System ε) (trancId : TrancId) (c : TranContext) (writes : Iteration Bytes)
    (walOk : Bool) : System ε :=
  let (result, c', engine, manager) := c.commit s.engine s.manager writes walOk
  { s with
    engine
    manager
    contexts := Function.update s.contexts trancId (some c')
    history := commitOccurrences trancId writes result ++ s.history }

/-- An abort of an unbuffered transaction, with all that it puts back left to do. -/
def beginAbort (s : System ε) (trancId : TrancId) (c : TranContext)
    (rollbacks : Iteration (Option (Bytes × TrancId))) : System ε :=
  { s with
    pending := Function.update s.pending trancId ⟨rollbacks.map c.restoreCall, some .aborted⟩ }

def endOccurrence (trancId : TrancId) : TransactionState → Occurrence
  | .opCommitted => .committed trancId
  | .aborted => .aborted trancId

/-- Ending a transaction. -/
def finish (s : System ε) (trancId : TrancId) (c : TranContext) (state : TransactionState) :
    System ε :=
  { s with
    manager := s.manager.addReadyToFlushTrancId c.trancId state
    contexts := Function.update s.contexts trancId (some (c.ended state))
    pending := Function.update s.pending trancId {}
    history := endOccurrence trancId state :: s.history }

/-- `LSM::put` or `LSM::remove`, with writing to the engine left to do. -/
def lsmWrite (s : System ε) (w : WriteCall) : System ε :=
  let (trancId, manager) := s.manager.getNextTransactionId
  { s with
    manager
    pending := Function.update s.pending trancId { calls := [.write w trancId] }
    history := .lsmWrote trancId w :: s.history }

/-- The next call of the engine that is pending. -/
def perform (s : System ε) (trancId : TrancId) (call : EngineCall) (rest : Pending) :
    System ε :=
  { s with
    engine := call.perform s.engine
    pending := Function.update s.pending trancId rest
    history := .applied trancId call.entry :: s.history }

def frozenCurTable (s : System ε) : System ε :=
  { s with engine := DocumentedEngine.frozenCurTable s.engine }

/-- Flush the oldest table, and tell the manager of the markers in it. -/
def flush (s : System ε) : System ε :=
  let (trancIds, engine) := DocumentedEngine.flush s.engine
  { s with engine, manager := trancIds.foldl TranManager.addFlushedTrancId s.manager }

/-- The context of a transaction that has returned from its calls. -/
def idle? (s : System ε) (trancId : TrancId) : Option TranContext :=
  if s.pending trancId = {} then s.contexts trancId else none

def step (s : System ε) : Event → Option (System ε)
  | .newTranc level => some (s.newTranc level)
  | .write trancId w => (s.idle? trancId).map (fun c => s.write trancId c w)
  | .get trancId key => (s.idle? trancId).map (fun c => s.get trancId c key)
  | .commit trancId writes walOk =>
      (s.idle? trancId).bind (fun c =>
        if writes.Perm c.tempMap.entries then
          if c.isolationLevel = .readUnopCommitted then
            some (s.beginCommit trancId c walOk)
          else
            some (s.commit trancId c writes walOk)
        else none)
  | .abort trancId rollbacks =>
      (s.idle? trancId).bind (fun c =>
        if rollbacks.Perm c.rollbackMap.entries then
          if c.isolationLevel = .readUnopCommitted then
            some (s.beginAbort trancId c rollbacks)
          else
            some (s.finish trancId c .aborted)
        else none)
  | .lsmWrite w => some (s.lsmWrite w)
  | .proceed trancId =>
      match s.pending trancId with
      | ⟨call :: calls, ending⟩ => some (s.perform trancId call ⟨calls, ending⟩)
      | ⟨[], some state⟩ => (s.contexts trancId).map (fun c => s.finish trancId c state)
      | ⟨[], none⟩ => none
  | .frozenCurTable => some s.frozenCurTable
  | .flush => some s.flush

/-- The states a system reaches through events that are allowed. -/
abbrev Reached (allowed : System ε → Event → Prop) : System ε → Prop :=
  Transition.Reached step start allowed

/-! ### What a step can do -/

/-- A commit of a buffered transaction that applied its writes. -/
def committed (s : System ε) (trancId : TrancId) (c : TranContext) (writes : Iteration Bytes) :
    System ε :=
  { s with
    engine := c.applyWrites s.engine writes
    manager := ({ s.manager with wal := s.manager.wal ++ c.commitRecords } :
      TranManager).addReadyToFlushTrancId c.trancId .opCommitted
    contexts := Function.update s.contexts trancId
      (some { c.logged with isCommited := true })
    history := commitOccurrences trancId writes (.ok true) ++ s.history }

/-- A commit of a buffered transaction that found a conflict. -/
def refused (s : System ε) (trancId : TrancId) (c : TranContext) : System ε :=
  { s with
    manager := s.manager.addReadyToFlushTrancId c.trancId .aborted
    contexts := Function.update s.contexts trancId (some { c with isAborted := true })
    history := .refused trancId :: s.history }

/-- The cases of a step that is not a flush: a context changes its maps, or only its records
and flags, perhaps with calls pending from then on; or a call that is pending is made; or the
current table is frozen. -/
inductive Stepped (s : System ε) : System ε → Prop
  | newTranc (level : IsolationLevel) : Stepped s (s.newTranc level)
  | write (trancId : TrancId) (c : TranContext) (w : WriteCall) :
      s.contexts trancId = some c → s.pending trancId = {} → Stepped s (s.write trancId c w)
  | get (trancId : TrancId) (c : TranContext) (key : Bytes) :
      s.contexts trancId = some c → Stepped s (s.get trancId c key)
  | failed (trancId : TrancId) (c : TranContext) (operations : List Record) :
      s.contexts trancId = some c →
      Stepped s { s with
        contexts := Function.update s.contexts trancId (some { c with operations }) }
  | beginCommit (trancId : TrancId) (c : TranContext) :
      s.contexts trancId = some c → s.pending trancId = {} →
      c.isolationLevel = .readUnopCommitted → Stepped s (s.beginCommit trancId c true)
  | refused (trancId : TrancId) (c : TranContext) :
      s.contexts trancId = some c → Stepped s (s.refused trancId c)
  | committed (trancId : TrancId) (c : TranContext) (writes : Iteration Bytes) :
      s.contexts trancId = some c → s.pending trancId = {} → c.isolationLevel.Buffered →
      writes.Perm c.tempMap.entries →
      (c.isolationLevel.Checked → c.conflicts s.engine s.manager writes = .ok false) →
      Stepped s (s.committed trancId c writes)
  | beginAbort (trancId : TrancId) (c : TranContext)
      (rollbacks : Iteration (Option (Bytes × TrancId))) :
      s.contexts trancId = some c → s.pending trancId = {} →
      c.isolationLevel = .readUnopCommitted → rollbacks.Perm c.rollbackMap.entries →
      Stepped s (s.beginAbort trancId c rollbacks)
  | finish (trancId : TrancId) (c : TranContext) (state : TransactionState) :
      s.contexts trancId = some c →
      s.pending trancId = ⟨[], some state⟩ ∨ s.pending trancId = {} ∧ state = .aborted →
      Stepped s (s.finish trancId c state)
  | lsmWrite (w : WriteCall) : Stepped s (s.lsmWrite w)
  | perform (trancId : TrancId) (call : EngineCall) (calls : List EngineCall)
      (ending : Option TransactionState) :
      s.pending trancId = ⟨call :: calls, ending⟩ →
      Stepped s (s.perform trancId call ⟨calls, ending⟩)
  | frozenCurTable : Stepped s s.frozenCurTable

omit [DocumentedEngine ε] in
theorem idle?_eq_some {s : System ε} {trancId : TrancId} {c : TranContext}
    (h : s.idle? trancId = some c) :
  s.contexts trancId = some c ∧ s.pending trancId = {}
  := by
  rw [idle?] at h
  split at h
  next hidle => exact ⟨h, hidle⟩
  next => cases h

omit [DocumentedEngine ε] in
theorem mem_applications {trancId : TrancId} {writes : Iteration Bytes} {o : Occurrence} :
  o ∈ applications trancId writes ↔ o = .applied trancId ⟨[], [], trancId⟩ ∨
    ∃ key value, ⟨key, value⟩ ∈ writes ∧ o = .applied trancId ⟨key, value, trancId⟩
  := by
  rw [applications, List.mem_cons, List.mem_map]
  apply or_congr_right
  constructor
  · rintro ⟨e, he, rfl⟩
    obtain ⟨⟨key, value⟩, hw, rfl⟩ := List.mem_map.mp (List.mem_reverse.mp he)
    exact ⟨key, value, hw, rfl⟩
  · rintro ⟨key, value, hw, rfl⟩
    exact ⟨_, List.mem_reverse.mpr (List.mem_map.mpr ⟨_, hw, rfl⟩), rfl⟩

omit [DocumentedEngine ε] in
/-- What occurs in a commit of a buffered transaction is the commit, or that it applies a
version. -/
theorem eq_of_mem_commit {trancId : TrancId} {writes : Iteration Bytes} {o : Occurrence}
    (h : o ∈ .committed trancId :: applications trancId writes) :
  o = .committed trancId ∨ ∃ e, o = .applied trancId e
  := by
  rcases List.mem_cons.mp h with heq | h
  · exact .inl heq
  · rcases mem_applications.mp h with heq | ⟨_, _, _, heq⟩ <;> exact .inr ⟨_, heq⟩

omit [DocumentedEngine ε] in
theorem entries_applications (trancId : TrancId) (writes : Iteration Bytes) :
  History.entries (applications trancId writes) =
    ⟨[], [], trancId⟩ :: (tempEntries trancId writes).reverse
  := by
  have happlied : (List.map (Occurrence.applied trancId) (tempEntries trancId writes).reverse
      ).filterMap History.entry? = (tempEntries trancId writes).reverse := by
    rw [List.filterMap_map]
    apply List.filterMap_some
  rw [History.entries, applications, List.filterMap_cons]
  dsimp only [History.entry?]
  rw [happlied]

theorem commit_stepped {s : System ε} {trancId : TrancId} {c : TranContext}
    (hc : s.contexts trancId = some c) (hidle : s.pending trancId = {})
    {writes : Iteration Bytes} (hwrites : writes.Perm c.tempMap.entries)
    (hlevel : c.isolationLevel.Buffered) (walOk : Bool) :
  Stepped s (s.commit trancId c writes walOk)
  := by
  rw [commit]
  rcases TranContext.commit_buffered hlevel s.engine s.manager writes walOk with
    ⟨_, operations, h⟩ | h | ⟨hconflicts, h⟩ <;> rw [h]
  · exact .failed trancId c operations hc
  · exact .refused trancId c hc
  · exact .committed trancId c writes hc hidle hlevel hwrites hconflicts

/-- Every step but a flush is one of the cases. -/
theorem step_stepped {s s' : System ε} {event : Event} (h : step s event = some s') :
  Stepped s s' ∨ event = .flush ∧ s' = s.flush
  := by
  cases event with
  | newTranc level =>
      rw [← Option.some.inj h]
      exact .inl (.newTranc level)
  | write trancId w =>
      obtain ⟨c, hc, rfl⟩ := Option.map_eq_some_iff.mp h
      obtain ⟨hc, hidle⟩ := idle?_eq_some hc
      exact .inl (.write trancId c w hc hidle)
  | get trancId key =>
      obtain ⟨c, hc, rfl⟩ := Option.map_eq_some_iff.mp h
      exact .inl (.get trancId c key (idle?_eq_some hc).1)
  | commit trancId writes walOk =>
      obtain ⟨c, hc, h⟩ := Option.bind_eq_some_iff.mp h
      obtain ⟨hc, hidle⟩ := idle?_eq_some hc
      split at h
      next hwrites =>
        split at h
        next hlevel =>
          rw [← Option.some.inj h]
          cases walOk with
          | true => exact .inl (.beginCommit trancId c hc hidle hlevel)
          | false => exact .inl (.failed trancId c c.commitRecords hc)
        next hlevel =>
          rw [← Option.some.inj h]
          exact .inl (commit_stepped hc hidle hwrites hlevel walOk)
      next => cases h
  | abort trancId rollbacks =>
      obtain ⟨c, hc, h⟩ := Option.bind_eq_some_iff.mp h
      obtain ⟨hc, hidle⟩ := idle?_eq_some hc
      split at h
      next hrollbacks =>
        split at h
        next hlevel =>
          rw [← Option.some.inj h]
          exact .inl (.beginAbort trancId c rollbacks hc hidle hlevel hrollbacks)
        next hlevel =>
          rw [← Option.some.inj h]
          exact .inl (.finish trancId c .aborted hc (.inr ⟨hidle, rfl⟩))
      next => cases h
  | lsmWrite w =>
      rw [← Option.some.inj h]
      exact .inl (.lsmWrite w)
  | proceed trancId =>
      rw [step] at h
      split at h
      next call calls ending hpending =>
        rw [← Option.some.inj h]
        exact .inl (.perform trancId call calls ending hpending)
      next state hpending =>
        obtain ⟨c, hc, rfl⟩ := Option.map_eq_some_iff.mp h
        exact .inl (.finish trancId c state hc (.inl hpending))
      next => cases h
  | frozenCurTable =>
      rw [← Option.some.inj h]
      exact .inl .frozenCurTable
  | flush => exact .inr ⟨rfl, (Option.some.inj h).symm⟩

/-- Only a flush changes the tables on disk, or the ids that have been flushed. -/
theorem Stepped.flushed {s s' : System ε} (h : Stepped s s') :
  (DocumentedEngine.tables s'.engine).ssts = (DocumentedEngine.tables s.engine).ssts ∧
    s'.manager.flushedTrancIds = s.manager.flushedTrancIds
  := by
  cases h with
  | newTranc level => exact ⟨rfl, rfl⟩
  | write trancId c w hc hidle => exact ⟨rfl, rfl⟩
  | get trancId c key hc => exact ⟨rfl, rfl⟩
  | failed trancId c operations hc => exact ⟨rfl, rfl⟩
  | beginCommit trancId c hc hidle hlevel => exact ⟨rfl, rfl⟩
  | refused trancId c hc => exact ⟨rfl, rfl⟩
  | committed trancId c writes hc hidle hlevel hwrites hconflicts =>
      exact ⟨c.ssts_applyWrites s.engine writes, rfl⟩
  | beginAbort trancId c rollbacks hc hidle hlevel hrollbacks => exact ⟨rfl, rfl⟩
  | finish trancId c state hc hpending => exact ⟨rfl, rfl⟩
  | lsmWrite w => exact ⟨rfl, rfl⟩
  | perform trancId call calls ending hpending =>
      refine ⟨?_, rfl⟩
      dsimp only [System.perform]
      rw [EngineCall.tables_perform]
      rfl
  | frozenCurTable =>
      refine ⟨?_, rfl⟩
      dsimp only [System.frozenCurTable]
      rw [DocumentedEngine.tables_frozenCurTable]
      rfl

end System

end TinyLsm
