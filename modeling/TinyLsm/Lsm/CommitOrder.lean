import TinyLsm.Lsm.Tables
import TinyLsm.Lsm.TranContext

/-!
# The order of a commit

An account is an engine and a manager with the list of what has been done to the memtable and to
the log so far.  A commit at the buffered levels over an account does what it does without one:
`commitBuffered_account`.  The account shows that it does all of it or nothing, and the log before
the memtable: `commit_all_or_nothing`.
-/

namespace TinyLsm

/-- What a commit does to the log or to the memtable. -/
inductive CommitAction where
  | log (records : List Record)
  | put (key value : Bytes) (trancId : TrancId)
deriving DecidableEq, Repr

/-- An engine and a manager, and what has been done to them, the first action first. -/
structure Account (ε : Type) where
  engine : ε
  manager : TranManager
  done : List CommitAction

namespace Account

variable {ε : Type} [LSMEngine ε]

def writeToWal (l : Account ε) (walOk : Bool) (records : List Record) : Bool × Account ε :=
  let (success, manager) := l.manager.writeToWal walOk records
  (success, { l with manager, done := if success then l.done ++ [.log records] else l.done })

def put_ (l : Account ε) (key value : Bytes) (trancId : TrancId) : Account ε :=
  { l with
    engine := LSMEngine.memtablePut_ l.engine key value trancId
    done := l.done ++ [.put key value trancId] }

def addReadyToFlushTrancId (l : Account ε) (trancId : TrancId) (state : TransactionState) :
    Account ε :=
  { l with manager := l.manager.addReadyToFlushTrancId trancId state }

/-- Put the kept writes into the memtable. -/
def putAll (l : Account ε) (trancId : TrancId) (writes : Iteration Bytes) : Account ε :=
  writes.foldl (fun l w => l.put_ w.1 w.2 trancId) l

end Account

namespace TranContext

variable {ε : Type} [LSMEngine ε]

/-- What `commit` does after the checks, over an account. -/
def applyOver (c : TranContext) (l : Account ε) (writes : Iteration Bytes)
    (walOk testFail : Bool) : Except Fault Bool × TranContext × Account ε :=
  let c := { c with operations := c.operations ++ [Record.commitRecord c.trancId] }
  let (success, l) := l.writeToWal walOk c.operations
  if success then
    let l := if testFail then l else (l.putAll c.trancId writes).put_ [] [] c.trancId
    (.ok true, { c with isCommited := true }, l.addReadyToFlushTrancId c.trancId .opCommitted)
  else
    (.error (.runtimeError "write to wal failed"), c, l)

/-- `commit` at the buffered levels over an account. -/
def commitOver (c : TranContext) (l : Account ε) (writes : Iteration Bytes)
    (walOk testFail : Bool) : Except Fault Bool × TranContext × Account ε :=
  if c.isolationLevel.Checked then
    match c.conflicts l.engine l.manager writes with
    | .error fault => (.error fault, c, l)
    | .ok true =>
        (.ok false, { c with isAborted := true }, l.addReadyToFlushTrancId c.trancId .aborted)
    | .ok false => c.applyOver l writes walOk testFail
  else
    c.applyOver l writes walOk testFail

/-! ### An account only watches -/

theorem engine_putAll (trancId : TrancId) :
  ∀ (writes : Iteration Bytes) (l : Account ε), (l.putAll trancId writes).engine =
    writes.foldl (fun e w => LSMEngine.memtablePut_ e w.1 w.2 trancId) l.engine
  | [], _ => rfl
  | w :: writes, l => engine_putAll trancId writes (l.put_ w.1 w.2 trancId)

theorem manager_putAll (trancId : TrancId) :
  ∀ (writes : Iteration Bytes) (l : Account ε), (l.putAll trancId writes).manager = l.manager
  | [], _ => rfl
  | w :: writes, l => manager_putAll trancId writes (l.put_ w.1 w.2 trancId)

theorem done_putAll (trancId : TrancId) :
  ∀ (writes : Iteration Bytes) (l : Account ε), (l.putAll trancId writes).done =
    l.done ++ writes.map (fun w => .put w.1 w.2 trancId)
  | [], l => (List.append_nil l.done).symm
  | w :: writes, l => by
      have ih := done_putAll trancId writes (l.put_ w.1 w.2 trancId)
      rw [Account.putAll, List.foldl_cons]
      rw [Account.putAll] at ih
      rw [ih, Account.put_, List.append_assoc, List.map_cons, List.singleton_append]

theorem commitBuffered_account (c : TranContext) (l : Account ε) (writes : Iteration Bytes)
    (walOk testFail : Bool) :
  c.commitBuffered l.engine l.manager writes walOk testFail =
    ((c.applyOver l writes walOk testFail).1, (c.applyOver l writes walOk testFail).2.1,
      (c.applyOver l writes walOk testFail).2.2.engine,
      (c.applyOver l writes walOk testFail).2.2.manager)
  := by
  cases walOk with
  | false => rfl
  | true =>
      cases testFail with
      | true => rfl
      | false =>
          rw [commitBuffered, applyOver]
          simp only [Account.writeToWal, TranManager.writeToWal, applyWrites, Account.put_,
            Account.addReadyToFlushTrancId, engine_putAll, manager_putAll, if_true]
          rfl

/-- Over an account a commit at the buffered levels does what it does without one. -/
theorem commit_account {c : TranContext} (h : c.isolationLevel.Buffered) (l : Account ε)
    (writes : Iteration Bytes) (walOk testFail : Bool) :
  c.commit l.engine l.manager writes walOk testFail =
    ((c.commitOver l writes walOk testFail).1, (c.commitOver l writes walOk testFail).2.1,
      (c.commitOver l writes walOk testFail).2.2.engine,
      (c.commitOver l writes walOk testFail).2.2.manager)
  := by
  have happly := c.commitBuffered_account l writes walOk testFail
  rw [commit, if_neg h, commitOver]
  by_cases hlevel : c.isolationLevel.Checked
  · rw [if_pos hlevel, if_pos hlevel]
    cases c.conflicts l.engine l.manager writes with
    | error fault => rfl
    | ok found =>
        cases found with
        | true => rfl
        | false => exact happly
  · rw [if_neg hlevel, if_neg hlevel]
    exact happly

/-! ### All or nothing -/

/-- What has been done when a commit has applied its writes. -/
def appliedActions (c : TranContext) (writes : Iteration Bytes) : List CommitAction :=
  .log c.commitRecords ::
    (writes.map (fun w => .put w.1 w.2 c.trancId) ++ [.put [] [] c.trancId])

theorem applyOver_fails (c : TranContext) (l : Account ε) (writes : Iteration Bytes)
    (testFail : Bool) :
  c.applyOver l writes false testFail =
    (.error (.runtimeError "write to wal failed"), c.logged, l)
  := rfl

/-- A commit that logs its records puts each kept write once, and then the marker. -/
theorem applyOver_succeeds (c : TranContext) (l : Account ε) (writes : Iteration Bytes)
    (testFail : Bool) :
  ∃ l', c.applyOver l writes true testFail = (.ok true, { c.logged with isCommited := true }, l') ∧
    l'.manager.wal = l.manager.wal ++ c.commitRecords ∧
    (testFail = false → l'.done = l.done ++ c.appliedActions writes)
  := by
  cases testFail with
  | true => exact ⟨_, rfl, rfl, fun h => nomatch h⟩
  | false =>
      let l₁ : Account ε := {
        engine := l.engine
        manager := { l.manager with wal := l.manager.wal ++ c.commitRecords }
        done := l.done ++ [.log c.commitRecords] }
      use ((l₁.putAll c.trancId writes).put_ [] [] c.trancId).addReadyToFlushTrancId c.trancId
        .opCommitted
      refine ⟨rfl, ?_, fun _ => ?_⟩
      · change (l₁.putAll c.trancId writes).manager.wal = _
        rw [manager_putAll]
      · change (l₁.putAll c.trancId writes).done ++ [.put [] [] c.trancId] = _
        rw [done_putAll, List.append_assoc]
        change (l.done ++ [.log c.commitRecords]) ++ _ = _
        rw [List.append_assoc, List.singleton_append, appliedActions]

/-- A commit over an account finds a conflict or fails to look for one, fails to log its records, or
applies its writes. -/
theorem commitOver_cases (c : TranContext) (l : Account ε) (writes : Iteration Bytes)
    (walOk testFail : Bool) :
  (∃ fault c', c.commitOver l writes walOk testFail = (.error fault, c', l) ∧
    c'.isCommited = c.isCommited) ∨
  c.commitOver l writes walOk testFail = (.ok false, { c with isAborted := true },
    l.addReadyToFlushTrancId c.trancId .aborted) ∨
  ∃ l', c.commitOver l writes walOk testFail =
      (.ok true, { c.logged with isCommited := true }, l') ∧
    l'.manager.wal = l.manager.wal ++ c.commitRecords ∧
    (testFail = false → l'.done = l.done ++ c.appliedActions writes)
  := by
  have happly : (∃ fault c', c.applyOver l writes walOk testFail = (.error fault, c', l) ∧
        c'.isCommited = c.isCommited) ∨
      ∃ l', c.applyOver l writes walOk testFail =
          (.ok true, { c.logged with isCommited := true }, l') ∧
        l'.manager.wal = l.manager.wal ++ c.commitRecords ∧
        (testFail = false → l'.done = l.done ++ c.appliedActions writes) := by
    cases walOk with
    | false => exact .inl ⟨_, _, c.applyOver_fails l writes testFail, rfl⟩
    | true => exact .inr (c.applyOver_succeeds l writes testFail)
  rw [commitOver]
  by_cases hlevel : c.isolationLevel.Checked
  · rw [if_pos hlevel]
    cases c.conflicts l.engine l.manager writes with
    | error fault => exact .inl ⟨fault, c, rfl, rfl⟩
    | ok found =>
        cases found with
        | true => exact .inr (.inl rfl)
        | false => exact happly.imp_right .inr
  · rw [if_neg hlevel]
    exact happly.imp_right .inr

/-- An iteration over an unordered map comes to each of its pairs, and to no key twice. -/
theorem iteration_of_perm {map : UnorderedMap Bytes} {writes : Iteration Bytes}
    (h : writes.Perm map.entries) :
  (writes.map Sigma.fst).Nodup ∧
    ∀ key value, ⟨key, value⟩ ∈ writes ↔ map.lookup key = some value
  := by
  constructor
  · apply (h.map Sigma.fst).nodup_iff.mpr map.nodupKeys
  · intro key value
    rw [h.mem_iff, ← AList.mem_lookup_iff]
    rfl

/-- A commit that is not finished, at a buffered level, with any iteration over the kept writes.
If it returns `false` or fails, the engine is as it was, nothing has been done and the context is
not committed; if it returns `false`, neither has the log changed.  If it returns `true`, and the
writes are not left out for a test, the records have been logged, then each kept write has been put
once, under its key with its value, and last the marker. -/
theorem commit_all_or_nothing (c : TranContext) (hlevel : c.isolationLevel.Buffered)
    (hcommited : c.isCommited = false) (e : ε) (m : TranManager) (writes : Iteration Bytes)
    (hwrites : writes.Perm c.tempMap.entries) (walOk testFail : Bool) :
  ∃ result c' l', c.commitOver ⟨e, m, []⟩ writes walOk testFail = (result, c', l') ∧
    c.commit e m writes walOk testFail = (result, c', l'.engine, l'.manager) ∧
    (result = .ok false → l'.engine = e ∧ l'.manager.wal = m.wal ∧ l'.done = [] ∧
      c'.isCommited = false) ∧
    (∀ fault, result = .error fault → l'.engine = e ∧ l'.done = [] ∧ c'.isCommited = false) ∧
    (result = .ok true → testFail = false →
      l'.done = c.appliedActions writes ∧ l'.manager.wal = m.wal ++ c.commitRecords ∧
      (writes.map Sigma.fst).Nodup ∧
      ∀ key value, ⟨key, value⟩ ∈ writes ↔ c.tempMap.lookup key = some value)
  := by
  have haccount := commit_account hlevel ⟨e, m, []⟩ writes walOk testFail
  obtain ⟨fault, c', hcommit, hsame⟩ | hcommit | ⟨l', hcommit, hwal, hdone⟩ :=
    c.commitOver_cases ⟨e, m, []⟩ writes walOk testFail
  · rw [hcommit] at haccount
    refine ⟨_, _, _, hcommit, haccount, ?_, ?_, ?_⟩
    · rintro ⟨⟩
    · intro _ _
      exact ⟨rfl, rfl, hsame.trans hcommited⟩
    · rintro ⟨⟩
  · rw [hcommit] at haccount
    refine ⟨_, _, _, hcommit, haccount, ?_, ?_, ?_⟩
    · intro _
      exact ⟨rfl, rfl, rfl, hcommited⟩
    · rintro _ ⟨⟩
    · rintro ⟨⟩
  · rw [hcommit] at haccount
    refine ⟨_, _, _, hcommit, haccount, ?_, ?_, ?_⟩
    · rintro ⟨⟩
    · rintro _ ⟨⟩
    · intro _ htest
      exact ⟨hdone htest, hwal, iteration_of_perm hwrites⟩

/-- A commit of a put and a removal.  Over versions that are older than the transaction all its
records are logged, then the writes are put in the order of the iteration, and then the marker;
over a later version of one of the keys neither is put. -/
theorem commit_all_or_nothing_put :
  let older : Tables := { currentTable := [⟨[1], [9], 5⟩], ssts := [[⟨[3], [8], 4⟩]] }
  let later : Tables := { currentTable := [⟨[1], [9], 5⟩], ssts := [[⟨[3], [8], 9⟩]] }
  let m : TranManager := { flushedTrancIds := .singleton 9 }
  let c := (((new 7 .repeatableRead).put older [1] [2]).1.remove older [3]).1
  (∃ (c' : TranContext) (l' : Account Tables),
    c.commit older m [⟨[1], [2]⟩, ⟨[3], []⟩] true false = (.ok true, c', l'.engine, l'.manager) ∧
      l'.done = [.log [Record.createRecord 7, Record.putRecord 7 [1] [2],
        Record.deleteRecord 7 [3], Record.commitRecord 7], .put [1] [2] 7, .put [3] [] 7,
        .put [] [] 7]) ∧
    ∃ (c' : TranContext) (m' : TranManager),
      c.commit later m [⟨[1], [2]⟩, ⟨[3], []⟩] true false = (.ok false, c', later, m') ∧
        c'.isCommited = false ∧ m'.wal = []
  := by
  intro older later m c
  have hwrites : ([⟨[1], [2]⟩, ⟨[3], []⟩] : Iteration Bytes).Perm c.tempMap.entries := by decide
  have hbuffered : c.isolationLevel.Buffered := by decide
  constructor
  · obtain ⟨result, c', l', hover, hcommit, -, -, happlied⟩ :=
      commit_all_or_nothing c hbuffered rfl older m _ hwrites true false
    have hresult : result = .ok true := (congrArg Prod.fst hover).symm
    subst hresult
    exact ⟨c', l', hcommit, (happlied rfl rfl).1⟩
  · obtain ⟨result, c', l', hover, hcommit, hrefused, -, -⟩ :=
      commit_all_or_nothing c hbuffered rfl later m _ hwrites true false
    have hresult : result = .ok false := (congrArg Prod.fst hover).symm
    subst hresult
    obtain ⟨hengine, hwal, -, hcommited⟩ := hrefused rfl
    exact ⟨c', l'.manager, hengine ▸ hcommit, hcommited, hwal⟩

end TranContext

end TinyLsm
