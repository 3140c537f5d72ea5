import TinyLsm.Lsm.System

/-!
# The journal

A journal lists what the calls on a system do to the log and to the engine, the latest first,
one call of `write_to_wal` or of the engine at a time.  A crash leaves what an end of the
journal has done.
-/

namespace TinyLsm

/-- What is done to the log or to the engine for a transaction at a level, or for a plain
call: records are passed to the log, a version is put into the engine, or put back. -/
inductive Effect where
  | logged (trancId : TrancId) (level : IsolationLevel) (records : List Record)
  | called (trancId : TrancId) (level : Option IsolationLevel) (call : EngineCall)
  | restored (trancId : TrancId) (call : EngineCall)
deriving DecidableEq

abbrev Journal := List Effect

namespace Effect

/-- The version an effect puts into the engine. -/
def entry? : Effect → Option Entry
  | .logged _ _ _ => none
  | .called _ _ call | .restored _ call => some call.entry

/-- The records an effect passes to the log. -/
def records : Effect → List Record
  | .logged _ _ records => records
  | _ => []

end Effect

namespace TranContext

/-- What `commit` does at the buffered levels, when no conflict is found: it passes the records
to the log, then puts the kept writes, then the marker. -/
def commitBufferedEffects (c : TranContext) (writes : Iteration Bytes) (walOk : Bool) :
    Journal :=
  if walOk then
    .called c.trancId (some c.isolationLevel) (.marker c.trancId) ::
      ((writes.map (fun w => .called c.trancId (some c.isolationLevel)
          (.write (.put w.1 w.2) c.trancId))).reverse ++
        [.logged c.trancId c.isolationLevel c.commitRecords])
  else []

theorem records_commitBufferedEffects (c : TranContext) (writes : Iteration Bytes) :
  (c.commitBufferedEffects writes true).reverse.flatMap Effect.records = c.commitRecords
  := by
  have hput : (writes.map (fun w => Effect.called c.trancId (some c.isolationLevel)
      (.write (.put w.1 w.2) c.trancId))).flatMap Effect.records = [] := by
    rw [List.flatMap_map]
    apply List.flatMap_eq_nil_iff.mpr (fun _ _ => rfl)
  rw [commitBufferedEffects, if_pos rfl, List.reverse_cons, List.reverse_append,
    List.reverse_reverse, List.flatMap_append, List.flatMap_append, hput, List.append_nil]
  exact (List.append_nil _).trans (List.append_nil _)

theorem entries_commitBufferedEffects (c : TranContext) (writes : Iteration Bytes) :
  (c.commitBufferedEffects writes true).filterMap Effect.entry? =
    ⟨[], [], c.trancId⟩ :: (tempEntries c.trancId writes).reverse
  := by
  have hput : (writes.map (fun w => Effect.called c.trancId (some c.isolationLevel)
      (.write (.put w.1 w.2) c.trancId))).filterMap Effect.entry? =
        tempEntries c.trancId writes := by
    rw [List.filterMap_map, tempEntries, ← List.filterMap_eq_map]
    rfl
  rw [commitBufferedEffects, if_pos rfl, List.filterMap_cons, List.filterMap_append,
    List.filterMap_reverse, hput]
  apply congrArg _ (List.append_nil _)

/-- What `commit` does at the buffered levels. -/
def commitEffects {ε : Type} [LSMEngine ε] (c : TranContext) (e : ε) (m : TranManager)
    (writes : Iteration Bytes) (walOk : Bool) : Journal :=
  if c.isolationLevel.Checked then
    match c.conflicts e m writes with
    | .ok false => c.commitBufferedEffects writes walOk
    | _ => []
  else
    c.commitBufferedEffects writes walOk

/-- A commit of a buffered transaction has no effect, unless it applies the writes kept. -/
theorem commit_effects {ε : Type} [LSMEngine ε] {c : TranContext}
    (h : c.isolationLevel.Buffered) (e : ε) (m : TranManager) (writes : Iteration Bytes)
    (walOk : Bool) :
  (∃ fault c', c.commit e m writes walOk = (.error fault, c', e, m) ∧ (c' = c ∨ c' = c.logged) ∧
    c.commitEffects e m writes walOk = []) ∨
  c.commit e m writes walOk = (.ok false, { c with isAborted := true }, e,
    m.addReadyToFlushTrancId c.trancId .aborted) ∧ c.commitEffects e m writes walOk = [] ∨
  (c.isolationLevel.Checked → c.conflicts e m writes = .ok false) ∧
    c.commit e m writes walOk = (.ok true, { c.logged with isCommited := true },
      c.applyWrites e writes, ({ m with wal := m.wal ++ c.commitRecords } :
        TranManager).addReadyToFlushTrancId c.trancId .opCommitted) ∧
    c.commitEffects e m writes walOk = c.commitBufferedEffects writes true
  := by
  rw [commit, if_neg h, commitEffects]
  by_cases hlevel : c.isolationLevel.Checked
  · rw [if_pos hlevel, if_pos hlevel]
    cases c.conflicts e m writes with
    | error fault => exact .inl ⟨fault, c, rfl, .inl rfl, rfl⟩
    | ok found =>
        cases found with
        | true => exact .inr (.inl ⟨rfl, rfl⟩)
        | false =>
            cases walOk with
            | false => exact .inl ⟨_, c.logged, rfl, .inr rfl, rfl⟩
            | true => exact .inr (.inr ⟨fun _ => rfl, rfl, rfl⟩)
  · rw [if_neg hlevel, if_neg hlevel]
    cases walOk with
    | false => exact .inl ⟨_, c.logged, rfl, .inr rfl, rfl⟩
    | true => exact .inr (.inr ⟨fun h => absurd h hlevel, rfl, rfl⟩)

end TranContext

/-- What a step does to the log and to the engine. -/
def System.effects {ε : Type} [LSMEngine ε] (s : System ε) : Event → Journal
  | .commit trancId writes walOk =>
      match s.idle? trancId with
      | none => []
      | some c =>
          if c.isolationLevel = .readUnopCommitted then
            if walOk then [.logged c.trancId c.isolationLevel c.commitRecords] else []
          else c.commitEffects s.engine s.manager writes walOk
  | .proceed trancId =>
      match s.pending trancId with
      | ⟨call :: _, some .aborted⟩ => [.restored trancId call]
      | ⟨call :: _, _⟩ =>
          [.called trancId ((s.contexts trancId).map TranContext.isolationLevel) call]
      | ⟨[], _⟩ => []
  | _ => []

end TinyLsm
