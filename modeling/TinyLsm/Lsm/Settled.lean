import TinyLsm.Lsm.System

/-!
# Calls that nothing comes between

A call of an unbuffered transaction takes several steps, and so does an abort that puts back
what it has overwritten.  If no other steps come between them, they do to the context, the
engine and the manager what the method does.
-/

namespace TinyLsm

namespace TranContext

/-- The event a call starts with. -/
def Call.event (trancId : TrancId) : Call → Event
  | .write w => .write trancId w
  | .get key => .get trancId key
  | .commit writes walOk _ => .commit trancId writes walOk
  | .abort rollbacks => .abort trancId rollbacks

/-- A call that iterates over the maps of a context, and leaves no writes out. -/
def Call.Proper (c : TranContext) : Call → Prop
  | .write _ => True
  | .get _ => True
  | .commit writes _ testFail => writes.Perm c.tempMap.entries ∧ testFail = false
  | .abort rollbacks => rollbacks.Perm c.rollbackMap.entries

variable {ε : Type} [LSMEngine ε]

/-- The calls of the engine that put back what a rollback map has do what an abort does. -/
theorem foldl_restoreCall (c : TranContext) :
  ∀ (rollbacks : Iteration (Option (Bytes × TrancId))) (e : ε),
    (rollbacks.map c.restoreCall).foldl (fun e call => call.perform e) e =
      rollbacks.foldl (fun e r => c.restore e r.1 r.2) e
  | [], e => rfl
  | ⟨key, previous⟩ :: rollbacks, e => by
      rw [List.map_cons, List.foldl_cons, List.foldl_cons, foldl_restoreCall c rollbacks]
      cases previous <;> rfl

end TranContext

namespace System

variable {ε : Type} [DocumentedEngine ε]

/-- The context of a transaction that has returned from its calls, with the engine and the
manager. -/
def settled? (trancId : TrancId) (s : System ε) : Option (TranContext × ε × TranManager) :=
  (s.idle? trancId).map (fun c => (c, s.engine, s.manager))

/-- The outcome of an event when a transaction has then made the next `n` steps. -/
def outcome (s : System ε) (trancId : TrancId) (n : ℕ) : Option (TranContext × ε × TranManager) :=
  (Transition.run step (fun _ _ => True) s (List.replicate n (.proceed trancId))).bind
    (settled? trancId)

omit [DocumentedEngine ε] in
theorem settled?_eq {s : System ε} {trancId : TrancId} {c : TranContext}
    (hc : s.contexts trancId = some c) (hidle : s.pending trancId = {}) :
  settled? trancId s = some (c, s.engine, s.manager)
  := by
  rw [settled?, idle?, if_pos hidle, hc, Option.map_some]

theorem outcome_succ {s s' : System ε} {trancId : TrancId}
    (h : step s (.proceed trancId) = some s') (n : ℕ) :
  s.outcome trancId (n + 1) = s'.outcome trancId n
  := by
  rw [outcome, List.replicate_succ, Transition.run_cons trivial h, outcome]

/-- The calls that are pending are made one by one. -/
theorem outcome_calls {trancId : TrancId} :
  ∀ (calls : List EngineCall) (s : System ε) {c : TranContext},
    s.contexts trancId = some c → s.pending trancId = { calls } →
    s.outcome trancId calls.length =
      some (c, calls.foldl (fun e call => call.perform e) s.engine, s.manager)
  | [], s, c, hc, hpending => settled?_eq hc hpending
  | call :: calls, s, c, hc, hpending => by
      have hstep : step s (.proceed trancId) = some (s.perform trancId call { calls }) := by
        rw [step, hpending]
      rw [List.length_cons, outcome_succ hstep]
      apply outcome_calls calls (s.perform trancId call { calls }) hc
      apply Function.update_self

/-- So are those before the end of a transaction, which is a step of its own. -/
theorem outcome_ending {trancId : TrancId} {state : TransactionState} :
  ∀ (calls : List EngineCall) (s : System ε) {c : TranContext},
    s.contexts trancId = some c → s.pending trancId = ⟨calls, some state⟩ →
    s.outcome trancId (calls.length + 1) =
      some (c.ended state, calls.foldl (fun e call => call.perform e) s.engine,
        s.manager.addReadyToFlushTrancId c.trancId state)
  | [], s, c, hc, hpending => by
      have hstep : step s (.proceed trancId) = some (s.finish trancId c state) := by
        rw [step, hpending]
        dsimp only
        rw [hc, Option.map_some]
      rw [List.length_nil, outcome_succ hstep]
      apply settled?_eq (s := s.finish trancId c state) <;> apply Function.update_self
  | call :: calls, s, c, hc, hpending => by
      have hstep : step s (.proceed trancId) =
          some (s.perform trancId call ⟨calls, some state⟩) := by
        rw [step, hpending]
      rw [List.length_cons, outcome_succ hstep]
      apply outcome_ending calls (s.perform trancId call ⟨calls, some state⟩) hc
      apply Function.update_self

/-! ### The calls -/

theorem exists_outcome_write {s : System ε} {trancId : TrancId} (c : TranContext)
    (w : WriteCall) :
  ∃ n, (s.write trancId c w).outcome trancId n =
    some ((c.write s.engine w).1, (c.write s.engine w).2, s.manager)
  := by
  have hcontext : (s.write trancId c w).contexts trancId =
      some (c.prepare s.engine (w.record c.trancId) w.key w.value) := by
    apply Function.update_self
  rw [TranContext.write_eq]
  by_cases hlevel : c.isolationLevel = .readUnopCommitted
  · have hpending : (s.write trancId c w).pending trancId = { calls := [.write w c.trancId] } := by
      rw [write, if_pos hlevel]
      apply Function.update_self
    use 1
    rw [if_pos hlevel]
    apply outcome_calls _ _ hcontext hpending
  · have hpending : (s.write trancId c w).pending trancId = { calls := [] } := by
      rw [write, if_neg hlevel]
      apply Function.update_self
    use 0
    rw [if_neg hlevel]
    apply outcome_calls _ _ hcontext hpending

/-- A commit of an unbuffered transaction puts the marker and ends the transaction, unless it
fails to write the log. -/
theorem exists_outcome_beginCommit {s : System ε} {trancId : TrancId} (c : TranContext)
    (hpending : s.pending trancId = {}) (walOk : Bool) :
  ∃ n, (s.beginCommit trancId c walOk).outcome trancId n =
    some (c.commitUnbuffered s.engine s.manager walOk).2
  := by
  have hcontext : (s.beginCommit trancId c walOk).contexts trancId = some c.logged := by
    apply Function.update_self
  cases walOk with
  | true =>
      have hending : (s.beginCommit trancId c true).pending trancId =
          ⟨[.marker c.trancId], some .opCommitted⟩ := by
        apply Function.update_self
      use 2
      apply outcome_ending _ _ hcontext hending
  | false =>
      use 0
      apply outcome_calls [] _ hcontext hpending

/-- An abort of an unbuffered transaction puts back what it has overwritten. -/
theorem exists_outcome_beginAbort {s : System ε} {trancId : TrancId} {c : TranContext}
    (hc : s.contexts trancId = some c) (hlevel : c.isolationLevel = .readUnopCommitted)
    (rollbacks : Iteration (Option (Bytes × TrancId))) :
  ∃ n, (s.beginAbort trancId c rollbacks).outcome trancId n =
    some (c.abort s.engine s.manager rollbacks).2
  := by
  have hpending : (s.beginAbort trancId c rollbacks).pending trancId =
      ⟨rollbacks.map c.restoreCall, some .aborted⟩ := by
    apply Function.update_self
  use (rollbacks.map c.restoreCall).length + 1
  rw [outcome_ending _ (s.beginAbort trancId c rollbacks) hc hpending,
    TranContext.foldl_restoreCall, TranContext.abort, if_pos hlevel]
  rfl

/-- The steps of a call of an idle transaction, with none between them, do what the method
does. -/
theorem exists_outcome_call {s : System ε} {trancId : TrancId} {c : TranContext}
    (hidle : s.idle? trancId = some c) {call : TranContext.Call} (hcall : call.Proper c) :
  ∃ s', step s (call.event trancId) = some s' ∧
    ∃ n, s'.outcome trancId n = some (c.call s.engine s.manager call).2
  := by
  obtain ⟨hc, hpending⟩ := idle?_eq_some hidle
  cases call with
  | write w =>
      use s.write trancId c w
      constructor
      · rw [TranContext.Call.event, step, hidle, Option.map_some]
      · apply exists_outcome_write
  | get key =>
      use s.get trancId c key
      constructor
      · rw [TranContext.Call.event, step, hidle, Option.map_some]
      · use 0
        apply outcome_calls [] (s.get trancId c key) _ hpending
        apply Function.update_self
  | commit writes walOk testFail =>
      obtain ⟨hwrites, rfl⟩ := hcall
      rw [TranContext.Call.event, step, hidle, Option.bind_some, if_pos hwrites, TranContext.call]
      by_cases hlevel : c.isolationLevel = .readUnopCommitted
      · rw [if_pos hlevel, TranContext.commit, if_pos hlevel]
        use s.beginCommit trancId c walOk, rfl
        apply exists_outcome_beginCommit c hpending
      · rw [if_neg hlevel]
        use s.commit trancId c writes walOk, rfl, 0
        apply outcome_calls [] (s.commit trancId c writes walOk) _ hpending
        apply Function.update_self
  | abort rollbacks =>
      have hrollbacks : rollbacks.Perm c.rollbackMap.entries := hcall
      rw [TranContext.Call.event, step, hidle, Option.bind_some, if_pos hrollbacks,
        TranContext.call]
      by_cases hlevel : c.isolationLevel = .readUnopCommitted
      · rw [if_pos hlevel]
        use s.beginAbort trancId c rollbacks, rfl
        apply exists_outcome_beginAbort hc hlevel
      · rw [if_neg hlevel, TranContext.abort, if_neg hlevel]
        use s.finish trancId c .aborted, rfl, 0
        apply outcome_calls [] _ <;> apply Function.update_self

end System

end TinyLsm
