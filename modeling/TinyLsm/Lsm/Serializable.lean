import TinyLsm.Lsm.System

/-!
# The level SERIALIZABLE

No method tells the level `SERIALIZABLE` from `REPEATABLE_READ`.  In a run of a system in which
transactions are created at one level instead of the other, everything that occurs is the same
but for the levels.
-/

namespace TinyLsm

/-- The level with `REPEATABLE_READ` in place of `SERIALIZABLE`. -/
def IsolationLevel.weaken : IsolationLevel → IsolationLevel
  | .serializable => .repeatableRead
  | level => level

theorem IsolationLevel.weaken_eq_readUnopCommitted {level : IsolationLevel} :
  level.weaken = .readUnopCommitted ↔ level = .readUnopCommitted
  := by
  cases level <;> decide

theorem IsolationLevel.checked_weaken {level : IsolationLevel} :
  level.weaken.Checked ↔ level.Checked
  := by
  cases level <;> decide

namespace TranContext

variable {ε : Type}

def weaken (c : TranContext) : TranContext :=
  { c with isolationLevel := c.isolationLevel.weaken }

variable [LSMEngine ε]

theorem prepare_weaken (c : TranContext) (e : ε) (record : Record) (key value : Bytes) :
  c.weaken.prepare e record key value = (c.prepare e record key value).weaken
  := by
  obtain ⟨trancId, level, operations, tempMap, readMap, rollbackMap, isCommited, isAborted⟩ := c
  cases level <;> rfl

theorem query_weaken (c : TranContext) (e : ε) (key : Bytes) :
  c.weaken.query e key = ((c.query e key).1, (c.query e key).2.weaken)
  := by
  obtain ⟨trancId, level, operations, tempMap, readMap, rollbackMap, isCommited, isAborted⟩ := c
  cases level with
  | readUnopCommitted => rfl
  | readOpCommitted => rfl
  | repeatableRead => cases hread : readMap.lookup key <;> simp only [weaken, query, hread] <;> rfl
  | serializable => cases hread : readMap.lookup key <;> simp only [weaken, query, hread] <;> rfl

theorem get_weaken (c : TranContext) (e : ε) (key : Bytes) :
  c.weaken.get e key = ((c.get e key).1, (c.get e key).2.weaken)
  := by
  have htemp : c.weaken.tempMap = c.tempMap := rfl
  rw [get, get, htemp, query_weaken]
  cases c.tempMap.lookup key <;> rfl

theorem conflicts_weaken (c : TranContext) (e : ε) (m : TranManager) :
  ∀ writes : Iteration Bytes, c.weaken.conflicts e m writes = c.conflicts e m writes
  | [] => rfl
  | ⟨key, _⟩ :: writes => by
      rw [conflicts, conflicts, conflicts_weaken c e m writes]
      rfl

/-- A commit decides in the same way, and leaves the same but for the level. -/
theorem commit_weaken (c : TranContext) (e : ε) (m : TranManager) (writes : Iteration Bytes)
    (walOk : Bool) :
  c.weaken.commit e m writes walOk =
    ((c.commit e m writes walOk).1, (c.commit e m writes walOk).2.1.weaken,
      (c.commit e m writes walOk).2.2)
  := by
  have hbuffered : c.weaken.commitBuffered e m writes walOk false =
      ((c.commitBuffered e m writes walOk false).1,
        (c.commitBuffered e m writes walOk false).2.1.weaken,
        (c.commitBuffered e m writes walOk false).2.2) := by
    cases walOk <;> rfl
  have hweaken : c.weaken.isolationLevel = c.isolationLevel.weaken := rfl
  rw [commit, commit, hweaken]
  by_cases hlevel : c.isolationLevel = .readUnopCommitted
  · rw [if_pos hlevel, if_pos (IsolationLevel.weaken_eq_readUnopCommitted.mpr hlevel)]
    cases walOk <;> rfl
  · rw [if_neg hlevel, if_neg (fun h => hlevel (IsolationLevel.weaken_eq_readUnopCommitted.mp h))]
    by_cases hchecked : c.isolationLevel.Checked
    · rw [if_pos hchecked, if_pos (IsolationLevel.checked_weaken.mpr hchecked), conflicts_weaken]
      cases c.conflicts e m writes with
      | error fault => rfl
      | ok found =>
          cases found with
          | true => rfl
          | false => exact hbuffered
    · rw [if_neg hchecked, if_neg (fun h => hchecked (IsolationLevel.checked_weaken.mp h))]
      exact hbuffered

end TranContext

/-- The occurrence at the weaker level. -/
def Occurrence.weaken : Occurrence → Occurrence
  | .created trancId level => .created trancId level.weaken
  | o => o

/-- The event at the weaker level. -/
def Event.weaken : Event → Event
  | .newTranc level => .newTranc level.weaken
  | event => event

namespace System

variable {ε : Type} [DocumentedEngine ε]

omit [DocumentedEngine ε] in
/-- The system with its transactions at the weaker level. -/
def weaken (s : System ε) : System ε :=
  { s with
    contexts := fun i => (s.contexts i).map TranContext.weaken
    history := s.history.map Occurrence.weaken }

omit [DocumentedEngine ε] in
theorem weaken_update (s : System ε) (trancId : TrancId) (c : TranContext) :
  (fun i => (Function.update s.contexts trancId (some c) i).map TranContext.weaken) =
    Function.update (fun i => (s.contexts i).map TranContext.weaken) trancId (some c.weaken)
  := by
  funext i
  by_cases hid : i = trancId
  · rw [hid, Function.update_self, Function.update_self, Option.map_some]
  · rw [Function.update_of_ne hid, Function.update_of_ne hid]

omit [DocumentedEngine ε] in
theorem idle?_weaken (s : System ε) (trancId : TrancId) :
  s.weaken.idle? trancId = (s.idle? trancId).map TranContext.weaken
  := by
  rw [idle?, idle?, apply_ite (Option.map TranContext.weaken)]
  rfl

omit [DocumentedEngine ε] in
theorem finish_weaken (s : System ε) (trancId : TrancId) (c : TranContext)
    (state : TransactionState) :
  s.weaken.finish trancId c.weaken state = (s.finish trancId c state).weaken
  := by
  dsimp only [finish, weaken]
  rw [weaken_update]
  cases state <;> rfl

omit [DocumentedEngine ε] in
theorem beginCommit_weaken (s : System ε) (trancId : TrancId) (c : TranContext) (walOk : Bool) :
  s.weaken.beginCommit trancId c.weaken walOk = (s.beginCommit trancId c walOk).weaken
  := by
  dsimp only [beginCommit, weaken]
  rw [weaken_update]
  cases walOk <;> rfl

theorem commit_weaken (s : System ε) (trancId : TrancId) (c : TranContext)
    (writes : Iteration Bytes) (walOk : Bool) :
  s.weaken.commit trancId c.weaken writes walOk = (s.commit trancId c writes walOk).weaken
  := by
  dsimp only [commit, weaken]
  rw [weaken_update, TranContext.commit_weaken, List.map_append]
  have hoccurrences : ∀ result : Except Fault Bool,
      (commitOccurrences trancId writes result).map Occurrence.weaken =
        commitOccurrences trancId writes result := by
    intro result
    cases result with
    | error fault => rfl
    | ok success =>
        cases success with
        | false => rfl
        | true =>
            apply congrArg (fun h => Occurrence.committed trancId ::
              Occurrence.applied trancId ⟨[], [], trancId⟩ :: h)
            apply List.map_map
  rw [hoccurrences]

/-- A step at the weaker level leads to the same system, but for the level. -/
theorem step_weaken (s : System ε) (event : Event) :
  step s.weaken event.weaken = (step s event).map weaken
  := by
  cases event with
  | newTranc level =>
      apply congrArg some
      dsimp only [newTranc, weaken]
      rw [weaken_update]
      rfl
  | write trancId w =>
      change step s.weaken (.write trancId w) = _
      rw [step, step, idle?_weaken, Option.map_map, Option.map_map]
      apply congrArg (fun f => (s.idle? trancId).map f)
      funext c
      dsimp only [Function.comp, write, weaken]
      rw [weaken_update, TranContext.prepare_weaken]
      simp only [TranContext.weaken, IsolationLevel.weaken_eq_readUnopCommitted]
      rfl
  | get trancId key =>
      change step s.weaken (.get trancId key) = _
      rw [step, step, idle?_weaken, Option.map_map, Option.map_map]
      apply congrArg (fun f => (s.idle? trancId).map f)
      funext c
      dsimp only [Function.comp, get, weaken]
      rw [weaken_update, TranContext.get_weaken]
      rfl
  | commit trancId writes walOk =>
      change step s.weaken (.commit trancId writes walOk) = _
      rw [step, step, idle?_weaken, Option.bind_map, Option.map_bind]
      apply congrArg (Option.bind (s.idle? trancId))
      funext c
      have htemp : c.weaken.tempMap = c.tempMap := rfl
      have hlevel : c.weaken.isolationLevel = c.isolationLevel.weaken := rfl
      dsimp only [Function.comp]
      rw [htemp, hlevel, apply_ite (Option.map weaken), apply_ite (Option.map weaken)]
      simp only [IsolationLevel.weaken_eq_readUnopCommitted, Option.map_none, Option.map_some]
      rw [beginCommit_weaken, commit_weaken]
  | abort trancId rollbacks =>
      change step s.weaken (.abort trancId rollbacks) = _
      rw [step, step, idle?_weaken, Option.bind_map, Option.map_bind]
      apply congrArg (Option.bind (s.idle? trancId))
      funext c
      have hrollback : c.weaken.rollbackMap = c.rollbackMap := rfl
      have hlevel : c.weaken.isolationLevel = c.isolationLevel.weaken := rfl
      dsimp only [Function.comp]
      rw [hrollback, hlevel, apply_ite (Option.map weaken), apply_ite (Option.map weaken)]
      simp only [IsolationLevel.weaken_eq_readUnopCommitted, Option.map_none, Option.map_some]
      rw [finish_weaken]
      rfl
  | lsmWrite w => rfl
  | proceed trancId =>
      change step s.weaken (.proceed trancId) = _
      have hpending : s.weaken.pending trancId = s.pending trancId := rfl
      have hcontext : s.weaken.contexts trancId = (s.contexts trancId).map TranContext.weaken := rfl
      rw [step, step, hpending, hcontext]
      split
      next => rfl
      next state _ =>
        rw [Option.map_map, Option.map_map]
        apply congrArg (fun f => (s.contexts trancId).map f)
        funext c
        apply finish_weaken
      next => rfl
  | frozenCurTable => rfl
  | flush => rfl

/-- Whatever the events, a run with `REPEATABLE_READ` in place of `SERIALIZABLE` has the same
calls made on the engine and the log, the same reads and the same ends of transactions. -/
theorem run_weaken (events : List Event) :
  (Transition.run step (fun _ _ => True) (start : System ε) (events.map Event.weaken)) =
    (Transition.run step (fun _ _ => True) start events).map weaken
  := Transition.run_map weaken Event.weaken (fun _ _ => Iff.rfl) step_weaken start events

end System

end TinyLsm
