import TinyLsm.Lsm.TranContext
import Mathlib.Data.List.Induction

/-!
# Calls on a context

The methods of a transaction as calls on its context, and sequences of calls.  When only the
context matters, each call of a sequence comes with the engine and the manager it finds, as
others may have changed them since the call before.
-/

namespace TinyLsm

/-- A call that writes. -/
inductive WriteCall where
  | put (key value : Bytes)
  | remove (key : Bytes)
deriving DecidableEq, Repr

namespace WriteCall

def key : WriteCall → Bytes
  | .put key _ => key
  | .remove key => key

/-- The value a call writes: a removal writes the empty one. -/
def value : WriteCall → Bytes
  | .put _ value => value
  | .remove _ => []

def record (trancId : TrancId) : WriteCall → Record
  | .put key value => Record.putRecord trancId key value
  | .remove key => Record.deleteRecord trancId key

/-- What a call does to the engine, when it is not kept. -/
def apply {ε : Type} [LSMEngine ε] (trancId : TrancId) (e : ε) : WriteCall → ε
  | .put key value => LSMEngine.put e key value trancId
  | .remove key => LSMEngine.remove e key trancId

/-- A written value that is not empty was put. -/
theorem eq_put {w : WriteCall} (h : w.value ≠ []) : w = .put w.key w.value
  := by
  cases w with
  | put key value => rfl
  | remove key => exact absurd rfl h

end WriteCall

/-- The last call on a key. -/
def lastWrite (key : Bytes) (ws : List WriteCall) : Option WriteCall :=
  ws.reverse.find? (fun w => decide (w.key = key))

theorem lastWrite_concat (key : Bytes) (ws : List WriteCall) (w : WriteCall) :
  lastWrite key (ws ++ [w]) = if w.key = key then some w else lastWrite key ws
  := by
  rw [lastWrite, List.reverse_concat, List.find?_cons]
  by_cases h : w.key = key
  · rw [if_pos h, decide_eq_true h]
  · rw [if_neg h, decide_eq_false h]
    rfl

theorem lastWrite_key {key : Bytes} {ws : List WriteCall} {w : WriteCall}
    (h : lastWrite key ws = some w) :
  w.key = key
  := by
  have hfound := List.find?_some h
  exact of_decide_eq_true hfound

/-- A key has no last call exactly when no call is on it. -/
theorem lastWrite_eq_none {key : Bytes} {ws : List WriteCall} :
  lastWrite key ws = none ↔ ∀ w ∈ ws, w.key ≠ key
  := by
  rw [lastWrite, List.find?_eq_none]
  simp only [List.mem_reverse, decide_eq_true_iff, ne_eq]

namespace TranContext

variable {ε : Type} [LSMEngine ε]

/-! ### Writes -/

def write (c : TranContext) (e : ε) : WriteCall → TranContext × ε
  | .put key value => c.put e key value
  | .remove key => c.remove e key

/-- The writes one after the other, with no other writer in between. -/
def writeAll (c : TranContext) (e : ε) : List WriteCall → TranContext × ε
  | [] => (c, e)
  | w :: ws => writeAll (c.write e w).1 (c.write e w).2 ws

theorem write_eq (c : TranContext) (e : ε) (w : WriteCall) :
  c.write e w = (c.prepare e (w.record c.trancId) w.key w.value,
    if c.isolationLevel = .readUnopCommitted then w.apply c.trancId e else e)
  := by
  cases w with
  | put key value => rfl
  | remove key => rfl

theorem writeAll_concat :
  ∀ (c : TranContext) (e : ε) (ws : List WriteCall) (w : WriteCall),
    c.writeAll e (ws ++ [w]) = (c.writeAll e ws).1.write (c.writeAll e ws).2 w
  | _, _, [], _ => rfl
  | c, e, w' :: ws, w => writeAll_concat (c.write e w').1 (c.write e w').2 ws w

@[simp] theorem trancId_prepare (c : TranContext) (e : ε) (record : Record)
    (key value : Bytes) :
  (c.prepare e record key value).trancId = c.trancId
  := by
  rw [prepare]
  split <;> rfl

@[simp] theorem isolationLevel_prepare (c : TranContext) (e : ε) (record : Record)
    (key value : Bytes) :
  (c.prepare e record key value).isolationLevel = c.isolationLevel
  := by
  rw [prepare]
  split <;> rfl

@[simp] theorem operations_prepare (c : TranContext) (e : ε) (record : Record)
    (key value : Bytes) :
  (c.prepare e record key value).operations = c.operations ++ [record]
  := by
  rw [prepare]
  split <;> rfl

@[simp] theorem readMap_prepare (c : TranContext) (e : ε) (record : Record)
    (key value : Bytes) :
  (c.prepare e record key value).readMap = c.readMap
  := by
  rw [prepare]
  split <;> rfl

@[simp] theorem flags_prepare (c : TranContext) (e : ε) (record : Record) (key value : Bytes) :
  (c.prepare e record key value).isCommited = c.isCommited ∧
    (c.prepare e record key value).isAborted = c.isAborted
  := by
  rw [prepare]
  split <;> exact ⟨rfl, rfl⟩

/-- A buffered transaction keeps what it writes. -/
theorem tempMap_prepare {c : TranContext} (h : c.isolationLevel.Buffered) (e : ε)
    (record : Record) (key value : Bytes) :
  (c.prepare e record key value).tempMap = c.tempMap.insert key value
  := by
  rw [prepare, if_neg h]

theorem rollbackMap_prepare {c : TranContext} (h : c.isolationLevel.Buffered) (e : ε)
    (record : Record) (key value : Bytes) :
  (c.prepare e record key value).rollbackMap = c.rollbackMap
  := by
  rw [prepare, if_neg h]

/-- An unbuffered transaction notes what it overwrites, and keeps nothing. -/
theorem prepare_unbuffered {c : TranContext} (h : c.isolationLevel = .readUnopCommitted)
    (e : ε) (record : Record) (key value : Bytes) :
  (c.prepare e record key value).rollbackMap =
      c.rollbackMap.insert key (LSMEngine.get e key 0) ∧
    (c.prepare e record key value).tempMap = c.tempMap
  := by
  rw [prepare, if_pos h]
  exact ⟨rfl, rfl⟩

theorem trancId_writeAll (c : TranContext) (e : ε) :
  ∀ ws : List WriteCall, (c.writeAll e ws).1.trancId = c.trancId
  := by
  intro ws
  induction ws using List.reverseRecOn with
  | nil => rfl
  | append_singleton ws w ih => rw [writeAll_concat, write_eq, trancId_prepare, ih]

theorem isolationLevel_writeAll (c : TranContext) (e : ε) :
  ∀ ws : List WriteCall, (c.writeAll e ws).1.isolationLevel = c.isolationLevel
  := by
  intro ws
  induction ws using List.reverseRecOn with
  | nil => rfl
  | append_singleton ws w ih => rw [writeAll_concat, write_eq, isolationLevel_prepare, ih]

/-! ### Calls -/

/-- A call of a method, with the order in which it iterates over a map, and the arguments of
`commit`. -/
inductive Call where
  | write (w : WriteCall)
  | get (key : Bytes)
  | commit (writes : Iteration Bytes) (walOk testFail : Bool)
  | abort (rollbacks : Iteration (Option (Bytes × TrancId)))
deriving DecidableEq

/-- What a call answers. -/
inductive Answer where
  | done
  | value (value : Option Bytes)
  | committed (result : Except Fault Bool)
  | aborted (result : Bool)
deriving DecidableEq

def call (c : TranContext) (e : ε) (m : TranManager) :
    Call → Answer × TranContext × ε × TranManager
  | .write w => (.done, (c.write e w).1, (c.write e w).2, m)
  | .get key => (.value (c.get e key).1, (c.get e key).2, e, m)
  | .commit writes walOk testFail =>
      (.committed (c.commit e m writes walOk testFail).1,
        (c.commit e m writes walOk testFail).2)
  | .abort rollbacks => (.aborted (c.abort e m rollbacks).1, (c.abort e m rollbacks).2)

/-- A read leaves the context as it is, or keeps what the engine answers. -/
theorem get_cases (c : TranContext) (e : ε) (key : Bytes) :
  (c.get e key).2 = c ∨
    (c.get e key).2 =
      { c with readMap := c.readMap.insert key (LSMEngine.get e key c.trancId) }
  := by
  rw [get]
  split
  · exact .inl rfl
  · rw [query]
    split
    · exact .inl rfl
    · exact .inl rfl
    · split
      · exact .inl rfl
      · exact .inr rfl

theorem get_context (c : TranContext) (e : ε) (key : Bytes) :
  ∃ readMap, (c.get e key).2 = { c with readMap }
  := by
  rcases get_cases c e key with h | h <;> exact ⟨_, h⟩

/-- A commit fails before it logs, fails to log, finds a conflict, or succeeds. -/
theorem commit_cases (c : TranContext) (e : ε) (m : TranManager) (writes : Iteration Bytes)
    (walOk testFail : Bool) :
  (∃ fault, c.commit e m writes walOk testFail = (.error fault, c, e, m)) ∨
  (∃ fault, c.commit e m writes walOk testFail = (.error fault, c.logged, e, m)) ∨
  c.commit e m writes walOk testFail = (.ok false, { c with isAborted := true }, e,
    m.addReadyToFlushTrancId c.trancId .aborted) ∨
  ∃ e', c.commit e m writes walOk testFail = (.ok true, { c.logged with isCommited := true },
    e', ({ m with wal := m.wal ++ c.commitRecords } : TranManager).addReadyToFlushTrancId
      c.trancId .opCommitted)
  := by
  have hunbuffered : (∃ fault, c.commitUnbuffered e m walOk = (.error fault, c.logged, e, m)) ∨
      ∃ e', c.commitUnbuffered e m walOk = (.ok true, { c.logged with isCommited := true }, e',
        ({ m with wal := m.wal ++ c.commitRecords } : TranManager).addReadyToFlushTrancId
          c.trancId .opCommitted) := by
    cases walOk with
    | false => exact .inl ⟨_, rfl⟩
    | true => exact .inr ⟨_, rfl⟩
  have hbuffered : (∃ fault, c.commitBuffered e m writes walOk testFail =
        (.error fault, c.logged, e, m)) ∨
      ∃ e', c.commitBuffered e m writes walOk testFail =
        (.ok true, { c.logged with isCommited := true }, e',
          ({ m with wal := m.wal ++ c.commitRecords } : TranManager).addReadyToFlushTrancId
            c.trancId .opCommitted) := by
    cases walOk with
    | false => exact .inl ⟨_, rfl⟩
    | true => exact .inr ⟨_, rfl⟩
  rw [commit]
  split
  · exact .inr (hunbuffered.imp id .inr)
  · split
    · split
      · exact .inl ⟨_, rfl⟩
      · exact .inr (.inr (.inl rfl))
      · exact .inr (hbuffered.imp id .inr)
    · exact .inr (hbuffered.imp id .inr)

/-- A commit of a buffered transaction fails, finds a conflict, or applies the writes kept,
unless the level checks for conflicts and there are some. -/
theorem commit_buffered {c : TranContext} (h : c.isolationLevel.Buffered) (e : ε)
    (m : TranManager) (writes : Iteration Bytes) (walOk : Bool) :
  (∃ fault operations, c.commit e m writes walOk = (.error fault, { c with operations }, e, m)) ∨
  c.commit e m writes walOk = (.ok false, { c with isAborted := true }, e,
    m.addReadyToFlushTrancId c.trancId .aborted) ∨
  (c.isolationLevel.Checked → c.conflicts e m writes = .ok false) ∧
    c.commit e m writes walOk = (.ok true, { c.logged with isCommited := true },
      c.applyWrites e writes, ({ m with wal := m.wal ++ c.commitRecords } :
        TranManager).addReadyToFlushTrancId c.trancId .opCommitted)
  := by
  have hcommit : (∃ fault operations, c.commitBuffered e m writes walOk false =
        (.error fault, { c with operations }, e, m)) ∨
      c.commitBuffered e m writes walOk false = (.ok true, { c.logged with isCommited := true },
        c.applyWrites e writes, ({ m with wal := m.wal ++ c.commitRecords } :
          TranManager).addReadyToFlushTrancId c.trancId .opCommitted) := by
    cases walOk with
    | false => exact .inl ⟨_, _, rfl⟩
    | true => exact .inr rfl
  rw [commit, if_neg h]
  split
  · cases c.conflicts e m writes with
    | error fault => exact .inl ⟨_, c.operations, rfl⟩
    | ok found =>
        cases found with
        | true => exact .inr (.inl rfl)
        | false => apply hcommit.imp id (fun h => .inr ⟨fun _ => rfl, h⟩)
  next hlevel => apply hcommit.imp id (fun h => .inr ⟨fun h' => absurd h' hlevel, h⟩)

/-- Only the records and the flags of a context change in a commit. -/
theorem commit_context (c : TranContext) (e : ε) (m : TranManager) (writes : Iteration Bytes)
    (walOk testFail : Bool) :
  ∃ operations isCommited isAborted, (c.commit e m writes walOk testFail).2.1 =
    { c with operations, isCommited, isAborted }
  := by
  rcases commit_cases c e m writes walOk testFail with
    ⟨_, h⟩ | ⟨_, h⟩ | h | ⟨_, h⟩ <;> rw [h] <;> exact ⟨_, _, _, rfl⟩

/-- A call with the engine and the manager it finds. -/
structure Step (ε : Type) where
  engine : ε
  manager : TranManager
  call : Call

/-- The context after a call. -/
def next (c : TranContext) (s : Step ε) : TranContext := (c.call s.engine s.manager s.call).2.1

/-- The context after calls. -/
def after (c : TranContext) (steps : List (Step ε)) : TranContext := steps.foldl next c

theorem after_concat (c : TranContext) (steps : List (Step ε)) (s : Step ε) :
  c.after (steps ++ [s]) = (c.after steps).next s
  := List.foldl_concat next c s steps

theorem after_append (c : TranContext) (steps steps' : List (Step ε)) :
  c.after (steps ++ steps') = (c.after steps).after steps'
  := List.foldl_append

@[simp] theorem isolationLevel_next (c : TranContext) (s : Step ε) :
  (c.next s).isolationLevel = c.isolationLevel
  := by
  obtain ⟨e, m, call⟩ := s
  cases call with
  | write w => rw [next, TranContext.call, write_eq, isolationLevel_prepare]
  | get key =>
      obtain ⟨_, h⟩ := get_context c e key
      rw [next, TranContext.call, h]
  | commit writes walOk testFail =>
      obtain ⟨_, _, _, h⟩ := commit_context c e m writes walOk testFail
      rw [next, TranContext.call, h]
  | abort rollbacks => rfl

theorem isolationLevel_after (c : TranContext) (steps : List (Step ε)) :
  (c.after steps).isolationLevel = c.isolationLevel
  := by
  induction steps using List.reverseRecOn with
  | nil => rfl
  | append_singleton steps s ih => rw [after_concat, isolationLevel_next, ih]

/-- What calls answer. -/
def answers (c : TranContext) : List (Step ε) → List Answer
  | [] => []
  | s :: steps => (c.call s.engine s.manager s.call).1 :: answers (c.next s) steps

theorem answers_concat :
  ∀ (c : TranContext) (steps : List (Step ε)) (s : Step ε), c.answers (steps ++ [s]) =
    c.answers steps ++ [((c.after steps).call s.engine s.manager s.call).1]
  | _, [], _ => rfl
  | c, s' :: steps, s => by
      rw [List.cons_append, answers, answers_concat (c.next s') steps s]
      rfl

/-- The writes among calls. -/
def writesOf (steps : List (Step ε)) : List WriteCall :=
  steps.filterMap (fun s => match s.call with
    | .write w => some w
    | _ => none)

omit [LSMEngine ε] in
theorem writesOf_concat (steps : List (Step ε)) (s : Step ε) :
  writesOf (steps ++ [s]) = writesOf steps ++ (match s.call with
    | .write w => [w]
    | _ => [])
  := by
  rw [writesOf, List.filterMap_append, ← writesOf]
  congr 1
  obtain ⟨e, m, call⟩ := s
  cases call <;> rfl

end TranContext

end TinyLsm
