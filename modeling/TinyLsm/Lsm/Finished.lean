import TinyLsm.Lsm.Calls
import TinyLsm.Lsm.Tables

/-!
# Finished transactions

No method looks at the flags of a context.  A call after a commit or an abort does what it
would do before: it writes to the log exactly when it is a commit that succeeds, and acts on
the engine only if it is one, or if the transaction is unbuffered and the call is a write or
an abort.  The flags record which of the two ends a transaction has had, possibly both.
-/

namespace TinyLsm

namespace TranContext

variable {ε : Type} [LSMEngine ε]

/-- The calls with which an unbuffered transaction acts on the engine at once. -/
def Call.ActsAtOnce : Call → Prop
  | .write _ | .abort _ => True
  | .get _ | .commit _ _ _ => False

/-- A call writes to the log exactly when it is a commit that succeeds. -/
theorem wal_call (c : TranContext) (e : ε) (m : TranManager) (call : Call) :
  (c.call e m call).2.2.2.wal ≠ m.wal ↔ (c.call e m call).1 = .committed (.ok true)
  := by
  cases call with
  | write w => exact ⟨fun h => absurd rfl h, fun h => by cases h⟩
  | get key => exact ⟨fun h => absurd rfl h, fun h => by cases h⟩
  | abort rollbacks => exact ⟨fun h => absurd rfl h, fun h => by cases h⟩
  | commit writes walOk testFail =>
      rw [TranContext.call]
      rcases commit_cases c e m writes walOk testFail with
        ⟨_, h⟩ | ⟨_, h⟩ | h | ⟨_, h⟩ <;> rw [h]
      · exact ⟨fun h => absurd rfl h, fun h => by cases h⟩
      · exact ⟨fun h => absurd rfl h, fun h => by cases h⟩
      · exact ⟨fun h => absurd rfl h, fun h => by cases h⟩
      · constructor
        · intro _
          rfl
        · intro _ hwal
          have hnil := List.append_right_eq_self.mp hwal
          rw [commitRecords] at hnil
          cases List.append_eq_nil_iff.mp hnil |>.2

/-- A call acts on the engine only if it is a commit that succeeds, or if the transaction is
unbuffered and the call is a write or an abort. -/
theorem engine_call (c : TranContext) (e : ε) (m : TranManager) (call : Call) :
  (c.call e m call).2.2.1 = e ∨ (c.call e m call).1 = .committed (.ok true) ∨
    c.isolationLevel = .readUnopCommitted ∧ call.ActsAtOnce
  := by
  cases call with
  | write w =>
      by_cases hlevel : c.isolationLevel = .readUnopCommitted
      · exact .inr (.inr ⟨hlevel, trivial⟩)
      · left
        rw [TranContext.call, write_eq]
        apply if_neg hlevel
  | get key => exact .inl rfl
  | abort rollbacks =>
      by_cases hlevel : c.isolationLevel = .readUnopCommitted
      · exact .inr (.inr ⟨hlevel, trivial⟩)
      · exact .inl (if_neg hlevel)
  | commit writes walOk testFail =>
      rw [TranContext.call]
      rcases commit_cases c e m writes walOk testFail with
        ⟨_, h⟩ | ⟨_, h⟩ | h | ⟨_, h⟩ <;> rw [h]
      · exact .inl rfl
      · exact .inl rfl
      · exact .inl rfl
      · exact .inr (.inl rfl)

/-- A call sets the flag that says how it ended the transaction, if it did. -/
theorem flags_next (c : TranContext) (s : Step ε) :
  ((c.next s).isCommited = true ↔ c.isCommited = true ∨
    (c.call s.engine s.manager s.call).1 = .committed (.ok true)) ∧
  ((c.next s).isAborted = true ↔ c.isAborted = true ∨
    (c.call s.engine s.manager s.call).1 = .committed (.ok false) ∨
    (c.call s.engine s.manager s.call).1 = .aborted true)
  := by
  obtain ⟨e, m, call⟩ := s
  rw [next]
  cases call with
  | write w =>
      obtain ⟨hcommited, haborted⟩ := flags_prepare c e (w.record c.trancId) w.key w.value
      rw [TranContext.call, write_eq, hcommited, haborted]
      simp only [reduceCtorEq, or_false, and_self]
  | get key =>
      obtain ⟨_, h⟩ := get_context c e key
      rw [TranContext.call, h]
      simp only [reduceCtorEq, or_false, and_self]
  | abort rollbacks =>
      simp only [TranContext.call, abort, reduceCtorEq, or_false, or_true, and_self]
  | commit writes walOk testFail =>
      rw [TranContext.call]
      rcases commit_cases c e m writes walOk testFail with
        ⟨_, h⟩ | ⟨_, h⟩ | h | ⟨_, h⟩ <;> rw [h] <;>
        simp only [logged, Answer.committed.injEq, Except.ok.injEq, reduceCtorEq,
          Bool.false_eq_true, Bool.true_eq_false, or_false, or_true, and_self]

/-- The flags record the ends that calls have had. -/
theorem flags_after (trancId : TrancId) (level : IsolationLevel) (steps : List (Step ε)) :
  (((new trancId level).after steps).isCommited = true ↔
    .committed (.ok true) ∈ (new trancId level).answers steps) ∧
  (((new trancId level).after steps).isAborted = true ↔
    .committed (.ok false) ∈ (new trancId level).answers steps ∨
      .aborted true ∈ (new trancId level).answers steps)
  := by
  induction steps using List.reverseRecOn with
  | nil =>
      simp only [answers, List.not_mem_nil, or_false, iff_false]
      exact ⟨Bool.false_ne_true, Bool.false_ne_true⟩
  | append_singleton steps s ih =>
      obtain ⟨hcommited, haborted⟩ := flags_next ((new trancId level).after steps) s
      rw [after_concat, answers_concat, hcommited, haborted, ih.1, ih.2]
      simp only [List.mem_append, List.mem_singleton]
      constructor
      · rw [eq_comm]
      · rw [eq_comm, eq_comm (b := Answer.aborted true)]
        apply or_or_or_comm

/-- Whatever calls there have been, a call writes to the log exactly when it is a commit that
succeeds, and acts on the engine only then, or when it is a write or an abort of an
unbuffered transaction; both flags are set exactly when a commit has succeeded and another
one has found a conflict or the transaction has been aborted. -/
theorem call_after (trancId : TrancId) (level : IsolationLevel) (steps : List (Step ε)) (e : ε)
    (m : TranManager) (call : Call) :
  ((((new trancId level).after steps).call e m call).2.2.2.wal ≠ m.wal ↔
    (((new trancId level).after steps).call e m call).1 = .committed (.ok true)) ∧
  ((((new trancId level).after steps).call e m call).2.2.1 = e ∨
    (((new trancId level).after steps).call e m call).1 = .committed (.ok true) ∨
    level = .readUnopCommitted ∧ call.ActsAtOnce) ∧
  (((new trancId level).after steps).isCommited = true ∧
      ((new trancId level).after steps).isAborted = true ↔
    .committed (.ok true) ∈ (new trancId level).answers steps ∧
      (.committed (.ok false) ∈ (new trancId level).answers steps ∨
        .aborted true ∈ (new trancId level).answers steps))
  := by
  obtain ⟨hcommited, haborted⟩ := flags_after trancId level steps
  refine ⟨wal_call _ e m call, ?_, and_congr hcommited haborted⟩
  have hengine := engine_call ((new trancId level).after steps) e m call
  rwa [isolationLevel_after] at hengine

/-- After a commit that succeeded, an unbuffered transaction still puts into the engine, a
buffered one logs and puts its writes again, and an abort sets the other flag. -/
theorem not_inert_committed :
  ((((new 1 .readUnopCommitted).after [⟨({} : Tables), {}, .commit [] true false⟩]).call
      ({} : Tables) {} (.write (.put [1] [7]))).2.2.1 ≠ {}) ∧
  ((((new 1 .readOpCommitted).after [⟨({} : Tables), {}, .commit [] true false⟩]).call
      ({} : Tables) {} (.commit [] true false)).2.2.2.wal ≠ []) ∧
  (((new 1 .readOpCommitted).after [⟨({} : Tables), {}, .commit [] true false⟩,
      ⟨({} : Tables), {}, .abort []⟩]).isCommited = true ∧
    ((new 1 .readOpCommitted).after [⟨({} : Tables), {}, .commit [] true false⟩,
      ⟨({} : Tables), {}, .abort []⟩]).isAborted = true)
  := by decide

end TranContext

end TinyLsm
