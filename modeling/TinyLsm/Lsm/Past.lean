import TinyLsm.Lsm.Invariant

/-!
# A system with a past

A system that is opened on tables behaves as one in whose history plain calls have written
their versions.  With such a past, the invariants of the system hold in an opened one too.
-/

namespace TinyLsm

namespace History

/-- A history in which plain calls have written versions, and nothing else has occurred. -/
def ofVersions (es : List Entry) : History :=
  es.flatMap (fun e => [.applied e.trancId e, .lsmWrote e.trancId (.put e.key e.value)])

theorem mem_ofVersions {es : List Entry} {o : Occurrence} :
  o ∈ ofVersions es ↔
    ∃ e ∈ es, o = .applied e.trancId e ∨ o = .lsmWrote e.trancId (.put e.key e.value)
  := by
  simp only [ofVersions, List.mem_flatMap, List.mem_cons, List.not_mem_nil, or_false]

theorem entries_ofVersions : ∀ es : List Entry, (ofVersions es).entries = es
  | [] => rfl
  | e :: es => congrArg (e :: ·) (entries_ofVersions es)

end History

namespace System

variable {ε : Type} [DocumentedEngine ε]

omit [DocumentedEngine ε] in
/-- A system with occurrences before those in its history. -/
def after (past : History) (s : System ε) : System ε := { s with history := s.history ++ past }

/-- What has occurred before changes no step. -/
theorem step_after (past : History) (s : System ε) (event : Event) :
  step (s.after past) event = (step s event).map (after past)
  := by
  cases event with
  | newTranc level => rfl
  | write trancId w =>
      rw [step, step, Option.map_map]
      rfl
  | get trancId key =>
      rw [step, step, Option.map_map]
      rfl
  | commit trancId writes walOk =>
      rw [step, step, Option.map_bind]
      apply congrArg (Option.bind (s.idle? trancId))
      funext c
      dsimp only [Function.comp]
      split
      next =>
        split
        next => rfl
        next =>
          apply congrArg some
          dsimp only [commit, after]
          rw [List.append_assoc]
      next => rfl
  | abort trancId rollbacks =>
      rw [step, step, Option.map_bind]
      apply congrArg (Option.bind (s.idle? trancId))
      funext c
      dsimp only [Function.comp]
      split
      next => split <;> rfl
      next => rfl
  | lsmWrite w => rfl
  | proceed trancId =>
      rw [step, step]
      dsimp only [after]
      split
      next => rfl
      next =>
        rw [Option.map_map]
        rfl
      next => rfl
  | frozenCurTable => rfl
  | flush => rfl

/-- A system on tables, in which nothing has occurred and nothing is left to do. -/
def Opened (s : System ε) : Prop :=
  0 < s.manager.nextTransactionId ∧ (∀ i, s.contexts i = none) ∧ (∀ i, s.pending i = {}) ∧
    s.history = []

/-- The invariant holds in an opened system whose versions plain calls have written. -/
theorem Opened.invariant {s : System ε} (hs : s.Opened) :
  (s.after (.ofVersions (DocumentedEngine.tables s.engine).versions)).Invariant
  := by
  obtain ⟨hpos, hcontexts, hpending, hhistory⟩ := hs
  have hpast : (s.after (.ofVersions (DocumentedEngine.tables s.engine).versions)).history =
      .ofVersions (DocumentedEngine.tables s.engine).versions := by
    rw [after, hhistory, List.nil_append]
  have hnone {i : TrancId} {c : TranContext} : s.contexts i ≠ some c := by
    rw [hcontexts i]
    exact nofun
  constructor
  · apply hpos
  · exact fun i _ => ⟨hcontexts i, hpending i⟩
  · exact fun i c hc => absurd hc hnone
  · intro i level hcreated
    rw [hpast] at hcreated
    obtain ⟨e, -, heq | heq⟩ := History.mem_ofVersions.mp hcreated <;> cases heq
  · intro i w hwrote
    rw [hpast] at hwrote
    obtain ⟨e, -, heq | heq⟩ := History.mem_ofVersions.mp hwrote <;> cases heq
  · exact fun i c hc => absurd hc hnone
  · intro i call hcall
    have hcall : call ∈ (s.pending i).calls := hcall
    rw [hpending i] at hcall
    cases hcall
  · intro writer e happlied
    rw [hpast] at happlied ⊢
    obtain ⟨e', he', heq | heq⟩ := History.mem_ofVersions.mp happlied
    · obtain ⟨rfl, rfl⟩ := Occurrence.applied.inj heq
      have hwrote := History.mem_ofVersions.mpr ⟨e, he', .inr rfl⟩
      exact ⟨fun _ => .inl hwrote, fun _ => ⟨_, .inr hwrote, rfl⟩⟩
    · cases heq
  · intro key i
    rw [hpast, History.entries_ofVersions]
    rfl

end System

end TinyLsm
