import TinyLsm.Lsm.Invariant

/-!
# What transactions may see

A buffered transaction asks the engine for versions up to its own id.  What it reads of
another transaction has been put by that transaction, which has committed, or which is
unbuffered and older: the versions of an unbuffered transaction are in the engine before it
commits, and nothing hides them from the transactions created after it.
-/

namespace TinyLsm

namespace System

variable {ε : Type} [DocumentedEngine ε]

/-- What a query of a buffered transaction answers is genuine, and not newer than the
transaction. -/
theorem Invariant.genuine_of_query {s : System ε} (hs : s.Invariant) {trancId : TrancId}
    {c : TranContext} (hc : s.contexts trancId = some c) (hlevel : c.isolationLevel.Buffered)
    {key value : Bytes} {i : TrancId} (h : (c.query s.engine key).1 = some (value, i)) :
  Genuine s.history ⟨key, value, i⟩ ∧ i ≤ trancId
  := by
  have hold := hs.consistent trancId c hc
  have hengine : LSMEngine.get s.engine key c.trancId = some (value, i) →
      Genuine s.history ⟨key, value, i⟩ ∧ i ≤ trancId := by
    intro hget
    obtain ⟨hgenuine, hi⟩ := hs.genuine_of_get hget
    rw [hold.trancId_eq] at hi
    exact ⟨hgenuine, hi.resolve_left hold.pos.ne'⟩
  rw [TranContext.query] at h
  split at h
  next hunbuffered => exact absurd hunbuffered hlevel
  next => apply hengine h
  next =>
    split at h
    next query hread =>
      dsimp only at h
      rw [h] at hread
      apply hold.read key value i hread
    next => apply hengine h

/-- What a buffered transaction reads, in any reached state, it has written itself, or a plain
call has put it, or a transaction that has committed, or an unbuffered one that is older. -/
theorem get_committed {allowed : System ε → Event → Prop} {s : System ε}
    (hs : Reached allowed s) {trancId : TrancId} {c : TranContext}
    (hc : s.contexts trancId = some c) (hlevel : c.isolationLevel.Buffered)
    {key value : Bytes} (hget : (c.get s.engine key).1 = some value) :
  (∃ w, .wrote trancId w ∈ s.history ∧ w.key = key ∧ w.value = value) ∨
  ∃ i ≤ trancId, (c.query s.engine key).1 = some (value, i) ∧
    (.lsmWrote i (.put key value) ∈ s.history ∨
      .wrote i (.put key value) ∈ s.history ∧
        (.committed i ∈ s.history ∨
          .created i .readUnopCommitted ∈ s.history ∧ i < trancId))
  := by
  have hinv := reached_invariant hs
  have hold := hinv.consistent trancId c hc
  rw [TranContext.get] at hget
  split at hget
  next value' htemp =>
    left
    rw [Option.some.inj hget] at htemp
    rw [hold.tempMap hlevel] at htemp
    apply History.mem_of_lastWritten htemp
  next =>
    right
    obtain ⟨⟨_, i⟩, hquery, rfl⟩ := Option.map_eq_some_iff.mp hget
    obtain ⟨hgenuine, hi⟩ := hinv.genuine_of_query hc hlevel hquery
    refine ⟨i, hi, hquery, ?_⟩
    rcases hgenuine with hplain | ⟨hwrote, hcommitted | hcreated⟩
    · exact .inl hplain
    · exact .inr ⟨hwrote, .inl hcommitted⟩
    · refine .inr ⟨hwrote, .inr ⟨hcreated, lt_of_le_of_ne hi ?_⟩⟩
      rintro rfl
      obtain ⟨c', hc', hunbuffered⟩ := hinv.created i _ hcreated
      rw [hc] at hc'
      rw [Option.some.inj hc'] at hlevel
      apply hlevel hunbuffered

/-- A transaction reads what an older one has committed. -/
theorem get_committed_older :
  ∃ (s : System Tables) (c : TranContext), s.contexts 2 = some c ∧
    (c.get s.engine [1]).1 = some [7] ∧
    ((∃ w, .wrote 2 w ∈ s.history ∧ w.key = [1] ∧ w.value = [7]) ∨
      ∃ i ≤ 2, (c.query s.engine [1]).1 = some ([7], i) ∧
        (.lsmWrote i (.put [1] [7]) ∈ s.history ∨
          .wrote i (.put [1] [7]) ∈ s.history ∧
            (.committed i ∈ s.history ∨ .created i .readUnopCommitted ∈ s.history ∧ i < 2)))
  := by
  have hrun : (Transition.run step (fun _ _ => True) (start : System Tables)
      [.newTranc .repeatableRead, .newTranc .readOpCommitted, .write 1 (.put [1] [7]),
        .commit 1 [⟨[1], [7]⟩] true]).bind (fun s => (s.contexts 2).map (fun c =>
          (c.isolationLevel, (c.get s.engine [1]).1))) = some (.readOpCommitted, some [7]) := by
    decide
  obtain ⟨s, hs, hrun⟩ := Option.bind_eq_some_iff.mp hrun
  obtain ⟨c, hc, hget⟩ := Option.map_eq_some_iff.mp hrun
  obtain ⟨hlevel, hget⟩ := Prod.mk.inj hget
  refine ⟨s, c, hc, hget, ?_⟩
  apply get_committed (Transition.reached_of_run hs) hc (by rw [hlevel]; decide) hget

/-- Every read of a buffered transaction answers a value that has been put by itself, by a
plain call or by a transaction that has committed. -/
def ReadsCommitted (h : History) : Prop :=
  ∀ older trancId key value, (.read trancId key (some value) :: older) <:+ h →
    h.Buffered trancId → ∃ i w, w.key = key ∧ w.value = value ∧
      (.lsmWrote i w ∈ older ∨ .wrote i w ∈ older ∧ (i = trancId ∨ .committed i ∈ older))

/-- A transaction at the level `READ_OP_COMMITTED` reads what an older unbuffered one has put,
which has not committed. -/
theorem not_readsCommitted :
  ∃ s, Transition.run step (fun _ _ => True) (start : System Tables)
      [.newTranc .readUnopCommitted, .newTranc .readOpCommitted, .write 1 (.put [1] [7]),
        .proceed 1, .get 2 [1]] = some s ∧ ¬ ReadsCommitted s.history
  := by
  have hrun : (Transition.run step (fun _ _ => True) (start : System Tables)
      [.newTranc .readUnopCommitted, .newTranc .readOpCommitted, .write 1 (.put [1] [7]),
        .proceed 1, .get 2 [1]]).map System.history =
      some [.read 2 [1] (some [7]), .applied 1 ⟨[1], [7], 1⟩, .wrote 1 (.put [1] [7]),
        .created 2 .readOpCommitted, .created 1 .readUnopCommitted] := by decide
  obtain ⟨s, hs, hhistory⟩ := Option.map_eq_some_iff.mp hrun
  refine ⟨s, hs, ?_⟩
  rw [hhistory]
  intro h
  obtain ⟨i, w, -, -, hplain | ⟨hwrote, hself | hcommitted⟩⟩ := h _ _ _ _ (List.suffix_refl _)
    ⟨.readOpCommitted, by decide, by decide⟩
  · simp at hplain
  · subst hself
    simp at hwrote
  · simp at hcommitted

end System

end TinyLsm
