import TinyLsm.Library.Transition
import TinyLsm.Lsm.TranManager

/-!
# The flushed ids

The manager covers an id if it is at most the least flushed id, or is flushed itself; recovery
skips the transactions whose ids are covered.  Over any sequence of calls that hand out ids,
record them as ready, each of them once, and add flushed ids, what is covered stays covered,
and only recorded ids become covered, a committed one by adding exactly this id.
-/

namespace TinyLsm

/-- The calls on the manager that matter to the flushed ids: handing out an id, recording one
as ready, and adding a flushed one. -/
inductive ManagerCall where
  | getNextTransactionId (trancId : TrancId)
  | addReadyToFlushTrancId (trancId : TrancId) (state : TransactionState)
  | addFlushedTrancId (trancId : TrancId)
deriving DecidableEq, Repr

/-- A manager, with the calls so far, the latest first. -/
structure Ledger where
  manager : TranManager := {}
  calls : List ManagerCall := []

namespace Ledger

open ManagerCall

/-- Make a call.  The id handed out is the one that the manager answers. -/
def step (l : Ledger) (c : ManagerCall) : Option Ledger :=
  match c with
  | .getNextTransactionId trancId =>
      if l.manager.getNextTransactionId.1 = trancId then
        some ⟨l.manager.getNextTransactionId.2, c :: l.calls⟩
      else
        none
  | .addReadyToFlushTrancId trancId state =>
      some ⟨l.manager.addReadyToFlushTrancId trancId state, c :: l.calls⟩
  | .addFlushedTrancId trancId => some ⟨l.manager.addFlushedTrancId trancId, c :: l.calls⟩

/-- Ids that have been handed out are recorded, each at most once. -/
def RecordsOnce (l : Ledger) : ManagerCall → Prop
  | .addReadyToFlushTrancId trancId _ =>
      .getNextTransactionId trancId ∈ l.calls ∧
        ∀ state, .addReadyToFlushTrancId trancId state ∉ l.calls
  | _ => True

instance (l : Ledger) : ∀ c : ManagerCall, Decidable (l.RecordsOnce c)
  | .getNextTransactionId _ | .addFlushedTrancId _ => .isTrue trivial
  | .addReadyToFlushTrancId trancId _ =>
      decidable_of_iff (.getNextTransactionId trancId ∈ l.calls ∧
          .addReadyToFlushTrancId trancId .opCommitted ∉ l.calls ∧
          .addReadyToFlushTrancId trancId .aborted ∉ l.calls)
        ⟨fun h => ⟨h.1, fun | .opCommitted => h.2.1 | .aborted => h.2.2⟩,
          fun h => ⟨h.1, h.2 .opCommitted, h.2 .aborted⟩⟩

/-- The ledgers that calls lead to from one of them. -/
abbrev Reached (l : Ledger) : Ledger → Prop := Transition.Reached step l RecordsOnce

def Covers (l : Ledger) (trancId : TrancId) : Prop := l.manager.flushedTrancIds.Covers trancId

/-- An id has been added as flushed after it had been recorded as committed. -/
def FlushedSince (calls : List ManagerCall) (trancId : TrancId) : Prop :=
  ∃ later earlier, calls = later ++ .addReadyToFlushTrancId trancId .opCommitted :: earlier ∧
    .addFlushedTrancId trancId ∈ later

theorem FlushedSince.cons
    {calls : List ManagerCall} {trancId : TrancId} (h : FlushedSince calls trancId)
    (c : ManagerCall) :
  FlushedSince (c :: calls) trancId
  := by
  obtain ⟨later, earlier, rfl, hmem⟩ := h
  exact ⟨c :: later, earlier, rfl, List.mem_cons_of_mem c hmem⟩

/-- Adding a committed id as flushed. -/
theorem FlushedSince.of_mem
    {calls : List ManagerCall} {trancId : TrancId}
    (h : .addReadyToFlushTrancId trancId .opCommitted ∈ calls) :
  FlushedSince (.addFlushedTrancId trancId :: calls) trancId
  := by
  obtain ⟨later, earlier, rfl⟩ := List.append_of_mem h
  exact ⟨.addFlushedTrancId trancId :: later, earlier, rfl, List.mem_cons_self⟩

/-- What is true of a ledger that calls lead to: ids are handed out in order; an id is recorded
with one state; the ready ids have been recorded and are not covered; and the ids that are
covered are `0`, aborted ones and flushed ones. -/
structure Sound (l : Ledger) : Prop where
  next_pos : 0 < l.manager.nextTransactionId
  issued : ∀ i, .getNextTransactionId i ∈ l.calls → 0 < i ∧ i < l.manager.nextTransactionId
  recorded : ∀ i state, .addReadyToFlushTrancId i state ∈ l.calls →
    .getNextTransactionId i ∈ l.calls ∧
      ∀ state', .addReadyToFlushTrancId i state' ∈ l.calls → state' = state
  ready : ∀ p ∈ l.manager.readyToFlushTrancIds.pairs,
    .addReadyToFlushTrancId p.1 p.2 ∈ l.calls ∧ ¬ l.Covers p.1
  zero : l.Covers 0
  covered : ∀ i, l.Covers i →
    i = 0 ∨ .addReadyToFlushTrancId i .aborted ∈ l.calls ∨ FlushedSince l.calls i

theorem sound_start : Sound {}
  := by
  refine ⟨Nat.one_pos, nofun, nofun, nofun, .inr List.mem_cons_self, ?_⟩
  rintro i (⟨m, hm, hle⟩ | hmem)
  · obtain rfl := Option.some.inj hm
    exact .inl (Nat.le_zero.mp hle)
  · exact .inl (List.mem_singleton.mp hmem)

/-- One more call leaves the reasons why an id is covered. -/
theorem Sound.covered_cons
    {l : Ledger} (h : l.Sound) (c : ManagerCall) {i : TrancId} (hi : l.Covers i) :
  i = 0 ∨ .addReadyToFlushTrancId i .aborted ∈ c :: l.calls ∨ FlushedSince (c :: l.calls) i
  := by
  rcases h.covered i hi with h0 | haborted | hflushed
  · exact .inl h0
  · exact .inr (.inl (List.mem_cons_of_mem c haborted))
  · exact .inr (.inr (hflushed.cons c))

/-- One more call that records no id leaves those that have been recorded. -/
theorem Sound.recorded_cons
    {l : Ledger} (h : l.Sound) {c : ManagerCall} {i : TrancId} {state : TransactionState}
    (hi : .addReadyToFlushTrancId i state ∈ c :: l.calls)
    (hc : ∀ i state, .addReadyToFlushTrancId i state ≠ c) :
  .getNextTransactionId i ∈ c :: l.calls ∧
    ∀ state', .addReadyToFlushTrancId i state' ∈ c :: l.calls → state' = state
  := by
  obtain ⟨hissued, honce⟩ := h.recorded i state ((List.mem_cons.mp hi).resolve_left (hc i state))
  constructor
  · apply List.mem_cons_of_mem c hissued
  · intro state' hi'
    apply honce state' ((List.mem_cons.mp hi').resolve_left (hc i state'))

theorem Sound.getNextTransactionId
    {l : Ledger} (h : l.Sound) :
  Sound ⟨l.manager.getNextTransactionId.2,
    .getNextTransactionId l.manager.nextTransactionId :: l.calls⟩
  := by
  constructor
  · apply Nat.succ_pos _
  · intro i hi
    rcases List.mem_cons.mp hi with heq | hi
    · cases heq
      exact ⟨h.next_pos, Nat.lt_succ_self _⟩
    · obtain ⟨hpos, hlt⟩ := h.issued i hi
      exact ⟨hpos, Nat.lt_succ_of_lt hlt⟩
  · intro i state hi
    apply h.recorded_cons hi nofun
  · intro p hp
    obtain ⟨hrecorded, hcovers⟩ := h.ready p hp
    exact ⟨List.mem_cons_of_mem _ hrecorded, hcovers⟩
  · apply h.zero
  · intro i hi
    apply h.covered_cons _ hi

theorem Sound.addReadyToFlushTrancId
    {l : Ledger} (h : l.Sound) {trancId : TrancId} (state : TransactionState)
    (hissued : .getNextTransactionId trancId ∈ l.calls)
    (hnew : ∀ state, .addReadyToFlushTrancId trancId state ∉ l.calls) :
  Sound ⟨l.manager.addReadyToFlushTrancId trancId state,
    .addReadyToFlushTrancId trancId state :: l.calls⟩
  := by
  have huncovered : ¬ l.Covers trancId := by
    intro hcovers
    rcases h.covered trancId hcovers with h0 | haborted | ⟨later, earlier, hcalls, -⟩
    · exact absurd h0 (Nat.ne_of_gt (h.issued trancId hissued).1)
    · apply hnew _ haborted
    · apply hnew .opCommitted
      rw [hcalls]
      apply List.mem_append_right _ List.mem_cons_self
  constructor
  · apply h.next_pos
  · intro i hi
    apply h.issued i ((List.mem_cons.mp hi).resolve_left nofun)
  · intro i state' hi
    rcases List.mem_cons.mp hi with heq | hi
    · cases heq
      refine ⟨List.mem_cons_of_mem _ hissued, ?_⟩
      intro state' hi'
      rcases List.mem_cons.mp hi' with heq | hi'
      · cases heq
        rfl
      · exact absurd hi' (hnew state')
    · obtain ⟨hi', honce⟩ := h.recorded i state' hi
      refine ⟨List.mem_cons_of_mem _ hi', ?_⟩
      intro state'' hi''
      rcases List.mem_cons.mp hi'' with heq | hi''
      · cases heq
        exact absurd hi (hnew state')
      · apply honce state'' hi''
  · intro p hp
    rcases OrderedMap.mem_assignPair hp with rfl | hp
    · exact ⟨List.mem_cons_self, huncovered⟩
    · obtain ⟨hrecorded, hcovers⟩ := h.ready p hp
      exact ⟨List.mem_cons_of_mem _ hrecorded, hcovers⟩
  · apply h.zero
  · intro i hi
    apply h.covered_cons _ hi

/-- Adding a flushed id covers what was covered, and the ids that are flushed along. -/
theorem Sound.covers_addFlushedTrancId
    {l : Ledger} (h : l.Sound) (trancId i : TrancId) :
  (l.manager.addFlushedTrancId trancId).flushedTrancIds.Covers i ↔
    i ∈ TranManager.needRemove trancId l.manager.readyToFlushTrancIds.pairs ∨ l.Covers i
  := by
  obtain ⟨least, hleast⟩ := h.zero.nonempty
  apply TranManager.covers_addFlushedTrancId hleast
  intro p hp
  apply le_of_not_ge (fun hle => (h.ready p hp).2 (.inl ⟨least, hleast, hle⟩))

theorem Sound.addFlushedTrancId
    {l : Ledger} (h : l.Sound) (trancId : TrancId) :
  Sound ⟨l.manager.addFlushedTrancId trancId, .addFlushedTrancId trancId :: l.calls⟩
  := by
  have hneed (i : TrancId) :
      i ∈ TranManager.needRemove trancId l.manager.readyToFlushTrancIds.pairs ↔ _ :=
    TranManager.mem_needRemove l.manager.readyToFlushTrancIds.ascending
  constructor
  · apply h.next_pos
  · intro i hi
    apply h.issued i ((List.mem_cons.mp hi).resolve_left nofun)
  · intro i state hi
    apply h.recorded_cons hi nofun
  · intro p hp
    obtain ⟨hready, hremoved⟩ := OrderedMap.mem_foldl_erase.mp hp
    obtain ⟨hrecorded, hcovers⟩ := h.ready p hready
    refine ⟨List.mem_cons_of_mem _ hrecorded, ?_⟩
    intro hnow
    rcases (h.covers_addFlushedTrancId trancId p.1).mp hnow with hmem | hbefore
    · apply hremoved hmem
    · apply hcovers hbefore
  · exact (h.covers_addFlushedTrancId trancId 0).mpr (.inr h.zero)
  · intro i hi
    rcases (h.covers_addFlushedTrancId trancId i).mp hi with hmem | hbefore
    · obtain ⟨⟨j, state⟩, hp, rfl, hreleased⟩ := (hneed i).mp hmem
      have hrecorded := (h.ready _ hp).1
      cases state with
      | aborted => exact .inr (.inl (List.mem_cons_of_mem _ hrecorded))
      | opCommitted =>
          rcases hreleased with rfl | ⟨-, habsurd⟩
          · exact .inr (.inr (.of_mem hrecorded))
          · nomatch habsurd
    · apply h.covered_cons _ hbefore

/-- What a call leads to is sound again, and covers what was covered. -/
theorem Sound.step
    {l l' : Ledger} {c : ManagerCall} (h : l.Sound) (hc : l.RecordsOnce c)
    (hstep : l.step c = some l') :
  l'.Sound ∧ ∀ i, l.Covers i → l'.Covers i
  := by
  cases c with
  | getNextTransactionId trancId =>
      rw [Ledger.step] at hstep
      split at hstep
      next heq =>
        obtain rfl := Option.some.inj hstep
        subst heq
        exact ⟨h.getNextTransactionId, fun _ hi => hi⟩
      next => nomatch hstep
  | addReadyToFlushTrancId trancId state =>
      obtain rfl := Option.some.inj hstep
      exact ⟨h.addReadyToFlushTrancId state hc.1 hc.2, fun _ hi => hi⟩
  | addFlushedTrancId trancId =>
      obtain rfl := Option.some.inj hstep
      exact ⟨h.addFlushedTrancId trancId,
        fun i hi => (h.covers_addFlushedTrancId trancId i).mpr (.inr hi)⟩

theorem sound_of_reached {l : Ledger} (h : Reached {} l) : l.Sound
  := Transition.Reached.invariant sound_start (fun _ h hc hstep => (h.step hc hstep).1) h

/-- What is covered stays covered. -/
theorem Sound.covers_of_reached
    {l l' : Ledger} (h : l.Sound) (hl : l.Reached l') :
  l'.Sound ∧ ∀ i, l.Covers i → l'.Covers i
  := by
  induction hl with
  | start => exact ⟨h, fun _ hi => hi⟩
  | step _ hc hstep ih =>
      obtain ⟨h₂, hcovers⟩ := ih.1.step hc hstep
      exact ⟨h₂, fun i hi => hcovers i (ih.2 i hi)⟩

/-- The set of flushed ids is not empty, and what it covers stays covered; an id recorded as
committed is covered only after it has been added as flushed since, and an id that has been
handed out and not been recorded is not covered. -/
theorem covers_sound
    {l : Ledger} (h : Reached {} l) :
  (∃ i, i ∈ l.manager.flushedTrancIds) ∧
    (∀ l', l.Reached l' → ∀ i, l.Covers i → l'.Covers i) ∧
    (∀ i, .addReadyToFlushTrancId i .opCommitted ∈ l.calls → l.Covers i →
      FlushedSince l.calls i) ∧
    ∀ i, .getNextTransactionId i ∈ l.calls →
      (∀ state, .addReadyToFlushTrancId i state ∉ l.calls) → ¬ l.Covers i
  := by
  have hsound := sound_of_reached h
  refine ⟨?_, fun l' hl' => (hsound.covers_of_reached hl').2, ?_, ?_⟩
  · obtain ⟨least, hleast⟩ := hsound.zero.nonempty
    exact ⟨least, OrderedSet.min?_mem hleast⟩
  · intro i hrecorded hcovers
    obtain ⟨hissued, honce⟩ := hsound.recorded i _ hrecorded
    rcases hsound.covered i hcovers with h0 | haborted | hflushed
    · exact absurd h0 (Nat.ne_of_gt (hsound.issued i hissued).1)
    · nomatch honce _ haborted
    · apply hflushed
  · intro i hissued hnew hcovers
    rcases hsound.covered i hcovers with h0 | haborted | ⟨later, earlier, hcalls, -⟩
    · exact absurd h0 (Nat.ne_of_gt (hsound.issued i hissued).1)
    · apply hnew _ haborted
    · apply hnew .opCommitted
      rw [hcalls]
      apply List.mem_append_right _ List.mem_cons_self

/-- Of two ids that have been handed out, the first one is recorded as committed, and added as
flushed. -/
theorem covers_sound_committed :
  ∃ l, Reached {} l ∧ l.Covers 1 ∧ FlushedSince l.calls 1 ∧ ¬ l.Covers 2
  := by
  have hrun : (Transition.run step RecordsOnce {}
      [getNextTransactionId 1, getNextTransactionId 2, addReadyToFlushTrancId 1 .opCommitted,
        addFlushedTrancId 1]).map (fun l => (l.manager.flushedTrancIds.elems, l.calls)) =
      some ([1], [addFlushedTrancId 1, addReadyToFlushTrancId 1 .opCommitted,
        getNextTransactionId 2, getNextTransactionId 1]) := by
    decide
  obtain ⟨l, hl, hrun⟩ := Option.map_eq_some_iff.mp hrun
  obtain ⟨hflushed, hcalls⟩ := Prod.mk.inj hrun
  have hreached : Reached {} l := Transition.reached_of_run hl
  have hcovers : l.Covers 1 := by
    refine .inr ?_
    rw [OrderedSet.mem_def, hflushed]
    apply List.mem_cons_self
  obtain ⟨-, -, hsince, hunrecorded⟩ := covers_sound hreached
  refine ⟨l, hreached, hcovers, hsince 1 ?_ hcovers, hunrecorded 2 ?_ ?_⟩
  · rw [hcalls]
    decide
  · rw [hcalls]
    decide
  · rw [hcalls]
    intro state
    cases state <;> decide

end Ledger

end TinyLsm
