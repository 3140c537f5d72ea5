import TinyLsm.Lsm.Invariant

/-!
# Notifications of flushes

A flush takes the oldest table and collects the ids of the markers in it, and passes them on
to the manager afterwards, one at a time, while transactions go on.  The manager drops an id
that is not ready.  A buffered commit puts its marker and records its id under the locks of
the memtable, so that no flush comes in between.  An unbuffered one takes no lock: its id is
lost if it is passed on after the marker has been put and before the id is recorded.

An id that is not lost is covered once the flush and the commit have returned.
-/

namespace TinyLsm

/-- A system whose flushes pass on what they have collected one id at a time, with the ids of
the commits whose marker has been moved to disk. -/
structure Flushing (ε : Type) where
  system : System ε
  collected : List TrancId := []
  landed : List TrancId := []

inductive FlushingEvent where
  | call (event : Event)
  | flushLast
  | addFlushedTrancId

/-- The commit of a transaction has put the marker, and has not yet recorded the id or has
returned. -/
def System.MarkerPut {ε : Type} (s : System ε) (i : TrancId) : Prop :=
  s.pending i = ⟨[], some .opCommitted⟩ ∨ .committed i ∈ s.history

instance {ε : Type} (s : System ε) (i : TrancId) : Decidable (s.MarkerPut i) :=
  inferInstanceAs (Decidable (_ ∨ _))

namespace System

variable {ε : Type} [DocumentedEngine ε]

omit [DocumentedEngine ε] in
/-- What has been put stays put, as long as a call that is not over stays as it is. -/
theorem MarkerPut.mono {s s' : System ε} {i : TrancId} (h : s.MarkerPut i)
    (hsub : s.history ⊆ s'.history)
    (hpending : s.pending i = ⟨[], some .opCommitted⟩ → s'.pending i = s.pending i) :
  s'.MarkerPut i
  := by
  rcases h with hput | hcommitted
  · exact .inl ((hpending hput).trans hput)
  · exact .inr (hsub hcommitted)

omit [DocumentedEngine ε] in
theorem pending_update {s : System ε} {trancId i : TrancId} (pending : Pending)
    (hne : s.pending trancId ≠ ⟨[], some .opCommitted⟩)
    (h : s.pending i = ⟨[], some .opCommitted⟩) :
  Function.update s.pending trancId pending i = s.pending i
  := by
  apply Function.update_of_ne
  rintro rfl
  apply hne h

/-- What a step but a flush does to commits: a commit that has put its marker stays so, a
ready id stays ready, and a commit that returns has recorded its id. -/
structure Records (s s' : System ε) : Prop where
  markerPut : ∀ i, s.MarkerPut i → s'.MarkerPut i
  ready : ∀ i, s.manager.Ready i → s'.manager.Ready i
  committed : ∀ i, .committed i ∈ s'.history → .committed i ∈ s.history ∨ s'.manager.Ready i

omit [DocumentedEngine ε] in
/-- A step that changes neither the ready ids nor the calls that are not over, and in which no
commit returns. -/
theorem Records.of_quiet {s s' : System ε} (h : History) (hhistory : s'.history = h ++ s.history)
    (hquiet : ∀ i, .committed i ∉ h)
    (hready : s'.manager.readyToFlushTrancIds = s.manager.readyToFlushTrancIds)
    (hpending : ∀ i, s.pending i = ⟨[], some .opCommitted⟩ → s'.pending i = s.pending i) :
  Records s s'
  := by
  constructor
  · intro i hi
    apply hi.mono _ (hpending i)
    rw [hhistory]
    apply List.subset_append_right
  · intro i hi
    rwa [TranManager.Ready, hready]
  · intro i hi
    rw [hhistory] at hi
    exact .inl ((List.mem_append.mp hi).resolve_left (hquiet i))

omit [DocumentedEngine ε] in
/-- A step that records the id of a transaction as it ends. -/
theorem Records.of_ready {s s' : System ε} {trancId : TrancId} {state : TransactionState}
    (h : History) (hhistory : s'.history = h ++ s.history)
    (hended : ∀ i, .committed i ∈ h → i = trancId)
    (hready : s'.manager.readyToFlushTrancIds =
      s.manager.readyToFlushTrancIds.assign trancId state)
    (hput : ∀ i, s.MarkerPut i → s'.MarkerPut i) :
  Records s s'
  := by
  have hrecorded : ∀ i, i = trancId ∨ s.manager.Ready i → s'.manager.Ready i := by
    intro i hi
    rw [TranManager.Ready, hready]
    apply OrderedMap.exists_mem_assignPair.mpr hi
  constructor
  · apply hput
  · intro i hi
    apply hrecorded i (.inr hi)
  · intro i hi
    rw [hhistory] at hi
    rcases List.mem_append.mp hi with hi | hi
    · exact .inr (hrecorded i (.inl (hended i hi)))
    · exact .inl hi

/-- A commit records its id before it returns. -/
theorem Stepped.records {s s' : System ε} (hs : s.Invariant) (h : Stepped s s') : Records s s'
  := by
  have hidle : ∀ {trancId}, s.pending trancId = {} →
      s.pending trancId ≠ ⟨[], some .opCommitted⟩ := by
    intro trancId hpending heq
    rw [hpending] at heq
    nomatch heq
  cases h with
  | newTranc level =>
      exact .of_quiet [_] rfl (fun _ h => nomatch List.mem_singleton.mp h) rfl (fun _ _ => rfl)
  | write trancId c w hc hpending =>
      exact .of_quiet [_] rfl (fun _ h => nomatch List.mem_singleton.mp h) rfl
        (fun _ => pending_update _ (hidle hpending))
  | get trancId c key hc =>
      exact .of_quiet [_] rfl (fun _ h => nomatch List.mem_singleton.mp h) rfl (fun _ _ => rfl)
  | failed trancId c operations hc =>
      exact .of_quiet [] rfl (fun _ => List.not_mem_nil) rfl (fun _ _ => rfl)
  | beginCommit trancId c hc hpending hlevel =>
      exact .of_quiet [] rfl (fun _ => List.not_mem_nil) rfl
        (fun _ => pending_update _ (hidle hpending))
  | refused trancId c hc =>
      apply Records.of_ready [_] rfl _ rfl
      · exact fun i hi => hi.mono (List.subset_cons_self _ _) (fun _ => rfl)
      · exact fun _ h => nomatch List.mem_singleton.mp h
  | committed trancId c writes hc hpending hlevel hwrites hconflicts =>
      apply Records.of_ready (commitOccurrences trancId writes (.ok true)) rfl _ rfl
      · exact fun i hi => hi.mono (List.subset_append_right _ _) (fun _ => rfl)
      · intro i hi
        rw [(hs.consistent trancId c hc).trancId_eq]
        rcases eq_of_mem_commit hi with heq | ⟨e, heq⟩
        · apply Occurrence.committed.inj heq
        · nomatch heq
  | beginAbort trancId c rollbacks hc hpending hlevel hrollbacks =>
      exact .of_quiet [] rfl (fun _ => List.not_mem_nil) rfl
        (fun _ => pending_update _ (hidle hpending))
  | finish trancId c state hc hpending =>
      apply Records.of_ready [_] rfl _ rfl
      · intro i hi
        by_cases heq : i = trancId
        · subst heq
          -- the call that is over is the commit that has put the marker
          rcases hi with hput | hcommitted
          · rcases hpending with hpending | ⟨hpending, -⟩
            · rw [hpending] at hput
              obtain rfl := Option.some.inj (Pending.mk.inj hput).2
              exact .inr List.mem_cons_self
            · exact absurd hput (hidle hpending)
          · exact .inr (List.mem_cons_of_mem _ hcommitted)
        · apply hi.mono (List.subset_cons_self _ _) (fun _ => Function.update_of_ne heq _ _)
      · intro i hi
        rw [(hs.consistent trancId c hc).trancId_eq]
        cases state with
        | opCommitted => apply Occurrence.committed.inj (List.mem_singleton.mp hi)
        | aborted => nomatch List.mem_singleton.mp hi
  | lsmWrite w =>
      exact .of_quiet [_] rfl (fun _ h => nomatch List.mem_singleton.mp h) rfl
        (fun _ => pending_update _ (hidle (hs.unused _ (le_refl _)).2))
  | perform trancId call calls ending hpending =>
      refine .of_quiet [_] rfl (fun _ h => nomatch List.mem_singleton.mp h) rfl
        (fun _ => pending_update _ ?_)
      intro heq
      rw [hpending] at heq
      nomatch heq
  | frozenCurTable =>
      exact .of_quiet [] rfl (fun _ => List.not_mem_nil) rfl (fun _ _ => rfl)

end System

namespace Flushing

variable {ε : Type} [DocumentedEngine ε]

def start : Flushing ε := { system := System.start }

/-- Move the oldest table to disk, and collect the ids of its markers. -/
def flushLast (s : Flushing ε) : Flushing ε :=
  let (trancIds, engine) := DocumentedEngine.flush s.system.engine
  { system := { s.system with engine }
    collected := s.collected ++ trancIds
    landed := s.landed ++ trancIds.filter (fun i => decide (s.system.MarkerPut i)) }

/-- Pass an id on to the manager. -/
def addFlushedTrancId (s : Flushing ε) (i : TrancId) (rest : List TrancId) : Flushing ε :=
  { s with
    system := { s.system with manager := s.system.manager.addFlushedTrancId i }
    collected := rest }

def step (s : Flushing ε) : FlushingEvent → Option (Flushing ε)
  | .call .flush => none
  | .call event => (System.step s.system event).map (fun system => { s with system })
  | .flushLast => some s.flushLast
  | .addFlushedTrancId =>
      match s.collected with
      | [] => none
      | i :: rest => some (s.addFlushedTrancId i rest)

theorem step_call {s s' : Flushing ε} {event : Event} (h : step s (.call event) = some s') :
  event ≠ .flush ∧ ∃ system, System.step s.system event = some system ∧ s' = { s with system }
  := by
  have hmap : event ≠ .flush → step s (.call event) =
      (System.step s.system event).map (fun system => { s with system }) := by
    intro hne
    cases event with
    | flush => exact absurd rfl hne
    | _ => rfl
  have hne : event ≠ .flush := by
    rintro rfl
    nomatch h
  rw [hmap hne] at h
  obtain ⟨system, hsystem, rfl⟩ := Option.map_eq_some_iff.mp h
  exact ⟨hne, system, hsystem, rfl⟩

/-- The states reached through events that are allowed. -/
abbrev Reached (allowed : Flushing ε → FlushingEvent → Prop) : Flushing ε → Prop :=
  Transition.Reached step start allowed

/-- A flush of the system is a flush that passes on all that it collects at once. -/
theorem flush_eq (s : Flushing ε) :
  (DocumentedEngine.flush s.system.engine).1.foldl (fun t i => t.addFlushedTrancId i [])
      { s.flushLast with collected := [] } =
    { s.flushLast with system := s.system.flush, collected := [] }
  := by
  have hfold : ∀ (trancIds : List TrancId) (t : Flushing ε), t.collected = [] →
      trancIds.foldl (fun t i => t.addFlushedTrancId i []) t =
        { t with
          system := { t.system with
            manager := trancIds.foldl TranManager.addFlushedTrancId t.system.manager } } := by
    intro trancIds
    induction trancIds with
    | nil =>
        intro t _
        rfl
    | cons i trancIds ih =>
        intro t ht
        rw [List.foldl_cons, ih _ rfl, addFlushedTrancId, ← ht]
        rfl
  rw [hfold _ _ rfl]
  rfl

/-- An id is lost if it is passed on now: its commit has put the marker, which is on disk, and
has not recorded the id; the id is neither ready nor covered from an end before this one, nor
passed on again. -/
def Lost (s : Flushing ε) (i : TrancId) (rest : List TrancId) : Prop :=
  s.system.pending i = ⟨[], some .opCommitted⟩ ∧ i ∈ s.landed ∧ i ∉ rest ∧
    ¬ s.system.manager.Ready i ∧ ¬ s.system.manager.flushedTrancIds.Covers i

/-- Passing an id on uncovers a commit: of the ids that are flushed along, one is below the
least flushed id, and they leave out the commit in between. -/
def Uncovers (s : Flushing ε) (i : TrancId) : Prop :=
  let ids := TranManager.needRemove i s.system.manager.readyToFlushTrancIds.pairs
  ∃ least ∈ s.system.manager.flushedTrancIds.min?,
    ∃ x < least, s.system.MarkerPut x ∧ x ∉ ids ∧ ∃ j ∈ ids, j < x

/-- The first of the ids that are to be passed on is not lost, and uncovers no commit. -/
def InTime (s : Flushing ε) : List TrancId → Prop
  | [] => True
  | i :: rest => ¬ s.Lost i rest ∧ ¬ s.Uncovers i

/-- No id is passed on that is lost, or uncovers a commit. -/
def PassedInTime (s : Flushing ε) : FlushingEvent → Prop
  | .addFlushedTrancId => s.InTime s.collected
  | _ => True

instance (s : Flushing ε) (i : TrancId) (rest : List TrancId) : Decidable (s.Lost i rest) :=
  inferInstanceAs (Decidable (_ ∧ _))

instance (s : Flushing ε) (i : TrancId) : Decidable (s.Uncovers i) :=
  inferInstanceAs (Decidable (∃ least ∈ _, ∃ x < _, _))

instance (s : Flushing ε) : ∀ trancIds : List TrancId, Decidable (s.InTime trancIds)
  | [] => .isTrue trivial
  | i :: rest => inferInstanceAs (Decidable (¬ s.Lost i rest ∧ ¬ s.Uncovers i))

instance (s : Flushing ε) : ∀ event : FlushingEvent, Decidable (s.PassedInTime event)
  | .call _ | .flushLast => .isTrue trivial
  | .addFlushedTrancId => inferInstanceAs (Decidable (s.InTime s.collected))

/-- A transaction is covered when its commit has returned, its marker is on disk, and no flush
is still to pass its id on. -/
def Covered (s : Flushing ε) : Prop :=
  ∀ i, .committed i ∈ s.system.history → i ∈ s.landed → i ∉ s.collected →
    s.system.manager.flushedTrancIds.Covers i

/-! ### The invariant -/

/-- A commit that has returned is ready or covered, and one whose marker is on disk is covered
unless its id is still to be passed on. -/
structure Invariant (s : Flushing ε) : Prop where
  system : s.system.Invariant
  markerPut : ∀ i ∈ s.landed, s.system.MarkerPut i
  recorded : ∀ i, .committed i ∈ s.system.history →
    s.system.manager.Ready i ∨ s.system.manager.flushedTrancIds.Covers i
  covers : ∀ i ∈ s.landed, i ∈ s.collected ∨ s.system.manager.flushedTrancIds.Covers i

theorem start_invariant : (start : Flushing ε).Invariant
  := ⟨System.start_invariant, nofun, nofun, nofun⟩

theorem Invariant.stepped {s : Flushing ε} (hs : s.Invariant) {system : System ε}
    (h : System.Stepped s.system system) :
  Invariant { s with system }
  := by
  have hrecords := h.records hs.system
  have hflushed := h.flushed.2
  constructor
  · apply hs.system.stepped h
  · intro i hi
    apply hrecords.markerPut i (hs.markerPut i hi)
  · intro i hi
    dsimp only
    rw [hflushed]
    rcases hrecords.committed i hi with hbefore | hready
    · exact (hs.recorded i hbefore).imp_left (hrecords.ready i)
    · exact .inl hready
  · intro i hi
    dsimp only
    rw [hflushed]
    apply hs.covers i hi

theorem Invariant.flushLast {s : Flushing ε} (hs : s.Invariant) : s.flushLast.Invariant
  := by
  constructor
  · apply hs.system.setEngine
    exact (congrArg Tables.versions (DocumentedEngine.tables_flush _)).trans
      (Tables.versions_flushLast _)
  · intro i hi
    rcases List.mem_append.mp hi with hi | hi
    · apply hs.markerPut i hi
    · apply of_decide_eq_true (List.mem_filter.mp hi).2
  · apply hs.recorded
  · intro i hi
    rcases List.mem_append.mp hi with hi | hi
    · exact (hs.covers i hi).imp_left (List.mem_append_left _)
    · exact .inl (List.mem_append_right _ (List.mem_filter.mp hi).1)

omit [DocumentedEngine ε] in
/-- Passing an id on keeps a commit covered, and covers it if it was ready and is flushed
along. -/
theorem covers_addFlushedTrancId {s : Flushing ε} {i x : TrancId} (huncovers : ¬ s.Uncovers i)
    (hx : s.system.MarkerPut x)
    (h : x ∈ TranManager.needRemove i s.system.manager.readyToFlushTrancIds.pairs ∨
      s.system.manager.flushedTrancIds.Covers x) :
  (s.system.manager.addFlushedTrancId i).flushedTrancIds.Covers x
  := by
  by_cases hneed : x ∈ TranManager.needRemove i s.system.manager.readyToFlushTrancIds.pairs
  · apply TranManager.covers_of_mem_needRemove hneed
  · rw [TranManager.addFlushedTrancId, covers_compressSet]
    apply (h.resolve_left hneed).foldl_insert
    intro j hj least hleast hlt hlt'
    exact absurd ⟨least, hleast, x, hlt', hx, hneed, j, hj, hlt⟩ huncovers

theorem Invariant.addFlushedTrancId {s : Flushing ε} (hs : s.Invariant) {i : TrancId}
    {rest : List TrancId} (hcollected : s.collected = i :: rest) (hlost : ¬ s.Lost i rest)
    (huncovers : ¬ s.Uncovers i) :
  (s.addFlushedTrancId i rest).Invariant
  := by
  constructor
  · apply hs.system.setManager
    apply le_refl
  · apply hs.markerPut
  · intro x hx
    rcases hs.recorded x hx with hready | hcovers
    · rcases hready.addFlushedTrancId i with hready | hneed
      · exact .inl hready
      · exact .inr (TranManager.covers_of_mem_needRemove hneed)
    · exact .inr (covers_addFlushedTrancId huncovers (.inr hx) (.inr hcovers))
  · intro x hx
    have hput := hs.markerPut x hx
    by_cases hrest : x ∈ rest
    · exact .inl hrest
    · right
      apply covers_addFlushedTrancId huncovers hput
      rcases hs.covers x hx with hmem | hcovers
      · rw [hcollected] at hmem
        obtain rfl := (List.mem_cons.mp hmem).resolve_right hrest
        by_cases hready : s.system.manager.Ready x
        · exact .inl hready.mem_needRemove
        · -- the id would be dropped: its commit is between the marker and recording it
          right
          rcases hput with hpending | hcommitted
          · by_contra hcovers
            apply hlost ⟨hpending, hx, hrest, hready, hcovers⟩
          · exact (hs.recorded x hcommitted).resolve_left hready
      · exact .inr hcovers

theorem Invariant.step {s s' : Flushing ε} {event : FlushingEvent} (hs : s.Invariant)
    (hevent : s.PassedInTime event) (h : step s event = some s') :
  s'.Invariant
  := by
  cases event with
  | call event =>
      obtain ⟨hne, system, hsystem, rfl⟩ := step_call h
      rcases System.step_stepped hsystem with hstepped | ⟨heq, -⟩
      · apply hs.stepped hstepped
      · exact absurd heq hne
  | flushLast =>
      obtain rfl := Option.some.inj h
      apply hs.flushLast
  | addFlushedTrancId =>
      rw [Flushing.step] at h
      cases hcollected : s.collected with
      | nil =>
          rw [hcollected] at h
          nomatch h
      | cons i rest =>
          rw [hcollected] at h
          obtain rfl := Option.some.inj h
          rw [PassedInTime, hcollected] at hevent
          apply hs.addFlushedTrancId hcollected hevent.1 hevent.2

/-- If no id is passed on that is lost or uncovers a commit, every transaction is covered once
its commit and the flush of its marker have returned. -/
theorem covered_of_reached {s : Flushing ε} (h : Reached PassedInTime s) : s.Covered
  := by
  have hs : s.Invariant := Transition.Reached.invariant start_invariant
    (fun _ ih hevent hstep => ih.step hevent hstep) h
  intro i _ hlanded hcollected
  exact (hs.covers i hlanded).resolve_left hcollected

/-- An unbuffered transaction commits, its marker is flushed, and its id is passed on after it
has been recorded. -/
theorem covered_of_reached_inTime :
  ∃ s : Flushing Tables, Reached PassedInTime s ∧ .committed 1 ∈ s.system.history ∧
    1 ∈ s.landed ∧ s.collected = [] ∧ s.Covered
  := by
  have hrun : (Transition.run step PassedInTime (start : Flushing Tables)
      [.call (.newTranc .readUnopCommitted), .call (.commit 1 [] true), .call (.proceed 1),
        .flushLast, .call (.proceed 1), .addFlushedTrancId]).map (fun s =>
          (decide (.committed 1 ∈ s.system.history), s.landed, s.collected)) =
      some (true, [1], []) := by
    decide
  obtain ⟨s, hs, hrun⟩ := Option.map_eq_some_iff.mp hrun
  obtain ⟨hcommitted, hrun⟩ := Prod.mk.inj hrun
  obtain ⟨hlanded, hcollected⟩ := Prod.mk.inj hrun
  have hreached : Reached PassedInTime s := Transition.reached_of_run hs
  refine ⟨s, hreached, of_decide_eq_true hcommitted, ?_, hcollected, covered_of_reached hreached⟩
  rw [hlanded]
  apply List.mem_singleton_self

/-- The id of an unbuffered transaction is passed on between its marker and recording it. -/
theorem not_covered_of_reached :
  ¬ ∀ s : Flushing Tables, Reached (fun _ _ => True) s → s.Covered
  := by
  intro h
  have hrun : (Transition.run step (fun _ _ => True) (start : Flushing Tables)
      [.call (.newTranc .readUnopCommitted), .call (.commit 1 [] true), .call (.proceed 1),
        .flushLast, .addFlushedTrancId, .call (.proceed 1)]).map (fun s =>
          (decide (.committed 1 ∈ s.system.history ∧ 1 ∈ s.landed ∧ 1 ∉ s.collected),
            decide (s.system.manager.flushedTrancIds.Covers 1))) =
      some (true, false) := by
    decide
  obtain ⟨s, hs, hrun⟩ := Option.map_eq_some_iff.mp hrun
  obtain ⟨hended, hcovers⟩ := Prod.mk.inj hrun
  obtain ⟨hcommitted, hlanded, hcollected⟩ := of_decide_eq_true hended
  exact of_decide_eq_false hcovers
    (h s (Transition.reached_of_run hs) 1 hcommitted hlanded hcollected)

end Flushing

end TinyLsm
