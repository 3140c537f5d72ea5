import TinyLsm.Lsm.Store

/-!
# Recovery

A commit that has returned and has not been flushed has its records in the directory, as long
as the store logs only to a file that is there, removes no file while a commit is between its
log and its return, and is not opened again before the commit is flushed.  What is replayed
into the memtable is in no log any more.
-/

namespace TinyLsm

/-! ### The ids of a manager -/

/-- The ids that are flushed or ready have been handed out. -/
structure TranManager.Bounded (m : TranManager) : Prop where
  flushed : ∀ i ∈ m.flushedTrancIds, i < m.nextTransactionId
  ready : ∀ i, m.Ready i → i < m.nextTransactionId

namespace TranManager

theorem Bounded.getNextTransactionId {m : TranManager} (h : m.Bounded) :
  m.getNextTransactionId.2.Bounded
  := ⟨fun i hi => Nat.lt_succ_of_lt (h.flushed i hi), fun i hi => Nat.lt_succ_of_lt (h.ready i hi)⟩

theorem Bounded.addReadyToFlushTrancId {m : TranManager} (h : m.Bounded) {trancId : TrancId}
    (hlt : trancId < m.nextTransactionId) (state : TransactionState) :
  (m.addReadyToFlushTrancId trancId state).Bounded
  := by
  refine ⟨h.flushed, fun i hi => ?_⟩
  rcases ready_addReadyToFlushTrancId.mp hi with rfl | hi
  · apply hlt
  · apply h.ready i hi

theorem Bounded.addFlushedTrancId {m : TranManager} (h : m.Bounded) (trancId : TrancId) :
  (m.addFlushedTrancId trancId).Bounded
  := by
  constructor
  · intro i hi
    have hinsert := (compressElems_sublist _).subset hi
    rcases OrderedSet.mem_foldl_insert.mp hinsert with hneed | hflushed
    · obtain ⟨p, hp, rfl, -⟩ := (mem_needRemove m.readyToFlushTrancIds.ascending).mp hneed
      apply h.ready p.1 ⟨p.2, hp⟩
    · apply h.flushed i hflushed
  · rintro i ⟨state, hi⟩
    apply h.ready i ⟨state, (OrderedMap.mem_foldl_erase.mp hi).1⟩

theorem Bounded.foldl_addFlushedTrancId :
  ∀ (trancIds : List TrancId) {m : TranManager}, m.Bounded →
    (trancIds.foldl TranManager.addFlushedTrancId m).Bounded
  | [], _, h => h
  | i :: trancIds, _, h => foldl_addFlushedTrancId trancIds (h.addFlushedTrancId i)

theorem Bounded.initNewWal {m : TranManager} (h : m.Bounded) (hpos : 0 < m.nextTransactionId) :
  m.initNewWal.Bounded
  := by
  refine ⟨fun i hi => ?_, h.ready⟩
  rw [List.mem_singleton.mp hi]
  apply Nat.sub_lt hpos Nat.one_pos

end TranManager

/-- A manager that is constructed from the file has handed out the ids that are flushed. -/
def TrancIdFile.Bounded (file : TrancIdFile) : Prop :=
  ∀ m file', TranManager.construct file = (.ok m, file') → m.Bounded

theorem TrancIdFile.bounded_words {m : TranManager} (h : m.Bounded) (words : List ℕ) :
  TrancIdFile.Bounded (some (m.words ++ words))
  := by
  intro m' file' hconstruct
  obtain ⟨flushed, hread, hmem⟩ := Lifetime.readTrancIdFile_words m words
  have hok := (Prod.mk.inj hconstruct).1
  rw [hread] at hok
  obtain rfl := Except.ok.inj hok
  refine ⟨fun i hi => h.flushed i ((hmem i).mp hi), ?_⟩
  rintro i ⟨state, hi⟩
  nomatch hi

/-! ### What a step does to contexts -/

namespace System

variable {ε : Type} [DocumentedEngine ε]

omit [DocumentedEngine ε] in
theorem update_cases {s : System ε} {trancId i : TrancId} {c c₁ c' : TranContext}
    (hc : s.contexts trancId = some c)
    (hc' : Function.update s.contexts trancId (some c₁) i = some c')
    (hid : c₁.trancId = c.trancId) :
  ∃ c, s.contexts i = some c ∧ c'.trancId = c.trancId
  := by
  rcases update_eq_some hc' with ⟨rfl, rfl⟩ | ⟨-, hc'⟩
  · exact ⟨c, hc, hid⟩
  · exact ⟨c', hc', rfl⟩

/-- A context is that of a transaction that was there, or of a new one. -/
theorem Stepped.contexts {s s' : System ε} (h : Stepped s s') {i : TrancId} {c' : TranContext}
    (hc' : s'.contexts i = some c') :
  (∃ c, s.contexts i = some c ∧ c'.trancId = c.trancId) ∨
    i = s.manager.nextTransactionId ∧ c'.trancId = i ∧ s'.manager.nextTransactionId = i + 1
  := by
  cases h with
  | newTranc level =>
      rcases update_eq_some hc' with ⟨rfl, rfl⟩ | ⟨-, hc'⟩
      · exact .inr ⟨rfl, rfl, rfl⟩
      · exact .inl ⟨c', hc', rfl⟩
  | write trancId c w hc hidle =>
      exact .inl (update_cases hc hc' (TranContext.trancId_prepare _ _ _ _ _))
  | get trancId c key hc =>
      obtain ⟨readMap, hget⟩ := TranContext.get_context c s.engine key
      exact .inl (update_cases hc hc' (by rw [hget]))
  | failed trancId c operations hc => exact .inl (update_cases hc hc' rfl)
  | beginCommit trancId c hc hidle hlevel => exact .inl (update_cases hc hc' rfl)
  | refused trancId c hc => exact .inl (update_cases hc hc' rfl)
  | committed trancId c writes hc hidle hlevel hwrites hconflicts =>
      exact .inl (update_cases hc hc' rfl)
  | beginAbort trancId c rollbacks hc hidle hlevel hrollbacks => exact .inl ⟨c', hc', rfl⟩
  | finish trancId c state hc hpending =>
      refine .inl (update_cases hc hc' ?_)
      cases state <;> rfl
  | lsmWrite w => exact .inl ⟨c', hc', rfl⟩
  | perform trancId call calls ending hpending => exact .inl ⟨c', hc', rfl⟩
  | frozenCurTable => exact .inl ⟨c', hc', rfl⟩

/-- Ids are handed out in order. -/
theorem Stepped.next_le {s s' : System ε} (h : Stepped s s') :
  s.manager.nextTransactionId ≤ s'.manager.nextTransactionId
  := by
  cases h with
  | newTranc level => apply Nat.le_succ
  | lsmWrite w => apply Nat.le_succ
  | _ => apply le_refl

/-- The ids that are ready have been handed out, if those of the contexts have. -/
theorem Stepped.bounded {s s' : System ε} (h : Stepped s s') (hs : s.manager.Bounded)
    (hcontexts : ∀ i c, s.contexts i = some c → c.trancId < s.manager.nextTransactionId) :
  s'.manager.Bounded
  := by
  cases h with
  | newTranc level => apply hs.getNextTransactionId
  | refused trancId c hc => apply hs.addReadyToFlushTrancId (hcontexts trancId c hc)
  | committed trancId c writes hc hidle hlevel hwrites hconflicts =>
      have hlogged : TranManager.Bounded
          { s.manager with wal := s.manager.wal ++ c.commitRecords } := ⟨hs.flushed, hs.ready⟩
      apply hlogged.addReadyToFlushTrancId (hcontexts trancId c hc)
  | finish trancId c state hc hpending =>
      apply hs.addReadyToFlushTrancId (hcontexts trancId c hc)
  | lsmWrite w => apply hs.getNextTransactionId
  | _ => exact ⟨hs.flushed, hs.ready⟩

/-- A commit is between its log and its return. -/
def Committing (s : System ε) (i : TrancId) : Prop :=
  (s.pending i).ending = some .opCommitted

omit [DocumentedEngine ε] in
theorem not_committing_of_idle {s : System ε} {i : TrancId} (h : s.pending i = {}) :
  ¬ s.Committing i
  := by
  intro hi
  rw [Committing, h] at hi
  nomatch hi

/-- A commit that is between its log and its return was so before, and its context is as it
was, or it has logged in this step. -/
def Carries (s s' : System ε) (logged : List Record) : Prop :=
  ∀ i, s'.Committing i →
    s.Committing i ∧ (i ≠ s.manager.nextTransactionId → s'.contexts i = s.contexts i) ∨
    ∃ c, s.contexts i = some c ∧ s'.contexts i = some c.logged ∧ logged = c.commitRecords

omit [DocumentedEngine ε] in
/-- A step that changes the context of an idle transaction, or the calls left to do, but leaves
no commit to do. -/
theorem Carries.of_update {s s' : System ε} {trancId : TrancId} (pending : Pending)
    (logged : List Record) (hidle : trancId = s.manager.nextTransactionId ∨ s.pending trancId = {})
    (hcontexts : ∀ i, i ≠ trancId → s'.contexts i = s.contexts i)
    (hpending : s'.pending = s.pending ∨ s'.pending = Function.update s.pending trancId pending)
    (hending : pending.ending ≠ some .opCommitted) :
  s.Carries s' logged
  := by
  intro i hi
  by_cases heq : i = trancId
  · subst heq
    rcases hpending with hsame | hupdate
    · have hbefore : s.Committing i := by rwa [Committing, hsame] at hi
      rcases hidle with hnext | hidle
      · exact .inl ⟨hbefore, fun h => absurd hnext h⟩
      · exact absurd hbefore (not_committing_of_idle hidle)
    · rw [Committing, hupdate, Function.update_self] at hi
      exact absurd hi hending
  · left
    refine ⟨?_, fun _ => hcontexts i heq⟩
    rcases hpending with hsame | hupdate
    · rwa [Committing, hsame] at hi
    · rwa [Committing, hupdate, Function.update_of_ne heq] at hi

omit [DocumentedEngine ε] in
/-- A step that changes no context. -/
theorem Carries.of_contexts {s s' : System ε} (logged : List Record)
    (hcontexts : s'.contexts = s.contexts)
    (hpending : ∀ i, s'.Committing i → s.Committing i) :
  s.Carries s' logged
  := fun i hi => .inl ⟨hpending i hi, fun _ => congrFun hcontexts i⟩

theorem step_carries {s s' : System ε} {event : Event} (h : step s event = some s') :
  s.Carries s' (s.logged event)
  := by
  cases event with
  | newTranc level =>
      obtain rfl := Option.some.inj h
      exact .of_update {} [] (.inl rfl) (fun i hne => Function.update_of_ne hne _ _) (.inl rfl)
        nofun
  | write trancId w =>
      obtain ⟨c, hc, rfl⟩ := Option.map_eq_some_iff.mp h
      obtain ⟨hc, hidle⟩ := idle?_eq_some hc
      exact .of_update _ [] (.inr hidle) (fun i hne => Function.update_of_ne hne _ _) (.inr rfl)
        nofun
  | get trancId key =>
      obtain ⟨c, hc, rfl⟩ := Option.map_eq_some_iff.mp h
      obtain ⟨hc, hidle⟩ := idle?_eq_some hc
      exact .of_update {} [] (.inr hidle) (fun i hne => Function.update_of_ne hne _ _) (.inl rfl)
        nofun
  | commit trancId writes walOk =>
      obtain ⟨c, hidle?, h⟩ := Option.bind_eq_some_iff.mp h
      obtain ⟨hc, hidle⟩ := idle?_eq_some hidle?
      split at h
      next hwrites =>
        split at h
        next hlevel =>
          obtain rfl := Option.some.inj h
          cases walOk with
          | true =>
              have hlogged : s.logged (.commit trancId writes true) = c.commitRecords := by
                rw [logged, effects, hidle?]
                dsimp only
                rw [if_pos hlevel]
                apply List.append_nil
              rw [hlogged]
              intro i hi
              by_cases heq : i = trancId
              · subst heq
                exact .inr ⟨c, hc, Function.update_self _ _ _, rfl⟩
              · left
                refine ⟨?_, fun _ => Function.update_of_ne heq _ _⟩
                have hpending : (s.beginCommit trancId c true).pending i = s.pending i :=
                  Function.update_of_ne heq _ _
                rwa [Committing, hpending] at hi
          | false =>
              exact .of_update {} _ (.inr hidle) (fun i hne => Function.update_of_ne hne _ _)
                (.inl rfl) nofun
        next hlevel =>
          obtain rfl := Option.some.inj h
          exact .of_update {} _ (.inr hidle) (fun i hne => Function.update_of_ne hne _ _) (.inl rfl)
                nofun
      next => cases h
  | abort trancId rollbacks =>
      obtain ⟨c, hc, h⟩ := Option.bind_eq_some_iff.mp h
      obtain ⟨hc, hidle⟩ := idle?_eq_some hc
      split at h
      next =>
        split at h
        next =>
          obtain rfl := Option.some.inj h
          exact .of_update _ [] (.inr hidle) (fun _ _ => rfl) (.inr rfl) nofun
        next =>
          obtain rfl := Option.some.inj h
          exact .of_update _ [] (.inr hidle) (fun i hne => Function.update_of_ne hne _ _) (.inr rfl)
            nofun
      next => cases h
  | lsmWrite w =>
      obtain rfl := Option.some.inj h
      exact .of_update _ [] (.inl rfl) (fun _ _ => rfl) (.inr rfl) nofun
  | proceed trancId =>
      rw [step] at h
      split at h
      next call calls ending hpending =>
        obtain rfl := Option.some.inj h
        refine .of_contexts _
          (show (s.perform trancId call ⟨calls, ending⟩).contexts = _ from rfl) ?_
        intro i hi
        by_cases heq : i = trancId
        · subst heq
          have hpending' : (s.perform i call ⟨calls, ending⟩).pending i = ⟨calls, ending⟩ :=
            Function.update_self _ _ _
          rw [Committing, hpending'] at hi
          rwa [Committing, hpending]
        · have hpending' : (s.perform trancId call ⟨calls, ending⟩).pending i = s.pending i :=
            Function.update_of_ne heq _ _
          rwa [Committing, hpending'] at hi
      next state hpending =>
        obtain ⟨c, hc, rfl⟩ := Option.map_eq_some_iff.mp h
        intro i hi
        by_cases heq : i = trancId
        · subst heq
          have hpending' : (s.finish i c state).pending i = {} := Function.update_self _ _ _
          exact absurd hi (not_committing_of_idle hpending')
        · left
          refine ⟨?_, fun _ => Function.update_of_ne heq _ _⟩
          have hpending' : (s.finish trancId c state).pending i = s.pending i :=
            Function.update_of_ne heq _ _
          rwa [Committing, hpending'] at hi
      next => cases h
  | frozenCurTable =>
      obtain rfl := Option.some.inj h
      exact .of_contexts _ rfl (fun _ hi => hi)
  | flush =>
      obtain rfl := Option.some.inj h
      exact .of_contexts _ rfl (fun _ hi => hi)

/-- A commit that returns has logged in this step, or was between its log and its return. -/
theorem of_mem_returned {s : System ε} {event : Event} {p : TrancId × List Record}
    (h : p ∈ s.returned event) :
  ∃ c, s.contexts p.1 = some c ∧
    (p.2 = c.commitRecords ∧ s.logged event = c.commitRecords ∨
      p.2 = c.operations ∧ s.Committing p.1)
  := by
  cases event with
  | commit trancId writes walOk =>
      rw [returned] at h
      cases hidle? : s.idle? trancId with
      | none =>
          rw [hidle?] at h
          cases h
      | some c =>
          rw [hidle?] at h
          dsimp only at h
          split at h
          next => cases h
          next hlevel =>
            rcases TranContext.commit_effects hlevel s.engine s.manager writes walOk with
              ⟨fault, c', hcommit, -, -⟩ | ⟨hcommit, -⟩ | ⟨-, hcommit, heffects⟩ <;>
              rw [hcommit] at h
            · cases h
            · cases h
            · obtain rfl := List.mem_singleton.mp h
              refine ⟨c, (idle?_eq_some hidle?).1, .inl ⟨rfl, ?_⟩⟩
              rw [logged, effects, hidle?]
              dsimp only
              rw [if_neg hlevel, heffects, TranContext.records_commitBufferedEffects]
  | proceed trancId =>
      rw [returned] at h
      split at h
      next c hpending hc =>
        obtain rfl := List.mem_singleton.mp h
        refine ⟨c, hc, .inr ⟨rfl, ?_⟩⟩
        rw [Committing, hpending]
      next => cases h
  | _ => cases h

end System

/-! ### The invariant -/

namespace Store

/-- What a store that is guarded keeps: the transactions of its contexts come after the
checkpoint, and the records of commits that have logged are in the directory, with one after
the checkpoint. -/
structure Sound (s : Store) : Prop where
  checkpoint_lt : s.wal.checkpointTrancId < s.system.manager.nextTransactionId
  contexts : ∀ i c, s.system.contexts i = some c → c.trancId = i ∧
    s.wal.checkpointTrancId < i ∧ i < s.system.manager.nextTransactionId
  committing : ∀ i, s.system.Committing i → ∃ c, s.system.contexts i = some c ∧
    s.wal.Keeps c.operations
  acknowledged : ∀ p ∈ s.acknowledged, s.wal.Keeps p.2
  earlier : s.earlier = []
  activeLast : s.wal.ActiveLast
  manager : s.system.manager.Bounded
  file : s.trancIdFile.Bounded

theorem bounded_default : ({} : TranManager).Bounded
  := by
  constructor
  · intro i hi
    rw [List.mem_singleton.mp hi]
    apply Nat.one_pos
  · rintro i ⟨state, hi⟩
    nomatch hi

theorem bounded_created : TrancIdFile.Bounded (some [])
  := by
  intro m file' hconstruct
  nomatch (Prod.mk.inj hconstruct).1

theorem bounded_none : TrancIdFile.Bounded none
  := by
  intro m file' hconstruct
  obtain rfl := Except.ok.inj (Prod.mk.inj hconstruct).1
  apply bounded_default

theorem Sound.recoverable {s : Store} (hs : s.Sound) : s.Recoverable
  := by
  constructor
  · exact fun p hp _ => (hs.acknowledged p hp).holds
  · rw [hs.earlier]
    exact nofun

/-- The records of a commit that logs are kept, if the active file is in the directory. -/
theorem Sound.keeps_log {s : Store} (hs : s.Sound) {i : TrancId} {c : TranContext}
    (hc : s.system.contexts i = some c) {event : Event}
    (hlogged : s.system.logged event = c.commitRecords)
    (hguard : s.system.logged event = [] ∨ s.wal.Present) :
  (s.wal.log (s.system.logged event)).Keeps c.commitRecords
  := by
  obtain ⟨hid, hlt, -⟩ := hs.contexts i c hc
  have hmem : Record.commitRecord c.trancId ∈ c.commitRecords :=
    List.mem_append_right _ List.mem_cons_self
  have hpresent : s.wal.Present := by
    apply hguard.resolve_left
    intro hnil
    rw [← hlogged, hnil] at hmem
    nomatch hmem
  refine ⟨?_, Record.commitRecord c.trancId, hmem, hid ▸ hlt⟩
  rw [hlogged]
  apply hpresent.holds_log

theorem Sound.call {s s' : Store} {event : Event} (hs : s.Sound)
    (hguard : s.system.logged event = [] ∨ s.wal.Present) (h : s.call event = some s') :
  s'.Sound
  := by
  obtain ⟨system, hsystem, rfl⟩ := Option.map_eq_some_iff.mp h
  have hcarries := System.step_carries hsystem
  have hbound : ∀ i c, s.system.contexts i = some c →
      c.trancId < s.system.manager.nextTransactionId := by
    intro i c hc
    obtain ⟨hid, -, hlt⟩ := hs.contexts i c hc
    rwa [hid]
  have hstep : s.system.manager.nextTransactionId ≤ system.manager.nextTransactionId ∧
      system.manager.Bounded ∧ ∀ i c', system.contexts i = some c' →
        (∃ c, s.system.contexts i = some c ∧ c'.trancId = c.trancId) ∨
          i = s.system.manager.nextTransactionId ∧ c'.trancId = i ∧
            system.manager.nextTransactionId = i + 1 := by
    rcases System.step_stepped hsystem with hstepped | ⟨-, rfl⟩
    · exact ⟨hstepped.next_le, hstepped.bounded hs.manager hbound, fun _ _ => hstepped.contexts⟩
    · exact ⟨(TranManager.nextTransactionId_foldl_addFlushedTrancId _ _).ge,
        hs.manager.foldl_addFlushedTrancId _, fun _ c' hc' => .inl ⟨c', hc', rfl⟩⟩
  obtain ⟨hnext, hmanager, hcontexts⟩ := hstep
  constructor
  · apply hs.checkpoint_lt.trans_le hnext
  · intro i c' hc'
    rcases hcontexts i c' hc' with ⟨c, hc, hid⟩ | ⟨rfl, hid, hlt⟩
    · obtain ⟨hid', hafter, hbefore⟩ := hs.contexts i c hc
      exact ⟨hid.trans hid', hafter, hbefore.trans_le hnext⟩
    · exact ⟨hid, hs.checkpoint_lt, hlt ▸ Nat.lt_succ_self _⟩
  · intro i hi
    rcases hcarries i hi with ⟨hbefore, hsame⟩ | ⟨c, hc, hc', hlogged⟩
    · obtain ⟨c, hc, hkeeps⟩ := hs.committing i hbefore
      have hne : i ≠ s.system.manager.nextTransactionId := (hs.contexts i c hc).2.2.ne
      exact ⟨c, (hsame hne).trans hc, hkeeps.log _⟩
    · exact ⟨c.logged, hc', hs.keeps_log hc hlogged hguard⟩
  · intro p hp
    rcases List.mem_append.mp hp with hp | hp
    · obtain ⟨c, hc, ⟨heq, hlogged⟩ | ⟨heq, hcommitting⟩⟩ := System.of_mem_returned hp
      · rw [heq]
        apply hs.keeps_log hc hlogged hguard
      · obtain ⟨c', hc', hkeeps⟩ := hs.committing p.1 hcommitting
        rw [hc] at hc'
        rw [heq, Option.some.inj hc']
        apply hkeeps.log
    · exact (hs.acknowledged p hp).log _
  · apply hs.earlier
  · apply hs.activeLast.log
  · apply hmanager
  · apply hs.file

/-- Another log, which keeps what the log kept. -/
theorem Sound.setWal {s : Store} (hs : s.Sound) {wal : WAL}
    (hcheckpoint : wal.checkpointTrancId = s.wal.checkpointTrancId)
    (hkeeps : ∀ records, s.wal.Keeps records → wal.Keeps records) (hlast : wal.ActiveLast) :
  Sound { s with wal }
  := by
  constructor
  · apply hcheckpoint.trans_lt hs.checkpoint_lt
  · intro i c hc
    dsimp only
    rw [hcheckpoint]
    apply hs.contexts i c hc
  · intro i hi
    obtain ⟨c, hc, hc'⟩ := hs.committing i hi
    exact ⟨c, hc, hkeeps _ hc'⟩
  · exact fun p hp => hkeeps _ (hs.acknowledged p hp)
  · apply hs.earlier
  · apply hlast
  · apply hs.manager
  · apply hs.file

/-- The files are removed while no commit is between its log and its return. -/
theorem Sound.clearFiles {s : Store} (hs : s.Sound)
    (hidle : ∀ i < s.system.manager.nextTransactionId, ¬ s.system.Committing i) :
  s.clearFiles.Sound
  := by
  constructor
  · apply hs.checkpoint_lt
  · apply hs.contexts
  · intro i hi
    obtain ⟨c, hc, -⟩ := hs.committing i hi
    exact absurd hi (hidle i (hs.contexts i c hc).2.2)
  · exact nofun
  · rfl
  · exact nofun
  · apply hs.manager
  · apply bounded_none

/-- A call that logs nothing goes on while the files are removed. -/
theorem Sound.clearFiles_during {s t : Store} {event : Event} (hs : s.Sound)
    (hidle : ∀ i < s.system.manager.nextTransactionId, ¬ s.system.Committing i)
    (hlogged : s.system.logged event = []) (h : s.call event = some t) :
  Sound { t.clearFiles with acknowledged := s.system.returned event }
  := by
  have hcommitting : ∀ i, ¬ s.system.Committing i := by
    intro i hi
    obtain ⟨c, hc, -⟩ := hs.committing i hi
    apply hidle i (hs.contexts i c hc).2.2 hi
  have hrecords : ∀ c : TranContext, s.system.logged event ≠ c.commitRecords := by
    intro c heq
    rw [hlogged] at heq
    apply List.append_ne_nil_of_right_ne_nil _ (List.cons_ne_nil _ _) heq.symm
  have hreturned : s.system.returned event = [] := by
    apply List.eq_nil_iff_forall_not_mem.mpr
    intro p hp
    obtain ⟨c, -, ⟨-, heq⟩ | ⟨-, hi⟩⟩ := System.of_mem_returned hp
    · apply hrecords c heq
    · apply hcommitting p.1 hi
  have ht : t.clearFiles.Sound := by
    apply (hs.call (.inl hlogged) h).clearFiles
    intro i _ hi
    obtain ⟨system, hsystem, rfl⟩ := Option.map_eq_some_iff.mp h
    rcases System.step_carries hsystem i hi with ⟨hbefore, -⟩ | ⟨c, -, -, heq⟩
    · apply hcommitting i hbefore
    · apply hrecords c heq
  rw [hreturned]
  apply ht

theorem Sound.openDirectory {ssts : List (List Entry)} {files : WalFiles} {file : TrancIdFile}
    (hfile : file.Bounded) {system : System Tables} {wal : WAL} {trancIdFile : TrancIdFile}
    (h : TinyLsm.openDirectory ssts files file = .ok (system, wal, trancIdFile))
    (sstFiles : List (List Entry)) :
  Sound { system, wal, trancIdFile, sstFiles }
  := by
  rw [TinyLsm.openDirectory] at h
  cases hconstruct : TranManager.construct file with
  | mk constructed file' =>
      rw [hconstruct] at h
      obtain ⟨m, rfl, h₁⟩ := Except.exists_of_bind_eq_ok h
      cases hmin : m.flushedTrancIds.min? with
      | none =>
          rw [hmin] at h₁
          nomatch h₁
      | some checkpoint =>
          rw [hmin] at h₁
          obtain ⟨maxFlushed, hmax, h₂⟩ := Except.exists_of_bind_eq_ok h₁
          obtain ⟨rfl, hrest⟩ := Prod.mk.inj (Except.ok.inj h₂)
          obtain ⟨rfl, rfl⟩ := Prod.mk.inj hrest
          have hm := hfile m file' hconstruct
          have hlt : maxFlushed < m.nextTransactionId := hm.flushed _
            (OrderedSet.max?_mem (TranManager.getMaxFlushedTrancId_eq_ok.mp hmax))
          constructor
          · apply hlt
          · exact nofun
          · exact nofun
          · exact nofun
          · rfl
          · apply WAL.activeLast_construct
          · apply hm.initNewWal ((Nat.zero_le _).trans_lt hlt)
          · intro m' file'' hconstruct'
            -- the file is as it was, or has been created
            cases file with
            | none =>
                obtain ⟨-, rfl⟩ := Prod.mk.inj hconstruct
                apply bounded_created _ _ hconstruct'
            | some words =>
                obtain ⟨-, rfl⟩ := Prod.mk.inj hconstruct
                apply hfile _ _ hconstruct'

theorem start_sound : start.Sound
  := Sound.openDirectory bounded_none openDirectory_empty []

theorem Sound.bounded_leftFile {s : Store} (hs : s.Sound) {closed : Bool} {file : TrancIdFile}
    (h : s.leftFile closed = .ok file) :
  file.Bounded
  := by
  rw [leftFile] at h
  split at h
  · obtain ⟨words, hwrite, hpure⟩ := Except.exists_of_bind_eq_ok h
    obtain ⟨-, rfl⟩ := TranManager.writeTrancIdFile_eq_ok.mp hwrite
    obtain rfl := Except.ok.inj hpure
    split
    · apply TrancIdFile.bounded_words hs.manager
    · apply hs.file
  · obtain rfl := Except.ok.inj h
    apply hs.file

theorem Sound.reopen {s s' : Store} {closed : Bool} (hs : s.Sound)
    (hguard : ∀ p ∈ s.acknowledged, p.1 ∈ s.landed) (h : s.reopen closed = some s') :
  s'.Sound
  := by
  rw [Store.reopen] at h
  split at h
  next => nomatch h
  next =>
    split at h
    next => nomatch h
    next system wal trancIdFile hbind =>
      obtain rfl := Option.some.inj h
      obtain ⟨file, hfile, hopen⟩ := Except.exists_of_bind_eq_ok hbind
      have hlanded : s.acknowledged.filter (fun p => decide (p.1 ∉ s.landed)) = [] := by
        apply List.filter_eq_nil_iff.mpr
        intro p hp
        rw [decide_eq_true_iff]
        apply not_not_intro (hguard p hp)
      rw [hlanded, hs.earlier]
      apply Sound.openDirectory (hs.bounded_leftFile hfile) hopen

theorem Sound.step {s s' : Store} {event : StoreEvent} (hs : s.Sound) (hguard : s.Guarded event)
    (h : step s event = some s') :
  s'.Sound
  := by
  cases event with
  | call event => apply hs.call hguard h
  | cleanWALFile =>
      obtain rfl := Option.some.inj h
      exact hs.setWal rfl (fun _ hkeeps => hkeeps.cleanWALFile) hs.activeLast.cleanWALFile
  | resetFile =>
      obtain rfl := Option.some.inj h
      exact hs.setWal rfl (fun _ hkeeps => hkeeps.resetFile hs.activeLast) hs.activeLast.resetFile
  | clearTables =>
      obtain rfl := Option.some.inj h
      exact ⟨hs.checkpoint_lt, hs.contexts, hs.committing, hs.acknowledged, hs.earlier,
        hs.activeLast, hs.manager, hs.file⟩
  | clearFiles during =>
      obtain ⟨hidle, hduring⟩ := hguard
      cases during with
      | none =>
          obtain rfl := Option.some.inj h
          apply hs.clearFiles hidle
      | some event =>
          obtain ⟨t, ht, rfl⟩ := Option.map_eq_some_iff.mp h
          apply hs.clearFiles_during hidle (hduring event rfl) ht
  | reopen closed => apply hs.reopen hguard h

/-- A commit that has returned since the store was cleared and has not been flushed has its
records in the directory, in every state of a store that is guarded. -/
theorem recoverable_of_reached {s : Store} (h : Reached Guarded s) : s.Recoverable
  := by
  have hs : s.Sound := Transition.Reached.invariant start_sound
    (fun _ hs hguard hstep => hs.step hguard hstep) h
  apply hs.recoverable

/-- A transaction commits, and the log is continued in a new file and cleaned. -/
theorem recoverable_of_reached_cleaned :
  ∃ s : Store, Reached Guarded s ∧ s.landed = [] ∧ s.acknowledged =
      [(1, [Record.createRecord 1, Record.putRecord 1 [1] [7], Record.commitRecord 1])] ∧
    s.Recoverable
  := by
  have hrun : (Transition.run step Guarded start
      [.call (.newTranc .serializable), .call (.write 1 (.put [1] [7])),
        .call (.commit 1 [⟨[1], [7]⟩] true), .resetFile, .cleanWALFile]).map (fun s =>
          (s.landed, s.acknowledged)) =
      some ([], [(1, [Record.createRecord 1, Record.putRecord 1 [1] [7],
        Record.commitRecord 1])]) := by
    decide
  obtain ⟨s, hs, hrun⟩ := Option.map_eq_some_iff.mp hrun
  obtain ⟨hlanded, hacknowledged⟩ := Prod.mk.inj hrun
  have hreached : Reached Guarded s := Transition.reached_of_run hs
  exact ⟨s, hreached, hlanded, hacknowledged, recoverable_of_reached hreached⟩

/-- In a store that has been closed and opened again, a transaction commits, and after a crash
its records are replayed into the memtable and removed from the directory. -/
theorem not_recoverable_of_reached :
  ¬ ∀ s : Store, Reached (fun _ _ => True) s → s.Recoverable
  := by
  intro h
  have hrun : (Transition.run step (fun _ _ => True) start
      [.reopen true, .call (.newTranc .serializable), .call (.write 1 (.put [1] [7])),
        .call (.commit 1 [⟨[1], [7]⟩] true), .reopen false]).map (fun s =>
          decide s.Recoverable) =
      some false := by
    decide
  obtain ⟨s, hs, hrecoverable⟩ := Option.map_eq_some_iff.mp hrun
  exact of_decide_eq_false hrecoverable (h s (Transition.reached_of_run hs))

end Store

end TinyLsm
