import TinyLsm.Lsm.LoggedValues

/-!
# What the log has

The log has the writes of a buffered transaction up to its last commit, and nothing of one that
has not committed.
-/

namespace TinyLsm

namespace System

variable {ε : Type} [DocumentedEngine ε]

/-- A context is that of a transaction that was there, at its level, or of a new one. -/
theorem Stepped.context_level {s s' : System ε} (h : Stepped s s') {i : TrancId}
    {c' : TranContext} (hc' : s'.contexts i = some c') :
  (∃ c, s.contexts i = some c ∧ c'.isolationLevel = c.isolationLevel) ∨
    i = s.manager.nextTransactionId ∧ ∃ level, s' = s.newTranc level
  := by
  have hupdate {trancId : TrancId} {c c₁ : TranContext} (hc : s.contexts trancId = some c)
      (hc' : Function.update s.contexts trancId (some c₁) i = some c')
      (hlevel : c₁.isolationLevel = c.isolationLevel) :
      ∃ c, s.contexts i = some c ∧ c'.isolationLevel = c.isolationLevel := by
    rcases update_eq_some hc' with ⟨rfl, rfl⟩ | ⟨-, hc'⟩
    · exact ⟨c, hc, hlevel⟩
    · exact ⟨c', hc', rfl⟩
  cases h with
  | newTranc level =>
      rcases update_eq_some hc' with ⟨rfl, rfl⟩ | ⟨-, hc'⟩
      · exact .inr ⟨rfl, level, rfl⟩
      · exact .inl ⟨c', hc', rfl⟩
  | write trancId c w hc hidle =>
      exact .inl (hupdate hc hc' (TranContext.isolationLevel_prepare _ _ _ _ _))
  | get trancId c key hc =>
      obtain ⟨readMap, hget⟩ := TranContext.get_context c s.engine key
      exact .inl (hupdate hc hc' (by rw [hget]))
  | failed trancId c operations hc => exact .inl (hupdate hc hc' rfl)
  | beginCommit trancId c hc hidle hlevel => exact .inl (hupdate hc hc' rfl)
  | refused trancId c hc => exact .inl (hupdate hc hc' rfl)
  | committed trancId c writes hc hidle hlevel hwrites hconflicts =>
      exact .inl (hupdate hc hc' rfl)
  | beginAbort trancId c rollbacks hc hidle hlevel hrollbacks => exact .inl ⟨c', hc', rfl⟩
  | finish trancId c state hc hpending =>
      refine .inl (hupdate hc hc' ?_)
      cases state <;> rfl
  | lsmWrite w => exact .inl ⟨c', hc', rfl⟩
  | perform trancId call calls ending hpending => exact .inl ⟨c', hc', rfl⟩
  | frozenCurTable => exact .inl ⟨c', hc', rfl⟩

/-- What the records of contexts and the log have of the transactions, all of which have been
created from an id on. -/
structure Logs (base : TrancId) (s : System ε) : Prop where
  next : base ≤ s.manager.nextTransactionId
  base_le : ∀ i c, s.contexts i = some c → base ≤ i
  operations : ∀ i c, s.contexts i = some c → (∀ r ∈ c.operations, r.trancId = i) ∧
    ∀ key, loggedValue i key c.operations = s.history.lastWritten i key
  logged : ∀ r ∈ s.manager.wal, ∃ c, s.contexts r.trancId = some c
  committed : ∀ i c, s.contexts i = some c → c.isolationLevel.Buffered →
    ∀ key, loggedValue i key s.manager.wal = s.history.committedValue i key

/-- A context as it was, but for its maps and flags, and a mark of a commit in its records. -/
def Resembles (c c' : TranContext) : Prop :=
  c'.isolationLevel = c.isolationLevel ∧
    (c'.operations = c.operations ∨ c'.operations = c.operations ++ [Record.commitRecord c.trancId])

omit [DocumentedEngine ε] in
/-- A step that logs nothing, and in which contexts stay as they are, but for their maps and
flags, nothing is written, and no buffered transaction commits. -/
theorem Logs.extend {base : TrancId} {s s' : System ε} (hs : s.Logs base)
    (hinv : ∀ i c, s.contexts i = some c → c.trancId = i)
    (hnext : s.manager.nextTransactionId ≤ s'.manager.nextTransactionId)
    (hwal : s'.manager.wal = s.manager.wal) (h : History) (hhistory : s'.history = h ++ s.history)
    (hcontexts : ∀ i c', s'.contexts i = some c' → ∃ c, s.contexts i = some c ∧ Resembles c c')
    (hkept : ∀ i c, s.contexts i = some c → ∃ c', s'.contexts i = some c')
    (hwrote : ∀ i w, .wrote i w ∉ h)
    (hcommitted : ∀ i c, s.contexts i = some c → c.isolationLevel.Buffered → .committed i ∉ h) :
  s'.Logs base
  := by
  constructor
  · apply hs.next.trans hnext
  · intro i c' hc'
    obtain ⟨c, hc, -⟩ := hcontexts i c' hc'
    apply hs.base_le i c hc
  · intro i c' hc'
    obtain ⟨c, hc, -, hoperations⟩ := hcontexts i c' hc'
    obtain ⟨hids, hvalues⟩ := hs.operations i c hc
    rw [hhistory]
    rcases hoperations with heq | heq <;> rw [heq]
    · refine ⟨hids, fun key => ?_⟩
      rw [hvalues key, History.lastWritten_append key s.history (hwrote i)]
    · constructor
      · intro r hr
        rcases List.mem_append.mp hr with hr | hr
        · apply hids r hr
        · rw [List.mem_singleton.mp hr]
          apply hinv i c hc
      · intro key
        rw [loggedValue_append, loggedValue_commitRecord, Option.none_or, hvalues key,
          History.lastWritten_append key s.history (hwrote i)]
  · intro r hr
    rw [hwal] at hr
    obtain ⟨c, hc⟩ := hs.logged r hr
    apply hkept _ c hc
  · intro i c' hc' hlevel key
    obtain ⟨c, hc, hlevel', -⟩ := hcontexts i c' hc'
    rw [hlevel'] at hlevel
    rw [hwal, hhistory, History.committedValue_append (hcommitted i c hc hlevel)]
    apply hs.committed i c hc hlevel

omit [DocumentedEngine ε] in
/-- A commit logs the records of its transaction. -/
theorem Logs.log {base : TrancId} {s s' : System ε} (hs : s.Logs base) {trancId : TrancId}
    {c : TranContext} (hc : s.contexts trancId = some c) (hid : c.trancId = trancId)
    (c' : TranContext) (hcontexts : s'.contexts = Function.update s.contexts trancId (some c'))
    (hresembles : Resembles c c')
    (hnext : s'.manager.nextTransactionId = s.manager.nextTransactionId)
    (hwal : s'.manager.wal = s.manager.wal ++ c.commitRecords)
    (h : History) (hhistory : s'.history = h ++ s.history) (hwrote : ∀ i w, .wrote i w ∉ h)
    (hcommitted : ∀ i, i ≠ trancId → .committed i ∉ h)
    (hself : c.isolationLevel.Buffered → ∀ key,
      (h ++ s.history).committedValue trancId key = s.history.lastWritten trancId key) :
  s'.Logs base
  := by
  obtain ⟨hids, hvalues⟩ := hs.operations trancId c hc
  have hrecords : ∀ r ∈ c.commitRecords, r.trancId = trancId := by
    intro r hr
    rcases List.mem_append.mp hr with hr | hr
    · apply hids r hr
    · rw [List.mem_singleton.mp hr]
      apply hid
  have hlogged : ∀ key, loggedValue trancId key c.commitRecords =
      s.history.lastWritten trancId key := by
    intro key
    rw [TranContext.commitRecords, loggedValue_append, loggedValue_commitRecord, Option.none_or,
      hvalues key]
  have hlast : ∀ i key, History.lastWritten i key (h ++ s.history) =
      s.history.lastWritten i key := fun i key =>
    History.lastWritten_append key s.history (hwrote i)
  constructor
  · rw [hnext]
    apply hs.next
  · intro i c₁ hc₁
    rw [hcontexts] at hc₁
    rcases update_eq_some hc₁ with ⟨rfl, -⟩ | ⟨-, hc₁⟩
    · apply hs.base_le i c hc
    · apply hs.base_le i c₁ hc₁
  · intro i c₁ hc₁
    rw [hcontexts] at hc₁
    rw [hhistory]
    rcases update_eq_some hc₁ with ⟨rfl, rfl⟩ | ⟨-, hc₁⟩
    · simp only [hlast]
      rcases hresembles.2 with heq | heq <;> rw [heq]
      · exact ⟨hids, hvalues⟩
      · exact ⟨hrecords, hlogged⟩
    · simp only [hlast]
      apply hs.operations i c₁ hc₁
  · intro r hr
    rw [hwal] at hr
    rw [hcontexts]
    rcases List.mem_append.mp hr with hr | hr
    · obtain ⟨c₁, hc₁⟩ := hs.logged r hr
      by_cases heq : r.trancId = trancId
      · rw [heq]
        exact ⟨c', Function.update_self _ _ _⟩
      · exact ⟨c₁, (Function.update_of_ne heq _ _).trans hc₁⟩
    · rw [hrecords r hr]
      exact ⟨c', Function.update_self _ _ _⟩
  · intro i c₁ hc₁ hlevel key
    rw [hcontexts] at hc₁
    rw [hwal, hhistory, loggedValue_append]
    rcases update_eq_some hc₁ with ⟨rfl, rfl⟩ | ⟨hne, hc₁⟩
    · rw [hresembles.1] at hlevel
      rw [hlogged, hself hlevel key, hs.committed i c hc hlevel key]
      cases hvalue : s.history.lastWritten i key with
      | some value => rfl
      | none =>
          -- what has not been written has not been committed before
          rw [Option.none_or, ← Option.not_isSome_iff_eq_none]
          intro hsome
          rw [Option.isSome_iff_ne_none] at hsome
          have hlast := History.lastWritten_isSome_of_committed
            (Option.isSome_iff_ne_none.mpr hsome)
          rw [hvalue] at hlast
          cases hlast
    · rw [loggedValue_of_ne key (fun r hr => hrecords r hr ▸ Ne.symm hne), Option.none_or,
        History.committedValue_append (hcommitted i hne)]
      apply hs.committed i c₁ hc₁ hlevel

theorem Logs.newTranc {base : TrancId} {s : System ε} (hs : s.Logs base) (hinv : s.Invariant)
    (level : IsolationLevel) :
  (s.newTranc level).Logs base
  := by
  have hfresh (key : Bytes) : s.history.lastWritten s.manager.nextTransactionId key = none := by
    apply Option.eq_none_iff_forall_ne_some.mpr
    intro value hvalue
    obtain ⟨w, hw, -⟩ := History.mem_of_lastWritten hvalue
    obtain ⟨c, hc⟩ := hinv.wrote _ w hw
    exact (hinv.lt_next hc).false
  have hne {i : TrancId} {c : TranContext} (hc : s.contexts i = some c) :
      i ≠ s.manager.nextTransactionId := (hinv.lt_next hc).ne
  constructor
  · apply Nat.le_succ_of_le hs.next
  · intro i c hc
    rcases update_eq_some hc with ⟨rfl, -⟩ | ⟨-, hc⟩
    · apply hs.next
    · apply hs.base_le i c hc
  · intro i c hc
    rcases update_eq_some hc with ⟨rfl, rfl⟩ | ⟨-, hc⟩
    · constructor
      · intro r hr
        rw [List.mem_singleton.mp hr]
        rfl
      · intro key
        exact (hfresh key).symm
    · apply hs.operations i c hc
  · intro r hr
    obtain ⟨c, hc⟩ := hs.logged r hr
    exact ⟨c, (Function.update_of_ne (hne hc) _ _).trans hc⟩
  · intro i c hc hlevel key
    rcases update_eq_some hc with ⟨rfl, rfl⟩ | ⟨-, hc⟩
    · have hnone : loggedValue s.manager.nextTransactionId key s.manager.wal = none := by
        apply loggedValue_of_ne key
        intro r hr
        obtain ⟨c, hc⟩ := hs.logged r hr
        apply hne hc
      refine hnone.trans (Eq.symm (Option.not_isSome_iff_eq_none.mp ?_))
      intro hsome
      have hlast := History.lastWritten_isSome_of_committed hsome
      have hunwritten : History.lastWritten s.manager.nextTransactionId key
          (s.newTranc level).history = none := hfresh key
      rw [hunwritten] at hlast
      cases hlast
    · apply hs.committed i c hc hlevel

theorem Logs.write {base : TrancId} {s : System ε} (hs : s.Logs base) {trancId : TrancId}
    {c : TranContext} (hc : s.contexts trancId = some c) (hid : c.trancId = trancId)
    (w : WriteCall) :
  (s.write trancId c w).Logs base
  := by
  obtain ⟨hids, hvalues⟩ := hs.operations trancId c hc
  constructor
  · apply hs.next
  · intro i c₁ hc₁
    rcases update_eq_some hc₁ with ⟨rfl, -⟩ | ⟨-, hc₁⟩
    · apply hs.base_le i c hc
    · apply hs.base_le i c₁ hc₁
  · intro i c₁ hc₁
    rcases update_eq_some hc₁ with ⟨rfl, rfl⟩ | ⟨hne, hc₁⟩
    · rw [TranContext.operations_prepare, hid]
      constructor
      · intro r hr
        rcases List.mem_append.mp hr with hr | hr
        · apply hids r hr
        · rw [List.mem_singleton.mp hr]
          cases w <;> rfl
      · intro key
        rw [loggedValue_append, loggedValue_record, hvalues key]
        refine Eq.trans ?_ (History.lastWritten_cons_wrote i key w s.history).symm
        split <;> rfl
    · have hlast : ∀ key, History.lastWritten i key (.wrote trancId w :: s.history) =
          s.history.lastWritten i key := by
        intro key
        apply History.lastWritten_append key (h := [.wrote trancId w]) s.history
        intro w' hw'
        exact hne (Occurrence.wrote.inj (List.mem_singleton.mp hw')).1
      obtain ⟨hids₁, hvalues₁⟩ := hs.operations i c₁ hc₁
      exact ⟨hids₁, fun key => (hvalues₁ key).trans (hlast key).symm⟩
  · intro r hr
    obtain ⟨c₁, hc₁⟩ := hs.logged r hr
    by_cases heq : r.trancId = trancId
    · rw [heq]
      exact ⟨_, Function.update_self _ _ _⟩
    · exact ⟨c₁, (Function.update_of_ne heq _ _).trans hc₁⟩
  · intro i c₁ hc₁ hlevel key
    rcases update_eq_some hc₁ with ⟨rfl, rfl⟩ | ⟨hne, hc₁⟩
    · rw [TranContext.isolationLevel_prepare] at hlevel
      apply hs.committed i c hc hlevel
    · apply hs.committed i c₁ hc₁ hlevel

omit [DocumentedEngine ε] in
theorem Resembles.refl (c : TranContext) : Resembles c c
  := ⟨rfl, .inl rfl⟩

omit [DocumentedEngine ε] in
/-- A step that changes no context and logs nothing. -/
theorem Logs.congr {base : TrancId} {s s' : System ε} (hs : s.Logs base)
    (hinv : ∀ i c, s.contexts i = some c → c.trancId = i)
    (hnext : s.manager.nextTransactionId ≤ s'.manager.nextTransactionId)
    (hwal : s'.manager.wal = s.manager.wal) (hcontexts : s'.contexts = s.contexts)
    (h : History) (hhistory : s'.history = h ++ s.history) (hwrote : ∀ i w, .wrote i w ∉ h)
    (hcommitted : ∀ i, .committed i ∉ h) :
  s'.Logs base
  := by
  apply hs.extend hinv hnext hwal h hhistory _ _ hwrote (fun i _ _ _ => hcommitted i)
  · intro i c hc
    rw [hcontexts] at hc
    exact ⟨c, hc, .refl c⟩
  · intro i c hc
    rw [hcontexts]
    exact ⟨c, hc⟩

omit [DocumentedEngine ε] in
/-- A step that changes one context and logs nothing. -/
theorem Logs.update {base : TrancId} {s s' : System ε} (hs : s.Logs base)
    (hinv : ∀ i c, s.contexts i = some c → c.trancId = i)
    {trancId : TrancId} {c : TranContext} (hc : s.contexts trancId = some c)
    (c' : TranContext) (hresembles : Resembles c c')
    (hnext : s'.manager.nextTransactionId = s.manager.nextTransactionId)
    (hwal : s'.manager.wal = s.manager.wal)
    (hcontexts : s'.contexts = Function.update s.contexts trancId (some c'))
    (h : History) (hhistory : s'.history = h ++ s.history) (hwrote : ∀ i w, .wrote i w ∉ h)
    (hcommitted : ∀ i c, s.contexts i = some c → c.isolationLevel.Buffered → .committed i ∉ h) :
  s'.Logs base
  := by
  apply hs.extend hinv hnext.ge hwal h hhistory _ _ hwrote hcommitted
  · intro i c₁ hc₁
    rw [hcontexts] at hc₁
    rcases update_eq_some hc₁ with ⟨rfl, rfl⟩ | ⟨-, hc₁⟩
    · exact ⟨c, hc, hresembles⟩
    · exact ⟨c₁, hc₁, .refl c₁⟩
  · intro i c₁ hc₁
    rw [hcontexts]
    by_cases heq : i = trancId
    · rw [heq]
      exact ⟨c', Function.update_self _ _ _⟩
    · exact ⟨c₁, (Function.update_of_ne heq _ _).trans hc₁⟩

/-- A buffered commit that applies the writes has committed what was written last. -/
theorem committedValue_committed (trancId : TrancId) (writes : Iteration Bytes) (h : History)
    (key : Bytes) :
  History.committedValue trancId key ((.committed trancId :: applications trancId writes) ++ h) =
    h.lastWritten trancId key
  := by
  rw [List.cons_append, History.committedValue, if_pos rfl]
  apply History.lastWritten_append
  intro w hw
  rcases mem_applications.mp hw with heq | ⟨_, _, _, heq⟩ <;> cases heq

theorem Logs.commit {base : TrancId} {s : System ε} (hs : s.Logs base)
    (hinv : ∀ i c, s.contexts i = some c → c.trancId = i) {trancId : TrancId} {c : TranContext}
    (hc : s.contexts trancId = some c) (hlevel : c.isolationLevel.Buffered)
    (writes : Iteration Bytes) (walOk : Bool) :
  (s.commit trancId c writes walOk).Logs base
  := by
  rw [System.commit]
  rcases TranContext.commit_effects hlevel s.engine s.manager writes walOk with
    ⟨fault, c', h, rfl | rfl, -⟩ | ⟨h, -⟩ | ⟨-, h, -⟩ <;> rw [h]
  · exact hs.update hinv hc c' (.refl c') rfl rfl rfl [] rfl (fun _ _ => List.not_mem_nil)
      (fun _ _ _ _ => List.not_mem_nil)
  · exact hs.update hinv hc c.logged ⟨rfl, .inr rfl⟩ rfl rfl rfl [] rfl
      (fun _ _ => List.not_mem_nil) (fun _ _ _ _ => List.not_mem_nil)
  · refine hs.update hinv hc { c with isAborted := true } ⟨rfl, .inl rfl⟩ rfl rfl rfl
      [.refused trancId] rfl ?_ ?_
    · intro i w hmem
      cases List.mem_singleton.mp hmem
    · intro i _ _ _ hmem
      cases List.mem_singleton.mp hmem
  · refine hs.log hc (hinv trancId c hc) _ rfl ⟨rfl, .inr rfl⟩ rfl rfl
      (.committed trancId :: applications trancId writes) rfl ?_ ?_
      (fun _ => committedValue_committed trancId writes s.history)
    · intro i w hmem
      rcases eq_of_mem_commit hmem with heq | ⟨_, heq⟩ <;> cases heq
    · intro i hne hmem
      rcases eq_of_mem_commit hmem with heq | ⟨_, heq⟩
      · exact hne (Occurrence.committed.inj heq)
      · cases heq

theorem Logs.finish {base : TrancId} {s : System ε} (hs : s.Logs base) (hsys : s.Invariant)
    {trancId : TrancId} {c : TranContext} {state : TransactionState}
    (hc : s.contexts trancId = some c)
    (hpending : s.pending trancId = ⟨[], some state⟩ ∨ state = .aborted) :
  (s.finish trancId c state).Logs base
  := by
  have hinv : ∀ i c, s.contexts i = some c → c.trancId = i :=
    fun i c hc => (hsys.consistent i c hc).trancId_eq
  refine hs.update hinv hc (c.ended state) ?_ rfl rfl rfl [endOccurrence trancId state] rfl ?_ ?_
  · cases state <;> exact ⟨rfl, .inl rfl⟩
  · intro i w hmem
    cases state <;> cases List.mem_singleton.mp hmem
  · intro i c₁ hc₁ hlevel hmem
    cases state with
    | aborted => cases List.mem_singleton.mp hmem
    | opCommitted =>
        obtain rfl := Occurrence.committed.inj (List.mem_singleton.mp hmem)
        rw [hsys.buffered i c₁ hc₁ hlevel] at hpending
        rcases hpending with hpending | hpending <;> cases hpending

omit [DocumentedEngine ε] in
theorem wal_foldl_addFlushedTrancId :
  ∀ (trancIds : List TrancId) (m : TranManager),
    (trancIds.foldl TranManager.addFlushedTrancId m).wal = m.wal
  | [], _ => rfl
  | trancId :: trancIds, m => wal_foldl_addFlushedTrancId trancIds (m.addFlushedTrancId trancId)

theorem Logs.step {base : TrancId} {s s' : System ε} {event : Event} (hs : s.Logs base)
    (hsys : s.Invariant) (h : step s event = some s') :
  s'.Logs base
  := by
  have hinv : ∀ i c, s.contexts i = some c → c.trancId = i :=
    fun i c hc => (hsys.consistent i c hc).trancId_eq
  have hnone : ∀ i : TrancId, .committed i ∉ ([] : History) := fun _ => List.not_mem_nil
  cases event with
  | newTranc level =>
      obtain rfl := Option.some.inj h
      apply hs.newTranc hsys
  | write trancId w =>
      obtain ⟨c, hc, rfl⟩ := Option.map_eq_some_iff.mp h
      apply hs.write (idle?_eq_some hc).1 (hinv _ c (idle?_eq_some hc).1)
  | get trancId key =>
      obtain ⟨c, hc, rfl⟩ := Option.map_eq_some_iff.mp h
      obtain ⟨readMap, hget⟩ := TranContext.get_context c s.engine key
      refine hs.update hinv (idle?_eq_some hc).1 (c.get s.engine key).2 ?_ rfl rfl rfl
        [.read trancId key (c.get s.engine key).1] rfl ?_ ?_
      · rw [hget]
        exact ⟨rfl, .inl rfl⟩
      · intro i w hmem
        cases List.mem_singleton.mp hmem
      · intro i _ _ _ hmem
        cases List.mem_singleton.mp hmem
  | commit trancId writes walOk =>
      obtain ⟨c, hidle?, h⟩ := Option.bind_eq_some_iff.mp h
      obtain ⟨hc, hidle⟩ := idle?_eq_some hidle?
      split at h
      next hwrites =>
        split at h
        next hlevel =>
          obtain rfl := Option.some.inj h
          cases walOk with
          | true =>
              exact hs.log hc (hinv trancId c hc) c.logged rfl ⟨rfl, .inr rfl⟩ rfl rfl [] rfl
                (fun _ _ => List.not_mem_nil) (fun i _ => hnone i)
                (fun hbuffered => absurd hlevel hbuffered)
          | false =>
              exact hs.update hinv hc c.logged ⟨rfl, .inr rfl⟩ rfl rfl rfl [] rfl
                (fun _ _ => List.not_mem_nil) (fun i _ _ _ => hnone i)
        next hlevel =>
          obtain rfl := Option.some.inj h
          apply hs.commit hinv hc hlevel
      next => cases h
  | abort trancId rollbacks =>
      obtain ⟨c, hidle?, h⟩ := Option.bind_eq_some_iff.mp h
      obtain ⟨hc, hidle⟩ := idle?_eq_some hidle?
      split at h
      next =>
        split at h
        next =>
          obtain rfl := Option.some.inj h
          exact hs.congr hinv le_rfl rfl rfl [] rfl (fun _ _ => List.not_mem_nil) hnone
        next =>
          obtain rfl := Option.some.inj h
          apply hs.finish hsys hc (.inr rfl)
      next => cases h
  | lsmWrite w =>
      obtain rfl := Option.some.inj h
      refine hs.congr hinv (Nat.le_succ _) rfl rfl [.lsmWrote _ w] rfl ?_ ?_
      · intro i w' hmem
        cases List.mem_singleton.mp hmem
      · intro i hmem
        cases List.mem_singleton.mp hmem
  | proceed trancId =>
      rw [System.step] at h
      split at h
      next call calls ending hpending =>
        obtain rfl := Option.some.inj h
        refine hs.congr hinv le_rfl rfl rfl [.applied trancId call.entry] rfl ?_ ?_
        · intro i w' hmem
          cases List.mem_singleton.mp hmem
        · intro i hmem
          cases List.mem_singleton.mp hmem
      next state hpending =>
        obtain ⟨c, hc, rfl⟩ := Option.map_eq_some_iff.mp h
        apply hs.finish hsys hc (.inl hpending)
      next => cases h
  | frozenCurTable =>
      obtain rfl := Option.some.inj h
      exact hs.congr hinv le_rfl rfl rfl [] rfl (fun _ _ => List.not_mem_nil) hnone
  | flush =>
      obtain rfl := Option.some.inj h
      refine hs.congr hinv (TranManager.nextTransactionId_foldl_addFlushedTrancId _ _).ge ?_ rfl []
        rfl (fun _ _ => List.not_mem_nil) hnone
      apply wal_foldl_addFlushedTrancId

end System

end TinyLsm
