import TinyLsm.Lsm.Logs

/-!
# What lasts of a transaction

The tables have no version with the id of a buffered transaction but of keys it had written
when it committed, whoever puts the version there.  With what the log has, this is what lasts
of transactions.
-/

namespace TinyLsm

namespace System

variable {ε : Type} [DocumentedEngine ε]

/-- A version that the engine has, or that a call that is left to do or an abort may put
there. -/
inductive Held (s : System ε) (e : Entry) : Prop
  | version : e ∈ (DocumentedEngine.tables s.engine).versions → Held s e
  | pending (i : TrancId) (call : EngineCall) :
      call ∈ (s.pending i).calls → call.entry = e → Held s e
  | rollback (i : TrancId) (c : TranContext) :
      s.contexts i = some c → c.rollbackMap.lookup e.key = some (some (e.value, e.trancId)) →
      Held s e

/-- A version that carries an id that has been handed out, and, if that is of a buffered
transaction, is on a key which that had written when it committed. -/
structure Backed (s : System ε) (e : Entry) : Prop where
  issued : e.trancId < s.manager.nextTransactionId
  committed : ∀ c, s.contexts e.trancId = some c → c.isolationLevel.Buffered → e.key ≠ [] →
    (s.history.committedValue e.trancId e.key).isSome

omit [DocumentedEngine ε] in
/-- The history becomes longer. -/
theorem Stepped.history [DocumentedEngine ε] {s s' : System ε} (h : Stepped s s') :
  ∃ h', s'.history = h' ++ s.history
  := by
  cases h with
  | newTranc level => exact ⟨[_], rfl⟩
  | write trancId c w hc hidle => exact ⟨[_], rfl⟩
  | get trancId c key hc => exact ⟨[_], rfl⟩
  | failed trancId c operations hc => exact ⟨[], rfl⟩
  | beginCommit trancId c hc hidle hlevel => exact ⟨[], rfl⟩
  | refused trancId c hc => exact ⟨[_], rfl⟩
  | committed trancId c writes hc hidle hlevel hwrites hconflicts => exact ⟨_, rfl⟩
  | beginAbort trancId c rollbacks hc hidle hlevel hrollbacks => exact ⟨[], rfl⟩
  | finish trancId c state hc hpending => exact ⟨[_], rfl⟩
  | lsmWrite w => exact ⟨[_], rfl⟩
  | perform trancId call calls ending hpending => exact ⟨[_], rfl⟩
  | frozenCurTable => exact ⟨[], rfl⟩

theorem Backed.stepped {s s' : System ε} {e : Entry} (he : s.Backed e) (h : Stepped s s') :
  s'.Backed e
  := by
  refine ⟨he.issued.trans_le h.next_le, fun c' hc' hlevel hkey => ?_⟩
  obtain ⟨h', hhistory⟩ := h.history
  rw [hhistory]
  apply History.committedValue_isSome_append
  rcases h.context_level hc' with ⟨c, hc, hsame⟩ | ⟨hnew, -⟩
  · rw [hsame] at hlevel
    apply he.committed c hc hlevel hkey
  · exact absurd he.issued (hnew ▸ lt_irrefl _)

omit [DocumentedEngine ε] in
theorem mem_insertVersion {e e' : Entry} :
  ∀ {es : List Entry}, e' ∈ insertVersion e es → e' = e ∨ e' ∈ es
  | [], h => .inl (List.mem_singleton.mp h)
  | e'' :: es, h => by
      rw [insertVersion] at h
      split at h
      · rcases List.mem_cons.mp h with rfl | h
        · exact .inr List.mem_cons_self
        · exact (mem_insertVersion h).imp_right (List.mem_cons_of_mem _)
      · split at h
        · exact (List.mem_cons.mp h).imp_right (List.mem_cons_of_mem _)
        · apply List.mem_cons.mp h

omit [DocumentedEngine ε] in
theorem mem_versions_put {t : Tables} {e e' : Entry} (h : e' ∈ (t.put e).versions) :
  e' = e ∨ e' ∈ t.versions
  := by
  rw [Tables.versions, Tables.memtable, Tables.put, List.append_assoc, List.mem_append] at h
  rw [Tables.versions, Tables.memtable, List.append_assoc, List.mem_append]
  rcases h with h | h
  · exact (mem_insertVersion h).imp_right .inl
  · exact .inr (.inr h)

/-- A buffered commit puts nothing but its writes and the marker. -/
theorem mem_versions_applyWrites {c : TranContext} {e : Entry} (engine : ε)
    {writes : Iteration Bytes}
    (h : e ∈ (DocumentedEngine.tables (c.applyWrites engine writes)).versions) :
  e = ⟨[], [], c.trancId⟩ ∨ (∃ w ∈ writes, e = ⟨w.1, w.2, c.trancId⟩) ∨
    e ∈ (DocumentedEngine.tables engine).versions
  := by
  have hfold : ∀ (writes : Iteration Bytes) (engine : ε), e ∈ (DocumentedEngine.tables
      (writes.foldl (fun e w => LSMEngine.memtablePut_ e w.1 w.2 c.trancId) engine)).versions →
      (∃ w ∈ writes, e = ⟨w.1, w.2, c.trancId⟩) ∨
        e ∈ (DocumentedEngine.tables engine).versions := by
    intro writes
    induction writes with
    | nil => exact fun _ h => .inr h
    | cons w writes ih =>
        intro engine h
        rcases ih _ h with ⟨w', hw', heq⟩ | h
        · exact .inl ⟨w', List.mem_cons_of_mem w hw', heq⟩
        · rw [DocumentedEngine.tables_memtablePut_] at h
          rcases mem_versions_put h with heq | h
          · exact .inl ⟨w, List.mem_cons_self, heq⟩
          · exact .inr h
  rw [TranContext.applyWrites, DocumentedEngine.tables_memtablePut_] at h
  exact (mem_versions_put h).imp_right (hfold writes engine)

/-- What the engine answers is a version of it. -/
theorem mem_versions_of_get {engine : ε} {key value : Bytes} {trancId i : TrancId}
    (h : LSMEngine.get engine key trancId = some (value, i)) :
  ⟨key, value, i⟩ ∈ (DocumentedEngine.tables engine).versions
  := by
  rw [DocumentedEngine.get_eq] at h
  obtain ⟨e, he, hanswer⟩ := Option.bind_eq_some_iff.mp h
  obtain ⟨hmem, rfl, -⟩ := latest_eq_some he
  rw [Entry.answer] at hanswer
  split at hanswer
  next => cases hanswer
  next =>
    obtain ⟨rfl, rfl⟩ := Prod.mk.inj (Option.some.inj hanswer)
    apply hmem

/-- A call that is left to do was left before, or is of those of the given transaction. -/
theorem held_of_calls {s : System ε} {trancId i : TrancId} {pending : Pending}
    {call : EngineCall} (hcall : call ∈ (Function.update s.pending trancId pending i).calls) :
  s.Held call.entry ∨ i = trancId ∧ call ∈ pending.calls
  := by
  by_cases hid : i = trancId
  · rw [hid, Function.update_self] at hcall
    exact .inr ⟨hid, hcall⟩
  · rw [Function.update_of_ne hid] at hcall
    exact .inl (.pending i call hcall rfl)

theorem held_of_update {s : System ε} {trancId i : TrancId} {c c₁ c' : TranContext} {e : Entry}
    (hc : s.contexts trancId = some c)
    (hc' : Function.update s.contexts trancId (some c₁) i = some c')
    (hrollback : c₁.rollbackMap = c.rollbackMap)
    (hlookup : c'.rollbackMap.lookup e.key = some (some (e.value, e.trancId))) :
  s.Held e
  := by
  rcases update_eq_some hc' with ⟨rfl, rfl⟩ | ⟨-, hc'⟩
  · exact .rollback i c hc (hrollback ▸ hlookup)
  · exact .rollback i c' hc' hlookup

/-- A step puts versions into the engine that were held, or that a commit backs. -/
theorem Stepped.version {s s' : System ε} (hs : s.Invariant) (h : Stepped s s') {e : Entry}
    (he : e ∈ (DocumentedEngine.tables s'.engine).versions) :
  s.Held e ∨ s'.Backed e
  := by
  cases h with
  | committed trancId c writes hc hidle hlevel hwrites hconflicts =>
      have hold := hs.consistent trancId c hc
      rcases mem_versions_applyWrites s.engine he with rfl | ⟨w, hw, rfl⟩ | he
      · right
        rw [hold.trancId_eq]
        exact ⟨hs.lt_next hc, fun _ _ _ hkey => absurd rfl hkey⟩
      · right
        rw [hold.trancId_eq]
        refine ⟨hs.lt_next hc, fun _ _ _ _ => ?_⟩
        have hkept : c.tempMap.lookup w.1 = some w.2 :=
          AList.mem_lookup_iff.mpr (hwrites.mem_iff.mp hw)
        have hvalue : (s.committed trancId c writes).history.committedValue trancId w.1 =
            s.history.lastWritten trancId w.1 :=
          committedValue_committed trancId writes s.history w.1
        rw [hvalue, ← hold.tempMap hlevel, hkept]
        rfl
      · exact .inl (.version he)
  | perform trancId call calls ending hpending =>
      left
      have he : e ∈ (DocumentedEngine.tables (call.perform s.engine)).versions := he
      rw [EngineCall.tables_perform] at he
      rcases mem_versions_put he with rfl | he
      · apply Held.pending trancId call _ rfl
        rw [hpending]
        apply List.mem_cons_self
      · exact .version he
  | frozenCurTable =>
      have he : e ∈ (DocumentedEngine.tables
          (DocumentedEngine.frozenCurTable s.engine)).versions := he
      rw [DocumentedEngine.tables_frozenCurTable, Tables.versions_frozenCurTable] at he
      exact .inl (.version he)
  | _ => exact .inl (.version he)

/-- A step leaves calls to do that put versions which were held, or which are of no buffered
transaction. -/
theorem Stepped.pendingCall {s s' : System ε} (hs : s.Invariant) (h : Stepped s s')
    {i : TrancId} {call : EngineCall} (hcall : call ∈ (s'.pending i).calls) :
  s.Held call.entry ∨ s'.Backed call.entry
  := by
  cases h with
  | write trancId c w hc hidle =>
      rcases held_of_calls hcall with hheld | ⟨-, hcall⟩
      · exact .inl hheld
      · right
        by_cases hlevel : c.isolationLevel = .readUnopCommitted
        · rw [if_pos hlevel] at hcall
          rw [List.mem_singleton.mp hcall, EngineCall.entry, (hs.consistent _ c hc).trancId_eq]
          refine ⟨hs.lt_next hc, fun c' hc' hbuffered => absurd ?_ hbuffered⟩
          have hself := (Function.update_self _ _ _).symm.trans hc'
          rw [← Option.some.inj hself, TranContext.isolationLevel_prepare, hlevel]
        · rw [if_neg hlevel] at hcall
          cases hcall
  | beginCommit trancId c hc hidle hlevel =>
      rcases held_of_calls hcall with hheld | ⟨-, hcall⟩
      · exact .inl hheld
      · right
        rw [List.mem_singleton.mp hcall, EngineCall.entry, (hs.consistent _ c hc).trancId_eq]
        exact ⟨hs.lt_next hc, fun _ _ _ hkey => absurd rfl hkey⟩
  | beginAbort trancId c rollbacks hc hidle hlevel hrollbacks =>
      rcases held_of_calls hcall with hheld | ⟨-, hcall⟩
      · exact .inl hheld
      · obtain ⟨⟨key, previous⟩, hr, rfl⟩ := List.mem_map.mp hcall
        have hlookup : c.rollbackMap.lookup key = some previous :=
          AList.mem_lookup_iff.mpr (hrollbacks.mem_iff.mp hr)
        cases previous with
        | some version => exact .inl (.rollback trancId c hc hlookup)
        | none =>
            right
            rw [TranContext.restoreCall, EngineCall.entry, (hs.consistent _ c hc).trancId_eq]
            refine ⟨hs.lt_next hc, fun c' hc' hbuffered => absurd ?_ hbuffered⟩
            have hself := hc.symm.trans hc'
            rw [← Option.some.inj hself, hlevel]
  | finish trancId c state hc hpending =>
      rcases held_of_calls hcall with hheld | ⟨-, hcall⟩
      · exact .inl hheld
      · cases hcall
  | lsmWrite w =>
      rcases held_of_calls hcall with hheld | ⟨-, hcall⟩
      · exact .inl hheld
      · right
        rw [List.mem_singleton.mp hcall, EngineCall.entry]
        refine ⟨Nat.lt_succ_self _, fun c hc => ?_⟩
        have hnone := (hs.unused s.manager.nextTransactionId le_rfl).1
        rw [show s.contexts s.manager.nextTransactionId = some c from hc] at hnone
        cases hnone
  | perform trancId call' calls ending hpending =>
      rcases held_of_calls hcall with hheld | ⟨-, hcall⟩
      · exact .inl hheld
      · left
        apply Held.pending trancId call _ rfl
        rw [hpending]
        apply List.mem_cons_of_mem call' hcall
  | _ => exact .inl (.pending i call hcall rfl)

/-- A context notes for putting back what was held. -/
theorem Stepped.rollback {s s' : System ε} (h : Stepped s s') {i : TrancId} {c' : TranContext}
    (hc' : s'.contexts i = some c') {e : Entry}
    (hlookup : c'.rollbackMap.lookup e.key = some (some (e.value, e.trancId))) :
  s.Held e
  := by
  cases h with
  | newTranc level =>
      rcases update_eq_some hc' with ⟨rfl, rfl⟩ | ⟨-, hc'⟩
      · cases hlookup
      · exact .rollback i c' hc' hlookup
  | write trancId c w hc hidle =>
      by_cases hlevel : c.isolationLevel = .readUnopCommitted
      · rcases update_eq_some hc' with ⟨rfl, rfl⟩ | ⟨-, hc'⟩
        · rw [(TranContext.prepare_unbuffered hlevel s.engine (w.record c.trancId) w.key
            w.value).1] at hlookup
          by_cases hkey : e.key = w.key
          · rw [hkey, AList.lookup_insert] at hlookup
            have hmem := mem_versions_of_get (Option.some.inj hlookup)
            rw [← hkey] at hmem
            exact .version hmem
          · rw [AList.lookup_insert_ne hkey] at hlookup
            exact .rollback i c hc hlookup
        · exact .rollback i c' hc' hlookup
      · exact held_of_update hc hc' (TranContext.rollbackMap_prepare hlevel _ _ _ _) hlookup
  | get trancId c key hc =>
      obtain ⟨readMap, hget⟩ := TranContext.get_context c s.engine key
      exact held_of_update hc hc' (by rw [hget]) hlookup
  | failed trancId c operations hc => exact held_of_update hc hc' rfl hlookup
  | beginCommit trancId c hc hidle hlevel => exact held_of_update hc hc' rfl hlookup
  | refused trancId c hc => exact held_of_update hc hc' rfl hlookup
  | committed trancId c writes hc hidle hlevel hwrites hconflicts =>
      exact held_of_update hc hc' rfl hlookup
  | finish trancId c state hc hpending =>
      refine held_of_update hc hc' ?_ hlookup
      cases state <;> rfl
  | _ => exact .rollback i c' hc' hlookup

/-- A version that is held after a step has been held before, or the step backs it. -/
theorem Stepped.held {s s' : System ε} (hs : s.Invariant) (h : Stepped s s') {e : Entry}
    (he : s'.Held e) :
  s.Held e ∨ s'.Backed e
  := by
  cases he with
  | version hmem => apply h.version hs hmem
  | pending i call hcall heq =>
      rw [← heq]
      apply h.pendingCall hs hcall
  | rollback i c hc hlookup => exact .inl (h.rollback hc hlookup)

/-- What is held stays backed. -/
theorem backed_step {s s' : System ε} {event : Event} (hs : s.Invariant)
    (hbacked : ∀ e, s.Held e → s.Backed e) (h : step s event = some s') (e : Entry)
    (he : s'.Held e) :
  s'.Backed e
  := by
  rcases step_stepped h with hstepped | ⟨-, rfl⟩
  · rcases hstepped.held hs he with hheld | hbacked'
    · exact (hbacked e hheld).stepped hstepped
    · apply hbacked'
  · have hheld : s.Held e := by
      cases he with
      | version hmem =>
          have hmem : e ∈ (DocumentedEngine.tables (DocumentedEngine.flush s.engine).2).versions :=
            hmem
          rw [DocumentedEngine.tables_flush, Tables.versions_flushLast] at hmem
          exact .version hmem
      | pending i call hcall heq => exact .pending i call hcall heq
      | rollback i c hc hlookup => exact .rollback i c hc hlookup
    refine ⟨(hbacked e hheld).issued.trans_le ?_, (hbacked e hheld).committed⟩
    exact (TranManager.nextTransactionId_foldl_addFlushedTrancId _ _).ge

/-- What lasts of the transactions created from an id on. -/
structure Lasting (base : TrancId) (s : System ε) : Prop where
  invariant : s.Invariant
  logs : s.Logs base
  backed : ∀ e, s.Held e → s.Backed e

theorem Lasting.step {base : TrancId} {s s' : System ε} {event : Event} (hs : s.Lasting base)
    (h : System.step s event = some s') :
  s'.Lasting base
  := by
  refine ⟨?_, hs.logs.step hs.invariant h, backed_step hs.invariant hs.backed h⟩
  rcases step_stepped h with hstepped | ⟨-, rfl⟩
  · apply hs.invariant.stepped hstepped
  · apply hs.invariant.flush

/-- A system that is opened on versions whose ids have been handed out, with an empty log. -/
theorem Opened.lasting {s : System ε} (hs : s.Opened) (hwal : s.manager.wal = [])
    (hissued : ∀ e ∈ (DocumentedEngine.tables s.engine).versions,
      e.trancId < s.manager.nextTransactionId) :
  (s.after (.ofVersions (DocumentedEngine.tables s.engine).versions)).Lasting
    s.manager.nextTransactionId
  := by
  have hinvariant := hs.invariant
  obtain ⟨-, hcontexts, hpending, -⟩ := hs
  have hnone {i : TrancId} {c : TranContext} : s.contexts i ≠ some c := by
    rw [hcontexts i]
    exact nofun
  constructor
  · apply hinvariant
  · constructor
    · apply le_refl
    · exact fun i c hc => absurd hc hnone
    · exact fun i c hc => absurd hc hnone
    · intro r hr
      have hr : r ∈ s.manager.wal := hr
      rw [hwal] at hr
      cases hr
    · exact fun i c hc => absurd hc hnone
  · intro e he
    cases he with
    | version hmem => exact ⟨hissued e hmem, fun c hc => absurd hc hnone⟩
    | pending i call hcall heq =>
        have hcall : call ∈ (s.pending i).calls := hcall
        rw [hpending i] at hcall
        cases hcall
    | rollback i c hc hlookup => exact absurd hc hnone

/-- The log has the records a step passes to it after those it had. -/
theorem wal_step {s s' : System ε} {event : Event} (h : step s event = some s') :
  s'.manager.wal = s.manager.wal ++ (s.effects event).reverse.flatMap Effect.records
  := by
  cases event with
  | newTranc level =>
      obtain rfl := Option.some.inj h
      exact (List.append_nil _).symm
  | write trancId w =>
      obtain ⟨c, hc, rfl⟩ := Option.map_eq_some_iff.mp h
      exact (List.append_nil _).symm
  | get trancId key =>
      obtain ⟨c, hc, rfl⟩ := Option.map_eq_some_iff.mp h
      exact (List.append_nil _).symm
  | commit trancId writes walOk =>
      obtain ⟨c, hidle?, h⟩ := Option.bind_eq_some_iff.mp h
      rw [effects, hidle?]
      dsimp only
      split at h
      next hwrites =>
        split at h
        next hlevel =>
          obtain rfl := Option.some.inj h
          rw [if_pos hlevel]
          cases walOk with
          | true => exact congrArg (s.manager.wal ++ ·) (List.append_nil _).symm
          | false => exact (List.append_nil _).symm
        next hlevel =>
          obtain rfl := Option.some.inj h
          rw [if_neg hlevel, System.commit]
          rcases TranContext.commit_effects hlevel s.engine s.manager writes walOk with
            ⟨fault, c', hcommit, -, heffects⟩ | ⟨hcommit, heffects⟩ | ⟨-, hcommit, heffects⟩ <;>
            rw [hcommit, heffects]
          · exact (List.append_nil _).symm
          · exact (List.append_nil _).symm
          · rw [TranContext.records_commitBufferedEffects]
            rfl
      next => cases h
  | abort trancId rollbacks =>
      obtain ⟨c, hidle?, h⟩ := Option.bind_eq_some_iff.mp h
      split at h
      next =>
        split at h <;> obtain rfl := Option.some.inj h <;> exact (List.append_nil _).symm
      next => cases h
  | lsmWrite w =>
      obtain rfl := Option.some.inj h
      exact (List.append_nil _).symm
  | proceed trancId =>
      have hnone : (s.effects (.proceed trancId)).reverse.flatMap Effect.records = [] := by
        rw [effects]
        split <;> rfl
      rw [hnone, List.append_nil]
      rw [step] at h
      split at h
      next => exact (congrArg (·.manager.wal) (Option.some.inj h)).symm
      next =>
        obtain ⟨c, hc, rfl⟩ := Option.map_eq_some_iff.mp h
        rfl
      next => cases h
  | frozenCurTable =>
      obtain rfl := Option.some.inj h
      exact (List.append_nil _).symm
  | flush =>
      obtain rfl := Option.some.inj h
      exact (wal_foldl_addFlushedTrancId _ _).trans (List.append_nil _).symm

end System

end TinyLsm