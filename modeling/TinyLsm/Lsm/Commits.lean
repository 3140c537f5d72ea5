import TinyLsm.Lsm.Invariant

/-!
# What commits apply

When a transaction has committed, the last value it wrote to each key before has been
applied.  A buffered transaction applies nothing else but at a commit, with its own id and
the last value written before.
-/

namespace TinyLsm

/-- What a history holds of the commits in it. -/
structure History.Commits (h : History) : Prop where
  committed : ∀ trancId older, (.committed trancId :: older) <:+ h →
    ∀ key value, key ≠ [] → History.lastWritten trancId key older = some value →
      .applied trancId ⟨key, value, trancId⟩ ∈ older
  buffered : ∀ trancId e, h.Buffered trancId → .applied trancId e ∈ h → e.key ≠ [] →
    e.trancId = trancId ∧ ∃ older, (.committed trancId :: older) <:+ h ∧
      .applied trancId e ∈ older ∧ History.lastWritten trancId e.key older = some e.value

/-- A suffix that starts with an occurrence that is not in front is a suffix of the rest. -/
theorem suffix_of_suffix_append {α : Type} {a : α} {as : List α} :
  ∀ {bs cs : List α}, a ∉ bs → (a :: as) <:+ bs ++ cs → (a :: as) <:+ cs
  | [], _, _, h => h
  | b :: bs, cs, hnot, h => by
      rw [List.cons_append] at h
      rcases List.suffix_cons_iff.mp h with heq | h
      · exact absurd ((List.cons.inj heq).1 ▸ List.mem_cons_self) hnot
      · apply suffix_of_suffix_append (fun hmem => hnot (List.mem_cons_of_mem b hmem)) h

/-- An occurrence that does not commit a transaction, creates none that has applied a version,
and applies none of a buffered one, changes nothing about commits. -/
theorem History.Commits.cons {h : History} (hh : h.Commits) {o : Occurrence}
    (hcreated : ∀ trancId level, o = .created trancId level → ∀ e, .applied trancId e ∉ h)
    (hcommitted : ∀ trancId, o ≠ .committed trancId)
    (happlied : ∀ trancId e, o = .applied trancId e → ¬ h.Buffered trancId) :
  History.Commits (o :: h)
  := by
  constructor
  · intro trancId older hsuffix
    rcases List.suffix_cons_iff.mp hsuffix with heq | hsuffix
    · exact absurd (List.cons.inj heq).1.symm (hcommitted trancId)
    · apply hh.committed trancId older hsuffix
  · rintro trancId e ⟨level, hlevel, hbuffered⟩ he hkey
    rcases List.mem_cons.mp hbuffered with hnew | hbuffered
    · rcases List.mem_cons.mp he with heq | he
      · rw [← hnew] at heq
        cases heq
      · exact absurd he (hcreated trancId level hnew.symm e)
    · rcases List.mem_cons.mp he with heq | he
      · exact absurd ⟨level, hlevel, hbuffered⟩ (happlied trancId e heq.symm)
      · obtain ⟨hid, older, hsuffix, hmem⟩ :=
          hh.buffered trancId e ⟨level, hlevel, hbuffered⟩ he hkey
        exact ⟨hid, older, hsuffix.trans (List.suffix_cons o h), hmem⟩

namespace System

variable {ε : Type}

structure CommitInvariant (s : System ε) : Prop where
  issued : ∀ trancId e, .applied trancId e ∈ s.history →
    trancId < s.manager.nextTransactionId
  unbuffered : ∀ trancId w, .created trancId .readUnopCommitted ∈ s.history →
    .wrote trancId w ∈ s.history → .applied trancId ⟨w.key, w.value, trancId⟩ ∈ s.history ∨
      .write w trancId ∈ (s.pending trancId).calls
  commits : s.history.Commits

/-- An unbuffered transaction with no call of the engine pending has applied its writes. -/
theorem CommitInvariant.applied_of_calls {s : System ε} (hs : s.CommitInvariant)
    {trancId : TrancId} (hcalls : (s.pending trancId).calls = []) {w : WriteCall}
    (hcreated : .created trancId .readUnopCommitted ∈ s.history)
    (hwrote : .wrote trancId w ∈ s.history) :
  .applied trancId ⟨w.key, w.value, trancId⟩ ∈ s.history
  := by
  rcases hs.unbuffered trancId w hcreated hwrote with happlied | hpending
  · apply happlied
  · rw [hcalls] at hpending
    cases hpending

/-- A step keeps the invariant if the calls of transactions it makes or leaves pending are
those that were pending before or that it writes. -/
theorem CommitInvariant.extend {s : System ε} (hs : s.CommitInvariant) (s' : System ε) (h : History)
    (hhistory : s'.history = h ++ s.history)
    (hnext : s.manager.nextTransactionId ≤ s'.manager.nextTransactionId)
    (hcreated : ∀ trancId level, .created trancId level ∉ h)
    (hissued : ∀ trancId e, .applied trancId e ∈ h → trancId < s'.manager.nextTransactionId)
    (hpending : ∀ trancId w, .created trancId .readUnopCommitted ∈ s.history →
      .wrote trancId w ∈ h ∨ .write w trancId ∈ (s.pending trancId).calls →
      .applied trancId ⟨w.key, w.value, trancId⟩ ∈ h ∨
        .write w trancId ∈ (s'.pending trancId).calls)
    (hcommits : History.Commits (h ++ s.history)) :
  s'.CommitInvariant
  := by
  constructor
  · intro trancId e he
    rw [hhistory] at he
    rcases List.mem_append.mp he with he | he
    · apply hissued trancId e he
    · exact (hs.issued trancId e he).trans_le hnext
  · intro trancId w hcreated' hwrote
    rw [hhistory] at hcreated' hwrote ⊢
    have hcreated'' := (List.mem_append.mp hcreated').resolve_left (hcreated trancId _)
    have hold : .applied trancId ⟨w.key, w.value, trancId⟩ ∈ s.history ∨
        .wrote trancId w ∈ h ∨ .write w trancId ∈ (s.pending trancId).calls := by
      rcases List.mem_append.mp hwrote with hwrote | hwrote
      · exact .inr (.inl hwrote)
      · exact (hs.unbuffered trancId w hcreated'' hwrote).imp id .inr
    rcases hold with happlied | hold
    · exact .inl (List.mem_append_right h happlied)
    · exact (hpending trancId w hcreated'' hold).imp (List.mem_append_left s.history) id
  · rw [hhistory]
    apply hcommits

/-- An occurrence that is neither a creation nor a commit nor the application of a version
keeps the invariant. -/
theorem CommitInvariant.occur {s : System ε} (hs : s.CommitInvariant) (s' : System ε)
    (o : Occurrence) (hhistory : s'.history = o :: s.history)
    (hnext : s.manager.nextTransactionId ≤ s'.manager.nextTransactionId)
    (hcreated : ∀ trancId level, o ≠ .created trancId level)
    (hcommitted : ∀ trancId, o ≠ .committed trancId)
    (happlied : ∀ trancId e, o ≠ .applied trancId e)
    (hpending : ∀ trancId w, .created trancId .readUnopCommitted ∈ s.history →
      o = .wrote trancId w ∨ .write w trancId ∈ (s.pending trancId).calls →
        .write w trancId ∈ (s'.pending trancId).calls) :
  s'.CommitInvariant
  := by
  apply hs.extend s' [o] hhistory hnext
  · intro trancId level hmem
    apply hcreated trancId level (List.mem_singleton.mp hmem).symm
  · intro trancId e hmem
    exact absurd (List.mem_singleton.mp hmem).symm (happlied trancId e)
  · intro trancId w hcreated hcall
    right
    apply hpending trancId w hcreated
    apply hcall.imp (fun hwrote => (List.mem_singleton.mp hwrote).symm) id
  · apply hs.commits.cons
    · intro trancId level heq
      exact absurd heq (hcreated trancId level)
    · apply hcommitted
    · intro trancId e heq
      exact absurd heq (happlied trancId e)

/-- Calls left pending after others keep the invariant. -/
theorem CommitInvariant.setPending {s : System ε} (hs : s.CommitInvariant) (s' : System ε)
    (hhistory : s'.history = s.history)
    (hnext : s.manager.nextTransactionId ≤ s'.manager.nextTransactionId) {trancId : TrancId}
    (hidle : (s.pending trancId).calls = [])
    (hpending : ∀ trancId', trancId' ≠ trancId → s'.pending trancId' = s.pending trancId') :
  s'.CommitInvariant
  := by
  apply hs.extend s' [] hhistory hnext
  · intro _ _ hmem
    cases hmem
  · intro _ _ hmem
    cases hmem
  · intro trancId' w _ hcall
    have hcall := hcall.resolve_left List.not_mem_nil
    right
    by_cases hid : trancId' = trancId
    · rw [hid, hidle] at hcall
      cases hcall
    · rwa [hpending trancId' hid]
  · apply hs.commits

/-- A commit of an unbuffered transaction comes after its writes have been applied. -/
theorem CommitInvariant.commits_finish {s : System ε} (hs : s.CommitInvariant)
    {trancId : TrancId} (hcalls : (s.pending trancId).calls = [])
    (hcreated : .created trancId .readUnopCommitted ∈ s.history) :
  History.Commits (.committed trancId :: s.history)
  := by
  constructor
  · intro trancId' older hsuffix key value hkey hlast
    rcases List.suffix_cons_iff.mp hsuffix with heq | hsuffix
    · obtain ⟨hid, rfl⟩ := List.cons.inj heq
      rw [Occurrence.committed.inj hid] at hlast ⊢
      obtain ⟨w, hw, rfl, rfl⟩ := History.mem_of_lastWritten hlast
      apply hs.applied_of_calls hcalls hcreated hw
    · apply hs.commits.committed trancId' older hsuffix key value hkey hlast
  · rintro trancId' e ⟨level, hlevel, hcreated'⟩ he hkey
    have hcreated' := List.mem_of_ne_of_mem Occurrence.noConfusion hcreated'
    have he := List.mem_of_ne_of_mem Occurrence.noConfusion he
    obtain ⟨hid, older, hsuffix, hmem⟩ :=
      hs.commits.buffered trancId' e ⟨level, hlevel, hcreated'⟩ he hkey
    exact ⟨hid, older, hsuffix.trans (List.suffix_cons _ _), hmem⟩

variable [DocumentedEngine ε]

/-- A commit of a buffered transaction comes after what it wrote last has been applied. -/
theorem CommitInvariant.commits_committed {s : System ε} (hs : s.CommitInvariant)
    (hinv : s.Invariant) {trancId : TrancId} {c : TranContext}
    (hc : s.contexts trancId = some c) (hlevel : c.isolationLevel.Buffered)
    {writes : Iteration Bytes} (hwrites : writes.Perm c.tempMap.entries) :
  History.Commits (.committed trancId :: (applications trancId writes ++ s.history))
  := by
  have hold := hinv.consistent trancId c hc
  have hmem : ∀ key value, ⟨key, value⟩ ∈ writes ↔
      s.history.lastWritten trancId key = some value := by
    intro key value
    rw [← hold.tempMap hlevel, hwrites.mem_iff]
    apply AList.mem_lookup_iff.symm
  have hnot : ∀ o ∈ applications trancId writes, ∃ e, o = .applied trancId e := by
    intro o ho
    rcases mem_applications.mp ho with heq | ⟨_, _, _, heq⟩ <;> exact ⟨_, heq⟩
  have hlast : ∀ key, History.lastWritten trancId key (applications trancId writes ++ s.history) =
      s.history.lastWritten trancId key := by
    intro key
    apply History.lastWritten_append
    intro w hw
    obtain ⟨e, he⟩ := hnot _ hw
    cases he
  constructor
  · intro trancId' older hsuffix key value hkey hvalue
    rcases List.suffix_cons_iff.mp hsuffix with heq | hsuffix
    · obtain ⟨hid, rfl⟩ := List.cons.inj heq
      rw [Occurrence.committed.inj hid, hlast] at hvalue
      rw [Occurrence.committed.inj hid]
      apply List.mem_append_left
      apply mem_applications.mpr (.inr ⟨key, value, (hmem key value).mpr hvalue, rfl⟩)
    · have hsuffix' : (.committed trancId' :: older) <:+ s.history := by
        apply suffix_of_suffix_append _ hsuffix
        intro hcommitted
        obtain ⟨e, he⟩ := hnot _ hcommitted
        cases he
      apply hs.commits.committed trancId' older hsuffix' key value hkey hvalue
  · rintro trancId' e ⟨level, hlevel', hcreated⟩ he hkey
    have hcreated' : .created trancId' level ∈ s.history := by
      rcases List.mem_append.mp (List.mem_of_ne_of_mem Occurrence.noConfusion hcreated)
        with hcreated | hcreated
      · obtain ⟨e, he⟩ := hnot _ hcreated
        cases he
      · apply hcreated
    rcases List.mem_append.mp (List.mem_of_ne_of_mem Occurrence.noConfusion he) with happlied | he
    · rcases mem_applications.mp happlied with heq | ⟨key, value, hkept, heq⟩
      · rw [(Occurrence.applied.inj heq).2] at hkey
        exact absurd rfl hkey
      · obtain ⟨rfl, rfl⟩ := Occurrence.applied.inj heq
        refine ⟨rfl, _, List.suffix_refl _, List.mem_append_left _ happlied, ?_⟩
        rw [hlast]
        exact (hmem key value).mp hkept
    · obtain ⟨hid, older, hsuffix, hrest⟩ :=
        hs.commits.buffered trancId' e ⟨level, hlevel', hcreated'⟩ he hkey
      exact ⟨hid, older, hsuffix.trans ((List.suffix_append _ _).trans (List.suffix_cons _ _)),
        hrest⟩

theorem CommitInvariant.newTranc {s : System ε} (hs : s.CommitInvariant) (hinv : s.Invariant)
    (level : IsolationLevel) :
  (s.newTranc level).CommitInvariant
  := by
  constructor
  · intro trancId e he
    exact (hs.issued trancId e (List.mem_of_ne_of_mem Occurrence.noConfusion he)).trans
      (Nat.lt_succ_self _)
  · intro trancId w hcreated hwrote
    have hwrote' := List.mem_of_ne_of_mem Occurrence.noConfusion hwrote
    rcases List.mem_cons.mp hcreated with hnew | hcreated
    · obtain ⟨c, hc⟩ := hinv.wrote trancId w hwrote'
      have hlt := hinv.lt_next hc
      rw [(Occurrence.created.inj hnew).1] at hlt
      exact absurd hlt (lt_irrefl _)
    · exact (hs.unbuffered trancId w hcreated hwrote').imp (List.mem_cons_of_mem _) id
  · apply hs.commits.cons
    · intro trancId level' hnew e he
      have hlt := hs.issued trancId e he
      rw [(Occurrence.created.inj hnew).1] at hlt
      apply lt_irrefl _ hlt
    · intro trancId heq
      cases heq
    · intro trancId e heq
      cases heq

/-- A write of an unbuffered transaction is pending from then on. -/
theorem CommitInvariant.write {s : System ε} (hs : s.CommitInvariant) (hinv : s.Invariant)
    {trancId : TrancId} {c : TranContext} (hc : s.contexts trancId = some c)
    (hidle : s.pending trancId = {}) (w : WriteCall) :
  (s.write trancId c w).CommitInvariant
  := by
  apply hs.occur (s.write trancId c w) _ rfl (le_refl _) nofun nofun nofun
  intro trancId' w' hcreated hcall
  have hold := hinv.consistent trancId c hc
  obtain ⟨c', hc', hlevel⟩ := hinv.created trancId' _ hcreated
  by_cases hid : trancId' = trancId
  · subst hid
    rw [hc] at hc'
    rw [← Option.some.inj hc'] at hlevel
    rcases hcall with hwrote | hcall
    · rw [← (Occurrence.wrote.inj hwrote).2]
      dsimp only [System.write]
      rw [Function.update_self, if_pos hlevel, hold.trancId_eq]
      apply List.mem_singleton_self _
    · rw [hidle] at hcall
      cases hcall
  · rcases hcall with hwrote | hcall
    · exact absurd (Occurrence.wrote.inj hwrote).1.symm hid
    · dsimp only [System.write]
      rwa [Function.update_of_ne hid]

theorem CommitInvariant.committed {s : System ε} (hs : s.CommitInvariant) (hinv : s.Invariant)
    {trancId : TrancId} {c : TranContext} (hc : s.contexts trancId = some c)
    (hlevel : c.isolationLevel.Buffered) {writes : Iteration Bytes}
    (hwrites : writes.Perm c.tempMap.entries) :
  (s.committed trancId c writes).CommitInvariant
  := by
  apply hs.extend (s.committed trancId c writes)
    (.committed trancId :: applications trancId writes) rfl (le_refl _)
  · intro trancId' level hmem
    rcases eq_of_mem_commit hmem with heq | ⟨_, heq⟩ <;> cases heq
  · intro trancId' e hmem
    rcases eq_of_mem_commit hmem with heq | ⟨_, heq⟩
    · cases heq
    · rw [(Occurrence.applied.inj heq).1]
      apply hinv.lt_next hc
  · intro trancId' w _ hcall
    rcases hcall with hmem | hcall
    · rcases eq_of_mem_commit hmem with heq | ⟨_, heq⟩ <;> cases heq
    · exact .inr hcall
  · apply hs.commits_committed hinv hc hlevel hwrites

/-- Only an unbuffered transaction commits when nothing of it is pending any more. -/
theorem CommitInvariant.finish {s : System ε} (hs : s.CommitInvariant) (hinv : s.Invariant)
    {trancId : TrancId} {c : TranContext} {state : TransactionState}
    (hc : s.contexts trancId = some c)
    (hpending : s.pending trancId = ⟨[], some state⟩ ∨
      s.pending trancId = {} ∧ state = .aborted) :
  (s.finish trancId c state).CommitInvariant
  := by
  have hcalls : (s.pending trancId).calls = [] := by
    rcases hpending with hpending | ⟨hpending, -⟩ <;> rw [hpending]
  apply hs.extend (s.finish trancId c state) [endOccurrence trancId state] rfl (le_refl _)
  · intro trancId' level hmem
    cases state <;> cases List.mem_singleton.mp hmem
  · intro trancId' e hmem
    cases state <;> cases List.mem_singleton.mp hmem
  · intro trancId' w _ hcall
    right
    rcases hcall with hmem | hcall
    · cases state <;> cases List.mem_singleton.mp hmem
    · by_cases hid : trancId' = trancId
      · rw [hid, hcalls] at hcall
        cases hcall
      · dsimp only [System.finish]
        rwa [Function.update_of_ne hid]
  · cases state with
    | aborted =>
        exact hs.commits.cons (fun _ _ heq => by cases heq) (fun _ heq => by cases heq)
          (fun _ _ heq => by cases heq)
    | opCommitted =>
        have hunbuffered : c.isolationLevel = .readUnopCommitted := by
          by_contra hbuffered
          have hidle := hinv.buffered trancId c hc hbuffered
          rcases hpending with hpending | ⟨-, hstate⟩
          · rw [hpending] at hidle
            cases hidle
          · cases hstate
        have hcreated := (hinv.consistent trancId c hc).created
        rw [hunbuffered] at hcreated
        apply hs.commits_finish hcalls hcreated

theorem CommitInvariant.lsmWrite {s : System ε} (hs : s.CommitInvariant) (hinv : s.Invariant)
    (w : WriteCall) :
  (s.lsmWrite w).CommitInvariant
  := by
  have hidle := (hinv.unused s.manager.nextTransactionId (le_refl _)).2
  apply hs.occur (s.lsmWrite w) _ rfl (Nat.le_succ _) nofun nofun nofun
  intro trancId' w' _ hcall
  have hcall := hcall.resolve_left nofun
  by_cases hid : trancId' = s.manager.nextTransactionId
  · rw [hid, hidle] at hcall
    cases hcall
  · have hpending : (s.lsmWrite w).pending trancId' = s.pending trancId' := by
      apply Function.update_of_ne hid
    rwa [hpending]

/-- A call of an unbuffered transaction that is made is no longer pending, but applied. -/
theorem CommitInvariant.perform {s : System ε} (hs : s.CommitInvariant) (hinv : s.Invariant)
    {trancId : TrancId} {call : EngineCall} {calls : List EngineCall}
    {ending : Option TransactionState} (hpending : s.pending trancId = ⟨call :: calls, ending⟩) :
  (s.perform trancId call ⟨calls, ending⟩).CommitInvariant
  := by
  have hlt : trancId < s.manager.nextTransactionId := by
    apply lt_of_not_ge
    intro hle
    rw [(hinv.unused trancId hle).2] at hpending
    cases hpending
  apply hs.extend (s.perform trancId call ⟨calls, ending⟩) [.applied trancId call.entry] rfl
    (le_refl _)
  · intro trancId' level hmem
    cases List.mem_singleton.mp hmem
  · intro trancId' e hmem
    rw [(Occurrence.applied.inj (List.mem_singleton.mp hmem)).1]
    apply hlt
  · intro trancId' w _ hcall
    rcases hcall with hwrote | hcall
    · cases List.mem_singleton.mp hwrote
    · by_cases hid : trancId' = trancId
      · subst hid
        rw [hpending] at hcall
        rcases List.mem_cons.mp hcall with rfl | hcall
        · exact .inl List.mem_cons_self
        · right
          dsimp only [System.perform]
          rwa [Function.update_self]
      · right
        dsimp only [System.perform]
        rwa [Function.update_of_ne hid]
  · apply hs.commits.cons (fun _ _ heq => by cases heq) (fun _ heq => by cases heq)
    rintro trancId' e heq ⟨level, hlevel, hcreated⟩
    rw [← (Occurrence.applied.inj heq).1] at hcreated
    obtain ⟨c, hc, hlevel'⟩ := hinv.created trancId level hcreated
    rw [← hlevel'] at hlevel
    rw [hinv.buffered trancId c hc hlevel] at hpending
    cases hpending

theorem CommitInvariant.stepped {s s' : System ε} (hs : s.CommitInvariant) (hinv : s.Invariant)
    (h : Stepped s s') :
  s'.CommitInvariant
  := by
  cases h with
  | newTranc level => apply hs.newTranc hinv
  | write trancId c w hc hidle => apply hs.write hinv hc hidle
  | get trancId c key hc =>
      apply hs.occur (s.get trancId c key) _ rfl (le_refl _) nofun nofun nofun
      intro trancId' w _ hcall
      apply hcall.resolve_left nofun
  | failed trancId c operations hc => exact ⟨hs.issued, hs.unbuffered, hs.commits⟩
  | beginCommit trancId c hc hidle hlevel =>
      apply hs.setPending (s.beginCommit trancId c true) rfl (le_refl _) (by rw [hidle])
      intro trancId' hne
      apply Function.update_of_ne hne _ _
  | refused trancId c hc =>
      apply hs.occur (s.refused trancId c) _ rfl (le_refl _) nofun nofun nofun
      intro trancId' w _ hcall
      apply hcall.resolve_left nofun
  | committed trancId c writes hc hidle hlevel hwrites hconflicts =>
      apply hs.committed hinv hc hlevel hwrites
  | beginAbort trancId c rollbacks hc hidle hlevel hrollbacks =>
      apply hs.setPending (s.beginAbort trancId c rollbacks) rfl (le_refl _) (by rw [hidle])
      intro trancId' hne
      apply Function.update_of_ne hne _ _
  | finish trancId c state hc hpending => apply hs.finish hinv hc hpending
  | lsmWrite w => apply hs.lsmWrite hinv
  | perform trancId call calls ending hpending => apply hs.perform hinv hpending
  | frozenCurTable => exact ⟨hs.issued, hs.unbuffered, hs.commits⟩

theorem CommitInvariant.flush {s : System ε} (hs : s.CommitInvariant) : s.flush.CommitInvariant
  := by
  refine ⟨?_, hs.unbuffered, hs.commits⟩
  intro trancId e he
  exact (hs.issued trancId e he).trans_le
    (TranManager.nextTransactionId_foldl_addFlushedTrancId _ _).ge

theorem reached_commitInvariant {allowed : System ε → Event → Prop} {s : System ε}
    (h : Reached allowed s) :
  s.CommitInvariant
  := by
  apply h.invariant
  · constructor
    · intro trancId e he
      cases he
    · intro trancId w hcreated
      cases hcreated
    · constructor
      · intro trancId older hsuffix
        cases List.suffix_nil.mp hsuffix
      · intro trancId e _ he
        cases he
  · intro s s' event hs hcommits _ hstep
    rcases step_stepped hstep with hstepped | ⟨-, rfl⟩
    · apply hcommits.stepped (reached_invariant hs) hstepped
    · apply hcommits.flush

end System

end TinyLsm
