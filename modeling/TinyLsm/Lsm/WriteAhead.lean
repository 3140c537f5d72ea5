import TinyLsm.Lsm.Invariant
import TinyLsm.Lsm.Journal

/-!
# Logging ahead

A buffered transaction passes its records to the log before it puts a version into the
engine.  An unbuffered one writes to the engine at once, and passes its records to the log
when it commits, before the marker.  What an abort puts back is not logged.
-/

namespace TinyLsm

/-- A system with the journal of what it has done. -/
structure Journaled (ε : Type) where
  system : System ε
  journal : Journal := []

/-! ### Preceding records -/

/-- The record is that of the operation of a transaction that a call of the engine carries out.
A removal that has been kept is put as an empty value. -/
def Record.IsOf (record : Record) (trancId : TrancId) : EngineCall → Prop
  | .write w i =>
      i = trancId ∧ ∃ w' : WriteCall, record = w'.record trancId ∧ w'.key = w.key ∧ w'.value = w.value
  | .marker i => i = trancId ∧ record = Record.commitRecord trancId

/-- The record of the operation has been passed to the log. -/
def Journal.Logged (journal : Journal) (trancId : TrancId) (call : EngineCall) : Prop :=
  ∃ level records, .logged trancId level records ∈ journal ∧
    ∃ record ∈ records, record.IsOf trancId call

/-- An effect may follow on others: a version of a buffered transaction, and a marker, only on
the record of the operation; and the records of an unbuffered transaction are those of all the
versions it has put. -/
def Journal.Justifies (earlier : Journal) : Effect → Prop
  | .called trancId (some level) call =>
      level.Buffered ∨ call = .marker trancId → earlier.Logged trancId call
  | .logged trancId level records =>
      level = .readUnopCommitted → ∀ w i, .called trancId (some level) (.write w i) ∈ earlier →
        ∃ record ∈ records, record.IsOf trancId (.write w i)
  | _ => True

/-- Every effect may follow on those before it. -/
def Journal.WriteAhead (journal : Journal) : Prop :=
  ∀ o earlier, o :: earlier <:+ journal → Journal.Justifies earlier o

namespace Journal

theorem Logged.mono {journal journal' : Journal} {trancId : TrancId} {call : EngineCall}
    (h : journal.Logged trancId call) (hsub : journal ⊆ journal') :
  journal'.Logged trancId call
  := by
  obtain ⟨level, records, hlogged, hrecord⟩ := h
  exact ⟨level, records, hsub hlogged, hrecord⟩

theorem writeAhead_cons {journal : Journal} {o : Effect} (ho : Justifies journal o)
    (h : journal.WriteAhead) :
  WriteAhead (o :: journal)
  := by
  intro o' earlier hsuffix
  rcases List.suffix_cons_iff.mp hsuffix with heq | hsuffix
  · obtain ⟨rfl, rfl⟩ := List.cons.inj heq
    apply ho
  · apply h o' earlier hsuffix

/-- Effects may all follow on a journal that has the records of their operations. -/
theorem writeAhead_append {journal : Journal} :
  ∀ {effects : Journal}, (∀ o ∈ effects, ∃ trancId level call,
      o = .called trancId level call ∧ journal.Logged trancId call) → journal.WriteAhead →
    WriteAhead (effects ++ journal)
  | [], _, h => h
  | o :: effects, heffects, h => by
      obtain ⟨trancId, level, call, rfl, hlogged⟩ := heffects _ List.mem_cons_self
      apply writeAhead_cons
      · cases level with
        | none => trivial
        | some level => exact fun _ => hlogged.mono (List.subset_append_right _ _)
      · apply writeAhead_append (fun o' ho' => heffects o' (List.mem_cons_of_mem _ ho')) h

end Journal

/-! ### The records of a context -/

namespace System

variable {ε : Type} [DocumentedEngine ε]

/-- A context has the records of what its transaction wrote. -/
def Recorded (s : System ε) : Prop :=
  ∀ trancId c w, s.contexts trancId = some c → .wrote trancId w ∈ s.history →
    w.record trancId ∈ c.operations

omit [DocumentedEngine ε] in
/-- Contexts keep their records, and get that of what they write. -/
theorem Recorded.update {s s' : System ε} (hs : s.Recorded) {trancId : TrancId}
    {c c' : TranContext} (hc : s.contexts trancId = some c)
    (hcontexts : s'.contexts = Function.update s.contexts trancId (some c'))
    (hoperations : c.operations ⊆ c'.operations)
    (hwrote : ∀ i w, .wrote i w ∈ s'.history → .wrote i w ∈ s.history ∨
      i = trancId ∧ w.record trancId ∈ c'.operations) :
  s'.Recorded
  := by
  intro i c'' w hc'' hw
  rw [hcontexts] at hc''
  rcases update_eq_some hc'' with ⟨rfl, rfl⟩ | ⟨hne, hc''⟩
  · rcases hwrote i w hw with hw | ⟨-, hrecord⟩
    · apply hoperations (hs i c w hc hw)
    · apply hrecord
  · apply hs i c'' w hc'' ((hwrote i w hw).resolve_right (fun h => hne h.1))

omit [DocumentedEngine ε] in
theorem Recorded.congr {s s' : System ε} (hs : s.Recorded) (hcontexts : s'.contexts = s.contexts)
    (hwrote : ∀ i w, .wrote i w ∈ s'.history → .wrote i w ∈ s.history) :
  s'.Recorded
  := by
  intro i c w hc hw
  rw [hcontexts] at hc
  apply hs i c w hc (hwrote i w hw)

end System

namespace Journaled

variable {ε : Type} [DocumentedEngine ε]

def start : Journaled ε := { system := System.start }

def step (s : Journaled ε) (event : Event) : Option (Journaled ε) :=
  (System.step s.system event).map (fun system =>
    { system, journal := s.system.effects event ++ s.journal })

abbrev Reached : Journaled ε → Prop := Transition.Reached step start (fun _ _ => True)

/-- What is left to do of a call of a transaction: a marker only if the commit has logged, and
versions that it wrote, unless it puts versions back. -/
structure Owed (journal : Journal) (h : History) (trancId : TrancId) (pending : Pending) :
    Prop where
  marker : ∀ j, .marker j ∈ pending.calls → journal.Logged trancId (.marker j)
  write : ∀ w j, .write w j ∈ pending.calls →
    pending.ending = some .aborted ∨ .wrote trancId w ∈ h ∧ j = trancId

/-- What a system with a journal keeps: what is left to do of calls is owed, the versions in the
journal that unbuffered transactions have put are what they wrote, every effect may follow on
those before it, and the journal accounts for the log and for the versions in the engine. -/
structure Accounted (s : Journaled ε) : Prop where
  system : s.system.Invariant
  recorded : s.system.Recorded
  pending : ∀ i c, s.system.contexts i = some c →
    Owed s.journal s.system.history i (s.system.pending i)
  called : ∀ i w j, .called i (some .readUnopCommitted) (.write w j) ∈ s.journal →
    .wrote i w ∈ s.system.history ∧ j = i
  ahead : s.journal.WriteAhead
  wal : s.system.manager.wal = s.journal.reverse.flatMap Effect.records
  entries : s.system.history.entries = s.journal.filterMap Effect.entry?

omit [DocumentedEngine ε] in
theorem Owed.mono {journal journal' : Journal} {h h' : History} {trancId : TrancId}
    {pending : Pending} (howed : Owed journal h trancId pending) (hjournal : journal ⊆ journal')
    (hsub : h ⊆ h') :
  Owed journal' h' trancId pending
  := ⟨fun j hj => (howed.marker j hj).mono hjournal,
    fun w j hj => (howed.write w j hj).imp_right (fun hw => ⟨hsub hw.1, hw.2⟩)⟩

omit [DocumentedEngine ε] in
theorem owed_of_calls {journal : Journal} {h : History} {trancId : TrancId} {pending : Pending}
    (hcalls : pending.calls = []) :
  Owed journal h trancId pending
  := by
  constructor
  · intro j hj
    rw [hcalls] at hj
    nomatch hj
  · intro w j hj
    rw [hcalls] at hj
    nomatch hj

theorem start_accounted : (start : Journaled ε).Accounted
  := by
  refine ⟨System.start_invariant, nofun, nofun, nofun, ?_, rfl, rfl⟩
  intro o earlier hsuffix
  nomatch List.suffix_nil.mp hsuffix

/-- A step that has effects. -/
theorem Accounted.extend {s : Journaled ε} (hs : s.Accounted) {system : System ε}
    (hinv : system.Invariant) (hrecorded : system.Recorded) (effects : Journal)
    (hsub : s.system.history ⊆ system.history)
    (hpending : ∀ i c, system.contexts i = some c →
      (∃ c', s.system.contexts i = some c') ∧ system.pending i = s.system.pending i ∨
        Owed (effects ++ s.journal) system.history i (system.pending i))
    (hcalled : ∀ i w j, .called i (some .readUnopCommitted) (.write w j) ∈ effects →
      .wrote i w ∈ system.history ∧ j = i)
    (hahead : Journal.WriteAhead (effects ++ s.journal))
    (hwal : system.manager.wal = s.system.manager.wal ++ effects.reverse.flatMap Effect.records)
    (hentries : system.history.entries =
      effects.filterMap Effect.entry? ++ s.system.history.entries) :
  Accounted { system, journal := effects ++ s.journal }
  := by
  constructor
  · apply hinv
  · apply hrecorded
  · intro i c hc
    rcases hpending i c hc with ⟨⟨c', hc'⟩, hsame⟩ | howed
    · dsimp only
      rw [hsame]
      apply (hs.pending i c' hc').mono (List.subset_append_right _ _) hsub
    · apply howed
  · intro i w j hmem
    rcases List.mem_append.mp hmem with hmem | hmem
    · apply hcalled i w j hmem
    · obtain ⟨hwrote, heq⟩ := hs.called i w j hmem
      exact ⟨hsub hwrote, heq⟩
  · apply hahead
  · dsimp only
    rw [hwal, hs.wal, List.reverse_append, List.flatMap_append]
  · dsimp only
    rw [hentries, hs.entries, List.filterMap_append]

/-- A step that has no effect, after which what is left to do of a call is as before or
owed. -/
theorem Accounted.quiet {s : Journaled ε} (hs : s.Accounted) {system : System ε}
    (hinv : system.Invariant) (hrecorded : system.Recorded)
    (hsub : s.system.history ⊆ system.history)
    (hpending : ∀ i c, system.contexts i = some c →
      (∃ c', s.system.contexts i = some c') ∧ system.pending i = s.system.pending i ∨
        Owed s.journal system.history i (system.pending i))
    (hwal : system.manager.wal = s.system.manager.wal)
    (hentries : system.history.entries = s.system.history.entries) :
  Accounted { system, journal := s.journal }
  := by
  apply hs.extend hinv hrecorded [] hsub hpending _ hs.ahead _ hentries
  · exact nofun
  · apply hwal.trans (List.append_nil _).symm

/-! ### The steps -/

theorem Accounted.newTranc {s : Journaled ε} (hs : s.Accounted) (level : IsolationLevel) :
  Accounted { system := s.system.newTranc level, journal := s.journal }
  := by
  obtain ⟨hnone, hpending⟩ := hs.system.unused _ (le_refl s.system.manager.nextTransactionId)
  apply hs.quiet (hs.system.newTranc level) _ (List.subset_cons_self _ _) _ rfl rfl
  · intro i c w hc hw
    have hw' := (List.mem_cons.mp hw).resolve_left nofun
    obtain ⟨c', hc'⟩ := hs.system.wrote i w hw'
    rcases System.update_eq_some hc with ⟨rfl, -⟩ | ⟨-, hc⟩
    · rw [hnone] at hc'
      nomatch hc'
    · apply hs.recorded i c w hc hw'
  · intro i c hc
    rcases System.update_eq_some hc with ⟨rfl, -⟩ | ⟨-, hc⟩
    · right
      apply owed_of_calls
      apply congrArg Pending.calls hpending
    · exact .inl ⟨⟨c, hc⟩, rfl⟩

theorem operations_prepare {ε : Type} [LSMEngine ε] (c : TranContext) (e : ε) (record : Record)
    (key value : Bytes) :
  (c.prepare e record key value).operations = c.operations ++ [record]
  := by
  rw [TranContext.prepare]
  split <;> rfl

theorem Accounted.write {s : Journaled ε} (hs : s.Accounted) {trancId : TrancId}
    {c : TranContext} (hc : s.system.contexts trancId = some c)
    (hidle : s.system.pending trancId = {}) (w : WriteCall) :
  Accounted { system := s.system.write trancId c w, journal := s.journal }
  := by
  have hid := (hs.system.consistent trancId c hc).trancId_eq
  have hinv := hs.system.stepped (.write trancId c w hc hidle)
  apply hs.quiet hinv _ (List.subset_cons_self _ _) _ rfl rfl
  · apply hs.recorded.update hc rfl
    · rw [operations_prepare]
      apply List.subset_append_left
    · intro i w' hw'
      rcases List.mem_cons.mp hw' with heq | hw'
      · obtain ⟨rfl, rfl⟩ := Occurrence.wrote.inj heq
        right
        rw [operations_prepare, hid]
        exact ⟨rfl, List.mem_append_right _ List.mem_cons_self⟩
      · exact .inl hw'
  · intro i c' hc'
    by_cases heq : i = trancId
    · subst heq
      right
      dsimp only [System.write]
      rw [Function.update_self]
      split
      · constructor
        · intro j hj
          nomatch List.mem_singleton.mp hj
        · intro w' j hj
          obtain ⟨rfl, rfl⟩ := EngineCall.write.inj (List.mem_singleton.mp hj)
          exact .inr ⟨List.mem_cons_self, hid⟩
      · apply owed_of_calls rfl
    · obtain ⟨-, hc'⟩ := (System.update_eq_some hc').resolve_left (fun h => heq h.1)
      exact .inl ⟨⟨c', hc'⟩, Function.update_of_ne heq _ _⟩

/-- A step that has no effect and leaves nothing to do, and in which a context changes other
than by a write, and keeps its records. -/
theorem Accounted.setContext {s : Journaled ε} (hs : s.Accounted) {system : System ε}
    (hinv : system.Invariant) {trancId : TrancId} {c c' : TranContext}
    (hc : s.system.contexts trancId = some c)
    (hcontexts : system.contexts = Function.update s.system.contexts trancId (some c'))
    (hoperations : c.operations ⊆ c'.operations)
    (hpending : ∀ i, system.pending i = s.system.pending i ∨ (system.pending i).calls = [])
    (h : History) (hhistory : system.history = h ++ s.system.history)
    (hwrote : ∀ i w, .wrote i w ∉ h) (hentries : History.entries h = [])
    (hwal : system.manager.wal = s.system.manager.wal) :
  Accounted { system, journal := s.journal }
  := by
  apply hs.quiet hinv _ _ _ hwal
  · rw [hhistory, History.entries_append, hentries, List.nil_append]
  · apply hs.recorded.update hc hcontexts hoperations
    intro i w hw
    rw [hhistory] at hw
    exact .inl ((List.mem_append.mp hw).resolve_left (hwrote i w))
  · rw [hhistory]
    apply List.subset_append_right
  · intro i c'' hc''
    rcases hpending i with hsame | hcalls
    · left
      refine ⟨?_, hsame⟩
      rw [hcontexts] at hc''
      rcases System.update_eq_some hc'' with ⟨rfl, -⟩ | ⟨-, hc''⟩
      · exact ⟨c, hc⟩
      · exact ⟨c'', hc''⟩
    · exact .inr (owed_of_calls hcalls)

/-- The records of an unbuffered transaction are those of the versions it has put. -/
theorem Accounted.justifies_logged {s : Journaled ε} (hs : s.Accounted) {trancId : TrancId}
    {c : TranContext} (hc : s.system.contexts trancId = some c) :
  s.journal.Justifies (.logged c.trancId c.isolationLevel c.commitRecords)
  := by
  have hid := (hs.system.consistent trancId c hc).trancId_eq
  intro hlevel w i hmem
  rw [hid, hlevel] at hmem
  obtain ⟨hwrote, rfl⟩ := hs.called _ _ _ hmem
  refine ⟨_, List.mem_append_left _ (hs.recorded _ c w hc hwrote), ?_⟩
  rw [hid]
  exact ⟨rfl, w, rfl, rfl, rfl⟩

theorem Accounted.beginCommit {s : Journaled ε} (hs : s.Accounted) {trancId : TrancId}
    {c : TranContext} (hc : s.system.contexts trancId = some c)
    (hidle : s.system.pending trancId = {}) (hlevel : c.isolationLevel = .readUnopCommitted) :
  Accounted
    { system := s.system.beginCommit trancId c true
      journal := .logged c.trancId c.isolationLevel c.commitRecords :: s.journal }
  := by
  have hid := (hs.system.consistent trancId c hc).trancId_eq
  have hinv := hs.system.stepped (.beginCommit trancId c hc hidle hlevel)
  apply hs.extend hinv _ [.logged c.trancId c.isolationLevel c.commitRecords]
    (List.Subset.refl _) _ _ (Journal.writeAhead_cons (hs.justifies_logged hc) hs.ahead) _ rfl
  · exact hs.recorded.update hc rfl (List.subset_append_left _ _) (fun _ _ hw => .inl hw)
  · intro i c' hc'
    by_cases heq : i = trancId
    · subst heq
      right
      have hpending : (s.system.beginCommit i c true).pending i =
          ⟨[.marker c.trancId], some .opCommitted⟩ := Function.update_self _ _ _
      rw [hpending]
      constructor
      · intro j hj
        obtain rfl := EngineCall.marker.inj (List.mem_singleton.mp hj)
        refine ⟨c.isolationLevel, c.commitRecords, ?_, Record.commitRecord c.trancId, ?_, ?_⟩
        · rw [hid]
          apply List.mem_cons_self
        · apply List.mem_append_right _ List.mem_cons_self
        · exact ⟨hid, congrArg _ hid⟩
      · intro w j hj
        nomatch List.mem_singleton.mp hj
    · obtain ⟨-, hc'⟩ := (System.update_eq_some hc').resolve_left (fun h => heq h.1)
      exact .inl ⟨⟨c', hc'⟩, Function.update_of_ne heq _ _⟩
  · exact fun i w j hmem => nomatch List.mem_singleton.mp hmem
  · apply congrArg (s.system.manager.wal ++ ·) (List.append_nil _).symm

/-- What a commit of a buffered transaction puts into the engine has been logged. -/
theorem Accounted.logged_commit {s : Journaled ε} (hs : s.Accounted) {trancId : TrancId}
    {c : TranContext} (hc : s.system.contexts trancId = some c)
    (hbuffered : c.isolationLevel.Buffered) {writes : Iteration Bytes}
    (hwrites : writes.Perm c.tempMap.entries) {journal : Journal}
    (hlogged : .logged c.trancId c.isolationLevel c.commitRecords ∈ journal) :
  journal.Logged c.trancId (.marker c.trancId) ∧
    ∀ w ∈ writes, journal.Logged c.trancId (.write (.put w.1 w.2) c.trancId)
  := by
  have hconsistent := hs.system.consistent trancId c hc
  constructor
  · exact ⟨_, _, hlogged, _, List.mem_append_right _ List.mem_cons_self, rfl, rfl⟩
  · intro w hw
    have hlookup : c.tempMap.lookup w.1 = some w.2 :=
      AList.mem_lookup_iff.mpr (hwrites.mem_iff.mp hw)
    rw [hconsistent.tempMap hbuffered] at hlookup
    obtain ⟨w', hw', hkey, hvalue⟩ := History.mem_of_lastWritten hlookup
    have hrecord := hs.recorded trancId c w' hc hw'
    rw [← hconsistent.trancId_eq] at hrecord
    exact ⟨_, _, hlogged, _, List.mem_append_left _ hrecord, rfl, w', rfl, hkey, hvalue⟩

theorem Accounted.committed {s : Journaled ε} (hs : s.Accounted) {trancId : TrancId}
    {c : TranContext} (hc : s.system.contexts trancId = some c)
    (hidle : s.system.pending trancId = {}) (hbuffered : c.isolationLevel.Buffered)
    {writes : Iteration Bytes} (hwrites : writes.Perm c.tempMap.entries)
    (hconflicts : c.isolationLevel.Checked →
      c.conflicts s.system.engine s.system.manager writes = .ok false) :
  Accounted
    { system := s.system.committed trancId c writes
      journal := c.commitBufferedEffects writes true ++ s.journal }
  := by
  have hid := (hs.system.consistent trancId c hc).trancId_eq
  have hinv := hs.system.stepped (.committed trancId c writes hc hidle hbuffered hwrites hconflicts)
  have hput : ∀ o ∈ (writes.map (fun w => Effect.called c.trancId (some c.isolationLevel)
      (.write (.put w.1 w.2) c.trancId))).reverse, ∃ w ∈ writes,
        Effect.called c.trancId (some c.isolationLevel) (.write (.put w.1 w.2) c.trancId) = o :=
    fun o ho => List.mem_map.mp (List.mem_reverse.mp ho)
  apply hs.extend hinv _ _ (List.subset_append_right _ _)
  · intro i c' hc'
    left
    rcases System.update_eq_some hc' with ⟨rfl, -⟩ | ⟨-, hc'⟩
    · exact ⟨⟨c, hc⟩, rfl⟩
    · exact ⟨⟨c', hc'⟩, rfl⟩
  · intro i w j hmem
    exfalso
    apply hbuffered
    rcases List.mem_cons.mp hmem with heq | hmem
    · cases (Effect.called.inj heq).2.2
    · rcases List.mem_append.mp hmem with hmem | hmem
      · obtain ⟨w', -, heq⟩ := hput _ hmem
        apply Option.some.inj (Effect.called.inj heq).2.1
      · cases List.mem_singleton.mp hmem
  · -- the records are passed to the log first, and all else follows on them
    rw [TranContext.commitBufferedEffects, if_pos rfl, List.cons_append, List.append_assoc,
      ← List.cons_append]
    obtain ⟨hmarker, hwritten⟩ := hs.logged_commit hc hbuffered hwrites
      (show .logged c.trancId c.isolationLevel c.commitRecords ∈
        .logged c.trancId c.isolationLevel c.commitRecords :: s.journal from List.mem_cons_self)
    apply Journal.writeAhead_append _
      (Journal.writeAhead_cons (hs.justifies_logged hc) hs.ahead)
    intro o ho
    rcases List.mem_cons.mp ho with rfl | ho
    · exact ⟨_, _, _, rfl, hmarker⟩
    · obtain ⟨w, hw, rfl⟩ := hput o ho
      exact ⟨_, _, _, rfl, hwritten w hw⟩
  · rw [TranContext.records_commitBufferedEffects]
    rfl
  · have hentries : History.entries (System.commitOccurrences trancId writes (.ok true)) =
        ⟨[], [], trancId⟩ :: (tempEntries trancId writes).reverse :=
      System.entries_applications trancId writes
    rw [TranContext.entries_commitBufferedEffects, hid, ← hentries]
    apply History.entries_append
  · apply hs.recorded.update hc rfl (List.subset_append_left _ _)
    intro i w hw
    rcases List.mem_append.mp hw with hw | hw
    · rcases System.eq_of_mem_commit hw with heq | ⟨e, heq⟩ <;> cases heq
    · exact .inl hw

/-- A pending call is made. -/
theorem Accounted.perform {s : Journaled ε} (hs : s.Accounted) {trancId : TrancId}
    {call : EngineCall} {calls : List EngineCall} {ending : Option TransactionState}
    (hpending : s.system.pending trancId = ⟨call :: calls, ending⟩) :
  Accounted
    { system := s.system.perform trancId call ⟨calls, ending⟩
      journal := s.system.effects (.proceed trancId) ++ s.journal }
  := by
  have hinv := hs.system.stepped (.perform trancId call calls ending hpending)
  have hrecorded : (s.system.perform trancId call ⟨calls, ending⟩).Recorded :=
    hs.recorded.congr rfl (fun _ _ hw => (List.mem_cons.mp hw).resolve_left nofun)
  have howed : ∀ i c, s.system.contexts i = some c → Owed (s.system.effects (.proceed trancId) ++
      s.journal) (.applied trancId call.entry :: s.system.history) i
      (Function.update s.system.pending trancId ⟨calls, ending⟩ i) := by
    intro i c hc
    apply Owed.mono _ (List.subset_append_right _ _) (List.subset_cons_self _ _)
    have hold := hs.pending i c hc
    by_cases heq : i = trancId
    · subst heq
      rw [hpending] at hold
      rw [Function.update_self]
      exact ⟨fun j hj => hold.marker j (List.mem_cons_of_mem _ hj),
        fun w j hj => hold.write w j (List.mem_cons_of_mem _ hj)⟩
    · rw [Function.update_of_ne heq]
      apply hold
  have hcases : ending = some .aborted ∧
      s.system.effects (.proceed trancId) = [.restored trancId call] ∨
      ending ≠ some .aborted ∧ s.system.effects (.proceed trancId) =
        [.called trancId ((s.system.contexts trancId).map TranContext.isolationLevel) call] := by
    rw [System.effects, hpending]
    cases ending with
    | none => exact .inr ⟨nofun, rfl⟩
    | some state =>
        cases state with
        | opCommitted => exact .inr ⟨nofun, rfl⟩
        | aborted => exact .inl ⟨rfl, rfl⟩
  apply hs.extend hinv hrecorded _ (List.subset_cons_self _ _)
    (fun i c hc => .inr (howed i c hc))
  · intro i w j hmem
    rcases hcases with ⟨-, heffects⟩ | ⟨hending, heffects⟩ <;> rw [heffects] at hmem
    · nomatch List.mem_singleton.mp hmem
    · obtain ⟨rfl, hlevel, rfl⟩ := Effect.called.inj (List.mem_singleton.mp hmem)
      obtain ⟨c, hc, -⟩ := Option.map_eq_some_iff.mp hlevel.symm
      have hold := (hs.pending i c hc).write w j
      rw [hpending] at hold
      obtain ⟨hwrote, heq⟩ := (hold List.mem_cons_self).resolve_left hending
      exact ⟨List.mem_cons_of_mem _ hwrote, heq⟩
  · rcases hcases with ⟨-, heffects⟩ | ⟨hending, heffects⟩ <;> rw [heffects]
    · exact Journal.writeAhead_cons trivial hs.ahead
    · apply Journal.writeAhead_cons _ hs.ahead
      cases hc : s.system.contexts trancId with
      | none => trivial
      | some c =>
          -- only an unbuffered transaction leaves calls pending
          rintro (hbuffered | rfl)
          · have hidle := hs.system.buffered trancId c hc hbuffered
            rw [hpending] at hidle
            nomatch hidle
          · have hold := (hs.pending trancId c hc).marker trancId
            rw [hpending] at hold
            apply hold List.mem_cons_self
  · rcases hcases with ⟨-, heffects⟩ | ⟨-, heffects⟩ <;> rw [heffects] <;>
      exact (List.append_nil _).symm
  · rcases hcases with ⟨-, heffects⟩ | ⟨-, heffects⟩ <;> rw [heffects] <;> rfl

theorem Accounted.get {s : Journaled ε} (hs : s.Accounted) {trancId : TrancId}
    {c : TranContext} (hc : s.system.contexts trancId = some c) (key : Bytes) :
  Accounted { system := s.system.get trancId c key, journal := s.journal }
  := by
  apply hs.setContext (hs.system.stepped (.get trancId c key hc)) hc rfl _ (fun _ => .inl rfl)
    [_] rfl (fun _ _ h => nomatch List.mem_singleton.mp h) rfl rfl
  obtain ⟨readMap, hcontext⟩ := TranContext.get_context c s.system.engine key
  rw [hcontext]
  apply List.Subset.refl

/-- A commit of a buffered transaction. -/
theorem Accounted.commit {s : Journaled ε} (hs : s.Accounted) {trancId : TrancId}
    {c : TranContext} (hc : s.system.contexts trancId = some c)
    (hidle : s.system.pending trancId = {}) (hbuffered : c.isolationLevel.Buffered)
    {writes : Iteration Bytes} (hwrites : writes.Perm c.tempMap.entries) (walOk : Bool) :
  Accounted
    { system := s.system.commit trancId c writes walOk
      journal := c.commitEffects s.system.engine s.system.manager writes walOk ++ s.journal }
  := by
  have hinv := hs.system.stepped (System.commit_stepped hc hidle hwrites hbuffered walOk)
  rw [System.commit] at hinv ⊢
  rcases TranContext.commit_effects hbuffered s.system.engine s.system.manager writes walOk with
    ⟨fault, c', h, hc', heffects⟩ | ⟨h, heffects⟩ | ⟨hconflicts, h, heffects⟩ <;>
    rw [h] at hinv ⊢ <;> rw [heffects]
  · apply hs.setContext hinv hc rfl _ (fun _ => .inl rfl) [] rfl (fun _ _ => List.not_mem_nil)
      rfl rfl
    rcases hc' with rfl | rfl
    · apply List.Subset.refl
    · apply List.subset_append_left
  · apply hs.setContext hinv hc rfl (List.Subset.refl _) (fun _ => .inl rfl) [_] rfl
      (fun _ _ h => by cases List.mem_singleton.mp h) rfl rfl
  · apply hs.committed hc hidle hbuffered hwrites hconflicts

theorem Accounted.finish {s : Journaled ε} (hs : s.Accounted) {trancId : TrancId}
    {c : TranContext} {state : TransactionState} (hc : s.system.contexts trancId = some c)
    (hpending : s.system.pending trancId = ⟨[], some state⟩ ∨
      s.system.pending trancId = {} ∧ state = .aborted) :
  Accounted { system := s.system.finish trancId c state, journal := s.journal }
  := by
  have hinv := hs.system.stepped (.finish trancId c state hc hpending)
  apply hs.setContext hinv hc rfl _ _ [System.endOccurrence trancId state] rfl
  · intro i w hw
    cases state <;> nomatch List.mem_singleton.mp hw
  · cases state <;> rfl
  · rfl
  · cases state <;> apply List.Subset.refl
  · intro i
    by_cases heq : i = trancId
    · subst heq
      right
      apply congrArg Pending.calls (Function.update_self i ({} : Pending) s.system.pending)
    · exact .inl (Function.update_of_ne heq _ _)

theorem Accounted.beginAbort {s : Journaled ε} (hs : s.Accounted) {trancId : TrancId}
    {c : TranContext} {rollbacks : Iteration (Option (Bytes × TrancId))}
    (hc : s.system.contexts trancId = some c) (hidle : s.system.pending trancId = {})
    (hlevel : c.isolationLevel = .readUnopCommitted)
    (hrollbacks : rollbacks.Perm c.rollbackMap.entries) :
  Accounted { system := s.system.beginAbort trancId c rollbacks, journal := s.journal }
  := by
  apply hs.quiet (hs.system.stepped (.beginAbort trancId c rollbacks hc hidle hlevel hrollbacks))
    (hs.recorded.congr rfl (fun _ _ hw => hw)) (List.Subset.refl _) _ rfl rfl
  intro i c' hc'
  by_cases heq : i = trancId
  · subst heq
    right
    have hpending : (s.system.beginAbort i c rollbacks).pending i =
        ⟨rollbacks.map c.restoreCall, some .aborted⟩ := Function.update_self _ _ _
    rw [hpending]
    constructor
    · intro j hj
      obtain ⟨⟨key, previous⟩, -, hcall⟩ := List.mem_map.mp hj
      rw [TranContext.restoreCall] at hcall
      split at hcall <;> nomatch hcall
    · exact fun w j _ => .inl rfl
  · exact .inl ⟨⟨c', hc'⟩, Function.update_of_ne heq _ _⟩

theorem Accounted.lsmWrite {s : Journaled ε} (hs : s.Accounted) (w : WriteCall) :
  Accounted { system := s.system.lsmWrite w, journal := s.journal }
  := by
  apply hs.quiet (hs.system.stepped (.lsmWrite w))
    (hs.recorded.congr rfl (fun _ _ hw => (List.mem_cons.mp hw).resolve_left nofun))
    (List.subset_cons_self _ _) _ rfl rfl
  intro i c hc
  have hne : i ≠ s.system.manager.nextTransactionId := (hs.system.lt_next hc).ne
  exact .inl ⟨⟨c, hc⟩, Function.update_of_ne hne _ _⟩

theorem Accounted.flush {s : Journaled ε} (hs : s.Accounted) :
  Accounted { system := s.system.flush, journal := s.journal }
  := by
  have hwal : ∀ (trancIds : List TrancId) (m : TranManager),
      (trancIds.foldl TranManager.addFlushedTrancId m).wal = m.wal := by
    intro trancIds
    induction trancIds with
    | nil => exact fun _ => rfl
    | cons i trancIds ih => exact fun m => ih (m.addFlushedTrancId i)
  apply hs.quiet hs.system.flush (hs.recorded.congr rfl (fun _ _ hw => hw)) (List.Subset.refl _)
    (fun _ c hc => .inl ⟨⟨c, hc⟩, rfl⟩) (hwal _ _) rfl

theorem Accounted.step {s s' : Journaled ε} {event : Event} (hs : s.Accounted)
    (h : step s event = some s') :
  s'.Accounted
  := by
  obtain ⟨system, hsystem, rfl⟩ := Option.map_eq_some_iff.mp h
  cases event with
  | newTranc level =>
      obtain rfl := Option.some.inj hsystem
      apply hs.newTranc level
  | write trancId w =>
      obtain ⟨c, hc, rfl⟩ := Option.map_eq_some_iff.mp hsystem
      obtain ⟨hc, hidle⟩ := System.idle?_eq_some hc
      apply hs.write hc hidle w
  | get trancId key =>
      obtain ⟨c, hc, rfl⟩ := Option.map_eq_some_iff.mp hsystem
      apply hs.get (System.idle?_eq_some hc).1 key
  | commit trancId writes walOk =>
      obtain ⟨c, hidle?, hsystem⟩ := Option.bind_eq_some_iff.mp hsystem
      obtain ⟨hc, hidle⟩ := System.idle?_eq_some hidle?
      rw [System.effects, hidle?]
      dsimp only
      split at hsystem
      next hwrites =>
        split at hsystem
        next hlevel =>
          obtain rfl := Option.some.inj hsystem
          rw [if_pos hlevel]
          cases walOk with
          | true => apply hs.beginCommit hc hidle hlevel
          | false =>
              apply hs.setContext (hs.system.stepped (.failed trancId c c.commitRecords hc)) hc rfl
                (List.subset_append_left _ _) (fun _ => .inl rfl) [] rfl
                (fun _ _ => List.not_mem_nil) rfl rfl
        next hlevel =>
          obtain rfl := Option.some.inj hsystem
          rw [if_neg hlevel]
          apply hs.commit hc hidle hlevel hwrites walOk
      next => nomatch hsystem
  | abort trancId rollbacks =>
      obtain ⟨c, hc, hsystem⟩ := Option.bind_eq_some_iff.mp hsystem
      obtain ⟨hc, hidle⟩ := System.idle?_eq_some hc
      split at hsystem
      next hrollbacks =>
        split at hsystem
        next hlevel =>
          obtain rfl := Option.some.inj hsystem
          apply hs.beginAbort hc hidle hlevel hrollbacks
        next hlevel =>
          obtain rfl := Option.some.inj hsystem
          apply hs.finish hc (.inr ⟨hidle, rfl⟩)
      next => nomatch hsystem
  | lsmWrite w =>
      obtain rfl := Option.some.inj hsystem
      apply hs.lsmWrite w
  | proceed trancId =>
      rw [System.step] at hsystem
      split at hsystem
      next call calls ending hpending =>
        obtain rfl := Option.some.inj hsystem
        apply hs.perform hpending
      next state hpending =>
        obtain ⟨c, hc, rfl⟩ := Option.map_eq_some_iff.mp hsystem
        rw [System.effects, hpending]
        apply hs.finish hc (.inl hpending)
      next => nomatch hsystem
  | frozenCurTable =>
      obtain rfl := Option.some.inj hsystem
      apply hs.quiet (hs.system.stepped .frozenCurTable) (hs.recorded.congr rfl (fun _ _ hw => hw))
        (List.Subset.refl _) (fun _ c hc => .inl ⟨⟨c, hc⟩, rfl⟩) rfl rfl
  | flush =>
      obtain rfl := Option.some.inj hsystem
      apply hs.flush

theorem accounted_of_reached {s : Journaled ε} (h : Reached s) : s.Accounted
  := Transition.Reached.invariant start_accounted (fun _ hs _ hstep => hs.step hstep) h

/-- A version of a buffered transaction, and a marker, is put into the engine only after the
record of the operation has been passed to the log, and the records of an unbuffered
transaction that are passed to the log are those of all the versions it has put.  The log has
the records that have been passed to it, and the engine the versions that have been put. -/
theorem writeAhead {s : Journaled ε} (h : Reached s) :
  s.journal.WriteAhead ∧ s.system.manager.wal = s.journal.reverse.flatMap Effect.records ∧
    s.system.history.entries = s.journal.filterMap Effect.entry?
  := by
  have hs := accounted_of_reached h
  exact ⟨hs.ahead, hs.wal, hs.entries⟩

/-- A buffered transaction removes a key. -/
theorem writeAhead_removed :
  ∃ s : Journaled Tables, Reached s ∧ s.journal =
      [.called 1 (some .serializable) (.marker 1),
        .called 1 (some .serializable) (.write (.put [1] []) 1),
        .logged 1 .serializable
          [Record.createRecord 1, Record.deleteRecord 1 [1], Record.commitRecord 1]] ∧
    s.journal.WriteAhead ∧ s.system.manager.wal = s.journal.reverse.flatMap Effect.records ∧
    s.system.history.entries = s.journal.filterMap Effect.entry?
  := by
  have hrun : (Transition.run step (fun _ _ => True) (start : Journaled Tables)
      [.newTranc .serializable, .write 1 (.remove [1]), .commit 1 [⟨[1], []⟩] true]).map
        Journaled.journal =
      some [.called 1 (some .serializable) (.marker 1),
        .called 1 (some .serializable) (.write (.put [1] []) 1),
        .logged 1 .serializable
          [Record.createRecord 1, Record.deleteRecord 1 [1], Record.commitRecord 1]] := by
    decide
  obtain ⟨s, hs, hjournal⟩ := Option.map_eq_some_iff.mp hrun
  have hreached : Reached s := Transition.reached_of_run hs
  exact ⟨s, hreached, hjournal, writeAhead hreached⟩

/-- An unbuffered transaction puts a version into the engine, and nothing has been logged. -/
theorem not_logged_of_called :
  ¬ ∀ s : Journaled Tables, Reached s → ∀ trancId level call earlier,
    .called trancId (some level) call :: earlier <:+ s.journal →
      Journal.Logged earlier trancId call
  := by
  intro h
  have hrun : (Transition.run step (fun _ _ => True) (start : Journaled Tables)
      [.newTranc .readUnopCommitted, .write 1 (.put [1] [7]), .proceed 1]).map
        Journaled.journal =
      some [.called 1 (some .readUnopCommitted) (.write (.put [1] [7]) 1)] := by
    decide
  obtain ⟨s, hs, hjournal⟩ := Option.map_eq_some_iff.mp hrun
  have hlogged := h s (Transition.reached_of_run hs) 1 .readUnopCommitted
    (.write (.put [1] [7]) 1) []
  rw [hjournal] at hlogged
  obtain ⟨level, records, hmem, -⟩ := hlogged (List.suffix_refl _)
  nomatch hmem

end Journaled

end TinyLsm
