import TinyLsm.Library.VersionHistory
import TinyLsm.Lsm.Commits

/-!
# Conflicts

A commit that checks for conflicts compares ids, not times: it fails if the newest version of
a key it writes has a greater id.  So no transaction with a greater id has written the key
and committed before, unless its version has been overwritten by a writer that does not
check.
-/

namespace TinyLsm

/-- A version that a writer has applied. -/
structure Application where
  writer : TrancId
  entry : Entry

namespace History

def application? : Occurrence → Option Application
  | .applied writer e => some ⟨writer, e⟩
  | _ => none

/-- The versions applied, with their writers, the newest first. -/
def log (h : History) : List Application := h.filterMap application?

theorem log_append (h h' : History) : log (h ++ h') = log h ++ log h' := List.filterMap_append

theorem entries_eq (h : History) : h.entries = (log h).map Application.entry
  := by
  rw [log, List.map_filterMap, entries]
  congr 1
  funext o
  cases o <;> rfl

theorem mem_log {h : History} {a : Application} : a ∈ log h ↔ .applied a.writer a.entry ∈ h
  := by
  rw [log, List.mem_filterMap]
  constructor
  · rintro ⟨o, ho, ha⟩
    cases o with
    | applied writer e =>
        rw [← Option.some.inj ha]
        apply ho
    | _ => cases ha
  · intro ha
    exact ⟨_, ha, rfl⟩

/-- The newest version of a key, as a query without a transaction finds it. -/
theorem newest_log (key : Bytes) (h : History) :
  latest key 0 h.entries =
    (VersionHistory.newest (fun a => a.entry.key) key (log h)).map Application.entry
  := by
  rw [entries_eq, latest, List.find?_map]
  congr 2
  funext a
  apply decide_eq_decide.mpr
  apply and_iff_left (.inl rfl)

/-- A version that was checked before it was applied: one of a transaction that checks for
conflicts, and not the marker. -/
def CheckedApplication (h : History) (a : Application) : Prop :=
  h.Checked a.writer ∧ a.entry.key ≠ []

/-- The versions that were checked are ordered by their ids after those before them. -/
def ChecksOrdered (h : History) : Prop :=
  VersionHistory.Ordered (fun a => a.entry.key) (fun a => a.entry.trancId)
    h.CheckedApplication h.log

end History

namespace TranContext

variable {ε : Type} [LSMEngine ε]

/-- There are no conflicts exactly when there is none on any of the keys. -/
theorem conflicts_eq_false {c : TranContext} {e : ε} {m : TranManager} :
  ∀ {writes : Iteration Bytes}, c.conflicts e m writes = .ok false ↔
    ∀ w ∈ writes, c.conflictsOn e m w.1 = .ok false
  | [] => ⟨fun _ w hw => absurd hw List.not_mem_nil, fun _ => rfl⟩
  | ⟨key, value⟩ :: writes => by
      have ih : c.conflicts e m writes = .ok false ↔
          ∀ w ∈ writes, c.conflictsOn e m w.1 = .ok false := conflicts_eq_false
      rw [List.forall_mem_cons, ← ih, conflicts]
      cases c.conflictsOn e m key with
      | error fault => exact ⟨fun h => (nomatch h), fun h => (nomatch h.1)⟩
      | ok found =>
          cases found with
          | true => exact ⟨fun h => (nomatch h), fun h => (nomatch h.1)⟩
          | false => exact ⟨fun h => ⟨rfl, h⟩, fun h => h.2⟩

/-- Without a conflict on a key, the memtable has no version of it with a greater id. -/
theorem le_of_conflictsOn_false {c : TranContext} {e : ε} {m : TranManager} {key : Bytes}
    (h : c.conflictsOn e m key = .ok false) {version : Entry}
    (hversion : LSMEngine.memtableGet_ e key 0 = some version) (hkey : version.key ≠ []) :
  version.trancId ≤ c.trancId
  := by
  by_contra hlt
  have hfound : c.conflictsInMemtable e key = true := by
    rw [conflictsInMemtable, hversion, Bool.and_eq_true, decide_eq_true_iff]
    constructor
    · cases hkey' : version.key with
      | nil => exact absurd hkey' hkey
      | cons b key => rfl
    · apply lt_of_not_ge hlt
  rw [conflictsOn, if_pos hfound] at h
  cases h

end TranContext

namespace System

variable {ε : Type} [DocumentedEngine ε]

/-- What holds as long as nothing is flushed. -/
structure ConflictInvariant (s : System ε) : Prop where
  ssts : (DocumentedEngine.tables s.engine).ssts = []
  ordered : s.history.ChecksOrdered

omit [DocumentedEngine ε] in
/-- Versions with one id keep the versions ordered, if for those of them that are checked the
newest version before has no greater id. -/
theorem ordered_append {s : System ε} (hs : s.history.ChecksOrdered) (h : History)
    (hcreated : ∀ trancId level, .created trancId level ∈ h →
      ∀ e, .applied trancId e ∉ s.history)
    (i : TrancId) (hid : ∀ a ∈ History.log h, a.entry.trancId = i)
    (hchecked : ∀ a ∈ History.log h, History.CheckedApplication (h ++ s.history) a →
      ∀ b, VersionHistory.newest (fun a => a.entry.key) a.entry.key s.history.log = some b →
        b.entry.trancId ≤ i) :
  History.ChecksOrdered (h ++ s.history)
  := by
  have hold : VersionHistory.Ordered (fun a => a.entry.key) (fun a => a.entry.trancId)
      (History.CheckedApplication (h ++ s.history)) s.history.log := by
    apply VersionHistory.Ordered.mono hs
    rintro a ha ⟨⟨level, hlevel, hmem⟩, hkey⟩
    rcases List.mem_append.mp hmem with hmem | hmem
    · exact absurd (History.mem_log.mp ha) (hcreated a.writer level hmem a.entry)
    · exact ⟨⟨level, hlevel, hmem⟩, hkey⟩
  rw [History.ChecksOrdered, History.log_append]
  apply hold.append hid hchecked

/-- Without flushes, the memtable has the newest version of each key. -/
theorem ConflictInvariant.memtableGet_eq {s : System ε} (hs : s.ConflictInvariant)
    (hinv : s.Invariant) (key : Bytes) :
  LSMEngine.memtableGet_ s.engine key 0 =
    (VersionHistory.newest (fun a => a.entry.key) key s.history.log).map Application.entry
  := by
  have hversions : (DocumentedEngine.tables s.engine).memtable =
      (DocumentedEngine.tables s.engine).versions := by
    rw [Tables.versions, hs.ssts, List.flatten_nil, List.append_nil]
  rw [DocumentedEngine.memtableGet_eq, hversions, hinv.engine, History.newest_log]

/-- When a transaction that checks for conflicts finds none, the newest version of a key it
writes has no greater id. -/
theorem ConflictInvariant.newest_le {s : System ε} (hs : s.ConflictInvariant)
    (hinv : s.Invariant) {c : TranContext} {writes : Iteration Bytes}
    (hconflicts : c.conflicts s.engine s.manager writes = .ok false) {key value : Bytes}
    (hmem : ⟨key, value⟩ ∈ writes) (hkey : key ≠ []) {a : Application}
    (ha : VersionHistory.newest (fun a => a.entry.key) key s.history.log = some a) :
  a.entry.trancId ≤ c.trancId
  := by
  have hversion : LSMEngine.memtableGet_ s.engine key 0 = some a.entry := by
    rw [hs.memtableGet_eq hinv, ha]
    rfl
  apply TranContext.le_of_conflictsOn_false
    (TranContext.conflicts_eq_false.mp hconflicts _ hmem) hversion
  have hfound := List.find?_some ha
  have hakey : a.entry.key = key := of_decide_eq_true hfound
  rw [hakey]
  apply hkey

/-- A commit that checks for conflicts and finds none keeps the versions ordered. -/
theorem ConflictInvariant.ordered_committed {s : System ε} (hs : s.ConflictInvariant)
    (hinv : s.Invariant) {trancId : TrancId} {c : TranContext}
    (hc : s.contexts trancId = some c) {writes : Iteration Bytes}
    (hconflicts : c.isolationLevel.Checked →
      c.conflicts s.engine s.manager writes = .ok false) :
  History.ChecksOrdered (.committed trancId :: applications trancId writes ++ s.history)
  := by
  have happlied : ∀ a ∈ History.log (.committed trancId :: applications trancId writes),
      a = ⟨trancId, [], [], trancId⟩ ∨
        ∃ key value, ⟨key, value⟩ ∈ writes ∧ a = ⟨trancId, key, value, trancId⟩ := by
    intro a ha
    have ha := List.mem_of_ne_of_mem Occurrence.noConfusion (History.mem_log.mp ha)
    rcases mem_applications.mp ha with heq | ⟨key, value, hmem, heq⟩
    · obtain ⟨hwriter, he⟩ := Occurrence.applied.inj heq
      exact .inl (congrArg₂ Application.mk hwriter he)
    · obtain ⟨hwriter, he⟩ := Occurrence.applied.inj heq
      exact .inr ⟨key, value, hmem, congrArg₂ Application.mk hwriter he⟩
  have hnot : ∀ trancId' level,
      .created trancId' level ∉ Occurrence.committed trancId :: applications trancId writes := by
    intro trancId' level hmem
    rcases eq_of_mem_commit hmem with heq | ⟨_, heq⟩ <;> cases heq
  apply ordered_append hs.ordered (.committed trancId :: applications trancId writes)
    (fun trancId' level hmem => absurd hmem (hnot trancId' level)) trancId
  · intro a ha
    rcases happlied a ha with rfl | ⟨key, value, -, rfl⟩ <;> rfl
  · rintro a ha ⟨⟨level, hlevel, hcreated⟩, hkey⟩ b hb
    rcases happlied a ha with rfl | ⟨key, value, hmem, rfl⟩
    · exact absurd rfl hkey
    · have hcreated := (List.mem_append.mp hcreated).resolve_left (hnot trancId level)
      obtain ⟨c', hc', rfl⟩ := hinv.created trancId level hcreated
      rw [hc] at hc'
      rw [← Option.some.inj hc'] at hlevel
      rw [← (hinv.consistent trancId c hc).trancId_eq]
      apply hs.newest_le hinv (hconflicts hlevel) hmem hkey hb

omit [DocumentedEngine ε] in
/-- Occurrences that apply no version, and create no transaction that has applied one, keep
the versions ordered. -/
theorem ordered_append_of_not {s : System ε} (hs : s.history.ChecksOrdered) (h : History)
    (hcreated : ∀ trancId level, .created trancId level ∈ h →
      ∀ e, .applied trancId e ∉ s.history)
    (happlied : ∀ trancId e, .applied trancId e ∉ h) :
  History.ChecksOrdered (h ++ s.history)
  := by
  apply ordered_append hs h hcreated 0
  · intro a ha
    exact absurd (History.mem_log.mp ha) (happlied a.writer a.entry)
  · intro a ha
    exact absurd (History.mem_log.mp ha) (happlied a.writer a.entry)

omit [DocumentedEngine ε] in
theorem ordered_cons {s : System ε} (hs : s.history.ChecksOrdered) {o : Occurrence}
    (hcreated : ∀ trancId level, o ≠ .created trancId level)
    (happlied : ∀ trancId e, o ≠ .applied trancId e) :
  History.ChecksOrdered (o :: s.history)
  := by
  apply ordered_append_of_not hs [o]
  · intro trancId level hmem
    exact absurd (List.mem_singleton.mp hmem).symm (hcreated trancId level)
  · intro trancId e hmem
    apply happlied trancId e (List.mem_singleton.mp hmem).symm

theorem ConflictInvariant.stepped {s s' : System ε} (hs : s.ConflictInvariant)
    (hinv : s.Invariant) (hcommits : s.CommitInvariant) (h : Stepped s s') :
  s'.ConflictInvariant
  := by
  refine ⟨h.flushed.1.trans hs.ssts, ?_⟩
  cases h with
  | newTranc level =>
      apply ordered_append_of_not hs.ordered [.created s.manager.nextTransactionId level]
      · intro trancId level' hmem e he
        have hlt := hcommits.issued trancId e he
        rw [(Occurrence.created.inj (List.mem_singleton.mp hmem)).1] at hlt
        apply lt_irrefl _ hlt
      · intro trancId e hmem
        cases List.mem_singleton.mp hmem
  | write trancId c w hc hidle => exact ordered_cons hs.ordered nofun nofun
  | get trancId c key hc => exact ordered_cons hs.ordered nofun nofun
  | failed trancId c operations hc => apply hs.ordered
  | beginCommit trancId c hc hidle hlevel => apply hs.ordered
  | refused trancId c hc => exact ordered_cons hs.ordered nofun nofun
  | committed trancId c writes hc hidle hlevel hwrites hconflicts =>
      apply hs.ordered_committed hinv hc hconflicts
  | beginAbort trancId c rollbacks hc hidle hlevel hrollbacks => apply hs.ordered
  | finish trancId c state hc hpending =>
      cases state <;> exact ordered_cons hs.ordered nofun nofun
  | lsmWrite w => exact ordered_cons hs.ordered nofun nofun
  | perform trancId call calls ending hpending =>
      apply ordered_append hs.ordered [.applied trancId call.entry] _ call.entry.trancId
      · intro a ha
        rw [(Occurrence.applied.inj (List.mem_singleton.mp (History.mem_log.mp ha))).2]
      · rintro a ha ⟨⟨level, hlevel, hcreated⟩, -⟩
        have hcreated := List.mem_of_ne_of_mem Occurrence.noConfusion hcreated
        rw [(Occurrence.applied.inj (List.mem_singleton.mp (History.mem_log.mp ha))).1]
          at hcreated
        obtain ⟨c, hc, rfl⟩ := hinv.created trancId level hcreated
        rw [hinv.buffered trancId c hc hlevel.buffered] at hpending
        cases hpending
      · intro trancId' level hmem
        cases List.mem_singleton.mp hmem
  | frozenCurTable => apply hs.ordered

/-- Events other than flushes. -/
def NoFlush : Event → Prop
  | .flush => False
  | _ => True

instance (event : Event) : Decidable (NoFlush event) :=
  match event with
  | .flush => inferInstanceAs (Decidable False)
  | .newTranc _ | .write _ _ | .get _ _ | .commit _ _ _ | .abort _ _ | .lsmWrite _ | .proceed _
  | .frozenCurTable => inferInstanceAs (Decidable True)

theorem reached_conflictInvariant {s : System ε} (h : Reached (fun _ event => NoFlush event) s) :
  s.ConflictInvariant
  := by
  apply h.invariant
  · constructor
    · have hfresh : DocumentedEngine.tables (start : System ε).engine = {} :=
        DocumentedEngine.tables_fresh
      rw [hfresh]
    · intro newer a older hlog
      cases newer <;> cases hlog
  · intro s s' event hs hconflicts hallowed hstep
    rcases step_stepped hstep with hstepped | ⟨rfl, -⟩
    · apply hconflicts.stepped (reached_invariant hs) (reached_commitInvariant hs) hstepped
    · apply hallowed.elim

/-- When a transaction that checks for conflicts commits, and another one with a greater id
has written one of its keys and committed before, then that version of the key has been
overwritten with an id that is not greater, by a writer that does not check. -/
theorem overwritten_of_commit {s : System ε} (hs : Reached (fun _ event => NoFlush event) s)
    {trancId : TrancId} {c : TranContext} (hc : s.contexts trancId = some c)
    (hlevel : c.isolationLevel.Checked) {writes : Iteration Bytes}
    (hwrites : writes.Perm c.tempMap.entries) {walOk : Bool}
    (hcommit : (c.commit s.engine s.manager writes walOk).1 = .ok true) {key : Bytes}
    (hkey : key ≠ []) {w : WriteCall} (hw : .wrote trancId w ∈ s.history) (hwkey : w.key = key)
    {other : TrancId} (hlt : trancId < other) {newer older : History}
    (hhistory : s.history = newer ++ .committed other :: older) {w' : WriteCall}
    (hw' : .wrote other w' ∈ older) (hwkey' : w'.key = key) :
  ∃ later value earlier, s.history = later ++ .applied other ⟨key, value, other⟩ :: earlier ∧
    ∃ writer e, .applied writer e ∈ later ∧ e.key = key ∧ e.trancId ≤ trancId ∧
      (∃ w'', s.history.Wrote writer w'' ∧ w''.key = key) ∧ ¬ s.history.Checked writer
  := by
  have hinv := reached_invariant hs
  have hconflictInv := reached_conflictInvariant hs
  have hold := hinv.consistent trancId c hc
  -- the key is among the writes that are checked, and no conflict is found
  obtain ⟨kept, hkept⟩ := History.lastWritten_isSome hw
  rw [hwkey, ← hold.tempMap hlevel.buffered] at hkept
  have hmem : ⟨key, kept⟩ ∈ writes := hwrites.mem_iff.mpr (AList.mem_lookup_iff.mp hkept)
  have hconflicts : c.conflicts s.engine s.manager writes = .ok false := by
    rcases TranContext.commit_buffered hlevel.buffered s.engine s.manager writes walOk with
      ⟨_, _, h⟩ | h | ⟨h, -⟩
    · rw [h] at hcommit
      cases hcommit
    · rw [h] at hcommit
      cases hcommit
    · apply h hlevel
  -- the other transaction has applied what it wrote last before it committed
  obtain ⟨value, hvalue⟩ := History.lastWritten_isSome hw'
  rw [hwkey'] at hvalue
  have happlied := (reached_commitInvariant hs).commits.committed other older
    (by rw [hhistory]; exact List.suffix_append _ _) key value hkey hvalue
  have happlied' : .applied other ⟨key, value, other⟩ ∈ s.history := by
    rw [hhistory]
    apply List.mem_append_right newer (List.mem_cons_of_mem _ happlied)
  obtain ⟨later, earlier, hsplit⟩ := List.append_of_mem happlied'
  refine ⟨later, value, earlier, hsplit, ?_⟩
  have hlog : s.history.log = History.log later ++
      ⟨other, key, value, other⟩ :: History.log earlier := by
    rw [hsplit, History.log_append]
    rfl
  have hnewest : ∀ b, VersionHistory.newest (fun a => a.entry.key) key s.history.log = some b →
      b.entry.trancId ≤ trancId := by
    intro b hb
    rw [← hold.trancId_eq]
    apply hconflictInv.newest_le hinv hconflicts hmem hkey hb
  obtain ⟨b, hb, hbkey, hble, hunchecked⟩ :=
    hconflictInv.ordered.exists_unchecked hnewest hlog rfl hlt
  have hb := History.mem_log.mp hb
  have happlied : .applied b.writer b.entry ∈ s.history := by
    rw [hsplit]
    apply List.mem_append_left _ hb
  have hbne : b.entry.key ≠ [] := by
    rw [hbkey]
    apply hkey
  obtain ⟨w'', hw'', hwkey''⟩ := (hinv.applied b.writer b.entry happlied).wrote hbne
  refine ⟨b.writer, b.entry, hb, hbkey, hble, ⟨w'', hw'', hwkey''.trans hbkey⟩, ?_⟩
  intro hchecked
  apply hunchecked ⟨hchecked, hbne⟩

/-- A transaction commits over a newer one whose version an older one has overwritten, which
does not check. -/
theorem overwritten_of_commit_unchecked :
  ∃ s, Transition.run step (fun _ event => NoFlush event) (start : System Tables)
      [.newTranc .readOpCommitted, .newTranc .repeatableRead, .newTranc .repeatableRead,
        .write 2 (.put [1] [7]), .write 3 (.put [1] [8]), .commit 3 [⟨[1], [8]⟩] true,
        .write 1 (.put [1] [9]), .commit 1 [⟨[1], [9]⟩] true] = some s ∧
    ∃ later value earlier, s.history = later ++ .applied 3 ⟨[1], value, 3⟩ :: earlier ∧
      ∃ writer e, .applied writer e ∈ later ∧ e.key = [1] ∧ e.trancId ≤ 2 ∧
        (∃ w'', s.history.Wrote writer w'' ∧ w''.key = [1]) ∧ ¬ s.history.Checked writer
  := by
  have hrun : (Transition.run step (fun _ event => NoFlush event) (start : System Tables)
      [.newTranc .readOpCommitted, .newTranc .repeatableRead, .newTranc .repeatableRead,
        .write 2 (.put [1] [7]), .write 3 (.put [1] [8]), .commit 3 [⟨[1], [8]⟩] true,
        .write 1 (.put [1] [9]), .commit 1 [⟨[1], [9]⟩] true]).map System.history =
      some ([.committed 1, .applied 1 ⟨[], [], 1⟩, .applied 1 ⟨[1], [9], 1⟩,
          .wrote 1 (.put [1] [9])] ++ .committed 3 ::
          [.applied 3 ⟨[], [], 3⟩, .applied 3 ⟨[1], [8], 3⟩, .wrote 3 (.put [1] [8]),
            .wrote 2 (.put [1] [7]), .created 3 .repeatableRead, .created 2 .repeatableRead,
            .created 1 .readOpCommitted]) := by decide
  have hcontext : (Transition.run step (fun _ event => NoFlush event) (start : System Tables)
      [.newTranc .readOpCommitted, .newTranc .repeatableRead, .newTranc .repeatableRead,
        .write 2 (.put [1] [7]), .write 3 (.put [1] [8]), .commit 3 [⟨[1], [8]⟩] true,
        .write 1 (.put [1] [9]), .commit 1 [⟨[1], [9]⟩] true]).bind (fun s =>
      (s.contexts 2).map (fun c => (c.isolationLevel, c.tempMap.entries,
        (c.commit s.engine s.manager [⟨[1], [7]⟩] true).1))) =
      some (.repeatableRead, [⟨[1], [7]⟩], .ok true) := by decide
  obtain ⟨s, hs, hhistory⟩ := Option.map_eq_some_iff.mp hrun
  rw [hs, Option.bind_some] at hcontext
  obtain ⟨c, hc, hcontext⟩ := Option.map_eq_some_iff.mp hcontext
  obtain ⟨hlevel, hcontext⟩ := Prod.mk.inj hcontext
  obtain ⟨hentries, hcommit⟩ := Prod.mk.inj hcontext
  refine ⟨s, hs, ?_⟩
  have hw : .wrote 2 (.put [1] [7]) ∈ s.history := by
    rw [hhistory]
    decide
  have hw' : Occurrence.wrote 3 (.put [1] [8]) ∈ [.applied 3 ⟨[], [], 3⟩,
      .applied 3 ⟨[1], [8], 3⟩, .wrote 3 (.put [1] [8]), .wrote 2 (.put [1] [7]),
      .created 3 .repeatableRead, .created 2 .repeatableRead,
      .created 1 .readOpCommitted] := by decide
  apply overwritten_of_commit (Transition.reached_of_run hs) hc (by rw [hlevel]; decide)
    (by rw [hentries]) hcommit (by decide) hw rfl (by decide) hhistory hw' rfl

/-- A transaction commits although an older one has written its key and committed since the
transaction was created. -/
theorem not_first_committer_wins :
  ¬ ∀ s : System Tables, Reached (fun _ event => NoFlush event) s →
    ∀ (trancId other : TrancId) (c : TranContext) (level : IsolationLevel)
      (writes : Iteration Bytes) (walOk : Bool) (w w' : WriteCall) (newer older : History),
      s.contexts trancId = some c → c.isolationLevel.Checked →
      writes.Perm c.tempMap.entries →
      (c.commit s.engine s.manager writes walOk).1 = .ok true →
      .wrote trancId w ∈ s.history → w.key ≠ [] → other ≠ trancId →
      s.history = newer ++ .committed other :: older → .created trancId level ∈ older →
      .wrote other w' ∈ older → w'.key ≠ w.key
  := by
  intro h
  have hrun : (Transition.run step (fun _ event => NoFlush event) (start : System Tables)
      [.newTranc .repeatableRead, .newTranc .repeatableRead, .write 1 (.put [1] [7]),
        .write 2 (.put [1] [8]), .commit 1 [⟨[1], [7]⟩] true]).map System.history =
      some ([] ++ .committed 1 ::
          [.applied 1 ⟨[], [], 1⟩, .applied 1 ⟨[1], [7], 1⟩, .wrote 2 (.put [1] [8]),
            .wrote 1 (.put [1] [7]), .created 2 .repeatableRead,
            .created 1 .repeatableRead]) := by decide
  have hcontext : (Transition.run step (fun _ event => NoFlush event) (start : System Tables)
      [.newTranc .repeatableRead, .newTranc .repeatableRead, .write 1 (.put [1] [7]),
        .write 2 (.put [1] [8]), .commit 1 [⟨[1], [7]⟩] true]).bind (fun s =>
      (s.contexts 2).map (fun c => (c.isolationLevel, c.tempMap.entries,
        (c.commit s.engine s.manager [⟨[1], [8]⟩] true).1))) =
      some (.repeatableRead, [⟨[1], [8]⟩], .ok true) := by decide
  obtain ⟨s, hs, hhistory⟩ := Option.map_eq_some_iff.mp hrun
  rw [hs, Option.bind_some] at hcontext
  obtain ⟨c, hc, hcontext⟩ := Option.map_eq_some_iff.mp hcontext
  obtain ⟨hlevel, hcontext⟩ := Prod.mk.inj hcontext
  obtain ⟨hentries, hcommit⟩ := Prod.mk.inj hcontext
  have hw : .wrote 2 (.put [1] [8]) ∈ s.history := by
    rw [hhistory]
    decide
  apply h s (Transition.reached_of_run hs) 2 1 c .repeatableRead [⟨[1], [8]⟩] true _
    (.put [1] [7]) _ _ hc (by rw [hlevel]; decide) (by rw [hentries]) hcommit hw (by decide)
    (by decide) hhistory (by decide) (by decide) rfl

end System

end TinyLsm
