import TinyLsm.Library.Grouping
import TinyLsm.Lsm.Durability

/-!
# Restarting

A store that crashes and is opened again has of every buffered transaction what it had written
when it committed last, and nothing of one that had not committed.  What a query finds then is
the version with the greatest id among those that have been logged, which the query may see,
and only if there is none, a version that had been flushed.
-/

namespace TinyLsm

/-! ### The log files -/

namespace WAL

/-- The records in the log files, the oldest first. -/
def records (w : WAL) : List Record := w.files.pairs.flatMap Prod.snd

/-- Collecting records is grouping them by their transactions. -/
theorem collect_eq : collect = OrderedMap.addToGroup Record.trancId
  := by
  funext transactions record
  rw [collect, OrderedMap.addToGroup, ← OrderedMap.map_find?_pairs]

theorem recover_eq (w : WAL) (checkpointTrancId : TrancId) :
  recover w.files checkpointTrancId = OrderedMap.group Record.trancId
    (w.records.filter (fun r => decide (checkpointTrancId < r.trancId)))
  := by
  rw [recover, collect_eq]
  rfl

/-- The active file, which has the greatest number, is the last one. -/
theorem exists_active {w : WAL} (hpresent : w.Present) (hlast : w.ActiveLast) :
  ∃ ps records, w.files.pairs = ps ++ [(w.activeSeq, records)] ∧ ∀ p ∈ ps, p.1 ≠ w.activeSeq
  := by
  obtain ⟨⟨seq, records⟩, hp, rfl⟩ := hpresent
  obtain ⟨ps, qs, hpairs⟩ := List.append_of_mem hp
  have hascending := w.files.ascending
  rw [hpairs, List.pairwise_append] at hascending
  obtain ⟨-, hqs, hps⟩ := hascending
  have hnil : qs = [] := by
    apply List.eq_nil_iff_forall_not_mem.mpr
    intro q hq
    have hmem : q ∈ w.files.pairs := by
      rw [hpairs]
      exact List.mem_append_right ps (List.mem_cons_of_mem _ hq)
    exact absurd ((List.pairwise_cons.mp hqs).1 q hq) (not_lt_of_ge (hlast q hmem))
  rw [hnil] at hpairs
  exact ⟨ps, records, hpairs, fun p hp => (hps p hp _ List.mem_cons_self).ne⟩

theorem records_log {w : WAL} (hpresent : w.Present) (hlast : w.ActiveLast)
    (records : List Record) :
  (w.log records).records = w.records ++ records
  := by
  obtain ⟨ps, active, hpairs, hne⟩ := exists_active hpresent hlast
  have hsame : ps.map (fun p => if p.1 = w.activeSeq then (p.1, p.2 ++ records) else p) = ps :=
    (List.map_congr_left (fun p hp => if_neg (hne p hp))).trans (List.map_id ps)
  have hlog : (w.log records).files.pairs = ps ++ [(w.activeSeq, active ++ records)] := by
    change w.files.pairs.map (fun p => if p.1 = w.activeSeq then (p.1, p.2 ++ records) else p) = _
    rw [hpairs, List.map_append, hsame, List.map_singleton, if_pos rfl]
  rw [WAL.records, WAL.records, hlog, hpairs]
  simp only [List.flatMap_append, List.flatMap_cons, List.flatMap_nil, List.append_nil,
    List.append_assoc]

theorem present_log {w : WAL} (hpresent : w.Present) (records : List Record) :
  (w.log records).Present
  := by
  obtain ⟨p, hp, hactive⟩ := hpresent
  refine ⟨_, OrderedMap.mem_modify.mpr ⟨p, hp, rfl⟩, ?_⟩
  rw [if_pos hactive]
  apply hactive

/-- Cleaning removes no record after the checkpoint. -/
theorem records_cleanWALFile {w : WAL} (h : ∀ r ∈ w.records, w.checkpointTrancId < r.trancId) :
  w.cleanWALFile.records = w.records
  := by
  change (unfinishedFiles w.checkpointTrancId w.files.pairs).flatMap Prod.snd =
    w.files.pairs.flatMap Prod.snd
  have h : ∀ r ∈ w.files.pairs.flatMap Prod.snd, w.checkpointTrancId < r.trancId := h
  revert h
  generalize w.files.pairs = ps
  induction ps with
  | nil => exact fun _ => rfl
  | cons p ps ih =>
      intro h
      cases ps with
      | nil => rfl
      | cons q ps =>
          have hrest := ih (fun r hr => h r (List.mem_append_right _ hr))
          rw [unfinishedFiles]
          split
          next => exact congrArg (p.2 ++ ·) hrest
          next hfinished =>
            -- a file without a record after the checkpoint is empty
            have hnil : p.2 = [] := by
              apply List.eq_nil_iff_forall_not_mem.mpr
              intro r hr
              apply hfinished
              exact List.any_eq_true.mpr
                ⟨r, hr, decide_eq_true (h r (List.mem_append_left _ hr))⟩
            refine hrest.trans (Eq.symm ?_)
            rw [List.flatMap_cons, hnil, List.nil_append]

theorem present_cleanWALFile {w : WAL} (hpresent : w.Present) (hlast : w.ActiveLast) :
  w.cleanWALFile.Present
  := by
  obtain ⟨ps, active, hpairs, -⟩ := exists_active hpresent hlast
  refine ⟨(w.activeSeq, active), ?_, rfl⟩
  change (w.activeSeq, active) ∈ unfinishedFiles w.checkpointTrancId w.files.pairs
  rw [hpairs, unfinishedFiles_concat]
  exact List.mem_append_right _ List.mem_cons_self

theorem records_resetFile {w : WAL} (hlast : w.ActiveLast) :
  w.resetFile.records = w.records
  := by
  change (OrderedMap.assignPair (w.activeSeq + 1) [] w.files.pairs).flatMap Prod.snd =
    w.files.pairs.flatMap Prod.snd
  have hlast : ∀ p ∈ w.files.pairs, p.1 ≤ w.activeSeq := hlast
  revert hlast
  generalize w.files.pairs = ps
  induction ps with
  | nil => exact fun _ => rfl
  | cons p ps ih =>
      intro hlast
      obtain ⟨hp, hps⟩ := List.forall_mem_cons.mp hlast
      rw [OrderedMap.assignPair, if_neg (not_lt_of_ge (Nat.le_succ_of_le hp)),
        if_neg (Nat.lt_succ_of_le hp).ne']
      exact congrArg (p.2 ++ ·) (ih hps)

theorem present_resetFile (w : WAL) : w.resetFile.Present
  := by
  obtain ⟨records, hmem⟩ := OrderedMap.exists_mem_assignPair.mpr
    (.inl rfl : w.activeSeq + 1 = w.activeSeq + 1 ∨ ∃ d, (w.activeSeq + 1, d) ∈ w.files.pairs)
  exact ⟨_, hmem, rfl⟩

end WAL

/-! ### The replay -/

theorem firstVersion_insertVersion (key : Bytes) (P : TrancId → Prop) [DecidablePred P]
    (e : Entry) :
  ∀ es : List Entry, firstVersion key P (insertVersion e es) = firstVersion key P (e :: es)
  | [] => rfl
  | e' :: es => by
      have ih := firstVersion_insertVersion key P e es
      rw [insertVersion]
      split
      next hlt =>
        rw [firstVersion_cons, ih]
        simp only [firstVersion_cons]
        by_cases he' : e'.key = key ∧ P e'.trancId
        · have hne : ¬ (e.key = key ∧ P e.trancId) := by
            rintro ⟨he, -⟩
            rw [he'.1, he] at hlt
            apply lt_irrefl key hlt
          rw [if_pos he', if_neg hne, if_pos he']
        · rw [if_neg he', if_neg he']
      · split
        next hsame =>
          simp only [firstVersion_cons]
          by_cases he : e.key = key ∧ P e.trancId
          · rw [if_pos he, if_pos he]
          · rw [if_neg he, if_neg he, if_neg (hsame.1 ▸ hsame.2 ▸ he)]
        next => rfl

namespace Tables

theorem firstVersion_foldl_put (key : Bytes) (P : TrancId → Prop) [DecidablePred P] :
  ∀ (es : List Entry) (t : Tables), firstVersion key P (es.foldl put t).versions =
    (firstVersion key P es.reverse).or (firstVersion key P t.versions)
  | [], _ => rfl
  | e :: es, t => by
      have hput : firstVersion key P (t.put e).versions = firstVersion key P (e :: t.versions) := by
        rw [versions, memtable, put, List.append_assoc, firstVersion_append,
          firstVersion_insertVersion, ← firstVersion_append, List.cons_append, ← List.append_assoc]
        rfl
      rw [List.foldl_cons, firstVersion_foldl_put key P es, hput, List.reverse_cons,
        firstVersion_append key P es.reverse, Option.or_assoc, ← firstVersion_append key P [e]]
      rfl

/-- The value that the tables have of a transaction for a key, that of its first version. -/
def valueBy (t : Tables) (trancId : TrancId) (key : Bytes) : Option Bytes :=
  (firstVersion key (· = trancId) t.versions).map Entry.value

theorem ssts_foldl_put :
  ∀ (es : List Entry) (t : Tables), (es.foldl put t).ssts = t.ssts
  | [], _ => rfl
  | e :: es, t => ssts_foldl_put es (t.put e)

theorem mem_versions_foldl_put {e : Entry} :
  ∀ {es : List Entry} {t : Tables}, e ∈ (es.foldl put t).versions → e ∈ es ∨ e ∈ t.versions
  | [], _, h => .inr h
  | e' :: es, t, h => by
      rw [List.foldl_cons] at h
      rcases mem_versions_foldl_put h with hmem | hmem
      · exact .inl (List.mem_cons_of_mem e' hmem)
      · rcases System.mem_versions_put hmem with rfl | hmem
        · exact .inl List.mem_cons_self
        · exact .inr hmem

/-- What is replayed is of the records. -/
theorem mem_versions_replay {t : Tables} {flushedTrancIds : OrderedSet TrancId}
    {records : List Record} {e : Entry}
    (h : e ∈ (t.replay flushedTrancIds (OrderedMap.group Record.trancId records)).versions) :
  (∃ r ∈ records, e.trancId = r.trancId) ∨ e ∈ t.versions
  := by
  rw [replay] at h
  apply (mem_versions_foldl_put h).imp_left
  intro hmem
  obtain ⟨r, hr, hentry⟩ := List.mem_filterMap.mp hmem
  obtain ⟨⟨i, rs⟩, hp, hr⟩ := List.mem_flatMap.mp hr
  have hrs := (OrderedMap.mem_pairs_group.mp (List.mem_filter.mp hp).1).1
  rw [hrs] at hr
  exact ⟨r, (List.mem_filter.mp hr).1, Record.entry?_trancId hentry⟩

/-- The replay puts the records one transaction after the other. -/
theorem replay_group (t : Tables) {flushedTrancIds : OrderedSet TrancId} {records : List Record}
    (h : ∀ r ∈ records, r.trancId ∉ flushedTrancIds) :
  t.replay flushedTrancIds (OrderedMap.group Record.trancId records) =
    ((OrderedMap.group Record.trancId records).members.filterMap Record.entry?).foldl put t
  := by
  have hall : (OrderedMap.group Record.trancId records).pairs.filter
      (fun p => decide (p.1 ∉ flushedTrancIds.elems)) =
        (OrderedMap.group Record.trancId records).pairs := by
    apply List.filter_eq_self.mpr
    rintro ⟨i, rs⟩ hp
    obtain ⟨hrs, hne⟩ := OrderedMap.mem_pairs_group.mp hp
    obtain ⟨r, hr⟩ := List.exists_mem_of_ne_nil rs hne
    have hid := OrderedMap.key_of_mem_group hp hr
    rw [hrs] at hr
    exact decide_eq_true (hid ▸ h r (List.mem_filter.mp hr).1)
  rw [replay, hall]
  rfl

end Tables

/-- Of the records, those of a transaction matter for what it has logged. -/
theorem loggedValue_filter (trancId : TrancId) (key : Bytes) (records : List Record) :
  loggedValue trancId key (records.filter (fun r => decide (r.trancId = trancId))) =
    loggedValue trancId key records
  := by
  rw [loggedValue, loggedValue, ← List.filter_reverse]
  induction records.reverse with
  | nil => rfl
  | cons r rs ih =>
      rw [List.filter_cons, List.findSome?_cons]
      by_cases hid : r.trancId = trancId
      · rw [if_pos (decide_eq_true hid), List.findSome?_cons, ih]
      · rw [if_neg (by simpa using hid), ih, Record.written?_of_ne key hid]

/-- Grouping the records leaves what a transaction has logged. -/
theorem loggedValue_members_group (trancId : TrancId) (key : Bytes) (records : List Record) :
  loggedValue trancId key (OrderedMap.group Record.trancId records).members =
    loggedValue trancId key records
  := by
  rw [← loggedValue_filter, OrderedMap.filter_members_group, loggedValue_filter]

/-- What is found first among the versions of grouped records is of the greatest id that a
condition allows, and has the value logged last under it. -/
theorem firstVersion_members_group {key : Bytes} {P : TrancId → Prop} [DecidablePred P]
    {records : List Record} {e : Entry}
    (h : firstVersion key P
      ((OrderedMap.group Record.trancId records).members.filterMap Record.entry?).reverse =
        some e) :
  e.key = key ∧ P e.trancId ∧ loggedValue e.trancId key records = some e.value ∧
    ∀ i, P i → (loggedValue i key records).isSome → i ≤ e.trancId
  := by
  obtain ⟨⟨hkey, hP⟩, es, es', hsplit, hnot⟩ := firstVersion_eq_some.mp h
  have hsorted : (((OrderedMap.group Record.trancId records).members.filterMap
      Record.entry?).reverse).Pairwise (fun e e' => e'.trancId ≤ e.trancId) := by
    rw [List.pairwise_reverse, List.pairwise_filterMap]
    apply (OrderedMap.pairwise_members_group Record.trancId records).imp
    intro r r' hle e he e' he'
    rwa [Record.entry?_trancId he, Record.entry?_trancId he']
  refine ⟨hkey, hP, ?_, fun i hi hsome => ?_⟩
  · have hfirst : firstVersion key (· = e.trancId)
        ((OrderedMap.group Record.trancId records).members.filterMap Record.entry?).reverse =
          some e :=
      firstVersion_eq_some.mpr ⟨⟨hkey, rfl⟩, es, es', hsplit,
        fun e' he' hthat => hnot e' he' ⟨hthat.1, hthat.2 ▸ hP⟩⟩
    rw [← loggedValue_members_group, ← firstVersion_entries, hfirst]
    rfl
  · rw [← loggedValue_members_group, ← firstVersion_entries, Option.isSome_map] at hsome
    obtain ⟨e', he'⟩ := Option.isSome_iff_exists.mp hsome
    obtain ⟨⟨hkey', rfl⟩, es₁, es₂, hsplit', -⟩ := firstVersion_eq_some.mp he'
    have hmem : e' ∈ es ++ e :: es' := by
      rw [← hsplit, hsplit']
      exact List.mem_append_right es₁ List.mem_cons_self
    rw [hsplit] at hsorted
    rcases List.mem_append.mp hmem with hmem | hmem
    · exact absurd ⟨hkey', hi⟩ (hnot e' hmem)
    · rcases List.mem_cons.mp hmem with rfl | hmem
      · apply le_refl
      · apply (List.pairwise_cons.mp (List.pairwise_append.mp hsorted).2.1).1 e' hmem

/-! ### Stores that are closed before they are opened again -/

/-- The manager that is constructed from a file has only ids as flushed that are less than a
given one. -/
def TrancIdFile.FlushedBelow (file : TrancIdFile) (base : TrancId) : Prop :=
  ∀ words m, file = some words → TranManager.readTrancIdFile words = .ok m →
    ∀ i ∈ m.flushedTrancIds, i < base

namespace Store

/-- A step in which the store is not cleared and does not crash. -/
def Continues : StoreEvent → Prop
  | .clearTables | .clearFiles _ => False
  | .reopen closed => closed = true
  | _ => True

instance : DecidablePred Continues
  | .clearTables | .clearFiles _ => .isFalse id
  | .reopen _ => inferInstanceAs (Decidable (_ = _))
  | .call _ | .cleanWALFile | .resetFile => .isTrue trivial

/-- What a store keeps that is not cleared and does not crash: what lasts of its transactions is
in the log files and in the files of its tables. -/
structure Intact (s : Store) : Prop where
  lasting : ∃ base past, (s.system.after (.ofVersions past)).Lasting base ∧
    s.wal.checkpointTrancId < base ∧ s.trancIdFile.FlushedBelow base
  records : s.wal.records = s.system.manager.wal
  present : s.wal.Present
  activeLast : s.wal.ActiveLast
  ssts : s.sstFiles = s.system.engine.ssts
  manager : s.system.manager.Bounded
  file : ∃ words, s.trancIdFile = some words
  linked : s.trancIdFileLinked = true

/-- The records in the log are of transactions created from an id on, which comes after the
checkpoint. -/
theorem Intact.exists_base {s : Store} (hs : s.Intact) :
  ∃ base, s.wal.checkpointTrancId < base ∧ s.trancIdFile.FlushedBelow base ∧
    ∀ r ∈ s.wal.records, base ≤ r.trancId
  := by
  obtain ⟨base, past, hlasting, hcheckpoint, hfile⟩ := hs.lasting
  refine ⟨base, hcheckpoint, hfile, fun r hr => ?_⟩
  rw [hs.records] at hr
  obtain ⟨c, hc⟩ := hlasting.logs.logged r hr
  apply hlasting.logs.base_le _ c hc

theorem Intact.checkpoint_lt {s : Store} (hs : s.Intact) :
  ∀ r ∈ s.wal.records, s.wal.checkpointTrancId < r.trancId
  := by
  obtain ⟨base, hcheckpoint, -, hbase⟩ := hs.exists_base
  exact fun r hr => hcheckpoint.trans_le (hbase r hr)

/-- A flush moves the table to the files that it moves in the engine, and no other step moves
one. -/
theorem ssts_step {s s' : System Tables} {event : Event} (h : System.step s event = some s') :
  s'.engine.ssts = s.flushedTables event ++ s.engine.ssts
  := by
  by_cases hflush : event = .flush
  · subst hflush
    obtain rfl := Option.some.inj h
    change s.engine.flushLast.2.ssts = (s.engine.oldest.map Prod.fst).toList ++ s.engine.ssts
    rw [Tables.flushLast]
    cases holdest : s.engine.oldest with
    | none => rfl
    | some oldest =>
        obtain ⟨table, t⟩ := oldest
        exact congrArg (table :: ·) (Tables.memtable_of_oldest holdest).2
  · have hnone : s.flushedTables event = [] := by
      cases event with
      | flush => exact absurd rfl hflush
      | _ => rfl
    rw [hnone]
    exact ((System.step_stepped h).resolve_right (fun h => hflush h.1)).flushed.1

theorem Intact.call {s s' : Store} {event : Event} (hs : s.Intact) (h : s.call event = some s') :
  s'.Intact
  := by
  obtain ⟨system, hsystem, rfl⟩ := Option.map_eq_some_iff.mp h
  obtain ⟨base, past, hlasting, hcheckpoint, hfile⟩ := hs.lasting
  have hstep : System.step (s.system.after (.ofVersions past)) event =
      some (system.after (.ofVersions past)) := by
    rw [System.step_after, hsystem]
    rfl
  constructor
  · exact ⟨base, past, hlasting.step hstep, hcheckpoint, hfile⟩
  · dsimp only
    rw [WAL.records_log hs.present hs.activeLast, hs.records, System.wal_step hsystem]
    rfl
  · apply WAL.present_log hs.present
  · apply hs.activeLast.log
  · dsimp only
    rw [ssts_step hsystem, hs.ssts]
  · rcases System.step_stepped hsystem with hstepped | ⟨-, rfl⟩
    · apply hstepped.bounded hs.manager
      intro i c hc
      rw [(hlasting.invariant.consistent i c hc).trancId_eq]
      apply hlasting.invariant.lt_next hc
    · apply hs.manager.foldl_addFlushedTrancId
  · apply hs.file
  · apply hs.linked

/-- Another log with the same records. -/
theorem Intact.setWal {s : Store} (hs : s.Intact) {wal : WAL}
    (hcheckpoint : wal.checkpointTrancId = s.wal.checkpointTrancId)
    (hrecords : wal.records = s.wal.records) (hpresent : wal.Present) (hlast : wal.ActiveLast) :
  Intact { s with wal }
  := by
  obtain ⟨base, past, hlasting, hbase, hfile⟩ := hs.lasting
  constructor
  · exact ⟨base, past, hlasting, hcheckpoint.trans_lt hbase, hfile⟩
  · exact hrecords.trans hs.records
  · apply hpresent
  · apply hlast
  · apply hs.ssts
  · apply hs.manager
  · apply hs.file
  · apply hs.linked

/-- Opening a directory constructs the manager from its file, and replays the log. -/
theorem openDirectory_eq_ok {ssts : List (List Entry)} {w : WAL} {words : List ℕ}
    {system : System Tables} {wal : WAL} {trancIdFile : TrancIdFile}
    (h : openDirectory ssts w.files (some words) = .ok (system, wal, trancIdFile)) :
  ∃ m checkpoint maxFlushed, TranManager.readTrancIdFile words = .ok m ∧
    checkpoint ∈ m.flushedTrancIds ∧ maxFlushed ∈ m.flushedTrancIds ∧
    (∀ i ∈ m.flushedTrancIds, checkpoint ≤ i) ∧
    system.engine = Tables.replay { ssts } m.flushedTrancIds (OrderedMap.group Record.trancId
      (w.records.filter (fun r => decide (checkpoint < r.trancId)))) ∧
    system.manager = m.initNewWal ∧ (∀ i, system.contexts i = none) ∧
    (∀ i, system.pending i = {}) ∧ system.history = [] ∧
    wal = WAL.construct .empty maxFlushed ∧ trancIdFile = some words
  := by
  rw [openDirectory] at h
  obtain ⟨m, hread, h⟩ := Except.exists_of_bind_eq_ok h
  cases hmin : m.flushedTrancIds.min? with
  | none =>
      rw [hmin] at h
      cases h
  | some checkpoint =>
      rw [hmin] at h
      obtain ⟨maxFlushed, hmax, h⟩ := Except.exists_of_bind_eq_ok h
      obtain ⟨rfl, hrest⟩ := Prod.mk.inj (Except.ok.inj h)
      obtain ⟨rfl, rfl⟩ := Prod.mk.inj hrest
      refine ⟨m, checkpoint, maxFlushed, hread, OrderedSet.min?_mem hmin,
        OrderedSet.max?_mem (TranManager.getMaxFlushedTrancId_eq_ok.mp hmax),
        fun i hi => OrderedSet.min?_le hmin hi, ?_, rfl, fun _ => rfl, fun _ => rfl, rfl, rfl, rfl⟩
      rw [← WAL.recover_eq]

/-- Opening the store again leaves it open, with the log and the file that opening leads to. -/
theorem reopen_eq_some {s s' : Store} {closed : Bool} (h : s.reopen closed = some s') :
  (closed = true → s.system.engine.memtable = []) ∧ s'.sstFiles = s.sstFiles ∧
    s'.trancIdFileLinked = true ∧
    ∃ file, s.leftFile closed = .ok file ∧
      openDirectory s.sstFiles s.wal.files file = .ok (s'.system, s'.wal, s'.trancIdFile)
  := by
  rw [reopen] at h
  split at h
  next => cases h
  next hclosed =>
    split at h
    next => cases h
    next system wal trancIdFile hbind =>
      obtain rfl := Option.some.inj h
      exact ⟨fun htrue => not_not.mp (fun hne => hclosed ⟨htrue, hne⟩), rfl, rfl,
        Except.exists_of_bind_eq_ok hbind⟩

/-- A store that has been closed is opened with the manager's file as it was written then, from
which the next id and the flushed ids are read back. -/
theorem Intact.openDirectory_eq {s s' : Store} (hs : s.Intact) (h : s.reopen true = some s') :
  ∃ words flushed, openDirectory s.sstFiles s.wal.files (some words) =
      .ok (s'.system, s'.wal, s'.trancIdFile) ∧
    TranManager.readTrancIdFile words = .ok
      { nextTransactionId := s.system.manager.nextTransactionId, flushedTrancIds := flushed } ∧
    ∀ i, i ∈ flushed ↔ i ∈ s.system.manager.flushedTrancIds
  := by
  obtain ⟨-, -, -, file, hleft, hopen⟩ := reopen_eq_some h
  rw [leftFile, if_pos rfl, hs.linked] at hleft
  obtain ⟨words, hwrite, hpure⟩ := Except.exists_of_bind_eq_ok hleft
  obtain ⟨-, rfl⟩ := TranManager.writeTrancIdFile_eq_ok.mp hwrite
  obtain rfl := Except.ok.inj hpure
  obtain ⟨flushed, hread, hflushed⟩ := Lifetime.readTrancIdFile_words s.system.manager
    ((s.trancIdFile.getD []).drop s.system.manager.words.length)
  exact ⟨_, flushed, hopen, hread, hflushed⟩

/-- A store that has been closed is opened on versions whose ids have been handed out, and goes
on with the next one. -/
theorem Intact.opened {s s' : Store} (hs : s.Intact) (h : s.reopen true = some s') :
  s'.system.Opened ∧ s'.sstFiles = s'.system.engine.ssts ∧
    (∀ e ∈ s'.system.engine.versions, e.trancId < s'.system.manager.nextTransactionId) ∧
    ∃ m : TranManager, m.nextTransactionId = s.system.manager.nextTransactionId ∧
      (∀ i, i ∈ m.flushedTrancIds ↔ i ∈ s.system.manager.flushedTrancIds) ∧
      (∀ i, ¬ m.Ready i) ∧ s'.system.manager = m.initNewWal ∧
      ∃ words maxFlushed, s'.trancIdFile = some words ∧
        TranManager.readTrancIdFile words = .ok m ∧ maxFlushed ∈ m.flushedTrancIds ∧
        s'.wal = WAL.construct .empty maxFlushed
  := by
  obtain ⟨base, past, hlasting, -, -⟩ := hs.lasting
  obtain ⟨-, hsstFiles, -, -⟩ := reopen_eq_some h
  obtain ⟨_, flushed, hopen, hread, hflushed⟩ := hs.openDirectory_eq h
  obtain ⟨m, checkpoint, maxFlushed, hread', -, hmax, -, hengine, hmanager, hcontexts, hpending,
    hhistory, hwal, hfile⟩ := openDirectory_eq_ok hopen
  obtain rfl := Except.ok.inj (hread.symm.trans hread')
  have hnext : s'.system.manager.nextTransactionId = s.system.manager.nextTransactionId := by
    rw [hmanager]
    rfl
  have hissued : ∀ e ∈ s'.system.engine.versions,
      e.trancId < s'.system.manager.nextTransactionId := by
    intro e he
    rw [hnext]
    rw [hengine] at he
    rcases Tables.mem_versions_replay he with ⟨r, hr, hid⟩ | he
    · have hr := (List.mem_filter.mp hr).1
      rw [hs.records] at hr
      obtain ⟨c, hc⟩ := hlasting.logs.logged r hr
      rw [hid]
      apply hlasting.invariant.lt_next hc
    · have hmem : e ∈ s.system.engine.versions := by
        rw [hs.ssts] at he
        exact List.mem_append_right _ he
      exact (hlasting.backed e (.version hmem)).issued
  have hssts : s'.sstFiles = s'.system.engine.ssts := by
    rw [hsstFiles, hengine, Tables.replay, Tables.ssts_foldl_put]
  refine ⟨⟨hnext ▸ hlasting.invariant.next_pos, hcontexts, hpending, hhistory⟩, hssts, hissued,
    { nextTransactionId := s.system.manager.nextTransactionId, flushedTrancIds := flushed }, rfl,
    hflushed, ?_, hmanager, _, maxFlushed, hfile, hread, hmax, hwal⟩
  rintro i ⟨state, hi⟩
  cases hi

theorem Intact.reopen {s s' : Store} (hs : s.Intact) (h : s.reopen true = some s') :
  s'.Intact
  := by
  obtain ⟨hopened, hssts, hissued, m, hnext, hflushed, hready, hmanager, words, maxFlushed, hfile,
    hread, hmax, hwal⟩ := hs.opened h
  have hbelow : ∀ i ∈ m.flushedTrancIds, i < m.nextTransactionId := by
    intro i hi
    rw [hnext]
    apply hs.manager.flushed i ((hflushed i).mp hi)
  have hnext' : s'.system.manager.nextTransactionId = m.nextTransactionId := by
    rw [hmanager]
    rfl
  constructor
  · refine ⟨s'.system.manager.nextTransactionId, s'.system.engine.versions,
      hopened.lasting (by rw [hmanager]; rfl) hissued, ?_, ?_⟩
    · rw [hnext', hwal]
      apply hbelow maxFlushed hmax
    · intro words' m' hwords' hread' i hi
      obtain rfl := Option.some.inj (hfile.symm.trans hwords')
      obtain rfl := Except.ok.inj (hread.symm.trans hread')
      rw [hnext']
      apply hbelow i hi
  · rw [hwal, hmanager]
    rfl
  · rw [hwal]
    exact ⟨(0, []), List.mem_cons_self, rfl⟩
  · rw [hwal]
    apply WAL.activeLast_construct
  · apply hssts
  · rw [hmanager]
    refine TranManager.Bounded.initNewWal ?_ (hnext' ▸ hopened.1)
    exact ⟨hbelow, fun i hi => absurd hi (hready i)⟩
  · exact ⟨words, hfile⟩
  · exact (reopen_eq_some h).2.2.1

theorem start_intact : start.Intact
  := by
  have hopened : (System.start : System Tables).Opened :=
    ⟨Nat.one_pos, fun _ => rfl, fun _ => rfl, rfl⟩
  constructor
  · refine ⟨1, [], hopened.lasting rfl (fun e he => nomatch he), Nat.one_pos, ?_⟩
    intro words m hwords hread
    obtain rfl := Option.some.inj hwords
    cases hread
  · rfl
  · exact ⟨(0, []), List.mem_cons_self, rfl⟩
  · apply WAL.activeLast_construct
  · rfl
  · apply bounded_default
  · exact ⟨[], rfl⟩
  · rfl

theorem Intact.step {s s' : Store} {event : StoreEvent} (hs : s.Intact)
    (hcontinues : Continues event) (h : step s event = some s') :
  s'.Intact
  := by
  cases event with
  | call event => apply hs.call h
  | cleanWALFile =>
      obtain rfl := Option.some.inj h
      exact hs.setWal rfl (WAL.records_cleanWALFile hs.checkpoint_lt)
        (WAL.present_cleanWALFile hs.present hs.activeLast) hs.activeLast.cleanWALFile
  | resetFile =>
      obtain rfl := Option.some.inj h
      exact hs.setWal rfl (WAL.records_resetFile hs.activeLast) (WAL.present_resetFile _)
        hs.activeLast.resetFile
  | clearTables => exact absurd hcontinues id
  | clearFiles during => exact absurd hcontinues id
  | reopen closed =>
      obtain rfl := hcontinues
      apply hs.reopen h

/-- A store that is not cleared and has not crashed. -/
abbrev Whole : Store → Prop := Reached (fun _ event => Continues event)

theorem Whole.intact {s : Store} (h : s.Whole) : s.Intact
  := Transition.Reached.invariant start_intact
    (fun _ hs hcontinues hstep => hs.step hcontinues hstep) h

/-! ### Crashes -/

/-- After a crash all records in the log are replayed, the transactions in the order of their
ids. -/
theorem Intact.engine_of_crash {s s' : Store} (hs : s.Intact) (h : s.reopen false = some s') :
  s'.system.engine =
    ((OrderedMap.group Record.trancId s.wal.records).members.filterMap Record.entry?).foldl
      Tables.put { ssts := s.system.engine.ssts }
  := by
  obtain ⟨-, -, -, file, hleft, hopen⟩ := reopen_eq_some h
  obtain ⟨words, hwords⟩ := hs.file
  obtain rfl := Except.ok.inj hleft
  rw [hwords] at hopen
  obtain ⟨m, checkpoint, maxFlushed, hread, hcheckpoint, -, -, hengine, -⟩ :=
    openDirectory_eq_ok hopen
  obtain ⟨base, -, hfile, hbase⟩ := hs.exists_base
  have hbelow := hfile words m hwords hread
  have hafter : s.wal.records.filter (fun r => decide (checkpoint < r.trancId)) =
      s.wal.records :=
    List.filter_eq_self.mpr (fun r hr =>
      decide_eq_true ((hbelow checkpoint hcheckpoint).trans_le (hbase r hr)))
  have hunflushed : ∀ r ∈ s.wal.records, r.trancId ∉ m.flushedTrancIds :=
    fun r hr hmem => not_lt_of_ge (hbase r hr) (hbelow r.trancId hmem)
  rw [hengine, hafter, Tables.replay_group _ hunflushed, hs.ssts]

end Store

end TinyLsm
