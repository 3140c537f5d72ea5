import TinyLsm.Lsm.System

/-!
# The shortcut of the conflict check

A commit that checks for conflicts does not ask the tables on disk if no flushed id is greater
than its own.  This agrees with asking them as long as no version on disk has an id greater
than all flushed ones.  A flush keeps this exactly if it covers the table it moves: if each
version of the table has an id that is at most one flushed before, or at most one that the
flush releases.
-/

namespace TinyLsm

/-! ### What a flush releases -/

namespace TranManager

/-- A finished transaction that the markers of a table release: one of those marked, or one
that is aborted and before one of those marked. -/
def Released (markers : List TrancId) (p : TrancId × TransactionState) : Prop :=
  ∃ marker ∈ markers, p.1 = marker ∨ p.1 < marker ∧ p.2 = .aborted

instance (markers : List TrancId) (p : TrancId × TransactionState) :
    Decidable (Released markers p) :=
  inferInstanceAs (Decidable (∃ marker ∈ markers, _))

/-- An id is covered if it is at most one that is flushed, or at most that of a finished
transaction that the markers release. -/
def Covered (m : TranManager) (markers : List TrancId) (trancId : TrancId) : Prop :=
  (∃ i ∈ m.flushedTrancIds.elems, trancId ≤ i) ∨
    ∃ p ∈ m.readyToFlushTrancIds.pairs, Released markers p ∧ trancId ≤ p.1

instance (m : TranManager) (markers : List TrancId) (trancId : TrancId) :
    Decidable (m.Covered markers trancId) :=
  inferInstanceAs (Decidable (_ ∨ _))

theorem released_cons {marker : TrancId} {markers : List TrancId}
    {p : TrancId × TransactionState} :
  Released (marker :: markers) p ↔
    (p.1 = marker ∨ p.1 < marker ∧ p.2 = .aborted) ∨ Released markers p
  := List.exists_mem_cons_iff _ _ _

/-- Adding the first marker to the flushed ids covers what it did before. -/
theorem covered_cons {m : TranManager} {marker : TrancId} {markers : List TrancId}
    {trancId : TrancId} :
  (m.addFlushedTrancId marker).Covered markers trancId ↔ m.Covered (marker :: markers) trancId
  := by
  have hready : ∀ i, i ∈ needRemove marker m.readyToFlushTrancIds.pairs ↔
      ∃ p ∈ m.readyToFlushTrancIds.pairs, p.1 = i ∧
        (p.1 = marker ∨ p.1 < marker ∧ p.2 = .aborted) :=
    fun i => mem_needRemove m.readyToFlushTrancIds.ascending
  constructor
  · rintro (hflushed | ⟨p, hp, hreleased, hle⟩)
    · rcases exists_flushed_addFlushedTrancId.mp hflushed with hflushed | ⟨i, hi, hle⟩
      · exact .inl hflushed
      · obtain ⟨p, hp, rfl, hmarker⟩ := (hready i).mp hi
        exact .inr ⟨p, hp, released_cons.mpr (.inl hmarker), hle⟩
    · exact .inr ⟨p, (OrderedMap.mem_foldl_erase.mp hp).1, released_cons.mpr (.inr hreleased), hle⟩
  · rintro (hflushed | ⟨p, hp, hreleased, hle⟩)
    · exact .inl (exists_flushed_addFlushedTrancId.mpr (.inl hflushed))
    · by_cases hremove : p.1 ∈ needRemove marker m.readyToFlushTrancIds.pairs
      · exact .inl (exists_flushed_addFlushedTrancId.mpr (.inr ⟨p.1, hremove, hle⟩))
      · rcases released_cons.mp hreleased with hmarker | hreleased
        · exact absurd ((hready p.1).mpr ⟨p, hp, rfl, hmarker⟩) hremove
        · exact .inr ⟨p, OrderedMap.mem_foldl_erase.mpr ⟨hp, hremove⟩, hreleased, hle⟩

/-- When all markers have been added, the ids that were covered are those that are at most a
flushed one. -/
theorem exists_flushed_foldl_addFlushedTrancId {trancId : TrancId} :
  ∀ {markers : List TrancId} {m : TranManager},
    (∃ i ∈ (markers.foldl addFlushedTrancId m).flushedTrancIds, trancId ≤ i) ↔
      m.Covered markers trancId
  | [], m => by
      refine ⟨.inl, fun h => h.resolve_right ?_⟩
      rintro ⟨p, -, ⟨marker, hmarker, -⟩, -⟩
      apply List.not_mem_nil hmarker
  | marker :: markers, m => by
      rw [List.foldl_cons, exists_flushed_foldl_addFlushedTrancId, covered_cons]

end TranManager

namespace Tables

/-- The table that a flush moves to disk, empty if it moves none. -/
def flushed (t : Tables) : List Entry :=
  match t.oldest with
  | some (table, _) => table
  | none => []

theorem markers_flushLast (t : Tables) : t.flushLast.1 = markers t.flushed
  := by
  rw [flushLast, flushed]
  cases t.oldest <;> rfl

/-- After a flush the versions on disk are those that were, and those of the table moved. -/
theorem flatten_ssts_flushLast (t : Tables) :
  t.flushLast.2.ssts.flatten = t.flushed ++ t.ssts.flatten
  := by
  rw [flushLast, flushed]
  cases h : t.oldest with
  | none => rfl
  | some oldest =>
      obtain ⟨table, rest⟩ := oldest
      rw [← (memtable_of_oldest h).2]
      rfl

end Tables

/-! ### The check without the shortcut -/

namespace TranContext

variable {ε : Type} [LSMEngine ε]

/-- Whether a key has a version with a greater id, asking the tables on disk in any case. -/
def conflictsOnInFull (c : TranContext) (e : ε) (key : Bytes) : Bool :=
  c.conflictsInMemtable e key || c.conflictsInSst e key

/-- `commit` with the check that asks the tables on disk in any case. -/
def commitInFull (c : TranContext) (e : ε) (m : TranManager) (writes : Iteration Bytes)
    (walOk : Bool) (testFail : Bool := false) : Ended ε Bool :=
  if c.isolationLevel = .readUnopCommitted then
    c.commitUnbuffered e m walOk
  else if c.isolationLevel.Checked ∧ writes.any (fun w => c.conflictsOnInFull e w.1) then
    (.ok false, { c with isAborted := true }, e, m.addReadyToFlushTrancId c.trancId .aborted)
  else
    c.commitBuffered e m writes walOk testFail

/-- If each of the keys is checked as in full, then so is their list. -/
theorem conflicts_eq_inFull {c : TranContext} {e : ε} {m : TranManager}
    (h : ∀ key, c.conflictsOn e m key = .ok (c.conflictsOnInFull e key)) :
  ∀ writes : Iteration Bytes,
    c.conflicts e m writes = .ok (writes.any (fun w => c.conflictsOnInFull e w.1))
  | [] => rfl
  | ⟨key, value⟩ :: writes => by
      rw [conflicts, h, List.any_cons, conflicts_eq_inFull h writes]
      cases c.conflictsOnInFull e key <;> rfl

theorem commit_eq_inFull {c : TranContext} {e : ε} {m : TranManager}
    (h : ∀ key, c.conflictsOn e m key = .ok (c.conflictsOnInFull e key))
    (writes : Iteration Bytes) (walOk testFail : Bool) :
  c.commit e m writes walOk testFail = c.commitInFull e m writes walOk testFail
  := by
  rw [commit, commitInFull, conflicts_eq_inFull h]
  split
  next => rfl
  next =>
    by_cases hlevel : c.isolationLevel.Checked
    · rw [if_pos hlevel]
      cases hany : writes.any (fun w => c.conflictsOnInFull e w.1) with
      | true => rw [if_pos ⟨hlevel, rfl⟩]
      | false => rw [if_neg (fun h => Bool.false_ne_true h.2)]
    · rw [if_neg hlevel, if_neg (fun h => hlevel h.1)]

end TranContext

/-! ### Runs of covered flushes -/

namespace System

variable {ε : Type} [DocumentedEngine ε]

/-- Every version on disk has an id that is at most a flushed one. -/
def Flushed (s : System ε) : Prop :=
  ∀ e ∈ (DocumentedEngine.tables s.engine).ssts.flatten,
    ∃ i ∈ s.manager.flushedTrancIds, e.trancId ≤ i

/-- The markers of the table a flush moves cover the versions of the table. -/
def FlushCovered (s : System ε) : Event → Prop
  | .flush => ∀ e ∈ (DocumentedEngine.tables s.engine).flushed,
      s.manager.Covered (Tables.markers (DocumentedEngine.tables s.engine).flushed) e.trancId
  | _ => True

instance (s : System ε) (event : Event) : Decidable (FlushCovered s event) :=
  match event with
  | .flush => inferInstanceAs (Decidable (∀ e ∈ (DocumentedEngine.tables s.engine).flushed, _))
  | .newTranc _ | .write _ _ | .get _ _ | .commit _ _ _ | .abort _ _ | .lsmWrite _ | .proceed _
  | .frozenCurTable => inferInstanceAs (Decidable True)

/-- What the ids are after a flush that are at most a flushed one. -/
theorem exists_flushed_flush (s : System ε) (trancId : TrancId) :
  (∃ i ∈ s.flush.manager.flushedTrancIds, trancId ≤ i) ↔
    s.manager.Covered (Tables.markers (DocumentedEngine.tables s.engine).flushed) trancId
  := by
  rw [← Tables.markers_flushLast, ← DocumentedEngine.markers_flush]
  apply TranManager.exists_flushed_foldl_addFlushedTrancId

/-- A flush keeps the ids on disk below the flushed ones exactly if it is covered. -/
theorem flushed_flush_iff {s : System ε} (hs : s.Flushed) :
  s.flush.Flushed ↔ FlushCovered s .flush
  := by
  have hssts : (DocumentedEngine.tables s.flush.engine).ssts.flatten =
      (DocumentedEngine.tables s.engine).flushed ++
        (DocumentedEngine.tables s.engine).ssts.flatten := by
    rw [← Tables.flatten_ssts_flushLast, ← DocumentedEngine.tables_flush]
    rfl
  rw [Flushed, hssts]
  constructor
  · intro h e he
    rw [← exists_flushed_flush]
    apply h e (List.mem_append_left _ he)
  · intro h e he
    rw [exists_flushed_flush]
    rcases List.mem_append.mp he with he | he
    · apply h e he
    · exact .inl (hs e he)

/-- The greatest flushed id exists, and the ids on disk are below the flushed ones, in every
state that covered flushes lead to. -/
theorem reached_flushed {s : System ε} (h : Reached FlushCovered s) :
  s.Flushed ∧ ∃ i, i ∈ s.manager.flushedTrancIds
  := by
  apply h.invariant
  · constructor
    · have hfresh : DocumentedEngine.tables (start : System ε).engine = {} :=
        DocumentedEngine.tables_fresh
      intro e he
      rw [hfresh] at he
      cases he
    · exact ⟨0, List.mem_singleton_self 0⟩
  · rintro s s' event - ⟨hs, i, hi⟩ hallowed hstep
    rcases step_stepped hstep with hstepped | ⟨rfl, rfl⟩
    · obtain ⟨hssts, hflushed⟩ := hstepped.flushed
      rw [Flushed, hssts, hflushed]
      exact ⟨hs, i, hi⟩
    · obtain ⟨j, hj, -⟩ := (exists_flushed_flush s i).mpr (.inl ⟨i, hi, le_rfl⟩)
      exact ⟨(flushed_flush_iff hs).mpr hallowed, j, hj⟩

/-- When the shortcut is taken, no version on disk has a greater id than the transaction. -/
theorem Flushed.le_of_max {s : System ε} (hs : s.Flushed) {maxFlushed trancId : TrancId}
    (hmax : s.manager.getMaxFlushedTrancId = .ok maxFlushed) (hle : maxFlushed ≤ trancId)
    {table : List Entry} (htable : table ∈ (DocumentedEngine.tables s.engine).ssts) {e : Entry}
    (he : e ∈ table) :
  e.trancId ≤ trancId
  := by
  obtain ⟨i, hi, hei⟩ := hs e (List.mem_flatten.mpr ⟨table, htable, he⟩)
  apply hei.trans ((OrderedSet.le_max? hi (TranManager.getMaxFlushedTrancId_eq_ok.mp hmax)).trans
    hle)

/-- When the shortcut is taken, the tables on disk have no conflict. -/
theorem Flushed.conflictsInSst_eq_false {s : System ε} (hs : s.Flushed) {maxFlushed : TrancId}
    (hmax : s.manager.getMaxFlushedTrancId = .ok maxFlushed) {c : TranContext}
    (hle : maxFlushed ≤ c.trancId) (key : Bytes) :
  c.conflictsInSst s.engine key = false
  := by
  rw [TranContext.conflictsInSst]
  split
  next value trancId hsst =>
    obtain ⟨table, htable, he⟩ := DocumentedEngine.sstGet_mem _ _ _ _ hsst
    have hid : trancId ≤ c.trancId := hs.le_of_max hmax hle htable he
    apply decide_eq_false (not_lt_of_ge hid)
  next => rfl

/-- The check of a key answers what it does without the shortcut. -/
theorem Flushed.conflictsOn_eq_inFull {s : System ε} (hs : s.Flushed)
    (hflushed : ∃ i, i ∈ s.manager.flushedTrancIds) (c : TranContext) (key : Bytes) :
  c.conflictsOn s.engine s.manager key = .ok (c.conflictsOnInFull s.engine key)
  := by
  obtain ⟨i, hi⟩ := hflushed
  obtain ⟨maxFlushed, hmax, -⟩ := OrderedSet.exists_ge_iff.mp ⟨i, hi, le_rfl⟩
  have hmax := TranManager.getMaxFlushedTrancId_eq_ok.mpr hmax
  rw [TranContext.conflictsOn, TranContext.conflictsOnInFull, hmax]
  cases c.conflictsInMemtable s.engine key with
  | true => rfl
  | false =>
      rw [if_neg Bool.false_ne_true, Bool.false_or]
      by_cases hle : maxFlushed ≤ c.trancId
      · rw [hs.conflictsInSst_eq_false hmax hle]
        apply if_pos hle
      · apply if_neg hle

/-- In every state that covered flushes lead to: when the shortcut is taken, no version on disk
has a greater id than the transaction, and a commit does what it does without the
shortcut. -/
theorem commit_eq_commitInFull {s : System ε} (hs : Reached FlushCovered s) (c : TranContext) :
  (∀ maxFlushed, s.manager.getMaxFlushedTrancId = .ok maxFlushed → maxFlushed ≤ c.trancId →
    ∀ table ∈ (DocumentedEngine.tables s.engine).ssts, ∀ e ∈ table, e.trancId ≤ c.trancId) ∧
  ∀ writes walOk testFail, c.commit s.engine s.manager writes walOk testFail =
    c.commitInFull s.engine s.manager writes walOk testFail
  := by
  obtain ⟨hflushed, hnonempty⟩ := reached_flushed hs
  constructor
  · intro maxFlushed hmax hle table htable e he
    apply hflushed.le_of_max hmax hle htable he
  · apply TranContext.commit_eq_inFull (hflushed.conflictsOn_eq_inFull hnonempty c)

/-- A transaction takes the shortcut after a flush of what an older one has committed. -/
theorem commit_eq_commitInFull_committed :
  ∃ (s : System Tables) (c : TranContext), s.contexts 2 = some c ∧
    s.engine.ssts = [[⟨[], [], 1⟩, ⟨[1], [7], 1⟩]] ∧
    (∀ maxFlushed, s.manager.getMaxFlushedTrancId = .ok maxFlushed → maxFlushed ≤ c.trancId →
      ∀ table ∈ s.engine.ssts, ∀ e ∈ table, e.trancId ≤ c.trancId) ∧
    ∀ writes walOk testFail, c.commit s.engine s.manager writes walOk testFail =
      c.commitInFull s.engine s.manager writes walOk testFail
  := by
  have hrun : (Transition.run step FlushCovered (start : System Tables)
      [.newTranc .repeatableRead, .newTranc .repeatableRead, .write 1 (.put [1] [7]),
        .commit 1 [⟨[1], [7]⟩] true, .flush, .write 2 (.put [1] [8])]).map (fun s =>
          (s.engine.ssts, (s.contexts 2).isSome)) =
      some ([[⟨[], [], 1⟩, ⟨[1], [7], 1⟩]], true) := by decide
  obtain ⟨s, hs, hrun⟩ := Option.map_eq_some_iff.mp hrun
  obtain ⟨hssts, hcontext⟩ := Prod.mk.inj hrun
  obtain ⟨c, hc⟩ := Option.isSome_iff_exists.mp hcontext
  exact ⟨s, c, hc, hssts, commit_eq_commitInFull (Transition.reached_of_run hs) c⟩

/-- A commit takes the shortcut although a plain call has put a version on disk with a greater
id, which no marker accounts for. -/
theorem not_commit_eq_commitInFull :
  ¬ ∀ s : System Tables, Reached (fun _ _ => True) s →
    ∀ (trancId : TrancId) (c : TranContext) (writes : Iteration Bytes) (walOk : Bool),
      s.contexts trancId = some c → c.isolationLevel.Checked →
      writes.Perm c.tempMap.entries →
      (c.commit s.engine s.manager writes walOk).1 =
        (c.commitInFull s.engine s.manager writes walOk).1
  := by
  intro h
  have hrun : (Transition.run step (fun _ _ => True) (start : System Tables)
      [.newTranc .repeatableRead, .write 1 (.put [1] [7]), .lsmWrite (.put [1] [8]),
        .proceed 2, .flush]).bind (fun s => (s.contexts 1).map (fun c =>
          (c.isolationLevel, c.tempMap.entries,
            decide ((c.commit s.engine s.manager [⟨[1], [7]⟩] true).1 =
              (c.commitInFull s.engine s.manager [⟨[1], [7]⟩] true).1)))) =
      some (.repeatableRead, [⟨[1], [7]⟩], false) := by decide
  obtain ⟨s, hs, hrun⟩ := Option.bind_eq_some_iff.mp hrun
  obtain ⟨c, hc, hrun⟩ := Option.map_eq_some_iff.mp hrun
  obtain ⟨hlevel, hrun⟩ := Prod.mk.inj hrun
  obtain ⟨hentries, hdiffers⟩ := Prod.mk.inj hrun
  exact of_decide_eq_false hdiffers (h s (Transition.reached_of_run hs) 1 c [⟨[1], [7]⟩] true hc
    (by rw [hlevel]; decide) (by rw [hentries]))

end System

end TinyLsm
