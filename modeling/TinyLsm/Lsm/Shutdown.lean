import TinyLsm.Lsm.EndsOnce
import TinyLsm.Lsm.Restart

/-!
# Closing a store

When a store is closed, its tables are flushed and the flushed ids are kept, and when it is
opened again the log is replayed but for the transactions whose ids are covered.  If
transactions end once, all that is logged is covered then, and the versions are those that
there were.
-/

namespace TinyLsm

namespace Store

/-- What a store may not do: what a system may not, be cleared, crash, or be closed while a
commit is between its log and its return. -/
def ClosesProperly (s : Store) : StoreEvent → Prop
  | .call event => s.system.EndsOnce event
  | .reopen closed => closed = true ∧
      ∀ i < s.system.manager.nextTransactionId, ¬ s.system.Committing i
  | event => Continues event

instance (s : Store) : ∀ event : StoreEvent, Decidable (s.ClosesProperly event)
  | .call event => inferInstanceAs (Decidable (s.system.EndsOnce event))
  | .reopen _ => inferInstanceAs (Decidable (_ ∧ ∀ i < _, _))
  | .clearTables | .clearFiles _ => .isFalse id
  | .cleanWALFile | .resetFile => .isTrue trivial

/-- A store whose log needs to be replayed for nothing that has been flushed. -/
structure Tidy (s : Store) : Prop where
  intact : s.Intact
  marked : ∃ base past, (s.system.after (.ofVersions past)).Lasting base ∧
    (s.system.after (.ofVersions past)).Marked

/-- When all tables are flushed and no commit is in progress, all that is logged is covered. -/
theorem Tidy.covers {s : Store} (hs : s.Tidy) (hmemtable : s.system.engine.memtable = [])
    (hnone : ∀ i < s.system.manager.nextTransactionId, ¬ s.system.Committing i) :
  ∀ r ∈ s.wal.records, s.system.manager.flushedTrancIds.Covers r.trancId
  := by
  intro r hr
  rw [hs.intact.records] at hr
  obtain ⟨base, past, hlasting, hmarked⟩ := hs.marked
  have hempty : Entry.marker r.trancId ∉ s.system.engine.memtable := by
    rw [hmemtable]
    apply List.not_mem_nil
  rcases hmarked.logged r hr with hcovered | ⟨-, hmarker⟩ | ⟨hcommitting, -⟩
  · apply hcovered
  · exact absurd hmarker hempty
  · obtain ⟨c, hc⟩ := hlasting.logs.logged r hr
    exact absurd hcommitting (hnone _ (hlasting.invariant.lt_next hc))

/-- If all that is logged is covered, closing the store and opening it again leaves its
versions as they are. -/
theorem Intact.versions_of_close {s s' : Store} (hs : s.Intact) (h : s.reopen true = some s')
    (hcovers : ∀ r ∈ s.wal.records, s.system.manager.flushedTrancIds.Covers r.trancId) :
  s'.system.engine.versions = s.system.engine.versions
  := by
  obtain ⟨hmemtable, -, -, -⟩ := reopen_eq_some h
  obtain ⟨_, flushed, hopen, hread, hflushed⟩ := hs.openDirectory_eq h
  obtain ⟨m, checkpoint, maxFlushed, hread', hcheckpoint, -, hleast, hengine, -⟩ :=
    openDirectory_eq_ok hopen
  obtain rfl := Except.ok.inj (hread.symm.trans hread')
  -- what comes after the checkpoint has been flushed
  have hskip : ∀ r ∈ s.wal.records, checkpoint < r.trancId → r.trancId ∈ flushed := by
    intro r hr hlt
    rcases hcovers r hr with ⟨least, hmin, hle⟩ | hmem
    · have hmem := OrderedSet.min?_le hmin ((hflushed checkpoint).mp hcheckpoint)
      exact absurd (hlt.trans_le (hle.trans hmem)) (lt_irrefl _)
    · exact (hflushed _).mpr hmem
  have hnil : (OrderedMap.group Record.trancId
      (s.wal.records.filter (fun r => decide (checkpoint < r.trancId)))).pairs.filter
        (fun p => decide (p.1 ∉ flushed.elems)) = [] := by
    apply List.filter_eq_nil_iff.mpr
    rintro ⟨i, rs⟩ hp hnot
    obtain ⟨hrs, hne⟩ := OrderedMap.mem_pairs_group.mp hp
    obtain ⟨r, hr⟩ := List.exists_mem_of_ne_nil rs hne
    have hid := OrderedMap.key_of_mem_group hp hr
    rw [hrs] at hr
    obtain ⟨hmem, hlt⟩ := List.mem_filter.mp (List.mem_filter.mp hr).1
    exact of_decide_eq_true hnot (hid ▸ hskip r hmem (of_decide_eq_true hlt))
  rw [hengine, Tables.replay, hnil, hs.ssts, Tables.versions, Tables.versions, hmemtable rfl]
  rfl

theorem Tidy.call {s s' : Store} {event : Event} (hs : s.Tidy) (hevent : s.system.EndsOnce event)
    (h : s.call event = some s') :
  s'.Tidy
  := by
  refine ⟨hs.intact.call h, ?_⟩
  obtain ⟨system, hsystem, rfl⟩ := Option.map_eq_some_iff.mp h
  obtain ⟨base, past, hlasting, hmarked⟩ := hs.marked
  have hstep : System.step (s.system.after (.ofVersions past)) event =
      some (system.after (.ofVersions past)) := by
    rw [System.step_after, hsystem]
    rfl
  have hevent : (s.system.after (.ofVersions past)).EndsOnce event := by
    have hended : ∀ i, (s.system.history ++ .ofVersions past).Ended i → s.system.history.Ended i :=
      fun i hi => (History.ended_append.mp hi).resolve_right (History.not_ended_ofVersions past i)
    cases event with
    | commit trancId writes walOk => exact fun hi => hevent (hended trancId hi)
    | abort trancId rollbacks => exact fun hi => hevent (hended trancId hi)
    | _ => exact hevent
  exact ⟨base, past, hlasting.step hstep, hmarked.step hlasting hs.intact.manager hevent hstep⟩

theorem Tidy.reopen {s s' : Store} (hs : s.Tidy)
    (hnone : ∀ i < s.system.manager.nextTransactionId, ¬ s.system.Committing i)
    (h : s.reopen true = some s') :
  s'.Tidy
  := by
  refine ⟨hs.intact.reopen h, ?_⟩
  obtain ⟨hopened, -, hissued, m, -, -, hready, hmanager, -⟩ := hs.intact.opened h
  obtain ⟨base, past, -, hmarked⟩ := hs.marked
  have hwal : s'.system.manager.wal = [] := by
    rw [hmanager]
    rfl
  refine ⟨_, _, hopened.lasting hwal hissued, hopened.marked hwal ?_ ?_⟩
  · rw [hmanager]
    exact ⟨⟨_, rfl⟩, fun i hi => absurd hi (hready i)⟩
  · intro e he
    have he : e ∈ s'.system.engine.versions := he
    rw [hs.intact.versions_of_close h (hs.covers ((reopen_eq_some h).1 rfl) hnone)] at he
    exact hmarked.versions e he

theorem start_tidy : start.Tidy
  := by
  have hopened : (System.start : System Tables).Opened :=
    ⟨Nat.one_pos, fun _ => rfl, fun _ => rfl, rfl⟩
  refine ⟨start_intact, _, _, hopened.lasting rfl ?_, hopened.marked rfl ?_ ?_⟩
  · intro e he
    cases he
  · refine ⟨⟨0, rfl⟩, ?_⟩
    rintro i ⟨state, hi⟩
    cases hi
  · intro e he
    cases he

theorem Tidy.step {s s' : Store} {event : StoreEvent} (hs : s.Tidy)
    (hevent : s.ClosesProperly event) (h : step s event = some s') :
  s'.Tidy
  := by
  cases event with
  | call event => apply hs.call hevent h
  | cleanWALFile =>
      have hcontinues : Continues .cleanWALFile := trivial
      refine ⟨hs.intact.step hcontinues h, ?_⟩
      obtain rfl := Option.some.inj h
      exact hs.marked
  | resetFile =>
      have hcontinues : Continues .resetFile := trivial
      refine ⟨hs.intact.step hcontinues h, ?_⟩
      obtain rfl := Option.some.inj h
      exact hs.marked
  | clearTables => exact absurd hevent id
  | clearFiles during => exact absurd hevent id
  | reopen closed =>
      obtain ⟨rfl, hnone⟩ := hevent
      apply hs.reopen hnone h

theorem tidy_of_reached {s : Store} (h : Reached ClosesProperly s) : s.Tidy
  := Transition.Reached.invariant start_tidy (fun _ hs hevent hstep => hs.step hevent hstep) h

/-- Flushing leaves the versions as they are. -/
theorem versions_run_flush :
  ∀ {n : ℕ} {s s' : Store},
    Transition.run step ClosesProperly s (List.replicate n (.call .flush)) = some s' →
    s'.system.engine.versions = s.system.engine.versions
  | 0, s, s', h => by
      obtain rfl := Option.some.inj h
      rfl
  | n + 1, s, s', h => by
      rw [List.replicate_succ, Transition.run] at h
      split at h
      next =>
        obtain ⟨t, hstep, hrun⟩ := Option.bind_eq_some_iff.mp h
        rw [versions_run_flush hrun]
        obtain rfl := Option.some.inj hstep
        exact Tables.versions_flushLast s.system.engine
      next => cases h

end Store

end TinyLsm
