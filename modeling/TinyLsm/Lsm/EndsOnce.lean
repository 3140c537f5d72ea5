import TinyLsm.Lsm.Durability

/-!
# Transactions that end once

If no transaction is ended twice, and no flush comes between the marker of a commit and its
return, then whatever is in the log is of a transaction whose id is covered, or whose marker is
still to be flushed, with the id ready by then.
-/

namespace TinyLsm

/-! ### The manager -/

namespace TranManager

/-- The ready ids are not covered. -/
structure Separate (m : TranManager) : Prop where
  least : ∃ least, m.flushedTrancIds.min? = some least
  ready : ∀ i, m.Ready i → ¬ m.flushedTrancIds.Covers i

/-- An id stays ready exactly when it is not flushed along. -/
theorem ready_addFlushedTrancId {m : TranManager} {trancId i : TrancId} :
  (m.addFlushedTrancId trancId).Ready i ↔
    m.Ready i ∧ i ∉ needRemove trancId m.readyToFlushTrancIds.pairs
  := by
  constructor
  · rintro ⟨state, hi⟩
    obtain ⟨hready, hneed⟩ := OrderedMap.mem_foldl_erase.mp hi
    exact ⟨⟨state, hready⟩, hneed⟩
  · rintro ⟨hready, hneed⟩
    exact (hready.addFlushedTrancId trancId).resolve_right hneed

theorem ready_of_mem_needRemove {m : TranManager} {trancId i : TrancId}
    (h : i ∈ needRemove trancId m.readyToFlushTrancIds.pairs) :
  m.Ready i
  := by
  obtain ⟨⟨_, state⟩, hp, rfl, -⟩ := (mem_needRemove m.readyToFlushTrancIds.ascending).mp h
  exact ⟨state, hp⟩

namespace Separate

theorem covers_addFlushedTrancId {m : TranManager} (hm : m.Separate) (trancId i : TrancId) :
  (m.addFlushedTrancId trancId).flushedTrancIds.Covers i ↔
    i ∈ needRemove trancId m.readyToFlushTrancIds.pairs ∨ m.flushedTrancIds.Covers i
  := by
  obtain ⟨least, hleast⟩ := hm.least
  apply TranManager.covers_addFlushedTrancId hleast
  rintro ⟨j, state⟩ hp
  exact le_of_not_ge (fun hle => hm.ready j ⟨state, hp⟩ (.inl ⟨least, hleast, hle⟩))

theorem addFlushedTrancId {m : TranManager} (hm : m.Separate) (trancId : TrancId) :
  (m.addFlushedTrancId trancId).Separate
  := by
  obtain ⟨least, hleast⟩ := hm.least
  constructor
  · have hcovers : m.flushedTrancIds.Covers least := .inl ⟨least, hleast, le_rfl⟩
    exact ((hm.covers_addFlushedTrancId trancId least).mpr (.inr hcovers)).nonempty
  · intro i hi hcovers
    obtain ⟨hready, hneed⟩ := ready_addFlushedTrancId.mp hi
    exact ((hm.covers_addFlushedTrancId trancId i).mp hcovers).elim hneed (hm.ready i hready)

/-- Adding flushed ids covers those of them that are ready.  It leaves the ids that are ready or
covered, and what is covered stays so. -/
theorem foldl_addFlushedTrancId :
  ∀ (trancIds : List TrancId) {m : TranManager}, m.Separate →
    let m' := trancIds.foldl TranManager.addFlushedTrancId m
    m'.Separate ∧
    (∀ i, m'.Ready i ∨ m'.flushedTrancIds.Covers i ↔ m.Ready i ∨ m.flushedTrancIds.Covers i) ∧
    (∀ i, m.flushedTrancIds.Covers i → m'.flushedTrancIds.Covers i) ∧
    ∀ i ∈ trancIds, m.Ready i → m'.flushedTrancIds.Covers i
  | [], _, hm => ⟨hm, fun _ => Iff.rfl, fun _ => id, fun _ hi => absurd hi List.not_mem_nil⟩
  | trancId :: trancIds, m, hm => by
      have hcovers := hm.covers_addFlushedTrancId trancId
      obtain ⟨hseparate, hended, hmono, hflushed⟩ :=
        foldl_addFlushedTrancId trancIds (hm.addFlushedTrancId trancId)
      refine ⟨hseparate, fun i => (hended i).trans ?_,
        fun i hi => hmono i ((hcovers i).mpr (.inr hi)), fun i hi hready => ?_⟩
      · rw [ready_addFlushedTrancId, hcovers]
        constructor
        · rintro (⟨hready, -⟩ | hneed | hcovered)
          · exact .inl hready
          · exact .inl (ready_of_mem_needRemove hneed)
          · exact .inr hcovered
        · rintro (hready | hcovered)
          · by_cases hneed : i ∈ needRemove trancId m.readyToFlushTrancIds.pairs
            · exact .inr (.inl hneed)
            · exact .inl ⟨hready, hneed⟩
          · exact .inr (.inr hcovered)
      · rcases hready.addFlushedTrancId trancId with hstill | hneed
        · rcases List.mem_cons.mp hi with rfl | hi
          · exact absurd hready.mem_needRemove (ready_addFlushedTrancId.mp hstill).2
          · apply hflushed i hi hstill
        · apply hmono i ((hcovers i).mpr (.inl hneed))

end Separate

end TranManager

/-! ### Markers -/

theorem mem_insertVersion_self (e : Entry) : ∀ es : List Entry, e ∈ insertVersion e es
  | [] => List.mem_cons_self
  | e' :: es => by
      rw [insertVersion]
      split
      · exact List.mem_cons_of_mem e' (mem_insertVersion_self e es)
      · split <;> exact List.mem_cons_self

/-- A version stays, unless one of its key and id with another value is put. -/
theorem mem_insertVersion_of_mem {e e' : Entry}
    (hsame : e.key = e'.key → e.trancId = e'.trancId → e = e') :
  ∀ {es : List Entry}, e' ∈ es → e' ∈ insertVersion e es
  | e'' :: es, h => by
      rw [insertVersion]
      split
      · rcases List.mem_cons.mp h with rfl | h
        · exact List.mem_cons_self
        · exact List.mem_cons_of_mem _ (mem_insertVersion_of_mem hsame h)
      · split
        next heq =>
          rcases List.mem_cons.mp h with rfl | h
          · rw [hsame heq.1.symm heq.2.symm]
            exact List.mem_cons_self
          · exact List.mem_cons_of_mem e h
        next => exact List.mem_cons_of_mem e h

namespace Tables

theorem mem_memtable_put_self (t : Tables) (e : Entry) : e ∈ (t.put e).memtable
  := List.mem_append_left _ (mem_insertVersion_self e t.currentTable)

theorem mem_memtable_put {t : Tables} {e e' : Entry}
    (hsame : e.key = e'.key → e.trancId = e'.trancId → e = e') (h : e' ∈ t.memtable) :
  e' ∈ (t.put e).memtable
  := by
  rcases List.mem_append.mp h with h | h
  · exact List.mem_append_left _ (mem_insertVersion_of_mem hsame h)
  · exact List.mem_append_right _ h

end Tables

/-- The version that marks a commit. -/
def Entry.marker (trancId : TrancId) : Entry := ⟨[], [], trancId⟩

/-- A marker stays when a version is put which is of another key, or another marker. -/
theorem Tables.marker_mem_put {t : Tables} {e : Entry} (he : e.key = [] → e.value = [])
    {i : TrancId} (h : Entry.marker i ∈ t.memtable) :
  Entry.marker i ∈ (t.put e).memtable
  := by
  apply mem_memtable_put _ h
  intro hkey hid
  obtain ⟨key, value, trancId⟩ := e
  exact congr (congrArg₂ Entry.mk hkey (he hkey)) hid

/-! ### Transactions that end once -/

namespace History

/-- A transaction has ended. -/
def Ended (h : History) (trancId : TrancId) : Prop :=
  .committed trancId ∈ h ∨ .refused trancId ∈ h ∨ .aborted trancId ∈ h

instance (h : History) (trancId : TrancId) : Decidable (h.Ended trancId) :=
  inferInstanceAs (Decidable (_ ∨ _ ∨ _))

/-- To the empty key, which is that of the markers, no value has been written. -/
def Plain (h : History) : Prop :=
  ∀ i w, h.Wrote i w → w.key = [] → w.value = []

theorem ended_append {h h' : History} {i : TrancId} :
  (h ++ h').Ended i ↔ h.Ended i ∨ h'.Ended i
  := by
  simp only [Ended, List.mem_append]
  grind

theorem not_ended_ofVersions (es : List Entry) (i : TrancId) : ¬ (ofVersions es).Ended i
  := by
  rintro (hmem | hmem | hmem) <;>
    obtain ⟨e, -, heq | heq⟩ := mem_ofVersions.mp hmem <;> cases heq

theorem Plain.append {h h' : History} (hh : h.Plain) (hh' : h'.Plain) : (h ++ h').Plain
  := by
  rintro i w (hw | hw)
  · exact (List.mem_append.mp hw).elim (fun hw => hh i w (.inl hw)) (fun hw => hh' i w (.inl hw))
  · exact (List.mem_append.mp hw).elim (fun hw => hh i w (.inr hw)) (fun hw => hh' i w (.inr hw))

theorem plain_ofVersions {es : List Entry} (h : ∀ e ∈ es, e.key = [] → e.value = []) :
  (ofVersions es).Plain
  := by
  rintro i w (hw | hw)
  · obtain ⟨e, -, heq | heq⟩ := mem_ofVersions.mp hw <;> cases heq
  · obtain ⟨e, he, heq | heq⟩ := mem_ofVersions.mp hw
    · cases heq
    · obtain ⟨rfl, rfl⟩ := Occurrence.lsmWrote.inj heq
      exact h e he

/-- Occurrences that are no writes, or are writes to other keys. -/
theorem Plain.of_writes {h : History}
    (hh : ∀ o ∈ h, ∀ i w, o = .wrote i w ∨ o = .lsmWrote i w → w.key ≠ []) :
  h.Plain
  := by
  rintro i w (hw | hw) hkey
  · exact absurd hkey (hh _ hw i w (.inl rfl))
  · exact absurd hkey (hh _ hw i w (.inr rfl))

end History

/-- A version that may be applied, and has the empty key, has no value. -/
theorem Applicable.plain {h : History} {writer : TrancId} {e : Entry} (he : Applicable h writer e)
    (hplain : h.Plain) (hkey : e.key = []) :
  e.value = []
  := by
  by_contra hvalue
  rcases he.genuine hvalue with hwrote | ⟨hwrote, -⟩
  · exact hvalue (hplain _ _ (.inr hwrote) hkey)
  · exact hvalue (hplain _ _ (.inl hwrote) hkey)

namespace System

variable {ε : Type} [DocumentedEngine ε]

/-- What a step may not do: write to the empty key, end a transaction that has ended, or flush
while a commit is between its log and its return. -/
def EndsOnce (s : System ε) : Event → Prop
  | .write _ w | .lsmWrite w => w.key ≠ []
  | .commit trancId _ _ | .abort trancId _ => ¬ s.history.Ended trancId
  | .flush => ∀ i < s.manager.nextTransactionId, ¬ s.Committing i
  | _ => True

instance (s : System ε) (i : TrancId) : Decidable (s.Committing i) :=
  inferInstanceAs (Decidable (_ = _))

instance (s : System ε) : ∀ event : Event, Decidable (s.EndsOnce event)
  | .write _ _ | .lsmWrite _ => inferInstanceAs (Decidable (_ ≠ _))
  | .commit _ _ _ | .abort _ _ => inferInstanceAs (Decidable (¬ _))
  | .flush => inferInstanceAs (Decidable (∀ i < _, _))
  | .newTranc _ | .get _ _ | .proceed _ | .frozenCurTable => .isTrue trivial

/-- The log of a transaction is not needed any more, or its marker is still to be flushed, with
the id ready by then. -/
def Kept (s : System ε) (i : TrancId) : Prop :=
  s.manager.flushedTrancIds.Covers i ∨
    s.manager.Ready i ∧ Entry.marker i ∈ (DocumentedEngine.tables s.engine).memtable ∨
    s.Committing i ∧ (.marker i ∈ (s.pending i).calls ∨
      Entry.marker i ∈ (DocumentedEngine.tables s.engine).memtable)

theorem Kept.mono {s s' : System ε} {i : TrancId} (h : s.Kept i)
    (hcovers : s.manager.flushedTrancIds.Covers i → s'.manager.flushedTrancIds.Covers i)
    (hready : s.manager.Ready i → s'.manager.Ready i)
    (hpending : s.Committing i → s'.pending i = s.pending i)
    (hmarker : Entry.marker i ∈ (DocumentedEngine.tables s.engine).memtable →
      Entry.marker i ∈ (DocumentedEngine.tables s'.engine).memtable) :
  s'.Kept i
  := by
  rcases h with hcovered | ⟨hi, hmem⟩ | ⟨hcommitting, hmem⟩
  · exact .inl (hcovers hcovered)
  · exact .inr (.inl ⟨hready hi, hmarker hmem⟩)
  · refine .inr (.inr ?_)
    rw [Committing, hpending hcommitting]
    exact ⟨hcommitting, hmem.imp_right hmarker⟩

/-- What holds when transactions end once. -/
structure Marked (s : System ε) : Prop where
  separate : s.manager.Separate
  ended : ∀ i c, s.contexts i = some c →
    s.manager.Ready i ∨ s.manager.flushedTrancIds.Covers i → s.history.Ended i
  pending : ∀ i, (s.pending i).ending ≠ none → ¬ s.history.Ended i
  plain : s.history.Plain
  versions : ∀ e ∈ (DocumentedEngine.tables s.engine).versions, e.key = [] → e.value = []
  logged : ∀ r ∈ s.manager.wal, s.Kept r.trancId

/-- A step in which no transaction ends. -/
theorem Marked.quiet {s s' : System ε} (hs : s.Marked) (h : History)
    (hhistory : s'.history = h ++ s.history) (hended : ∀ i, ¬ h.Ended i) (hplain : h.Plain)
    (hready : s'.manager.readyToFlushTrancIds = s.manager.readyToFlushTrancIds)
    (hflushed : s'.manager.flushedTrancIds = s.manager.flushedTrancIds)
    (hcontexts : ∀ i c, s'.contexts i = some c → (∃ c, s.contexts i = some c) ∨
      ¬ (s.manager.Ready i ∨ s.manager.flushedTrancIds.Covers i))
    (hpending : ∀ i, (s'.pending i).ending ≠ none →
      (s.pending i).ending ≠ none ∨ ¬ s.history.Ended i)
    (hversions : ∀ e ∈ (DocumentedEngine.tables s'.engine).versions,
      e ∈ (DocumentedEngine.tables s.engine).versions ∨ (e.key = [] → e.value = []))
    (hlogged : ∀ r ∈ s'.manager.wal, s'.Kept r.trancId) :
  s'.Marked
  := by
  have hsame : ∀ i, s'.manager.Ready i ↔ s.manager.Ready i := by
    intro i
    rw [TranManager.Ready, hready]
    rfl
  constructor
  · constructor
    · rw [hflushed]
      apply hs.separate.least
    · intro i hi
      rw [hflushed]
      apply hs.separate.ready i ((hsame i).mp hi)
  · intro i c hc hi
    rw [hsame, hflushed] at hi
    rw [hhistory, History.ended_append]
    rcases hcontexts i c hc with ⟨c, hc⟩ | hnot
    · exact .inr (hs.ended i c hc hi)
    · exact absurd hi hnot
  · intro i hi
    rw [hhistory, History.ended_append]
    rintro (hnow | hbefore)
    · exact hended i hnow
    · exact (hpending i hi).elim (fun hi => hs.pending i hi hbefore) (fun hnot => hnot hbefore)
  · rw [hhistory]
    exact hplain.append hs.plain
  · intro e he hkey
    exact (hversions e he).elim (fun he => hs.versions e he hkey) (fun hvalue => hvalue hkey)
  · apply hlogged

/-- A step in which a transaction ends. -/
theorem Marked.ends {s s' : System ε} (hs : s.Marked) {trancId : TrancId} {c : TranContext}
    (hc : s.contexts trancId = some c) (hnot : ¬ s.history.Ended trancId) (h : History)
    (hhistory : s'.history = h ++ s.history) (hended : ∀ i, h.Ended i ↔ i = trancId)
    (hplain : h.Plain)
    (hready : ∀ i, s'.manager.Ready i ↔ i = trancId ∨ s.manager.Ready i)
    (hflushed : s'.manager.flushedTrancIds = s.manager.flushedTrancIds)
    (hcontexts : ∀ i c, s'.contexts i = some c → ∃ c, s.contexts i = some c)
    (hidle : s'.pending trancId = {}) (hpending : ∀ i ≠ trancId, s'.pending i = s.pending i)
    (hversions : ∀ e ∈ (DocumentedEngine.tables s'.engine).versions,
      e ∈ (DocumentedEngine.tables s.engine).versions ∨ (e.key = [] → e.value = []))
    (hlogged : ∀ r ∈ s'.manager.wal, s'.Kept r.trancId) :
  s'.Marked
  := by
  constructor
  · constructor
    · rw [hflushed]
      apply hs.separate.least
    · intro i hi hcovered
      rw [hflushed] at hcovered
      rcases (hready i).mp hi with rfl | hi
      · exact hnot (hs.ended i c hc (.inr hcovered))
      · exact hs.separate.ready i hi hcovered
  · intro i c' hc' hi
    rw [hready, hflushed] at hi
    rw [hhistory, History.ended_append, hended]
    obtain ⟨c', hc'⟩ := hcontexts i c' hc'
    rcases hi with (rfl | hi) | hi
    · exact .inl rfl
    · exact .inr (hs.ended i c' hc' (.inl hi))
    · exact .inr (hs.ended i c' hc' (.inr hi))
  · intro i hi
    by_cases heq : i = trancId
    · subst heq
      rw [hidle] at hi
      exact absurd rfl hi
    · rw [hpending i heq] at hi
      rw [hhistory, History.ended_append, hended]
      rintro (hnow | hbefore)
      · exact heq hnow
      · exact hs.pending i hi hbefore
  · rw [hhistory]
    exact hplain.append hs.plain
  · intro e he hkey
    exact (hversions e he).elim (fun he => hs.versions e he hkey) (fun hvalue => hvalue hkey)
  · apply hlogged

omit [DocumentedEngine ε] in
/-- An id that has not been handed out is not ready, and not covered. -/
theorem not_ended_of_le {s : System ε} (hbounded : s.manager.Bounded) {i : TrancId}
    (hle : s.manager.nextTransactionId ≤ i) :
  ¬ (s.manager.Ready i ∨ s.manager.flushedTrancIds.Covers i)
  := by
  rintro (hready | ⟨least, hleast, hi⟩ | hmem)
  · exact absurd (hbounded.ready i hready) (not_lt_of_ge hle)
  · have hlt := hbounded.flushed least (OrderedSet.min?_mem hleast)
    exact absurd (hi.trans_lt hlt) (not_lt_of_ge hle)
  · exact absurd (hbounded.flushed i hmem) (not_lt_of_ge hle)

omit [DocumentedEngine ε] in
/-- A call that is left to do, and does not end a transaction, is of no commit. -/
theorem pending_update_ending {s : System ε} {trancId i : TrancId} {calls : List EngineCall}
    (hi : (Function.update s.pending trancId { calls } i).ending ≠ none) :
  (s.pending i).ending ≠ none
  := by
  by_cases heq : i = trancId
  · subst heq
    rw [Function.update_self] at hi
    exact absurd rfl hi
  · rwa [Function.update_of_ne heq] at hi

omit [DocumentedEngine ε] in
theorem pending_update_committing {s : System ε} {trancId i : TrancId} {pending : Pending}
    (hidle : s.pending trancId = {}) (hi : s.Committing i) :
  Function.update s.pending trancId pending i = s.pending i
  := by
  apply Function.update_of_ne
  rintro rfl
  exact not_committing_of_idle hidle hi

theorem Marked.newTranc {s : System ε} (hs : s.Marked) (hbounded : s.manager.Bounded)
    (level : IsolationLevel) :
  (s.newTranc level).Marked
  := by
  refine hs.quiet [.created s.manager.nextTransactionId level] rfl ?_ ?_ rfl rfl ?_
    (fun i hi => .inl hi) (fun e he => .inl he) (fun r hr => (hs.logged r hr).mono id id
      (fun _ => rfl) id)
  · rintro i (h | h | h) <;> cases List.mem_singleton.mp h
  · apply History.Plain.of_writes
    rintro o ho i w (rfl | rfl) <;> cases List.mem_singleton.mp ho
  · intro i c hc
    rcases update_eq_some hc with ⟨rfl, -⟩ | ⟨-, hc⟩
    · exact .inr (not_ended_of_le hbounded le_rfl)
    · exact .inl ⟨c, hc⟩

theorem Marked.write {s : System ε} (hs : s.Marked) {trancId : TrancId} {c : TranContext}
    (hc : s.contexts trancId = some c) (hidle : s.pending trancId = {}) {w : WriteCall}
    (hw : w.key ≠ []) :
  (s.write trancId c w).Marked
  := by
  refine hs.quiet [.wrote trancId w] rfl ?_ ?_ rfl rfl ?_ (fun i hi => .inl
    (pending_update_ending hi)) (fun e he => .inl he) (fun r hr => (hs.logged r hr).mono id id
      (pending_update_committing hidle) id)
  · rintro i (h | h | h) <;> cases List.mem_singleton.mp h
  · apply History.Plain.of_writes
    rintro o ho i w' (rfl | rfl) <;> cases List.mem_singleton.mp ho
    exact hw
  · intro i c' hc'
    rcases update_eq_some hc' with ⟨rfl, -⟩ | ⟨-, hc'⟩
    · exact .inl ⟨c, hc⟩
    · exact .inl ⟨c', hc'⟩

/-- A step that changes a context, and no more than the reads in the history. -/
theorem Marked.setContext {s s' : System ε} (hs : s.Marked) {trancId : TrancId}
    {c c' : TranContext} (hc : s.contexts trancId = some c) (h : History)
    (hreads : ∀ o ∈ h, ∃ key value, o = .read trancId key value)
    (hs' : s' = { s with
      contexts := Function.update s.contexts trancId (some c')
      history := h ++ s.history }) :
  s'.Marked
  := by
  subst hs'
  refine hs.quiet h rfl ?_ ?_ rfl rfl ?_ (fun i hi => .inl hi) (fun e he => .inl he)
    (fun r hr => (hs.logged r hr).mono id id (fun _ => rfl) id)
  · rintro i (hi | hi | hi) <;> obtain ⟨key, value, heq⟩ := hreads _ hi <;> cases heq
  · apply History.Plain.of_writes
    rintro o ho i w (rfl | rfl) <;> obtain ⟨key, value, heq⟩ := hreads _ ho <;> cases heq
  · intro i c'' hc''
    rcases update_eq_some hc'' with ⟨rfl, -⟩ | ⟨-, hc''⟩
    · exact .inl ⟨c, hc⟩
    · exact .inl ⟨c'', hc''⟩

/-- The records a commit passes to the log are of its transaction. -/
theorem Logs.trancId_of_commitRecords {base : TrancId} {s : System ε} (hs : s.Logs base)
    (hinv : s.Invariant) {trancId : TrancId} {c : TranContext}
    (hc : s.contexts trancId = some c) {r : Record} (hr : r ∈ c.commitRecords) :
  r.trancId = trancId
  := by
  rcases List.mem_append.mp hr with hr | hr
  · exact (hs.operations trancId c hc).1 r hr
  · rw [List.mem_singleton.mp hr, Record.commitRecord]
    exact (hinv.consistent trancId c hc).trancId_eq

theorem Marked.beginCommit {s : System ε} (hs : s.Marked) (hinv : s.Invariant) {base : TrancId}
    (hlogs : s.Logs base) {trancId : TrancId} {c : TranContext}
    (hc : s.contexts trancId = some c) (hidle : s.pending trancId = {})
    (hnot : ¬ s.history.Ended trancId) :
  (s.beginCommit trancId c true).Marked
  := by
  refine hs.quiet [] rfl ?_ ?_ rfl rfl ?_ ?_ (fun e he => .inl he) ?_
  · rintro i (h | h | h) <;> cases h
  · rintro i w (h | h) <;> cases h
  · intro i c' hc'
    rcases update_eq_some hc' with ⟨rfl, -⟩ | ⟨-, hc'⟩
    · exact .inl ⟨c, hc⟩
    · exact .inl ⟨c', hc'⟩
  · intro i hi
    by_cases heq : i = trancId
    · exact .inr (heq ▸ hnot)
    · have hsame : (s.beginCommit trancId c true).pending i = s.pending i :=
        Function.update_of_ne heq _ _
      rw [hsame] at hi
      exact .inl hi
  · intro r hr
    rcases List.mem_append.mp hr with hr | hr
    · exact (hs.logged r hr).mono id id (pending_update_committing hidle) id
    · rw [hlogs.trancId_of_commitRecords hinv hc hr]
      refine .inr (.inr ?_)
      have hpending : (s.beginCommit trancId c true).pending trancId =
          ⟨[.marker c.trancId], some .opCommitted⟩ := by
        apply Function.update_self
      rw [Committing, hpending, (hinv.consistent trancId c hc).trancId_eq]
      exact ⟨rfl, .inl List.mem_cons_self⟩

theorem Marked.refused {s : System ε} (hs : s.Marked) (hinv : s.Invariant) {trancId : TrancId}
    {c : TranContext} (hc : s.contexts trancId = some c) (hidle : s.pending trancId = {})
    (hnot : ¬ s.history.Ended trancId) :
  (s.refused trancId c).Marked
  := by
  have hid := (hinv.consistent trancId c hc).trancId_eq
  refine hs.ends hc hnot [.refused trancId] rfl ?_ ?_ ?_ rfl ?_ hidle (fun _ _ => rfl)
    (fun e he => .inl he) (fun r hr => (hs.logged r hr).mono id ?_ (fun _ => rfl) id)
  · simp [History.Ended]
  · apply History.Plain.of_writes
    rintro o ho i w (rfl | rfl) <;> cases List.mem_singleton.mp ho
  · intro i
    rw [← hid]
    apply TranManager.ready_addReadyToFlushTrancId
  · intro i c' hc'
    rcases update_eq_some hc' with ⟨rfl, -⟩ | ⟨-, hc'⟩
    · exact ⟨c, hc⟩
    · exact ⟨c', hc'⟩
  · exact fun hready => TranManager.ready_addReadyToFlushTrancId.mpr (.inr hready)

/-- A buffered commit puts its marker, and leaves the others. -/
theorem marker_mem_applyWrites {c : TranContext} (engine : ε) {writes : Iteration Bytes}
    (hplain : ∀ w ∈ writes, w.1 = [] → w.2 = []) :
  Entry.marker c.trancId ∈ (DocumentedEngine.tables (c.applyWrites engine writes)).memtable ∧
    ∀ i, Entry.marker i ∈ (DocumentedEngine.tables engine).memtable →
      Entry.marker i ∈ (DocumentedEngine.tables (c.applyWrites engine writes)).memtable
  := by
  rw [TranContext.applyWrites, DocumentedEngine.tables_memtablePut_]
  refine ⟨Tables.mem_memtable_put_self _ _, fun i hi => ?_⟩
  apply Tables.marker_mem_put (fun _ => rfl)
  induction writes generalizing engine with
  | nil => exact hi
  | cons w writes ih =>
      obtain ⟨hw, hwrites⟩ := List.forall_mem_cons.mp hplain
      apply ih (LSMEngine.memtablePut_ engine w.1 w.2 c.trancId) hwrites
      rw [DocumentedEngine.tables_memtablePut_]
      exact Tables.marker_mem_put hw hi

theorem Marked.committed {s : System ε} (hs : s.Marked) (hinv : s.Invariant) {base : TrancId}
    (hlogs : s.Logs base) {trancId : TrancId} {c : TranContext}
    (hc : s.contexts trancId = some c) (hidle : s.pending trancId = {})
    (hlevel : c.isolationLevel.Buffered) (hnot : ¬ s.history.Ended trancId)
    {writes : Iteration Bytes} (hwrites : writes.Perm c.tempMap.entries) :
  (s.committed trancId c writes).Marked
  := by
  have hold := hinv.consistent trancId c hc
  have hplain : ∀ w ∈ writes, w.1 = [] → w.2 = [] := by
    intro w hw hkey
    have hkept : c.tempMap.lookup w.1 = some w.2 :=
      AList.mem_lookup_iff.mpr (hwrites.mem_iff.mp hw)
    rw [hold.tempMap hlevel] at hkept
    obtain ⟨w', hwrote, hkey', hvalue⟩ := History.mem_of_lastWritten hkept
    rw [← hvalue]
    exact hs.plain trancId w' (.inl hwrote) (hkey'.trans hkey)
  obtain ⟨hmarker, hmarkers⟩ := marker_mem_applyWrites (c := c) s.engine hplain
  have hready : ∀ i, (s.committed trancId c writes).manager.Ready i ↔
      i = trancId ∨ s.manager.Ready i := by
    intro i
    rw [← hold.trancId_eq]
    apply TranManager.ready_addReadyToFlushTrancId
  refine hs.ends hc hnot (commitOccurrences trancId writes (.ok true)) rfl ?_ ?_ hready rfl ?_
    hidle (fun _ _ => rfl) ?_ ?_
  · intro i
    constructor
    · rintro (h | h | h) <;> rcases eq_of_mem_commit h with heq | ⟨e, heq⟩
      · exact Occurrence.committed.inj heq
      all_goals cases heq
    · rintro rfl
      exact .inl List.mem_cons_self
  · apply History.Plain.of_writes
    rintro o ho i w (rfl | rfl) <;> rcases eq_of_mem_commit ho with heq | ⟨e, heq⟩ <;> cases heq
  · intro i c' hc'
    rcases update_eq_some hc' with ⟨rfl, -⟩ | ⟨-, hc'⟩
    · exact ⟨c, hc⟩
    · exact ⟨c', hc'⟩
  · intro e he
    rcases mem_versions_applyWrites s.engine he with rfl | ⟨w, hw, rfl⟩ | he
    · exact .inr (fun _ => rfl)
    · exact .inr (hplain w hw)
    · exact .inl he
  · intro r hr
    rcases List.mem_append.mp hr with hr | hr
    · exact (hs.logged r hr).mono id (fun hi => (hready _).mpr (.inr hi)) (fun _ => rfl)
        (hmarkers _)
    · rw [hlogs.trancId_of_commitRecords hinv hc hr]
      refine .inr (.inl ⟨(hready trancId).mpr (.inl rfl), ?_⟩)
      rw [hold.trancId_eq] at hmarker
      exact hmarker

theorem Marked.beginAbort {s : System ε} (hs : s.Marked) {trancId : TrancId} {c : TranContext}
    (hidle : s.pending trancId = {}) (hnot : ¬ s.history.Ended trancId)
    (rollbacks : Iteration (Option (Bytes × TrancId))) :
  (s.beginAbort trancId c rollbacks).Marked
  := by
  refine hs.quiet [] rfl ?_ ?_ rfl rfl (fun i c hc => .inl ⟨c, hc⟩) ?_ (fun e he => .inl he)
    (fun r hr => (hs.logged r hr).mono id id (pending_update_committing hidle) id)
  · rintro i (h | h | h) <;> cases h
  · rintro i w (h | h) <;> cases h
  · intro i hi
    by_cases heq : i = trancId
    · exact .inr (heq ▸ hnot)
    · have hsame : (s.beginAbort trancId c rollbacks).pending i = s.pending i :=
        Function.update_of_ne heq _ _
      rw [hsame] at hi
      exact .inl hi

theorem Marked.finish {s : System ε} (hs : s.Marked) (hinv : s.Invariant) {trancId : TrancId}
    {c : TranContext} (hc : s.contexts trancId = some c) {state : TransactionState}
    (hpending : s.pending trancId = ⟨[], some state⟩ ∨
      s.pending trancId = {} ∧ state = .aborted)
    (hnot : ¬ s.history.Ended trancId) :
  (s.finish trancId c state).Marked
  := by
  have hid := (hinv.consistent trancId c hc).trancId_eq
  have hready : ∀ i, (s.finish trancId c state).manager.Ready i ↔
      i = trancId ∨ s.manager.Ready i := by
    intro i
    rw [← hid]
    apply TranManager.ready_addReadyToFlushTrancId
  refine hs.ends hc hnot [endOccurrence trancId state] rfl ?_ ?_ hready rfl ?_
    (Function.update_self ..) (fun i hi => Function.update_of_ne hi _ _) (fun e he => .inl he) ?_
  · intro i
    cases state <;> simp [History.Ended, endOccurrence]
  · apply History.Plain.of_writes
    rintro o ho i w (rfl | rfl) <;> cases state <;> cases List.mem_singleton.mp ho
  · intro i c' hc'
    rcases update_eq_some hc' with ⟨rfl, -⟩ | ⟨-, hc'⟩
    · exact ⟨c, hc⟩
    · exact ⟨c', hc'⟩
  · intro r hr
    by_cases heq : r.trancId = trancId
    · rcases hs.logged r hr with hcovered | ⟨-, hmarker⟩ | ⟨hcommitting, hmem⟩
      · exact .inl hcovered
      · exact .inr (.inl ⟨(hready _).mpr (.inl heq), hmarker⟩)
      · -- all that is pending is to record the id
        rw [Committing, heq] at hcommitting
        rw [heq] at hmem
        refine .inr (.inl ⟨(hready _).mpr (.inl heq), ?_⟩)
        rcases hpending with hpending | ⟨hpending, -⟩
        · rw [hpending] at hmem
          rw [heq]
          exact hmem.resolve_left List.not_mem_nil
        · rw [hpending] at hcommitting
          cases hcommitting
    · exact (hs.logged r hr).mono id (fun hi => (hready _).mpr (.inr hi))
        (fun _ => Function.update_of_ne heq _ _) id

theorem Marked.lsmWrite {s : System ε} (hs : s.Marked) (hinv : s.Invariant) {w : WriteCall}
    (hw : w.key ≠ []) :
  (s.lsmWrite w).Marked
  := by
  refine hs.quiet [.lsmWrote s.manager.nextTransactionId w] rfl ?_ ?_ rfl rfl
    (fun i c hc => .inl ⟨c, hc⟩) (fun i hi => .inl (pending_update_ending hi))
    (fun e he => .inl he) (fun r hr => (hs.logged r hr).mono id id
      (pending_update_committing (hinv.unused _ le_rfl).2) id)
  · rintro i (h | h | h) <;> cases List.mem_singleton.mp h
  · apply History.Plain.of_writes
    rintro o ho i w' (rfl | rfl) <;> cases List.mem_singleton.mp ho
    exact hw

theorem Marked.perform {s : System ε} (hs : s.Marked) (hinv : s.Invariant) {trancId : TrancId}
    {call : EngineCall} {calls : List EngineCall} {ending : Option TransactionState}
    (hpending : s.pending trancId = ⟨call :: calls, ending⟩) :
  (s.perform trancId call ⟨calls, ending⟩).Marked
  := by
  have hcall : call ∈ (s.pending trancId).calls := by
    rw [hpending]
    exact List.mem_cons_self
  have hentry : call.entry.key = [] → call.entry.value = [] :=
    (hinv.pending trancId call hcall).plain hs.plain
  have htables : DocumentedEngine.tables (s.perform trancId call ⟨calls, ending⟩).engine =
      (DocumentedEngine.tables s.engine).put call.entry := EngineCall.tables_perform ..
  have hmarkers : ∀ i, Entry.marker i ∈ (DocumentedEngine.tables s.engine).memtable →
      Entry.marker i ∈ (DocumentedEngine.tables
        (s.perform trancId call ⟨calls, ending⟩).engine).memtable := by
    intro i hi
    rw [htables]
    exact Tables.marker_mem_put hentry hi
  refine hs.quiet [.applied trancId call.entry] rfl ?_ ?_ rfl rfl (fun i c hc => .inl ⟨c, hc⟩) ?_
    ?_ ?_
  · rintro i (h | h | h) <;> cases List.mem_singleton.mp h
  · apply History.Plain.of_writes
    rintro o ho i w (rfl | rfl) <;> cases List.mem_singleton.mp ho
  · intro i hi
    left
    by_cases heq : i = trancId
    · subst heq
      have hrest : (s.perform i call ⟨calls, ending⟩).pending i = ⟨calls, ending⟩ :=
        Function.update_self ..
      rw [hrest] at hi
      rw [hpending]
      exact hi
    · have hsame : (s.perform trancId call ⟨calls, ending⟩).pending i = s.pending i :=
        Function.update_of_ne heq _ _
      rwa [hsame] at hi
  · intro e he
    rw [htables] at he
    rcases mem_versions_put he with rfl | he
    · exact .inr hentry
    · exact .inl he
  · intro r hr
    by_cases heq : r.trancId = trancId
    · rcases hs.logged r hr with hcovered | ⟨hready, hmarker⟩ | ⟨hcommitting, hmem⟩
      · exact .inl hcovered
      · exact .inr (.inl ⟨hready, hmarkers _ hmarker⟩)
      · refine .inr (.inr ?_)
        have hrest : (s.perform trancId call ⟨calls, ending⟩).pending r.trancId =
            ⟨calls, ending⟩ := by
          rw [heq]
          apply Function.update_self
        rw [Committing, heq, hpending] at hcommitting
        rw [heq, hpending] at hmem
        rw [Committing, hrest]
        refine ⟨hcommitting, ?_⟩
        rcases hmem with hmem | hmarker
        · rcases List.mem_cons.mp hmem with heq' | hmem
          · right
            rw [htables, ← heq', heq]
            apply Tables.mem_memtable_put_self
          · left
            rw [heq]
            exact hmem
        · exact .inr (hmarkers _ (heq ▸ hmarker))
    · exact (hs.logged r hr).mono id id (fun _ => Function.update_of_ne heq _ _) (hmarkers _)

theorem Marked.frozenCurTable {s : System ε} (hs : s.Marked) : s.frozenCurTable.Marked
  := by
  have htables : DocumentedEngine.tables s.frozenCurTable.engine =
      (DocumentedEngine.tables s.engine).frozenCurTable :=
    DocumentedEngine.tables_frozenCurTable _
  refine hs.quiet [] rfl ?_ ?_ rfl rfl (fun i c hc => .inl ⟨c, hc⟩) (fun i hi => .inl hi) ?_
    (fun r hr => (hs.logged r hr).mono id id (fun _ => rfl) ?_)
  · rintro i (h | h | h) <;> cases h
  · rintro i w (h | h) <;> cases h
  · intro e he
    rw [htables, Tables.versions_frozenCurTable] at he
    exact .inl he
  · intro hmarker
    rw [htables]
    exact hmarker

/-- The markers of the memtable are in the table that is flushed, or stay in the memtable. -/
theorem marker_flush {s : System ε} {i : TrancId}
    (h : Entry.marker i ∈ (DocumentedEngine.tables s.engine).memtable) :
  i ∈ (DocumentedEngine.flush s.engine).1 ∨
    Entry.marker i ∈ (DocumentedEngine.tables (DocumentedEngine.flush s.engine).2).memtable
  := by
  rw [DocumentedEngine.markers_flush, DocumentedEngine.tables_flush, Tables.flushLast]
  cases holdest : (DocumentedEngine.tables s.engine).oldest with
  | none => exact .inr h
  | some oldest =>
      obtain ⟨table, t⟩ := oldest
      rw [(Tables.memtable_of_oldest holdest).1] at h
      rcases List.mem_append.mp h with h | h
      · exact .inr h
      · left
        apply List.mem_map.mpr
        exact ⟨_, List.mem_filter.mpr ⟨h, decide_eq_true ⟨rfl, rfl⟩⟩, rfl⟩

theorem Marked.flush {s : System ε} (hs : s.Marked)
    (hnone : ∀ r ∈ s.manager.wal, ¬ s.Committing r.trancId) :
  s.flush.Marked
  := by
  obtain ⟨hseparate, hended, hmono, hflushed⟩ := TranManager.Separate.foldl_addFlushedTrancId
    (DocumentedEngine.flush s.engine).1 hs.separate
  constructor
  · apply hseparate
  · intro i c hc hi
    exact hs.ended i c hc ((hended i).mp hi)
  · apply hs.pending
  · apply hs.plain
  · intro e he
    have he : e ∈ (DocumentedEngine.tables (DocumentedEngine.flush s.engine).2).versions := he
    rw [DocumentedEngine.tables_flush, Tables.versions_flushLast] at he
    exact hs.versions e he
  · intro r hr
    have hr : r ∈ s.manager.wal := by
      rw [← wal_foldl_addFlushedTrancId (DocumentedEngine.flush s.engine).1]
      exact hr
    rcases hs.logged r hr with hcovered | ⟨hready, hmarker⟩ | ⟨hcommitting, -⟩
    · exact .inl (hmono _ hcovered)
    · rcases marker_flush hmarker with hmem | hmarker
      · exact .inl (hflushed _ hmem hready)
      · rcases (hended r.trancId).mpr (.inl hready) with hready | hcovered
        · exact .inr (.inl ⟨hready, hmarker⟩)
        · exact .inl hcovered
    · exact absurd hcommitting (hnone r hr)

theorem Marked.step {s s' : System ε} {event : Event} (hs : s.Marked) {base : TrancId}
    (hlasting : s.Lasting base) (hbounded : s.manager.Bounded) (hevent : s.EndsOnce event)
    (h : step s event = some s') :
  s'.Marked
  := by
  have hinv := hlasting.invariant
  cases event with
  | newTranc level =>
      obtain rfl := Option.some.inj h
      apply hs.newTranc hbounded
  | write trancId w =>
      obtain ⟨c, hidle?, rfl⟩ := Option.map_eq_some_iff.mp h
      obtain ⟨hc, hidle⟩ := idle?_eq_some hidle?
      apply hs.write hc hidle hevent
  | get trancId key =>
      obtain ⟨c, hidle?, rfl⟩ := Option.map_eq_some_iff.mp h
      exact hs.setContext (idle?_eq_some hidle?).1 [_]
        (fun o ho => ⟨_, _, List.mem_singleton.mp ho⟩) rfl
  | commit trancId writes walOk =>
      obtain ⟨c, hidle?, h⟩ := Option.bind_eq_some_iff.mp h
      obtain ⟨hc, hidle⟩ := idle?_eq_some hidle?
      have hnone : ∀ o ∈ ([] : History), ∃ key value, o = .read trancId key value :=
        fun o ho => absurd ho List.not_mem_nil
      split at h
      next hwrites =>
        split at h
        next hlevel =>
          obtain rfl := Option.some.inj h
          cases walOk with
          | true => apply hs.beginCommit hinv hlasting.logs hc hidle hevent
          | false => exact hs.setContext hc [] hnone rfl
        next hlevel =>
          obtain rfl := Option.some.inj h
          rw [System.commit]
          rcases TranContext.commit_buffered hlevel s.engine s.manager writes walOk with
            ⟨_, operations, hcommit⟩ | hcommit | ⟨-, hcommit⟩ <;> rw [hcommit]
          · exact hs.setContext hc [] hnone rfl
          · apply hs.refused hinv hc hidle hevent
          · apply hs.committed hinv hlasting.logs hc hidle hlevel hevent hwrites
      next => cases h
  | abort trancId rollbacks =>
      obtain ⟨c, hidle?, h⟩ := Option.bind_eq_some_iff.mp h
      obtain ⟨hc, hidle⟩ := idle?_eq_some hidle?
      split at h
      next hrollbacks =>
        split at h <;> obtain rfl := Option.some.inj h
        · apply hs.beginAbort hidle hevent
        · apply hs.finish hinv hc (.inr ⟨hidle, rfl⟩) hevent
      next => cases h
  | lsmWrite w =>
      obtain rfl := Option.some.inj h
      apply hs.lsmWrite hinv hevent
  | proceed trancId =>
      rw [System.step] at h
      split at h
      next call calls ending hpending =>
        obtain rfl := Option.some.inj h
        apply hs.perform hinv hpending
      next state hpending =>
        obtain ⟨c, hc, rfl⟩ := Option.map_eq_some_iff.mp h
        apply hs.finish hinv hc (.inl hpending) (hs.pending trancId _)
        rw [hpending]
        exact Option.some_ne_none state
      next => cases h
  | frozenCurTable =>
      obtain rfl := Option.some.inj h
      apply hs.frozenCurTable
  | flush =>
      obtain rfl := Option.some.inj h
      apply hs.flush
      intro r hr
      obtain ⟨c, hc⟩ := hlasting.logs.logged r hr
      exact hevent r.trancId (hinv.lt_next hc)

/-- In an opened system, nothing is in the log, and the ids that the manager has as flushed are
those handed out before. -/
theorem Opened.marked {s : System ε} (hs : s.Opened) (hwal : s.manager.wal = [])
    (hseparate : s.manager.Separate)
    (hplain : ∀ e ∈ (DocumentedEngine.tables s.engine).versions, e.key = [] → e.value = []) :
  (s.after (.ofVersions (DocumentedEngine.tables s.engine).versions)).Marked
  := by
  obtain ⟨-, hcontexts, hpending, hhistory⟩ := hs
  constructor
  · apply hseparate
  · intro i c hc
    have hc : s.contexts i = some c := hc
    rw [hcontexts i] at hc
    cases hc
  · intro i hi
    have hi : (s.pending i).ending ≠ none := hi
    rw [hpending i] at hi
    exact absurd rfl hi
  · rw [after, hhistory]
    exact History.plain_ofVersions hplain
  · apply hplain
  · intro r hr
    have hr : r ∈ s.manager.wal := hr
    rw [hwal] at hr
    cases hr

end System

end TinyLsm
