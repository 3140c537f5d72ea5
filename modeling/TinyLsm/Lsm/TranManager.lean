import TinyLsm.Library.Cursor
import TinyLsm.Utils.SetOperation
import TinyLsm.Wal.Record

/-!
# The transaction manager

The manager hands out transaction ids, holds the log, and keeps two records of finished
transactions: those that are ready to be flushed, each with its state, and those that have
been flushed.
-/

namespace TinyLsm

inductive TransactionState where
  | opCommitted
  | aborted
deriving DecidableEq, Repr

structure TranManager where
  nextTransactionId : TrancId := 1
  readyToFlushTrancIds : OrderedMap TrancId TransactionState := .empty
  flushedTrancIds : OrderedSet TrancId := .singleton 0
  wal : List Record := []

namespace TranManager

def getNextTransactionId (m : TranManager) : TrancId × TranManager :=
  (m.nextTransactionId, { m with nextTransactionId := m.nextTransactionId + 1 })

/-- Log records, unless writing the log fails, and answer whether it succeeded. -/
def writeToWal (m : TranManager) (walOk : Bool) (records : List Record) : Bool × TranManager :=
  if walOk then (true, { m with wal := m.wal ++ records }) else (false, m)

def addReadyToFlushTrancId (m : TranManager) (trancId : TrancId) (state : TransactionState) :
    TranManager :=
  { m with readyToFlushTrancIds := m.readyToFlushTrancIds.assign trancId state }

/-- The ids that are flushed along with an id: the aborted ones before it, and the id itself
if it is ready. -/
def needRemove (trancId : TrancId) : List (TrancId × TransactionState) → List TrancId
  | [] => []
  | (readyId, state) :: ready =>
      if readyId < trancId ∧ state = .aborted then
        readyId :: needRemove trancId ready
      else if readyId = trancId then
        [readyId]
      else
        needRemove trancId ready

def addFlushedTrancId (m : TranManager) (trancId : TrancId) : TranManager :=
  let ids := needRemove trancId m.readyToFlushTrancIds.pairs
  { m with
    flushedTrancIds := compressSet (ids.foldl OrderedSet.insert m.flushedTrancIds)
    readyToFlushTrancIds := ids.foldl OrderedMap.erase m.readyToFlushTrancIds }

theorem nextTransactionId_foldl_addFlushedTrancId :
  ∀ (trancIds : List TrancId) (m : TranManager),
    (trancIds.foldl addFlushedTrancId m).nextTransactionId = m.nextTransactionId
  | [], _ => rfl
  | trancId :: trancIds, m =>
      nextTransactionId_foldl_addFlushedTrancId trancIds (m.addFlushedTrancId trancId)

def getMaxFlushedTrancId (m : TranManager) : Except Fault TrancId :=
  match m.flushedTrancIds.max? with
  | some trancId => .ok trancId
  | none => .error .undefinedBehavior

theorem getMaxFlushedTrancId_eq_ok {m : TranManager} {flushed : TrancId} :
  m.getMaxFlushedTrancId = .ok flushed ↔ m.flushedTrancIds.max? = some flushed
  := by
  rw [getMaxFlushedTrancId]
  cases m.flushedTrancIds.max? with
  | none => exact ⟨nofun, nofun⟩
  | some i =>
      exact ⟨fun h => congrArg some (Except.ok.inj h), fun h => congrArg _ (Option.some.inj h)⟩

/-- An id is flushed along with another if it is ready, and the other one, or aborted and
before it. -/
theorem mem_needRemove {trancId i : TrancId} :
  ∀ {ready : List (TrancId × TransactionState)}, ready.Pairwise (fun p q => p.1 < q.1) →
    (i ∈ needRemove trancId ready ↔
      ∃ p ∈ ready, p.1 = i ∧ (p.1 = trancId ∨ p.1 < trancId ∧ p.2 = .aborted))
  | [], _ => ⟨nofun, nofun⟩
  | (readyId, state) :: ready, h => by
      obtain ⟨hfirst, hready⟩ := List.pairwise_cons.mp h
      rw [needRemove, List.exists_mem_cons_iff]
      split
      next habort =>
        rw [List.mem_cons, mem_needRemove hready, and_iff_left (.inr habort), eq_comm]
      next hnot =>
        split
        next heq =>
          rw [List.mem_singleton, and_iff_left (.inl heq), eq_comm]
          refine ⟨.inl, fun h => h.resolve_right ?_⟩
          rintro ⟨p, hp, -, hself | ⟨hlt, -⟩⟩
          · exact (hfirst p hp).ne (heq.trans hself.symm)
          · apply lt_asymm (hfirst p hp) (heq ▸ hlt)
        next hne =>
          rw [mem_needRemove hready]
          refine ⟨.inr, fun h => h.resolve_left ?_⟩
          rintro ⟨-, hself | habort⟩
          · apply hne hself
          · apply hnot habort

/-- After an id has been added, an id is below a flushed one if it was before, or if it is
below one that has been flushed along. -/
theorem exists_flushed_addFlushedTrancId {m : TranManager} {trancId i : TrancId} :
  (∃ j ∈ (m.addFlushedTrancId trancId).flushedTrancIds, i ≤ j) ↔
    (∃ j ∈ m.flushedTrancIds, i ≤ j) ∨
      ∃ j ∈ needRemove trancId m.readyToFlushTrancIds.pairs, i ≤ j
  := by
  rw [addFlushedTrancId, exists_ge_compressSet]
  constructor
  · rintro ⟨j, hj, hle⟩
    rcases OrderedSet.mem_foldl_insert.mp hj with hj | hj
    · exact .inr ⟨j, hj, hle⟩
    · exact .inl ⟨j, hj, hle⟩
  · rintro (⟨j, hj, hle⟩ | ⟨j, hj, hle⟩)
    · exact ⟨j, OrderedSet.mem_foldl_insert.mpr (.inr hj), hle⟩
    · exact ⟨j, OrderedSet.mem_foldl_insert.mpr (.inl hj), hle⟩

/-- Adding a flushed id covers the ids that are flushed along, if none of the ready ones is
less than the least flushed id. -/
theorem covers_addFlushedTrancId {m : TranManager} {least i : TrancId}
    (h : m.flushedTrancIds.min? = some least)
    (hready : ∀ p ∈ m.readyToFlushTrancIds.pairs, least ≤ p.1) (trancId : TrancId) :
  (m.addFlushedTrancId trancId).flushedTrancIds.Covers i ↔
    i ∈ needRemove trancId m.readyToFlushTrancIds.pairs ∨ m.flushedTrancIds.Covers i
  := by
  rw [addFlushedTrancId, covers_compressSet, OrderedSet.covers_foldl_insert h]
  intro j hj
  obtain ⟨p, hp, rfl, -⟩ := (mem_needRemove m.readyToFlushTrancIds.ascending).mp hj
  apply hready p hp

/-- An id is recorded as ready to be flushed. -/
def Ready (m : TranManager) (i : TrancId) : Prop :=
  ∃ state, (i, state) ∈ m.readyToFlushTrancIds.pairs

instance (m : TranManager) (i : TrancId) : Decidable (m.Ready i) :=
  decidable_of_iff (∃ p ∈ m.readyToFlushTrancIds.pairs, p.1 = i)
    ⟨fun ⟨p, hp, hi⟩ => ⟨p.2, hi ▸ hp⟩, fun ⟨state, hmem⟩ => ⟨(i, state), hmem, rfl⟩⟩

theorem ready_addReadyToFlushTrancId
    {m : TranManager} {trancId i : TrancId} {state : TransactionState} :
  (m.addReadyToFlushTrancId trancId state).Ready i ↔ i = trancId ∨ m.Ready i
  := OrderedMap.exists_mem_assignPair

/-- A ready id is flushed when it is added. -/
theorem Ready.mem_needRemove {m : TranManager} {trancId : TrancId} (h : m.Ready trancId) :
  trancId ∈ needRemove trancId m.readyToFlushTrancIds.pairs
  := by
  obtain ⟨state, hmem⟩ := h
  exact (TranManager.mem_needRemove m.readyToFlushTrancIds.ascending).mpr
    ⟨_, hmem, rfl, .inl rfl⟩

/-- A ready id stays so, unless it is flushed along. -/
theorem Ready.addFlushedTrancId {m : TranManager} {i : TrancId} (h : m.Ready i)
    (trancId : TrancId) :
  (m.addFlushedTrancId trancId).Ready i ∨
    i ∈ needRemove trancId m.readyToFlushTrancIds.pairs
  := by
  obtain ⟨state, hmem⟩ := h
  by_cases hneed : i ∈ needRemove trancId m.readyToFlushTrancIds.pairs
  · exact .inr hneed
  · exact .inl ⟨state, OrderedMap.mem_foldl_erase.mpr ⟨hmem, hneed⟩⟩

/-- The ids that are flushed along with another are covered then. -/
theorem covers_of_mem_needRemove {m : TranManager} {trancId i : TrancId}
    (h : i ∈ needRemove trancId m.readyToFlushTrancIds.pairs) :
  (m.addFlushedTrancId trancId).flushedTrancIds.Covers i
  := by
  rw [addFlushedTrancId, covers_compressSet]
  exact .inr (OrderedSet.mem_foldl_insert.mpr (.inl h))

end TranManager

end TinyLsm
