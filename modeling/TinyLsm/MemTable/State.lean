import TinyLsm.SkipList.Accounting

/-!
# The tables of the memtable

The memtable is a current table, frozen tables with the newest of them first, and a count of the
bytes in the frozen tables.  `flush_last` takes the oldest frozen table off, or, if there is
none, the current one, and passes its entries to a builder, which may throw.

The count stays that of the frozen tables: `FrozenExact.flushLast`.  If the builder throws, the
table that has been taken off is gone.
-/

namespace TinyLsm

/-- The operations of a builder of tables on disk.  `build` is given the id and the path of the
table it writes. -/
class SSTBuilder (β : Type) (σ : outParam Type) where
  add : β → Bytes → Bytes → TrancId → Except Fault β
  build : β → ℕ → Bytes → Except Fault σ

namespace MemTable

/-! ### Tables -/

/-- A skip list as its operations leave it. -/
structure Table where
  list : SkipList
  chained : ∃ chain, list.Chained chain

namespace Table

def empty : Table := ⟨SkipList.empty, [], SkipList.chained_empty (by decide)⟩

def clear (t : Table) : Table := ⟨t.list.clear, [], t.chained.elim (fun _ h => h.clear)⟩

def getSize (t : Table) : UInt64 := t.list.getSize

def flush (t : Table) : Except Fault (List Entry) := t.list.flush

/-- The entries of a table. -/
def entries (t : Table) : List Entry := t.flush.toOption.getD []

theorem flush_eq (t : Table) : t.flush = .ok t.entries
  := by
  obtain ⟨chain, h⟩ := t.chained
  rw [entries, flush, h.flush_eq]
  rfl

@[simp]
theorem entries_empty : empty.entries = []
  := rfl

@[simp]
theorem getSize_empty : empty.getSize = 0
  := rfl

@[simp]
theorem getSize_clear (t : Table) : t.clear.getSize = 0
  := rfl

end Table

/-! ### The state -/

structure State where
  currentTable : Table
  frozenTables : List Table
  frozenBytes : UInt64

namespace State

def clear (m : State) : State :=
  { m with frozenTables := [], currentTable := m.currentTable.clear }

def getCurSize (m : State) : UInt64 := m.currentTable.getSize

def getFrozenSize (m : State) : UInt64 := m.frozenBytes

def getTotalSize (m : State) : UInt64 := m.getFrozenSize + m.getCurSize

/-- Put the current table before the frozen ones, and start a new one. -/
def frozenCurTable_ (m : State) : State where
  currentTable := .empty
  frozenTables := m.currentTable :: m.frozenTables
  frozenBytes := m.frozenBytes + m.currentTable.getSize

/-- Have a frozen table, unless all of the tables are empty. -/
def prepareFlush (m : State) : Option State :=
  if m.frozenTables.isEmpty then
    if m.currentTable.getSize = 0 then none else some m.frozenCurTable_
  else
    some m

/-- Take the oldest frozen table off. -/
def popBack (m : State) : Option (Table × State) :=
  match m.frozenTables.getLast? with
  | none => none
  | some table =>
      some (table, { m with
        frozenTables := m.frozenTables.dropLast
        frozenBytes := m.frozenBytes - table.getSize })

section

variable {β σ : Type} [SSTBuilder β σ]

/-- Add entries to a builder, with the ids of the markers among them. -/
def addEntries : List Entry → β → List TrancId → Except Fault β × List TrancId
  | [], builder, flushedTrancIds => (.ok builder, flushedTrancIds)
  | e :: es, builder, flushedTrancIds =>
      let flushedTrancIds :=
        if e.key = [] ∧ e.value = [] then flushedTrancIds ++ [e.trancId] else flushedTrancIds
      match SSTBuilder.add builder e.key e.value e.trancId with
      | .error fault => (.error fault, flushedTrancIds)
      | .ok builder => addEntries es builder flushedTrancIds

/-- Write a table that has been taken off. -/
def writeTable (table : Table) (builder : β) (sstPath : Bytes) (sstId : ℕ)
    (flushedTrancIds : List TrancId) : Except Fault σ × List TrancId :=
  match table.flush with
  | .error fault => (.error fault, flushedTrancIds)
  | .ok flushData =>
      match addEntries flushData builder flushedTrancIds with
      | (.error fault, flushedTrancIds) => (.error fault, flushedTrancIds)
      | (.ok builder, flushedTrancIds) =>
          (SSTBuilder.build builder sstId sstPath, flushedTrancIds)

/-- `flush_last`: how it ends, with the state and the ids of the markers it leaves.  There is no
table on disk if there is nothing to flush. -/
def flushLast (m : State) (builder : β) (sstPath : Bytes) (sstId : ℕ)
    (flushedTrancIds : List TrancId) : Except Fault (Option σ) × State × List TrancId :=
  match m.prepareFlush with
  | none => (.ok none, m, flushedTrancIds)
  | some prepared =>
      match prepared.popBack with
      | none => (.error .undefinedBehavior, prepared, flushedTrancIds)
      | some (table, popped) =>
          match writeTable table builder sstPath sstId flushedTrancIds with
          | (.error fault, flushedTrancIds) => (.error fault, popped, flushedTrancIds)
          | (.ok sst, flushedTrancIds) => (.ok (some sst), popped, flushedTrancIds)

end

/-! ### What the tables hold -/

/-- An entry is in the current table or in a frozen one. -/
def Holds (m : State) (e : Entry) : Prop :=
  ∃ t ∈ m.currentTable :: m.frozenTables, e ∈ t.entries

/-- The count of bytes is that of the frozen tables. -/
def FrozenExact (m : State) : Prop :=
  m.frozenBytes.toNat = (m.frozenTables.map (fun t => t.getSize.toNat)).sum

/-- The table that is flushed next: the oldest frozen one, or else the current one, if it is not
empty. -/
def flushed? (m : State) : Option Table :=
  match m.frozenTables.getLast? with
  | some table => some table
  | none => if m.currentTable.getSize = 0 then none else some m.currentTable

/-- The other tables. -/
def others (m : State) : List Table :=
  if m.frozenTables.isEmpty then [] else m.currentTable :: m.frozenTables.dropLast

/-- The state without the table that is flushed next. -/
def detached (m : State) (table : Table) : State :=
  if m.frozenTables.isEmpty then
    { currentTable := .empty, frozenTables := [], frozenBytes := m.frozenBytes }
  else
    { m with
      frozenTables := m.frozenTables.dropLast
      frozenBytes := m.frozenBytes - table.getSize }

/-! ### Taking a table off -/

theorem flushed?_concat {m : State} {tables : List Table} {table : Table}
    (h : m.frozenTables = tables ++ [table]) :
  m.flushed? = some table
  := by
  rw [flushed?, h, List.getLast?_concat]

theorem flushed?_nil {m : State} (h : m.frozenTables = []) :
  m.flushed? = if m.currentTable.getSize = 0 then none else some m.currentTable
  := by
  rw [flushed?, h]
  rfl

/-- A state without frozen tables, or with an oldest one. -/
theorem frozenTables_cases (m : State) :
  m.frozenTables = [] ∨ ∃ tables table, m.frozenTables = tables ++ [table]
  := by
  obtain h | ⟨tables, table, h⟩ := List.eq_nil_or_concat m.frozenTables
  · exact .inl h
  · rw [List.concat_eq_append] at h
    exact .inr ⟨tables, table, h⟩

/-- The table that is flushed next is the current one, or the oldest frozen one. -/
theorem flushed?_cases {m : State} {table : Table} (h : m.flushed? = some table) :
  (m.frozenTables = [] ∧ m.currentTable = table ∧ table.getSize ≠ 0 ∧
      m.detached table = ⟨.empty, [], m.frozenBytes⟩) ∨
    ∃ tables, m.frozenTables = tables ++ [table] ∧
      m.detached table =
        { m with frozenTables := tables, frozenBytes := m.frozenBytes - table.getSize }
  := by
  obtain hnil | ⟨tables, last, hconcat⟩ := m.frozenTables_cases
  · rw [m.flushed?_nil hnil] at h
    split at h
    next => cases h
    next hsize =>
      cases h
      refine .inl ⟨hnil, rfl, hsize, ?_⟩
      rw [detached, hnil]
      rfl
  · rw [flushed?_concat hconcat] at h
    cases h
    have hne : m.frozenTables.isEmpty = false := by
      rw [hconcat]
      simp
    refine .inr ⟨tables, hconcat, ?_⟩
    rw [detached, hne, if_neg Bool.false_ne_true, hconcat, List.dropLast_concat]

section

variable {β σ : Type} [SSTBuilder β σ]

theorem flushLast_of_none {m : State} (h : m.flushed? = none) (builder : β) (sstPath : Bytes)
    (sstId : ℕ) (flushedTrancIds : List TrancId) :
  m.flushLast builder sstPath sstId flushedTrancIds = (.ok none, m, flushedTrancIds)
  := by
  obtain hnil | ⟨tables, table, hconcat⟩ := m.frozenTables_cases
  · have hsize : m.currentTable.getSize = 0 := by
      rw [m.flushed?_nil hnil] at h
      by_contra hne
      rw [if_neg hne] at h
      cases h
    rw [flushLast, prepareFlush, hnil, if_pos List.isEmpty_nil, if_pos hsize]
  · rw [flushed?_concat hconcat] at h
    cases h

/-- The table that is taken off is written, and the other ones are left. -/
theorem flushLast_of_some {m : State} {table : Table} (h : m.flushed? = some table)
    (builder : β) (sstPath : Bytes) (sstId : ℕ) (flushedTrancIds : List TrancId) :
  m.flushLast builder sstPath sstId flushedTrancIds =
    match writeTable table builder sstPath sstId flushedTrancIds with
    | (.error fault, flushedTrancIds) => (.error fault, m.detached table, flushedTrancIds)
    | (.ok sst, flushedTrancIds) => (.ok (some sst), m.detached table, flushedTrancIds)
  := by
  obtain ⟨hnil, rfl, hsize, hdetached⟩ | ⟨tables, hconcat, hdetached⟩ := flushed?_cases h
  · have hpop : m.frozenCurTable_.popBack = some (m.currentTable, m.detached m.currentTable) := by
      rw [popBack, frozenCurTable_, hnil, hdetached]
      dsimp only [List.getLast?_singleton, List.dropLast_singleton]
      rw [UInt64.add_sub_cancel]
      rfl
    rw [flushLast, prepareFlush, hnil, if_pos List.isEmpty_nil, if_neg hsize]
    dsimp only
    rw [hpop]
  · have hne : m.frozenTables.isEmpty = false := by
      rw [hconcat]
      simp
    have hpop : m.popBack = some (table, m.detached table) := by
      rw [popBack, hdetached, hconcat, List.getLast?_concat, List.dropLast_concat]
    rw [flushLast, prepareFlush, hne, if_neg Bool.false_ne_true]
    dsimp only
    rw [hpop]

end

/-- What is held by a state is in the table that is flushed next, or in another one. -/
theorem holds_iff {m : State} {table : Table} (h : m.flushed? = some table) (e : Entry) :
  m.Holds e ↔ e ∈ table.entries ∨ (m.detached table).Holds e
  := by
  obtain ⟨hnil, rfl, -, hdetached⟩ | ⟨tables, hconcat, hdetached⟩ := flushed?_cases h
  · rw [hdetached, Holds, Holds, hnil]
    simp
  · rw [hdetached, Holds, Holds, hconcat]
    simp only [List.mem_cons, List.mem_append, List.not_mem_nil, or_false, or_and_right, exists_or,
      exists_eq_left]
    rw [← or_assoc, or_comm]

theorem holds_detached_iff {m : State} {table : Table} (h : m.flushed? = some table) (e : Entry) :
  (m.detached table).Holds e ↔ ∃ t ∈ m.others, e ∈ t.entries
  := by
  obtain ⟨hnil, -, -, hdetached⟩ | ⟨tables, hconcat, hdetached⟩ := flushed?_cases h
  · rw [hdetached, Holds, others, hnil]
    simp
  · rw [hdetached, Holds, others, hconcat, List.dropLast_concat]
    simp

theorem FrozenExact.detached {m : State} (h : m.FrozenExact) {table : Table}
    (hflushed : m.flushed? = some table) :
  (m.detached table).FrozenExact
  := by
  obtain ⟨hnil, -, -, hdetached⟩ | ⟨tables, hconcat, hdetached⟩ := flushed?_cases hflushed
  · rw [FrozenExact, hnil] at h
    rw [hdetached]
    exact h
  · rw [FrozenExact, hconcat, List.map_append, List.sum_append, List.map_singleton,
      List.sum_singleton] at h
    rw [hdetached, FrozenExact]
    dsimp only
    rw [UInt64.toNat_sub_of_le _ _ (UInt64.le_iff_toNat_le.mpr (by omega)), h,
      Nat.add_sub_cancel]

/-! ### Flushing -/

section

variable {β σ : Type} [SSTBuilder β σ]

/-- The state that `flush_last` leaves, however it ends. -/
theorem flushLast_state (m : State) (builder : β) (sstPath : Bytes) (sstId : ℕ)
    (flushedTrancIds : List TrancId) :
  (m.flushLast builder sstPath sstId flushedTrancIds).2.1 =
    match m.flushed? with
    | none => m
    | some table => m.detached table
  := by
  cases h : m.flushed? with
  | none => rw [m.flushLast_of_none h]
  | some table =>
      rw [m.flushLast_of_some h]
      split <;> rfl

/-- `flush_last` leaves the count right, whether it returns or throws. -/
theorem FrozenExact.flushLast {m : State} (h : m.FrozenExact) (builder : β) (sstPath : Bytes)
    (sstId : ℕ) (flushedTrancIds : List TrancId) :
  (m.flushLast builder sstPath sstId flushedTrancIds).2.1.FrozenExact
  := by
  rw [flushLast_state]
  split
  next => exact h
  next table hflushed => exact h.detached hflushed

/-- If the builder throws, the memtable holds what it did, with the count of its frozen tables, if
and only if the other tables hold the entries of the one that was to be flushed. -/
theorem flushLast_fails_keeps_iff (m : State) (hexact : m.FrozenExact) (builder : β)
    (sstPath : Bytes) (sstId : ℕ) (flushedTrancIds : List TrancId) (fault : Fault)
    (hfails : (m.flushLast builder sstPath sstId flushedTrancIds).1 = .error fault) :
  ((∀ e, m.Holds e → (m.flushLast builder sstPath sstId flushedTrancIds).2.1.Holds e) ∧
      (m.flushLast builder sstPath sstId flushedTrancIds).2.1.FrozenExact) ↔
    ∀ table ∈ m.flushed?, ∀ e ∈ table.entries, ∃ t ∈ m.others, e ∈ t.entries
  := by
  have hcount := hexact.flushLast builder sstPath sstId flushedTrancIds
  cases hflushed : m.flushed? with
  | none =>
      rw [m.flushLast_of_none hflushed] at hfails
      cases hfails
  | some table =>
      have hstate := m.flushLast_state builder sstPath sstId flushedTrancIds
      rw [hflushed] at hstate
      dsimp only at hstate
      rw [hstate] at hcount ⊢
      simp only [hcount, and_true, Option.mem_some_iff, forall_eq', m.holds_iff hflushed,
        m.holds_detached_iff hflushed]
      constructor
      · intro h e he
        exact h e (.inl he)
      · rintro h e (he | he)
        · exact h e he
        · exact he

end

/-! ### A builder that cannot write -/

/-- A builder that takes any entries, and whose file cannot be opened. -/
inductive UnwritableBuilder where
  | mk

instance : SSTBuilder UnwritableBuilder Unit where
  add builder _ _ _ := .ok builder
  build _ _ _ := .error (.runtimeError "Failed to open file for writing")

theorem chained_put {s : SkipList} (h : SkipList.empty.put [] [1] [7] 1 = .ok s) :
  ∃ chain, s.Chained chain
  := by
  have hempty := SkipList.chained_empty (show 0 < 16 by decide)
  obtain ⟨s', chain, hput, hchained, -⟩ := hempty.put_eq [] [1] [7] 1
  rw [hput] at h
  cases h
  exact ⟨chain, hchained⟩

/-- A table with one entry. -/
def oneEntry : Table :=
  match h : SkipList.empty.put [] [1] [7] 1 with
  | .ok list => ⟨list, chained_put h⟩
  | .error _ => .empty

theorem entries_oneEntry : oneEntry.entries = [⟨[1], [7], 1⟩]
  := by decide

/-- A memtable with one entry, in its current table. -/
def oneEntryState : State := ⟨oneEntry, [], 0⟩

theorem flushed?_oneEntryState : oneEntryState.flushed? = some oneEntry
  := by
  have hsize : oneEntry.getSize ≠ 0 := by decide
  rw [oneEntryState.flushed?_nil rfl]
  exact if_neg hsize

theorem flushLast_oneEntryState_fails :
  (oneEntryState.flushLast UnwritableBuilder.mk [] 0 []).1 =
    .error (.runtimeError "Failed to open file for writing")
  := by
  rw [oneEntryState.flushLast_of_some flushed?_oneEntryState, writeTable, oneEntry.flush_eq,
    entries_oneEntry]
  rfl

/-- A memtable with one entry, which has been put again after its table was frozen. -/
def putAgainState : State := ⟨oneEntry, [oneEntry], oneEntry.getSize⟩

theorem flushed?_putAgainState : putAgainState.flushed? = some oneEntry := rfl

/-- The entry of the table that is not written is still in the other one. -/
theorem flushLast_fails_keeps_iff_putAgainState :
  (∀ e, putAgainState.Holds e →
      (putAgainState.flushLast UnwritableBuilder.mk [] 0 []).2.1.Holds e) ∧
    (putAgainState.flushLast UnwritableBuilder.mk [] 0 []).2.1.FrozenExact
  := by
  have hexact : putAgainState.FrozenExact := List.sum_singleton.symm
  have hfails : (putAgainState.flushLast UnwritableBuilder.mk [] 0 []).1 =
      .error (.runtimeError "Failed to open file for writing") := by
    rw [putAgainState.flushLast_of_some flushed?_putAgainState, writeTable, oneEntry.flush_eq,
      entries_oneEntry]
    rfl
  apply (flushLast_fails_keeps_iff putAgainState hexact UnwritableBuilder.mk [] 0 [] _ hfails).mpr
  intro table htable e he
  obtain rfl := Option.some.inj (flushed?_putAgainState.symm.trans htable)
  exact ⟨oneEntry, List.mem_cons_self, he⟩

/-- If the file cannot be opened, the entry of the only table is lost. -/
theorem flushLast_loses :
  (oneEntryState.flushLast UnwritableBuilder.mk [] 0 []).1 =
      .error (.runtimeError "Failed to open file for writing") ∧
    oneEntryState.Holds ⟨[1], [7], 1⟩ ∧
    ¬ (oneEntryState.flushLast UnwritableBuilder.mk [] 0 []).2.1.Holds ⟨[1], [7], 1⟩
  := by
  refine ⟨flushLast_oneEntryState_fails, ⟨oneEntry, List.mem_cons_self, ?_⟩, ?_⟩
  · rw [entries_oneEntry]
    apply List.mem_cons_self
  · rw [flushLast_state, flushed?_oneEntryState, holds_detached_iff flushed?_oneEntryState]
    rintro ⟨t, ht, -⟩
    cases ht

end State

end MemTable

end TinyLsm
