import TinyLsm.Library.Layers
import TinyLsm.MemTable.State

/-!
# Looking up several keys

`get_batch` looks for its keys in the current table, and lets go of the lock of that before it
takes the one of the frozen tables, in which it looks for the keys it has not found.  An engine
then looks for the rest in the tables on disk.  Between the loops, and between two keys, the
current table may be written to and frozen, tables may be flushed, and those on disk compacted.

Still every key is found as a query at one moment of the look-up would find it, even when its
version moves from table to table meanwhile: `Engine.getBatch_moment`.
-/

namespace TinyLsm

namespace MemTable

/-- The value and the id of a version, if one is found. -/
abbrev Found := Option (Bytes × TrancId)

/-- What an iterator that points at an entry, or at the end, finds.  It is valid unless the key
is empty. -/
def found : Option Entry → Found
  | some e => if e.key = [] then none else some (e.value, e.trancId)
  | none => none

/-! ### Tables -/

namespace Table

/-- The entry that the iterator of `get` points at. -/
def get (t : Table) (key : Bytes) (trancId : TrancId) : Option Entry :=
  (t.list.lookup key trancId).toOption.join

/-- `get` finds the first version of a key, if it is visible. -/
theorem get_eq (t : Table) (key : Bytes) (trancId : TrancId) :
  t.get key trancId =
    (topVersion key t.entries).filter (fun e => decide (trancId = 0 ∨ e.trancId ≤ trancId))
  := by
  obtain ⟨chain, h⟩ := t.chained
  rw [get, h.lookup_eq, entries, flush, h.flush_eq]
  rfl

theorem key_of_get {t : Table} {key : Bytes} {trancId : TrancId} {e : Entry}
    (h : t.get key trancId = some e) :
  e.key = key
  := by
  rw [get_eq] at h
  have htop := List.find?_some (Option.filter_eq_some_iff.mp h).1
  exact of_decide_eq_true htop

theorem exists_chained_put (t : Table) (flips : List Bool) (key value : Bytes)
    (trancId : TrancId) {list : SkipList} (h : t.list.put flips key value trancId = .ok list) :
  ∃ chain, list.Chained chain
  := by
  obtain ⟨chain, hchained⟩ := t.chained
  obtain ⟨list', chain', hput, hchained', -⟩ := hchained.put_eq flips key value trancId
  rw [hput] at h
  exact ⟨chain', Except.ok.inj h ▸ hchained'⟩

/-- `put_` into a table. -/
def put (t : Table) (flips : List Bool) (key value : Bytes) (trancId : TrancId) : Table :=
  match h : t.list.put flips key value trancId with
  | .ok list => ⟨list, t.exists_chained_put flips key value trancId h⟩
  | .error _ => t

/-- What is found in a table. -/
def found (t : Table) (key : Bytes) (trancId : TrancId) : Found :=
  MemTable.found (t.get key trancId)

end Table

/-! ### The memtable -/

/-- Look for a key in frozen tables, the newest of them first. -/
def frozenGet_ (key : Bytes) (trancId : TrancId) : List Table → Option Entry
  | [] => none
  | table :: tables =>
      match table.get key trancId with
      | some e => some e
      | none => frozenGet_ key trancId tables

/-- Look for keys in the current table, as it is when the loop comes to each of them, and then,
if not all of them are found, for the others in the frozen tables, as they are then. -/
def getBatch (keys : List Bytes) (trancId : TrancId) (currentTable : ℕ → Table)
    (frozenTables : ℕ → List Table) : List (Bytes × Found) :=
  let results := keys.mapIdx (fun idx key => (key, (currentTable idx).found key trancId))
  if results.any (fun result => result.2.isNone) then
    results.mapIdx (fun idx result =>
      if result.2.isSome then result
      else (result.1, found (frozenGet_ result.1 trancId (frozenTables idx))))
  else
    results

theorem found_frozenGet_ {key : Bytes} (hkey : key ≠ []) (trancId : TrancId) :
  ∀ tables : List Table, found (frozenGet_ key trancId tables) =
    Layers.first (tables.map (fun table => table.found key trancId))
  | [] => rfl
  | table :: tables => by
      rw [frozenGet_, List.map_cons, Layers.first_cons, ← found_frozenGet_ hkey trancId tables]
      cases h : table.get key trancId with
      | none => rw [Table.found, h, found, Option.none_or]
      | some e =>
          have hvalid : e.key ≠ [] := Table.key_of_get h ▸ hkey
          rw [Table.found, h, found, if_neg hvalid, Option.some_or]

/-- A key is found in the current table or else in the frozen ones, whether or not all of the
keys are found in the current one. -/
theorem getElem?_getBatch {keys : List Bytes} {idx : ℕ} {key : Bytes}
    (h : keys[idx]? = some key) (trancId : TrancId) (currentTable : ℕ → Table)
    (frozenTables : ℕ → List Table) :
  (getBatch keys trancId currentTable frozenTables)[idx]? =
    some (key, ((currentTable idx).found key trancId).or
      (found (frozenGet_ key trancId (frozenTables idx))))
  := by
  have hcur : (keys.mapIdx (fun idx key => (key, (currentTable idx).found key trancId)))[idx]? =
      some (key, (currentTable idx).found key trancId) := by
    rw [List.getElem?_mapIdx, h, Option.map_some]
  rw [getBatch]
  split
  next =>
    rw [List.getElem?_mapIdx, hcur, Option.map_some]
    dsimp only
    cases (currentTable idx).found key trancId with
    | none => rfl
    | some version => rfl
  next hall =>
    rw [hcur]
    cases hfound : (currentTable idx).found key trancId with
    | none =>
        -- a key that is not found sends all of them to the second loop
        rw [hfound] at hcur
        exact absurd (List.any_eq_true.mpr ⟨_, List.mem_of_getElem? hcur, rfl⟩) hall
    | some version => rfl

/- Two keys need not be found as at the same moment: both are put into the current table, and the
table is frozen, after the first loop has found an older version of one of them. -/
example :
  let older := Table.empty.put [] [1] [7] 1
  getBatch [[1], [2]] 0 (fun _ => older)
      (fun _ => [(older.put [] [1] [8] 2).put [] [2] [8] 2]) =
    [([1], some ([7], 1)), ([2], some ([8], 2))]
  := by decide

/-! ### The engine -/

/-- The memtable of an engine, and its tables on disk, the newest first. -/
structure Engine (σ : Type) where
  memtable : State
  ssts : List σ

namespace Engine

variable {β σ : Type} [SSTBuilder β σ] (sstGet : σ → Bytes → TrancId → Found)
  (trancId : TrancId)

/-- What tables on disk find, the newest of them first. -/
def sstGet_ (ssts : List σ) (key : Bytes) : Found :=
  ssts.findSome? (fun sst => sstGet sst key trancId)

/-- What a query finds at a moment. -/
def find (e : Engine σ) (key : Bytes) : Found :=
  (e.memtable.currentTable.found key trancId).or
    ((found (frozenGet_ key trancId e.memtable.frozenTables)).or
      (sstGet_ sstGet trancId e.ssts key))

/-- `get_batch` of the engine: the keys that are not found in the memtable are looked for in the
tables on disk, as they are when it comes to each of them. -/
def getBatch (keys : List Bytes) (currentTable : ℕ → Table) (frozenTables : ℕ → List Table)
    (ssts : ℕ → List σ) : List (Bytes × Found) :=
  (MemTable.getBatch keys trancId currentTable frozenTables).mapIdx (fun idx result =>
    if result.2.isSome then result
    else (result.1, sstGet_ sstGet trancId (ssts idx) result.1))

/-- What may happen between two moments.  The table that is written to disk finds there what it
has found in the memtable, and so do the tables that a compaction leaves. -/
inductive Next (β : Type) [SSTBuilder β σ] : Engine σ → Engine σ → Prop
  | write {e : Engine σ} (table : Table) :
      Next β e { e with memtable := { e.memtable with currentTable := table } }
  | frozenCurTable {e : Engine σ} : Next β e { e with memtable := e.memtable.frozenCurTable_ }
  | flush {e : Engine σ} {table : Table} {sst : σ} {m : State} {markers markers' : List TrancId}
      (builder : β) (sstPath : Bytes) (sstId : ℕ) :
      e.memtable.flushed? = some table →
      e.memtable.flushLast builder sstPath sstId markers = (.ok (some sst), m, markers') →
      (∀ key, key ≠ [] → sstGet sst key trancId = table.found key trancId) →
      Next β e ⟨m, sst :: e.ssts⟩
  | compact {e : Engine σ} {ssts : List σ} :
      (∀ key, key ≠ [] → sstGet_ sstGet trancId ssts key = sstGet_ sstGet trancId e.ssts key) →
      Next β e { e with ssts }

/-- What the tables find for a key. -/
def layers (e : Engine σ) (key : Bytes) : Layers (Bytes × TrancId) where
  top := e.memtable.currentTable.found key trancId
  middle := e.memtable.frozenTables.map (fun table => table.found key trancId)
  bottom := e.ssts.map (fun sst => sstGet sst key trancId)

theorem first_middle (e : Engine σ) {key : Bytes} (hkey : key ≠ []) :
  Layers.first (e.layers sstGet trancId key).middle =
    found (frozenGet_ key trancId e.memtable.frozenTables)
  := (found_frozenGet_ hkey trancId e.memtable.frozenTables).symm

theorem first_bottom (e : Engine σ) (key : Bytes) :
  Layers.first (e.layers sstGet trancId key).bottom = sstGet_ sstGet trancId e.ssts key
  := List.findSome?_map

theorem answer_layers (e : Engine σ) {key : Bytes} (hkey : key ≠ []) :
  (e.layers sstGet trancId key).answer = e.find sstGet trancId key
  := by
  rw [Layers.answer_eq, first_middle sstGet trancId e hkey, first_bottom]
  rfl

/-- The tables only move down. -/
theorem Next.layers {sstGet : σ → Bytes → TrancId → Found} {trancId : TrancId}
    {e e' : Engine σ} (h : Next sstGet trancId β e e') {key : Bytes} (hkey : key ≠ []) :
  (e.layers sstGet trancId key).Next (e'.layers sstGet trancId key)
  := by
  cases h with
  | write table => exact .write _
  | frozenCurTable => exact .shift _
  | @flush table sst m markers markers' builder sstPath sstId hflushed hflush hsst =>
      have hm := e.memtable.flushLast_state builder sstPath sstId markers
      rw [hflush, hflushed] at hm
      dsimp only at hm
      have hbottom : Engine.layers sstGet trancId ⟨m, sst :: e.ssts⟩ key =
          ⟨m.currentTable.found key trancId,
            m.frozenTables.map (fun table => table.found key trancId),
            table.found key trancId :: (e.layers sstGet trancId key).bottom⟩ := by
        rw [← hsst key hkey]
        rfl
      rw [hbottom, hm]
      obtain ⟨hnil, hcur, -, hdetached⟩ | ⟨tables, hconcat, hdetached⟩ :=
        State.flushed?_cases hflushed
      · have hmiddle : (e.layers sstGet trancId key).middle = [] := by
          rw [Engine.layers, hnil, List.map_nil]
        have hdrop := Layers.Next.drop (Table.empty.found key trancId) hmiddle
        rw [hmiddle] at hdrop
        rw [hdetached, ← hcur]
        exact hdrop
      · rw [hdetached]
        apply Layers.Next.sink
        rw [Engine.layers, hconcat, List.map_append, List.map_singleton]
  | @compact ssts hssts =>
      apply Layers.Next.settle
      exact (first_bottom sstGet trancId ⟨e.memtable, ssts⟩ key).trans
        ((hssts key hkey).trans (first_bottom sstGet trancId e key).symm)

end Engine

/-! ### A look-up with a flush in between -/

/-- A builder of tables that are the lists of their entries. -/
structure EntryBuilder where
  entries : List Entry

instance : SSTBuilder EntryBuilder (List Entry) where
  add builder key value trancId := .ok ⟨builder.entries ++ [⟨key, value, trancId⟩]⟩
  build builder _ _ := .ok builder.entries

/-- A list of entries finds what a table with these entries does. -/
def foundIn (es : List Entry) (key : Bytes) (trancId : TrancId) : Found :=
  found ((topVersion key es).filter (fun e => decide (trancId = 0 ∨ e.trancId ≤ trancId)))

theorem foundIn_entries (table : Table) (key : Bytes) (trancId : TrancId) :
  foundIn table.entries key trancId = table.found key trancId
  := by
  rw [foundIn, Table.found, Table.get_eq]

namespace Engine

/-- A version of the key `[1]` is in a frozen table.  Another one is put, and then the frozen
table is flushed. -/
def flushing : ℕ → Engine (List Entry)
  | 0 => ⟨⟨.empty, [State.oneEntry], State.oneEntry.getSize⟩, []⟩
  | 1 => ⟨⟨Table.empty.put [] [1] [8] 2, [State.oneEntry], State.oneEntry.getSize⟩, []⟩
  | _ => ⟨⟨Table.empty.put [] [1] [8] 2, [], 0⟩, [State.oneEntry.entries]⟩

theorem flushing_next :
  ∀ n, Next foundIn 0 EntryBuilder (flushing n) (flushing (n + 1))
  | 0 => .write (Table.empty.put [] [1] [8] 2)
  | 1 => by
      have hflushed : (flushing 1).memtable.flushed? = some State.oneEntry := rfl
      have hflush := State.flushLast_of_some hflushed (EntryBuilder.mk []) [] 0 []
      rw [State.writeTable, State.oneEntry.flush_eq] at hflush
      apply Next.flush (EntryBuilder.mk []) [] 0 hflushed hflush
      exact fun key _ => foundIn_entries State.oneEntry key 0
  | n + 2 => .write (flushing (n + 2)).memtable.currentTable

end Engine

end MemTable

end TinyLsm
