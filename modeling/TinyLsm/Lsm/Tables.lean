import TinyLsm.Lsm.Engine
import TinyLsm.SkipList.Versions

/-!
# Tables of versions

Where an engine holds the versions of keys: in the current table of the memtable, in its
frozen tables, and in the tables on disk.  A put goes into the current table.  Freezing and
flushing move whole tables, and leave the versions as a list as they are.

A documented engine is one whose operations act on its tables as the comments of the source
say: it answers a query with the most recently applied version the query may see, and with
nothing if that version is a deletion mark.
-/

namespace TinyLsm

/-- The first version of a key that is visible. -/
def latest (key : Bytes) (trancId : TrancId) (es : List Entry) : Option Entry :=
  es.find? (fun e => decide (e.key = key ∧ e.Visible trancId))

/-- What an engine answers for a version: nothing for a deletion mark. -/
def Entry.answer (e : Entry) : Option (Bytes × TrancId) :=
  if e.value = [] then none else some (e.value, e.trancId)

theorem latest_cons (key : Bytes) (trancId : TrancId) (e : Entry) (es : List Entry) :
  latest key trancId (e :: es) =
    if e.key = key ∧ e.Visible trancId then some e else latest key trancId es
  := by
  rw [latest, List.find?_cons]
  by_cases h : e.key = key ∧ e.Visible trancId
  · rw [if_pos h, decide_eq_true h]
  · rw [if_neg h, decide_eq_false h]
    rfl

theorem latest_append (key : Bytes) (trancId : TrancId) (es es' : List Entry) :
  latest key trancId (es ++ es') = (latest key trancId es).or (latest key trancId es')
  := List.find?_append

/-- A version that is found is one of the versions, has the key and is visible. -/
theorem latest_eq_some {key : Bytes} {trancId : TrancId} {es : List Entry} {e : Entry}
    (h : latest key trancId es = some e) :
  e ∈ es ∧ e.key = key ∧ e.Visible trancId
  := by
  have hfound := List.find?_some h
  exact ⟨List.mem_of_find?_eq_some h, of_decide_eq_true hfound⟩

/-- Putting a version in makes it the first of its key for the queries that may see it. -/
theorem latest_insertVersion (key : Bytes) (trancId : TrancId) (e : Entry) :
  ∀ es : List Entry, latest key trancId (insertVersion e es) = latest key trancId (e :: es)
  | [] => rfl
  | e' :: es => by
      have ih := latest_insertVersion key trancId e es
      rw [insertVersion]
      split
      next hlt =>
        rw [latest_cons, ih, latest_cons, latest_cons, latest_cons]
        by_cases he' : e'.key = key ∧ e'.Visible trancId
        · have hne : ¬ (e.key = key ∧ e.Visible trancId) := by
            intro he
            rw [he'.1, he.1] at hlt
            apply lt_irrefl key hlt
          rw [if_pos he', if_neg hne, if_pos he']
        · rw [if_neg he', if_neg he']
      · split
        next hsame =>
          rw [latest_cons, latest_cons, latest_cons]
          by_cases he : e.key = key ∧ e.Visible trancId
          · rw [if_pos he, if_pos he]
          · have he' : ¬ (e'.key = key ∧ e'.Visible trancId) := by
              intro he'
              apply he
              rw [← hsame.1, Entry.Visible, ← hsame.2]
              apply he'
            rw [if_neg he, if_neg he, if_neg he']
        · rfl

/-! ### Tables -/

/-- The tables of an engine, the newest first. -/
structure Tables where
  currentTable : List Entry := []
  frozenTables : List (List Entry) := []
  ssts : List (List Entry) := []
deriving DecidableEq, Repr

namespace Tables

/-- The versions in the memtable, those of the newest table first. -/
def memtable (t : Tables) : List Entry := t.currentTable ++ t.frozenTables.flatten

/-- The versions in the tables, those of the newest table first. -/
def versions (t : Tables) : List Entry := t.memtable ++ t.ssts.flatten

def put (t : Tables) (e : Entry) : Tables :=
  { t with currentTable := insertVersion e t.currentTable }

/-- Make the current table the newest of the frozen ones. -/
def frozenCurTable (t : Tables) : Tables :=
  { t with currentTable := [], frozenTables := t.currentTable :: t.frozenTables }

/-- The ids of the markers of a table. -/
def markers (table : List Entry) : List TrancId :=
  (table.filter (fun e => decide (e.key = [] ∧ e.value = []))).map Entry.trancId

/-- Move a table to disk, before the tables there, and answer the ids of its markers. -/
def toDisk (t : Tables) (table : List Entry) : List TrancId × Tables :=
  (markers table, { t with ssts := table :: t.ssts })

/-- The table that is flushed next, if there is one, and the tables without it: the oldest of
the frozen tables, or, if there are none, the current table, unless that is empty. -/
def oldest (t : Tables) : Option (List Entry × Tables) :=
  match t.frozenTables.getLast? with
  | some table => some (table, { t with frozenTables := t.frozenTables.dropLast })
  | none =>
      if t.currentTable = [] then none
      else some (t.currentTable, { t with currentTable := [] })

/-- Move the oldest table to disk, and answer the ids of its markers. -/
def flushLast (t : Tables) : List TrancId × Tables :=
  match t.oldest with
  | some (table, t') => t'.toDisk table
  | none => ([], t)

theorem latest_put (t : Tables) (e : Entry) (key : Bytes) (trancId : TrancId) :
  latest key trancId (t.put e).versions = latest key trancId (e :: t.versions)
  := by
  rw [versions, memtable, put, List.append_assoc, latest_append, latest_insertVersion,
    ← latest_append, List.cons_append, ← List.append_assoc]
  rfl

theorem versions_frozenCurTable (t : Tables) : t.frozenCurTable.versions = t.versions
  := by
  simp only [versions, memtable, frozenCurTable, List.nil_append, List.flatten_cons]

/-- The table that is flushed next holds the last of the versions of the memtable. -/
theorem memtable_of_oldest {t t' : Tables} {table : List Entry}
    (h : t.oldest = some (table, t')) :
  t.memtable = t'.memtable ++ table ∧ t'.ssts = t.ssts
  := by
  rw [oldest] at h
  cases hlast : t.frozenTables.getLast? with
  | some last =>
      rw [hlast] at h
      obtain ⟨rfl, rfl⟩ := Prod.mk.inj (Option.some.inj h)
      obtain ⟨rest, hrest⟩ := List.getLast?_eq_some_iff.mp hlast
      constructor
      · simp only [memtable, hrest, List.dropLast_concat, List.flatten_append,
          List.flatten_singleton, List.append_assoc]
      · rfl
  | none =>
      rw [hlast] at h
      have hfrozen := List.getLast?_eq_none_iff.mp hlast
      dsimp only at h
      split at h
      next => cases h
      next hnonempty =>
        obtain ⟨rfl, rfl⟩ := Prod.mk.inj (Option.some.inj h)
        constructor
        · simp only [memtable, hfrozen, List.flatten_nil, List.append_nil, List.nil_append]
        · rfl

/-- Flushing leaves the versions as they are. -/
theorem versions_flushLast (t : Tables) : t.flushLast.2.versions = t.versions
  := by
  rw [flushLast]
  cases h : t.oldest with
  | none => rfl
  | some oldest =>
      obtain ⟨table, t'⟩ := oldest
      obtain ⟨hmemtable, hssts⟩ := memtable_of_oldest h
      rw [versions, versions, hmemtable, ← hssts, List.append_assoc]
      rfl

end Tables

/-! ### Documented engines -/

/-- An engine that acts on its tables as the source documents it. -/
class DocumentedEngine (ε : Type) extends LSMEngine ε where
  tables : ε → Tables
  fresh : ε
  frozenCurTable : ε → ε
  flush : ε → List TrancId × ε
  tables_fresh : tables fresh = {}
  tables_put : ∀ (e : ε) (key value : Bytes) (trancId : TrancId),
    tables (put e key value trancId) = (tables e).put ⟨key, value, trancId⟩
  tables_remove : ∀ (e : ε) (key : Bytes) (trancId : TrancId),
    tables (remove e key trancId) = (tables e).put ⟨key, [], trancId⟩
  tables_memtablePut_ : ∀ (e : ε) (key value : Bytes) (trancId : TrancId),
    tables (memtablePut_ e key value trancId) = (tables e).put ⟨key, value, trancId⟩
  tables_frozenCurTable : ∀ e : ε, tables (frozenCurTable e) = (tables e).frozenCurTable
  tables_flush : ∀ e : ε, tables (flush e).2 = (tables e).flushLast.2
  markers_flush : ∀ e : ε, (flush e).1 = (tables e).flushLast.1
  get_eq : ∀ (e : ε) (key : Bytes) (trancId : TrancId),
    get e key trancId = (latest key trancId (tables e).versions).bind Entry.answer
  memtableGet_eq : ∀ (e : ε) (key : Bytes) (trancId : TrancId),
    memtableGet_ e key trancId = latest key trancId (tables e).memtable
  sstGet_mem : ∀ (e : ε) (key value : Bytes) (trancId : TrancId),
    sstGet_ e key 0 = some (value, trancId) →
      ∃ table ∈ (tables e).ssts, ⟨key, value, trancId⟩ ∈ table

/-- A documented engine answers last writes, and hides empty values. -/
instance {ε : Type} [DocumentedEngine ε] : LawfulEngine ε where
  hidesEmpty := true
  get_put e key value trancId := by
    rw [DocumentedEngine.get_eq, DocumentedEngine.tables_put, Tables.latest_put, latest_cons,
      if_pos ⟨rfl, .inl rfl⟩]
    cases value with
    | nil => rfl
    | cons b value => rfl
  get_put_ne e key value trancId key' h := by
    rw [DocumentedEngine.get_eq, DocumentedEngine.tables_put, Tables.latest_put, latest_cons,
      if_neg (fun h' => h h'.1.symm), DocumentedEngine.get_eq]
  get_remove e key trancId := by
    rw [DocumentedEngine.get_eq, DocumentedEngine.tables_remove, Tables.latest_put, latest_cons,
      if_pos ⟨rfl, .inl rfl⟩]
    rfl
  get_remove_ne e key trancId key' h := by
    rw [DocumentedEngine.get_eq, DocumentedEngine.tables_remove, Tables.latest_put, latest_cons,
      if_neg (fun h' => h h'.1.symm), DocumentedEngine.get_eq]
  get_ne e key value trancId h := by
    rw [DocumentedEngine.get_eq] at h
    obtain ⟨version, -, h⟩ := Option.bind_eq_some_iff.mp h
    rw [Entry.answer] at h
    split at h
    next => cases h
    next hne =>
      rw [(Prod.mk.inj (Option.some.inj h)).1] at hne
      cases value with
      | nil => exact absurd rfl hne
      | cons b value => rfl

/-- Tables are themselves a documented engine. -/
instance : DocumentedEngine Tables where
  get t key trancId := (latest key trancId t.versions).bind Entry.answer
  put t key value trancId := t.put ⟨key, value, trancId⟩
  remove t key trancId := t.put ⟨key, [], trancId⟩
  sstGet_ t key trancId := (latest key trancId t.ssts.flatten).bind Entry.answer
  memtablePut_ t key value trancId := t.put ⟨key, value, trancId⟩
  memtableGet_ t key trancId := latest key trancId t.memtable
  tables t := t
  fresh := {}
  tables_fresh := rfl
  frozenCurTable := Tables.frozenCurTable
  flush := Tables.flushLast
  tables_put _ _ _ _ := rfl
  tables_remove _ _ _ := rfl
  tables_memtablePut_ _ _ _ _ := rfl
  tables_frozenCurTable _ := rfl
  tables_flush _ := rfl
  markers_flush _ := rfl
  get_eq _ _ _ := rfl
  memtableGet_eq _ _ _ := rfl
  sstGet_mem t key value trancId h := by
    obtain ⟨version, hversion, h⟩ := Option.bind_eq_some_iff.mp h
    obtain ⟨hmem, hkey, -⟩ := latest_eq_some hversion
    rw [Entry.answer] at h
    split at h
    next => cases h
    next =>
      obtain ⟨hvalue, hid⟩ := Prod.mk.inj (Option.some.inj h)
      obtain ⟨table, htable, hversion⟩ := List.mem_flatten.mp hmem
      use table, htable
      rwa [← hkey, ← hvalue, ← hid]

end TinyLsm
