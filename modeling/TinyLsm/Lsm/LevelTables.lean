import Mathlib.Data.Set.Lattice
import TinyLsm.Lsm.Compaction
import TinyLsm.Lsm.LevelIterator
import TinyLsm.Sst.FirstVersions

/-!
# The tables of the levels

An engine keeps the numbers of its tables by level, and its tables by number.  The iterator over
the levels has the memtable, a heap over the tables of level 0, whose keys may overlap, and one
concatenating iterator for each deeper level as its sources.

For no transaction and an empty memtable, a scan selects the first live pair of each key from what
the heap over level 0 shows, which has no deletion marks, and the first entries of the deeper
levels.
-/

namespace TinyLsm

/-! ### The sources -/

/-- What the iterator over the levels merges: heap iterators and concatenating iterators. -/
inductive LevelSource where
  | heap (it : HeapIterator)
  | concact (it : ConcactIterator)

instance : BaseIterator LevelSource where
  next
    | .heap it => .heap <$> BaseIterator.next it
    | .concact it => .concact <$> BaseIterator.next it
  deref
    | .heap it => do
        let (raw, it') ← BaseIterator.deref it
        return (raw, .heap it')
    | .concact it => do
        let (raw, it') ← BaseIterator.deref it
        return (raw, .concact it')
  getTrancId
    | .heap it => BaseIterator.getTrancId it
    | .concact it => BaseIterator.getTrancId it
  isEnd
    | .heap it => BaseIterator.isEnd it
    | .concact it => BaseIterator.isEnd it
  isValid
    | .heap it => BaseIterator.isValid it
    | .concact it => BaseIterator.isValid it

/-- The iterator at the end of a table. -/
def SST.endIterator (sst : SST) : SstIterator :=
  { sst := some sst, blockIdx := sst.numBlocks, maxTrancId := 0 }

/-- `operator==` of the iterators over tables.  The pointers to tables are compared by the numbers
of the tables. -/
def SstIterator.sameAs (it other : SstIterator) : Bool :=
  decide (it.sst.map SST.sstId = other.sst.map SST.sstId ∧ it.blockIdx = other.blockIdx) &&
    match it.blockIt, other.blockIt with
    | none, none => true
    | some blockIt, some blockIt' =>
        decide (blockIt.block = blockIt'.block ∧ blockIt.currentIndex = blockIt'.currentIndex)
    | _, _ => false

/-- The index of the search items of a table: its number negated, in `int`. -/
def itemIdx (sstId : ℕ) : ℤ := Int.bmod (-sstId) (2 ^ 32)

/-- The items of a table from an iterator on, after the items `items`.  The ids they have are those
the iterator reports. -/
def collectItems (sstId : ℕ) (sst : SST) (maxTrancId : TrancId) :
    ℕ → SstIterator → List SearchItem → Except Fault (List SearchItem)
  | 0, _, _ => .error .outOfFuel
  | fuel + 1, it, items =>
      if it.isValid && !it.sameAs sst.endIterator then
        if maxTrancId ≠ 0 ∧ maxTrancId < it.getTrancId then do
          let it' ← it.next
          collectItems sstId sst maxTrancId fuel it' items
        else do
          let (key, it₁) ← it.key
          let (value, it₂) ← it₁.value
          let it₃ ← it₂.next
          collectItems sstId sst maxTrancId fuel it₃
            (items ++ [⟨key, value, itemIdx sstId, 0, it₂.getTrancId⟩])
      else
        .ok items

/-- The iterator over the items of a memtable, as its `begin` is documented. -/
def memtableBegin (items : List SearchItem) (trancId : TrancId) : HeapIterator :=
  HeapIterator.ofItems (items.filter (fun item => trancId = 0 ∨ item.trancId ≤ trancId)) trancId

/-- What an iterator over the levels reads of an engine: the items of the memtable, the numbers of
the tables of each level, in the order of the levels, and the tables by number. -/
structure LevelTables where
  memtable : List SearchItem := []
  levelSstIds : List (ℕ × List ℕ)
  ssts : ℕ → Option SST
  ascending : (levelSstIds.map Prod.fst).Pairwise (· < ·)

namespace LevelTables

/-- The table with a number, whose use is undefined when there is none. -/
def sstAt (engine : LevelTables) (sstId : ℕ) : Except Fault SST :=
  match engine.ssts sstId with
  | some sst => .ok sst
  | none => .error .undefinedBehavior

def sstIdsAt (engine : LevelTables) (level : ℕ) : List ℕ :=
  (engine.levelSstIds.lookup level).getD []

/-- The items of the tables of level 0. -/
def l0Items (engine : LevelTables) (rounds : ℕ) (maxTrancId : TrancId) :
    Except Fault (List SearchItem) :=
  (engine.sstIdsAt 0).foldlM (fun items sstId => do
    let sst ← engine.sstAt sstId
    let it ← sst.begin maxTrancId
    collectItems sstId sst maxTrancId rounds it items) []

/-- The iterators over the tables of the deeper levels. -/
def levelIters (engine : LevelTables) (maxTrancId : TrancId) :
    Except Fault (List ConcactIterator) :=
  (engine.levelSstIds.filter (fun level => decide (level.1 ≠ 0))).mapM (fun level => do
    let ssts ← level.2.mapM engine.sstAt
    ConcactIterator.ofSsts ssts maxTrancId)

/-- The iterator over the levels of an engine. -/
def levelIterator (engine : LevelTables) (rounds : ℕ) (maxTrancId : TrancId) :
    Except Fault (LevelIterator LevelSource) := do
  let items ← engine.l0Items rounds maxTrancId
  let iters ← engine.levelIters maxTrancId
  LevelIterator.ofSources rounds
    (.heap (memtableBegin engine.memtable maxTrancId) ::
      .heap (HeapIterator.ofItems items maxTrancId) :: iters.map .concact) maxTrancId

/-- The pairs an iterator over the levels meets from its construction to its end. -/
def scan (engine : LevelTables) (rounds : ℕ) (maxTrancId : TrancId) :
    Except Fault (List (Bytes × Bytes)) := do
  let it ← engine.levelIterator rounds maxTrancId
  BaseIterator.drainPairs rounds it

/-! ### What a scan should show -/

/-- The tables of a level. -/
def tablesAt (engine : LevelTables) (level : ℕ) : List SST :=
  (engine.sstIdsAt level).filterMap engine.ssts

/-- The versions stored in a level. -/
def storedAt (engine : LevelTables) (level : ℕ) : Set Entry :=
  {e | ∃ sst ∈ engine.tablesAt level, e ∈ sst.entries}

/-- The versions stored below level 0. -/
def storedBelow (engine : LevelTables) : Set Entry := {e | ∃ level ≠ 0, e ∈ engine.storedAt level}

/-- The versions stored in all levels. -/
def stored (engine : LevelTables) : Set Entry := {e | ∃ level, e ∈ engine.storedAt level}

end LevelTables

/-- The version is one of the versions, and the newest of its key. -/
def Newest (versions : Set Entry) (e : Entry) : Prop :=
  e ∈ versions ∧ ∀ e' ∈ versions, e'.key = e.key → e'.trancId ≤ e.trancId

/-- The table is as a builder builds it: the versions of a key follow each other, the newest first,
and are in one block. -/
structure SST.Built (sst : SST) : Prop extends sst.WellFormed where
  ordered : sst.entries.Pairwise
    (fun e e' => e.key < e'.key ∨ e.key = e'.key ∧ e'.trancId < e.trancId)
  oneBlock : sst.blocks.Pairwise
    (fun block block' => ∀ e ∈ block.entries, ∀ e' ∈ block'.entries, e.key ≠ e'.key)

namespace LevelTables

/-- The memtable is empty and the numbers stand for tables as they are built, with keys that are
not empty.  The keys of the tables of a deeper level are disjoint and ascending.  The versions of
a key are newer in a table of level 0 with a greater number, and newer in a shallower level. -/
structure Layered (engine : LevelTables) : Prop where
  memtable_empty : engine.memtable = []
  found : ∀ level, ∀ sstId ∈ engine.sstIdsAt level,
    ∃ sst, engine.ssts sstId = some sst ∧ sst.sstId = sstId
  built : ∀ level, ∀ sst ∈ engine.tablesAt level, sst.Built
  keys_ne : ∀ level, ∀ e ∈ engine.storedAt level, e.key ≠ []
  disjoint : ∀ level ≠ 0, Ascending (engine.tablesAt level)
  newer : ∀ sst ∈ engine.tablesAt 0, ∀ sst' ∈ engine.tablesAt 0, sst.sstId < sst'.sstId →
    ∀ e ∈ sst.entries, ∀ e' ∈ sst'.entries, e.key = e'.key → e.trancId < e'.trancId
  shallower : ∀ level level', level < level' → ∀ e ∈ engine.storedAt level,
    ∀ e' ∈ engine.storedAt level', e.key = e'.key → e'.trancId < e.trancId

/-- The table of level 0 with the newest version of a key has a smaller index than the other tables
of level 0 with the key. -/
def NewestFirst (engine : LevelTables) : Prop :=
  ∀ sst ∈ engine.tablesAt 0, ∀ e ∈ sst.entries, Newest (engine.storedAt 0) e →
    ∀ sst' ∈ engine.tablesAt 0, sst'.sstId ≠ sst.sstId → (∃ e' ∈ sst'.entries, e'.key = e.key) →
      itemIdx sst.sstId < itemIdx sst'.sstId

/-- No deletion mark that is the newest version of its key in level 0 has a live one as the newest
below it. -/
def NoneResurface (engine : LevelTables) : Prop :=
  ∀ e, Newest (engine.storedAt 0) e → e.value = [] →
    ∀ e', Newest engine.storedBelow e' → e'.key = e.key → e'.value = []

/-- The pairs have increasing keys, and are those of the newest versions of the keys that are not
deletion marks. -/
structure IsScan (engine : LevelTables) (out : List (Bytes × Bytes)) : Prop where
  ascending : out.Pairwise (fun p p' => p.1 < p'.1)
  mem_iff : ∀ key value, (key, value) ∈ out ↔
    value ≠ [] ∧ ∃ trancId, Newest engine.stored ⟨key, value, trancId⟩

end LevelTables

/-! ### What the sources show -/

/-- The pairs of the first entries of the runs of one key in a table. -/
def SST.firstPairs (sst : SST) : List (Bytes × Bytes) := sst.firsts.map Entry.pair

/-- A source has the pairs `ps` left. -/
inductive LevelSource.YieldsFirsts : LevelSource → List (Bytes × Bytes) → Prop
  | heap {it : HeapIterator} {ps : List (Bytes × Bytes)} (h : it.YieldsFirsts ps) :
      YieldsFirsts (.heap it) ps
  | concact {it : ConcactIterator} {ps : List (Bytes × Bytes)}
      (h : it.Chains SstIterator.YieldsFirsts SST.firstPairs ps) : YieldsFirsts (.concact it) ps

theorem LevelSource.yields_yieldsFirsts :
  BaseIterator.Yields LevelSource.YieldsFirsts
  := by
  have hheap := HeapIterator.yields_yieldsFirsts
  have hconcact := ConcactIterator.yields_chains SST.firstPairs
    SstIterator.yields_yieldsFirsts (fun _ => .atEnd)
  constructor
  · intro source ps h
    cases h with
    | heap h => apply hheap.isEnd_eq h
    | concact h => apply hconcact.isEnd_eq h
  · intro source ps h
    cases h with
    | heap h => apply hheap.isValid_eq h
    | concact h => apply hconcact.isValid_eq h
  · intro source p ps h
    cases h with
    | @heap it _ h =>
        obtain ⟨it', hderef, h'⟩ := hheap.deref_cons h
        refine ⟨.heap it', ?_, .heap h'⟩
        change (BaseIterator.deref it >>= fun found => _) = _
        rw [Except.bind_eq_of_ok _ hderef]
        rfl
    | @concact it _ h =>
        obtain ⟨it', hderef, h'⟩ := hconcact.deref_cons h
        refine ⟨.concact it', ?_, .concact h'⟩
        change (BaseIterator.deref it >>= fun found => _) = _
        rw [Except.bind_eq_of_ok _ hderef]
        rfl
  · intro source p ps h
    cases h with
    | @heap it _ h =>
        obtain ⟨it', hnext, h'⟩ := hheap.next_cons h
        refine ⟨.heap it', ?_, .heap h'⟩
        change LevelSource.heap <$> BaseIterator.next it = _
        rw [hnext]
        rfl
    | @concact it _ h =>
        obtain ⟨it', hnext, h'⟩ := hconcact.next_cons h
        refine ⟨.concact it', ?_, .concact h'⟩
        change LevelSource.concact <$> BaseIterator.next it = _
        rw [hnext]
        rfl

/-- The search item of a pair of a table, for no transaction. -/
def itemOf (sstId : ℕ) (p : Bytes × Bytes) : SearchItem := ⟨p.1, p.2, itemIdx sstId, 0, 0⟩

/-- An iterator that is not at its end is not the iterator at the end of a table. -/
theorem SstIterator.AtFirst.sameAs_endIterator {it : SstIterator} {sst : SST}
    {blockIt : BlockIterator} {e : Entry} {es : List Entry} (h : it.AtFirst sst blockIt e es)
    (sst' : SST) :
  it.sameAs sst'.endIterator = false
  := by
  rw [sameAs, h.blockIt_eq]
  apply Bool.and_false _

theorem SstIterator.AtFirst.getTrancId_eq {it : SstIterator} {sst : SST}
    {blockIt : BlockIterator} {e : Entry} {es : List Entry} (h : it.AtFirst sst blockIt e es) :
  it.getTrancId = 0
  := by
  rw [getTrancId, h.blockIt_eq]
  dsimp only
  rw [h.keepAllVersions_eq, if_neg Bool.false_ne_true, h.maxTrancId_eq]

/-- For no transaction, the items of a table are those of the pairs its iterator shows. -/
theorem collectItems_eq (sstId : ℕ) (sst : SST) :
  ∀ {ps : List (Bytes × Bytes)} {it : SstIterator} {fuel : ℕ} (items : List SearchItem),
    it.YieldsFirsts ps → ps.length < fuel →
    collectItems sstId sst 0 fuel it items = .ok (items ++ ps.map (itemOf sstId))
  | [], it, fuel + 1, items, h, _ => by
      have hvalid : it.isValid = false := SstIterator.yields_yieldsFirsts.isValid_eq h
      rw [collectItems, hvalid, Bool.false_and, if_neg Bool.false_ne_true, List.map_nil,
        List.append_nil]
  | p :: ps, it, fuel + 1, items, h, hfuel => by
      obtain ⟨sst', blockIt, e, es, hat, rfl, hps⟩ := h.exists_atFirst
      obtain ⟨it', hnext, hleft⟩ := hat.fill.fill.next_yields
      have hyields : it'.YieldsFirsts ps := by
        rw [hps]
        apply hleft
      have hread : (it.withCached blockIt e).value =
          .ok (e.value, (it.withCached blockIt e).withCached
            { blockIt with cachedValue := some e.pair } e) := hat.fill.value_eq
      rw [collectItems, hat.isValid_eq, hat.sameAs_endIterator, Bool.not_false, Bool.and_self,
        if_pos rfl, if_neg (fun hnewer => hnewer.1 rfl), Except.bind_eq_of_ok _ hat.key_eq]
      dsimp only
      rw [Except.bind_eq_of_ok _ hread]
      dsimp only
      rw [Except.bind_eq_of_ok _ hnext, hat.fill.fill.getTrancId_eq,
        collectItems_eq sstId sst _ hyields (Nat.lt_of_succ_lt_succ hfuel), List.map_cons,
        List.append_assoc]
      rfl

namespace LevelTables

/-- The tables of numbers that stand for tables. -/
theorem mapM_sstAt_eq {engine : LevelTables} :
  ∀ {sstIds : List ℕ}, (∀ sstId ∈ sstIds, ∃ sst, engine.ssts sstId = some sst ∧ sst.sstId = sstId) →
    sstIds.mapM engine.sstAt = .ok (sstIds.filterMap engine.ssts)
  | [], _ => rfl
  | sstId :: sstIds, h => by
      obtain ⟨⟨sst, hsst, -⟩, hrest⟩ := List.forall_mem_cons.mp h
      have hat : engine.sstAt sstId = .ok sst := by rw [sstAt, hsst]
      rw [List.mapM_cons, Except.bind_eq_of_ok _ hat, Except.bind_eq_of_ok _ (mapM_sstAt_eq hrest),
        List.filterMap_cons_some hsst]
      rfl

/-- The items of tables, for no transaction. -/
def itemsOf (ssts : List SST) : List SearchItem :=
  ssts.flatMap (fun sst => sst.firstPairs.map (itemOf sst.sstId))

/-- Collecting the items of the tables with the numbers `sstIds`. -/
theorem foldlM_collectItems_eq {engine : LevelTables} (rounds : ℕ) :
  ∀ {sstIds : List ℕ} (items : List SearchItem),
    (∀ sstId ∈ sstIds, ∃ sst, engine.ssts sstId = some sst ∧ sst.sstId = sstId) →
    (∀ sst ∈ sstIds.filterMap engine.ssts, sst.WellFormed ∧ sst.firstPairs.length < rounds) →
    sstIds.foldlM (fun items sstId => do
      let sst ← engine.sstAt sstId
      let it ← sst.begin 0
      collectItems sstId sst 0 rounds it items) items =
      .ok (items ++ itemsOf (sstIds.filterMap engine.ssts))
  | [], items, _, _ => by
      rw [List.filterMap_nil, itemsOf, List.flatMap_nil, List.append_nil]
      rfl
  | sstId :: sstIds, items, hfound, hssts => by
      obtain ⟨⟨sst, hsst, rfl⟩, hfound'⟩ := List.forall_mem_cons.mp hfound
      rw [List.filterMap_cons_some hsst] at hssts ⊢
      obtain ⟨⟨hwf, hlen⟩, hssts'⟩ := List.forall_mem_cons.mp hssts
      obtain ⟨it, hbegin, hyields⟩ := SstIterator.begin_yieldsFirsts hwf
      have hat : engine.sstAt sst.sstId = .ok sst := by rw [sstAt, hsst]
      have hcollect := collectItems_eq sst.sstId sst items hyields hlen
      have hround : (engine.sstAt sst.sstId >>= fun sst' => do
          let it ← sst'.begin 0
          collectItems sst.sstId sst' 0 rounds it items) =
          .ok (items ++ sst.firstPairs.map (itemOf sst.sstId)) := by
        rw [Except.bind_eq_of_ok _ hat, Except.bind_eq_of_ok _ hbegin]
        apply hcollect
      rw [List.foldlM_cons, Except.bind_eq_of_ok _ hround,
        foldlM_collectItems_eq rounds _ hfound' hssts', List.append_assoc]
      rfl

/-- An entry of a map is found by its key. -/
theorem lookup_of_mem {level : ℕ} {sstIds : List ℕ} :
  ∀ {levels : List (ℕ × List ℕ)}, (levels.map Prod.fst).Pairwise (· < ·) →
    (level, sstIds) ∈ levels → levels.lookup level = some sstIds
  | first :: levels, hasc, h => by
      obtain ⟨hfirst, hlevels⟩ := List.pairwise_cons.mp hasc
      rcases List.mem_cons.mp h with rfl | h
      · apply List.lookup_cons_self
      · have hlt := hfirst level (List.mem_map_of_mem (f := Prod.fst) h)
        have hne : (level == first.1) = false := beq_eq_false_iff_ne.mpr hlt.ne'
        rw [List.lookup_cons, hne]
        apply lookup_of_mem hlevels h

/-- The numbers of the tables of a level of an engine. -/
theorem sstIdsAt_of_mem {engine : LevelTables} {level : ℕ} {sstIds : List ℕ}
    (h : (level, sstIds) ∈ engine.levelSstIds) :
  engine.sstIdsAt level = sstIds
  := by
  rw [sstIdsAt, lookup_of_mem engine.ascending h]
  rfl

/-- The deeper levels. -/
def deeper (engine : LevelTables) : List ℕ :=
  (engine.levelSstIds.map Prod.fst).filter (fun level => decide (level ≠ 0))

/-- The first entries of the runs of one key in the tables of each deeper level. -/
def firstsBelow (engine : LevelTables) : List (List Entry) :=
  engine.deeper.map (fun level => (engine.tablesAt level).flatMap SST.firsts)

/-- The iterators over the deeper levels show the first entries of the runs. -/
theorem levelIters_yield {engine : LevelTables} (h : engine.Layered) :
  ∃ iters, engine.levelIters 0 = .ok iters ∧
    List.Forall₂ (ConcactIterator.Chains SstIterator.YieldsFirsts SST.firstPairs) iters
      (engine.firstsBelow.map (List.map Entry.pair))
  := by
  have hlevels : ∀ levels : List (ℕ × List ℕ), (∀ level ∈ levels, level ∈ engine.levelSstIds) →
      ∃ iters, levels.mapM (fun level => do
        let ssts ← level.2.mapM engine.sstAt
        ConcactIterator.ofSsts ssts 0) = .ok iters ∧
      List.Forall₂ (ConcactIterator.Chains SstIterator.YieldsFirsts SST.firstPairs) iters
        (levels.map (fun level =>
          ((engine.tablesAt level.1).flatMap SST.firsts).map Entry.pair)) := by
    intro levels hmem
    induction levels with
    | nil => exact ⟨[], rfl, .nil⟩
    | cons level levels ih =>
        obtain ⟨hlevel, hlevels⟩ := List.forall_mem_cons.mp hmem
        obtain ⟨iters, hiters, hyield⟩ := ih hlevels
        have hids : engine.sstIdsAt level.1 = level.2 := sstIdsAt_of_mem hlevel
        have hfound := h.found level.1
        rw [hids] at hfound
        have htables : level.2.mapM engine.sstAt = .ok (engine.tablesAt level.1) := by
          rw [mapM_sstAt_eq hfound, tablesAt, hids]
        obtain ⟨it, hit, hchains⟩ := ConcactIterator.ofSsts_yieldsFirsts
          (fun sst hsst => (h.built level.1 sst hsst).toWellFormed)
        have hround : (level.2.mapM engine.sstAt >>= fun ssts => ConcactIterator.ofSsts ssts 0) =
            .ok it := by
          rw [Except.bind_eq_of_ok _ htables]
          apply hit
        refine ⟨it :: iters, ?_, .cons hchains hyield⟩
        rw [List.mapM_cons, Except.bind_eq_of_ok _ hround, Except.bind_eq_of_ok _ hiters]
        rfl
  obtain ⟨iters, hiters, hyield⟩ := hlevels
    (engine.levelSstIds.filter (fun level => decide (level.1 ≠ 0)))
    (fun level hlevel => List.mem_of_mem_filter hlevel)
  refine ⟨iters, hiters, ?_⟩
  rw [firstsBelow, deeper, List.filter_map, List.map_map, List.map_map]
  apply hyield

/-- The items of tables are those of the first entries of their runs. -/
theorem mem_itemsOf {ssts : List SST} {item : SearchItem} :
  item ∈ itemsOf ssts ↔ ∃ sst ∈ ssts, ∃ e ∈ sst.firsts, itemOf sst.sstId e.pair = item
  := by
  simp only [itemsOf, SST.firstPairs, List.mem_flatMap, List.mem_map, exists_exists_and_eq_and]

/-- The number of items of a table is at most that of the items of all tables. -/
theorem length_firstPairs_le {ssts : List SST} {sst : SST} (h : sst ∈ ssts) :
  sst.firstPairs.length ≤ (itemsOf ssts).length
  := by
  have hmem : sst.firstPairs.map (itemOf sst.sstId) ∈
      ssts.map (fun sst => sst.firstPairs.map (itemOf sst.sstId)) := List.mem_map_of_mem h
  have hle := (List.sublist_flatten_of_mem hmem).length_le
  rwa [List.length_map, ← List.flatMap_def] at hle

/-- A version among the first entries below level 0 is stored there. -/
theorem mem_firstsBelow {engine : LevelTables} {es : List Entry} (hes : es ∈ engine.firstsBelow)
    {e : Entry} (he : e ∈ es) :
  e ∈ engine.storedBelow
  := by
  obtain ⟨level, hlevel, rfl⟩ := List.mem_map.mp hes
  obtain ⟨sst, hsst, he⟩ := List.mem_flatMap.mp he
  exact ⟨level, of_decide_eq_true (List.mem_filter.mp hlevel).2, sst, hsst,
    sst.firsts_sublist.subset he⟩

/-- The first entries of the tables of a deeper level are sorted. -/
theorem Layered.firstsBelow_sorted {engine : LevelTables} (h : engine.Layered)
    {es : List Entry} (hes : es ∈ engine.firstsBelow) :
  Keyed.Sorted Entry.key es
  := by
  obtain ⟨level, hlevel, rfl⟩ := List.mem_map.mp hes
  have hne : level ≠ 0 := of_decide_eq_true (List.mem_filter.mp hlevel).2
  have hsorted := pairwise_flatMap_entries
    (fun sst hsst => (h.built level sst hsst).toWellFormed) (h.disjoint level hne)
  apply List.Pairwise.sublist _ hsorted
  induction engine.tablesAt level with
  | nil => apply List.Sublist.refl
  | cons sst ssts ih =>
      rw [List.flatMap_cons, List.flatMap_cons]
      apply sst.firsts_sublist.append ih

/-- A scan shows a selection of the first pairs that are not deletion marks from what the heap over
level 0 shows, followed by the first entries of the deeper levels. -/
theorem Layered.exists_scan {engine : LevelTables} (h : engine.Layered) :
  ∃ (ordered : List SearchItem) (out : List (Bytes × Bytes)),
    ordered.Perm (itemsOf (engine.tablesAt 0)) ∧ ordered.Pairwise SearchItem.IndexLe ∧
    Keyed.Selects Prod.fst LevelIterator.Live
      (HeapIterator.livePairs ordered ++ engine.firstsBelow.flatten.map Entry.pair) out ∧
    ∃ bound, ∀ rounds ≥ bound, engine.scan rounds 0 = .ok out
  := by
  obtain ⟨iters, hiters, hbelow⟩ := levelIters_yield h
  have halike : ∀ item ∈ itemsOf (engine.tablesAt 0), item.Of 0 0 := by
    intro item hitem
    obtain ⟨sst, -, e, -, rfl⟩ := mem_itemsOf.mp hitem
    exact ⟨rfl, rfl⟩
  have halike' : ∀ item ∈ ([] : List SearchItem), item.Of 0 0 := by simp
  obtain ⟨ordered, hperm, hordered, hheap⟩ := HeapIterator.ofItems_yields _ halike
  obtain ⟨none, hnone, -, hmemtable⟩ := HeapIterator.ofItems_yields _ halike'
  obtain rfl := List.perm_nil.mp hnone
  let pss := [] :: HeapIterator.livePairs ordered :: engine.firstsBelow.map (List.map Entry.pair)
  have hsorted : ∀ ps ∈ pss, Keyed.Sorted Prod.fst ps := by
    intro ps hps
    rcases List.mem_cons.mp hps with rfl | hps
    · apply List.Pairwise.nil
    · rcases List.mem_cons.mp hps with rfl | hps
      · apply (HeapIterator.livePairs_ascending hordered).sorted
      · obtain ⟨es, hes, rfl⟩ := List.mem_map.mp hps
        have hes' := h.firstsBelow_sorted hes
        exact List.pairwise_map.mpr hes'
  have hkeys : ∀ ps ∈ pss, ∀ p ∈ ps, p.1 ≠ [] := by
    intro ps hps p hp
    rcases List.mem_cons.mp hps with rfl | hps
    · cases hp
    · rcases List.mem_cons.mp hps with rfl | hps
      · obtain ⟨item, hitem, rfl⟩ := HeapIterator.mem_livePairs hp
        obtain ⟨sst, hsst, e, he, rfl⟩ := mem_itemsOf.mp (hperm.mem_iff.mp hitem)
        apply h.keys_ne 0 e ⟨sst, hsst, sst.firsts_sublist.subset he⟩
      · obtain ⟨es, hes, rfl⟩ := List.mem_map.mp hps
        obtain ⟨e, he, rfl⟩ := List.mem_map.mp hp
        obtain ⟨level, -, hstored⟩ := mem_firstsBelow hes he
        apply h.keys_ne level e hstored
  have hsources : List.Forall₂ LevelSource.YieldsFirsts
      (.heap (memtableBegin engine.memtable 0) ::
        .heap (HeapIterator.ofItems (itemsOf (engine.tablesAt 0)) 0) ::
        iters.map .concact) pss := by
    rw [h.memtable_empty]
    refine .cons (.heap hmemtable) (.cons (.heap hheap) ?_)
    apply List.forall₂_map_left_iff.mpr
    apply hbelow.imp (fun _ _ => .concact)
  obtain ⟨out, hsel, hrun⟩ :=
    LevelIterator.ofSources_shows LevelSource.yields_yieldsFirsts hsources hsorted hkeys
  refine ⟨ordered, out, hperm, hordered, ?_, ?_⟩
  · rw [List.map_flatten]
    apply hsel
  · use (itemsOf (engine.tablesAt 0)).length + pss.flatten.length + out.length + 1
    intro rounds hrounds
    obtain ⟨it, hit, hshows⟩ := hrun rounds (by omega)
    have hitems : engine.l0Items rounds 0 = .ok (itemsOf (engine.tablesAt 0)) := by
      apply foldlM_collectItems_eq rounds [] (h.found 0)
      intro sst hsst
      have hle := length_firstPairs_le hsst
      have hlt : sst.firstPairs.length < rounds := by
        rw [tablesAt] at hrounds
        omega
      exact ⟨(h.built 0 sst hsst).toWellFormed, hlt⟩
    have hit' : engine.levelIterator rounds 0 = .ok it := by
      rw [levelIterator, Except.bind_eq_of_ok _ hitems, Except.bind_eq_of_ok _ hiters]
      apply hit
    rw [scan, Except.bind_eq_of_ok _ hit']
    apply Cursor.drain_of_tracks
      (LevelIterator.yields_shows LevelSource.yields_yieldsFirsts).tracks .outOfFuel hshows
    omega

end LevelTables

end TinyLsm
