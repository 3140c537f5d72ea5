import TinyLsm.Lsm.CompactionOrder

/-!
# The tree of levels

Versions are put into the current table of the memtable.  That is frozen, the frozen tables are
flushed to level 0, the oldest first, and the tables of a level are compacted into the next one.

As long as a version that is put has a greater id than those of its key before it, a query finds in
the tables, at whatever snapshot, what it would find in the list of all the versions that have been
put: `latest_of_reached`.
-/

namespace TinyLsm

/-- The tables of an engine by levels, those of the memtable and of level 0 with the newest first.
The tables of each deeper level are in the order of their keys. -/
structure LevelTree where
  currentTable : List Entry := []
  frozenTables : List (List Entry) := []
  l0 : List SST := []
  deeper : List (List SST) := []

namespace LevelTree

/-- The versions in the tables of some levels. -/
def entriesOf (levels : List (List SST)) : List Entry := levels.flatten.flatMap SST.entries

/-- The versions in the order in which a query meets them. -/
def versions (t : LevelTree) : List Entry :=
  t.currentTable ++ t.frozenTables.flatten ++ entriesOf (t.l0 :: t.deeper)

/-- The tables that a compaction makes of its input: well-formed ones with the entries of the input
in its order, the versions of each key in one of them. -/
structure Builds (out : List Entry) (ssts : List SST) : Prop where
  wellFormed : ∀ sst ∈ ssts, sst.WellFormed
  entries : ssts.flatMap SST.entries = out
  uncut : ssts.Pairwise (fun sst sst' => ∀ e ∈ sst.entries, ∀ e' ∈ sst'.entries, e.key ≠ e'.key)

/-- The trees that are reached, with the versions that have been put, the last one first. -/
inductive Reached : LevelTree → List Entry → Prop
  | empty : Reached {} []
  | put {t : LevelTree} {history : List Entry} (e : Entry) :
      Reached t history → (∀ e' ∈ history, e'.key = e.key → e'.trancId < e.trancId) →
      Reached { t with currentTable := insertVersion e t.currentTable } (e :: history)
  | frozenCurTable {t : LevelTree} {history : List Entry} :
      Reached t history →
      Reached { t with currentTable := [], frozenTables := t.currentTable :: t.frozenTables }
        history
  | flush {t : LevelTree} {history : List Entry} {tables : List (List Entry)} {sst : SST} :
      Reached t history → t.frozenTables = tables ++ [sst.entries] → sst.WellFormed →
      sst.sstId ≤ 2 ^ 31 → (∀ sst' ∈ t.l0, sst'.sstId < sst.sstId) →
      Reached { t with frozenTables := tables, l0 := sst :: t.l0 } history
  | compactL0 {t : LevelTree} {history : List Entry} {l1 ssts : List SST}
      {deeper : List (List SST)} {out : List Entry} :
      Reached t history → t.deeper = l1 :: deeper →
      (∃ bound, ∀ fuel ≥ bound,
        (compactionInput fuel t.l0 l1 >>= BaseIterator.drain fuel) = .ok out) →
      Builds out ssts → Reached { t with l0 := [], deeper := ssts :: deeper } history
  | compact {t : LevelTree} {history : List Entry} {lx ly ssts : List SST}
      {above below : List (List SST)} {out : List Entry} :
      Reached t history → t.deeper = above ++ lx :: ly :: below →
      (∃ bound, ∀ fuel ≥ bound,
        (commonCompactionInput fuel lx ly >>= BaseIterator.drain fuel) = .ok out) →
      Builds out ssts → Reached { t with deeper := above ++ [] :: ssts :: below } history
  | addLevel {t : LevelTree} {history : List Entry} :
      Reached t history → Reached { t with deeper := t.deeper ++ [[]] } history

/-- The tables of level 0, with the newest first, and those of the deeper levels, with ascending
keys. -/
structure Arranged (l0 : List SST) (deeper : List (List SST)) : Prop where
  newest : NewestTablesFirst l0
  wellFormed : ∀ sst ∈ l0, sst.WellFormed
  deeper : ∀ level ∈ deeper, (∀ sst ∈ level, sst.WellFormed) ∧ Ascending level

/-- The tables hold the versions that have been put, those of a key with descending ids. -/
structure Ordered (t : LevelTree) (history : List Entry) : Prop where
  perm : t.versions.Perm history
  descends : Descends t.versions
  history_descends : Descends history
  arranged : Arranged t.l0 t.deeper

end LevelTree

/-! ### Descending ids -/

/-- A version whose id is not that of one of its key goes behind the versions of smaller keys. -/
theorem exists_insertVersion_eq {e : Entry} :
  ∀ {es : List Entry}, (∀ e' ∈ es, e'.key = e.key → e'.trancId < e.trancId) →
    ∃ xs ys, es = xs ++ ys ∧ insertVersion e es = xs ++ e :: ys ∧ ∀ e' ∈ xs, e'.key < e.key
  | [], _ => ⟨[], [], rfl, rfl, fun _ h => absurd h List.not_mem_nil⟩
  | e' :: es, h => by
      rw [insertVersion]
      split
      next hlt =>
        obtain ⟨xs, ys, rfl, hinsert, hxs⟩ :=
          exists_insertVersion_eq (fun e'' h' => h e'' (List.mem_cons_of_mem e' h'))
        refine ⟨e' :: xs, ys, rfl, by rw [hinsert, List.cons_append], ?_⟩
        exact List.forall_mem_cons.mpr ⟨hlt, hxs⟩
      · rw [if_neg]
        · exact ⟨[], e' :: es, rfl, rfl, fun _ h => absurd h List.not_mem_nil⟩
        · intro hsame
          exact absurd hsame.2 (h e' List.mem_cons_self hsame.1).ne

namespace Descends

theorem cons {e : Entry} {es : List Entry} (h : Descends es)
    (hids : ∀ e' ∈ es, e'.key = e.key → e'.trancId < e.trancId) :
  Descends (e :: es)
  := List.Pairwise.cons (fun e' he' hkey => hids e' he' hkey.symm) h

/-- A version with a greater id than those of its key, put behind versions of other keys. -/
theorem middle {e : Entry} {xs ys : List Entry} (h : Descends (xs ++ ys))
    (hxs : ∀ e' ∈ xs, e'.key ≠ e.key)
    (hids : ∀ e' ∈ ys, e'.key = e.key → e'.trancId < e.trancId) :
  Descends (xs ++ e :: ys)
  := by
  obtain ⟨hleft, hright, hcross⟩ := List.pairwise_append.mp h
  apply List.pairwise_append.mpr ⟨hleft, Descends.cons hright hids, ?_⟩
  intro e' he' b hb
  rcases List.mem_cons.mp hb with rfl | hb
  · exact fun hkey => absurd hkey (hxs e' he')
  · exact hcross e' he' b hb

/-- Versions may be exchanged for the same ones in another order, if this descends. -/
theorem exchange {xs es es' ys : List Entry} (h : Descends (xs ++ es ++ ys)) (h' : Descends es')
    (hperm : es'.Perm es) :
  Descends (xs ++ es' ++ ys)
  := by
  obtain ⟨hleft, hys, hcross⟩ := List.pairwise_append.mp h
  obtain ⟨hxs, -, hleft⟩ := List.pairwise_append.mp hleft
  apply List.pairwise_append.mpr ⟨List.pairwise_append.mpr ⟨hxs, h', ?_⟩, hys, ?_⟩
  · intro e he e' he'
    exact hleft e he e' (hperm.mem_iff.mp he')
  · intro e he
    apply hcross e
    exact ((hperm.append_left xs).mem_iff).mp he

end Descends

theorem Compacted.descends {es out : List Entry} (h : Compacted es out) : Descends out
  := by
  apply h.ordered.imp
  rintro e e' (hlt | ⟨-, hlt⟩) hkey
  · exact absurd hkey hlt.ne
  · exact hlt

/-- What is answered from some bound on is one thing. -/
theorem eq_of_eventually_ok {α : Type} {run : ℕ → Except Fault α} {a b : α}
    (ha : ∃ bound, ∀ fuel ≥ bound, run fuel = .ok a)
    (hb : ∃ bound, ∀ fuel ≥ bound, run fuel = .ok b) :
  a = b
  := by
  obtain ⟨bound, ha⟩ := ha
  obtain ⟨bound', hb⟩ := hb
  have hsame := ha (max bound bound') (le_max_left _ _)
  rw [hb (max bound bound') (le_max_right _ _)] at hsame
  exact (Except.ok.inj hsame).symm

namespace LevelTree

/-- The tables that are built have ascending keys. -/
theorem Builds.ascending {es out : List Entry} {ssts : List SST} (h : Builds out ssts)
    (hout : Compacted es out) :
  Ascending ssts
  := by
  have hordered := hout.ordered
  rw [← h.entries] at hordered
  apply ((List.pairwise_flatMap.mp hordered).2.and h.uncut).imp
  rintro sst sst' ⟨hle, hne⟩ e he e' he'
  exact (hle e he e' he').resolve_right (fun hsame => hne e he e' he' hsame.1)

variable {t : LevelTree} {history : List Entry}

namespace Ordered

theorem put (h : Ordered t history) {e : Entry}
    (hids : ∀ e' ∈ history, e'.key = e.key → e'.trancId < e.trancId) :
  Ordered { t with currentTable := insertVersion e t.currentTable } (e :: history)
  := by
  have hmem : ∀ e' ∈ t.versions, e'.key = e.key → e'.trancId < e.trancId :=
    fun e' he' => hids e' (h.perm.mem_iff.mp he')
  obtain ⟨xs, ys, hsplit, hinsert, hxs⟩ := exists_insertVersion_eq
    (fun e' he' => hmem e' (List.mem_append_left _ (List.mem_append_left _ he')))
  let rest := ys ++ t.frozenTables.flatten ++ entriesOf (t.l0 :: t.deeper)
  have hbefore : t.versions = xs ++ rest := by
    rw [versions, hsplit]
    simp only [rest, List.append_assoc]
  have hafter : ({ t with currentTable := insertVersion e t.currentTable } : LevelTree).versions =
      xs ++ e :: rest := by
    rw [versions, hinsert]
    simp only [rest, List.append_assoc, List.cons_append]
  have hperm := h.perm
  have hdescends := h.descends
  rw [hbefore] at hperm hdescends hmem
  refine ⟨?_, ?_, h.history_descends.cons hids, h.arranged⟩
  · rw [hafter]
    exact List.perm_middle.trans (hperm.cons e)
  · rw [hafter]
    apply hdescends.middle (fun e' he' => (hxs e' he').ne)
    exact fun e' he' => hmem e' (List.mem_append_right xs he')

/-- Tables may be moved, as long as the versions stay in their order. -/
theorem move (h : Ordered t history) {t' : LevelTree} (hversions : t'.versions = t.versions)
    (harranged : Arranged t'.l0 t'.deeper) :
  Ordered t' history
  := ⟨hversions ▸ h.perm, hversions ▸ h.descends, h.history_descends, harranged⟩

/-- A compaction exchanges some of the versions for the same ones in another order. -/
theorem compact (h : Ordered t history) {t' : LevelTree} {xs es out ys : List Entry}
    (hbefore : t.versions = xs ++ es ++ ys) (hout : Compacted es out)
    (hafter : t'.versions = xs ++ out ++ ys) (harranged : Arranged t'.l0 t'.deeper) :
  Ordered t' history
  := by
  have hperm := h.perm
  have hdescends := h.descends
  rw [hbefore] at hperm hdescends
  refine ⟨?_, ?_, h.history_descends, harranged⟩
  · rw [hafter]
    exact ((hout.perm.append_left xs).append_right ys).trans hperm
  · rw [hafter]
    exact hdescends.exchange hout.descends hout.perm

end Ordered

/-- Every tree that is reached holds the versions that have been put, those of a key with
descending ids. -/
theorem Reached.ordered (h : Reached t history) : Ordered t history
  := by
  induction h with
  | empty =>
      refine ⟨.nil, .nil, .nil, ⟨.nil, ?_⟩, ?_, ?_⟩
      all_goals exact fun _ h => absurd h List.not_mem_nil
  | put e _ hids ih => exact ih.put hids
  | @frozenCurTable t history _ ih =>
      refine ih.move ?_ ih.arranged
      rw [versions, versions, List.nil_append, List.flatten_cons]
  | @flush t history tables sst _ hfrozen hwf hfits hnewer ih =>
      obtain ⟨⟨hsstIds, hall⟩, hwellFormed, hdeeper⟩ := ih.arranged
      refine ih.move ?_ ⟨⟨hsstIds.cons hnewer, ?_⟩, ?_, hdeeper⟩
      · rw [versions, versions, hfrozen]
        simp only [entriesOf, List.flatten_cons, List.flatten_append, List.flatten_nil,
          List.append_nil, List.cons_append, List.flatMap_cons, List.append_assoc]
      · exact List.forall_mem_cons.mpr ⟨hfits, hall⟩
      · exact List.forall_mem_cons.mpr ⟨hwf, hwellFormed⟩
  | @compactL0 t history l1 ssts deeper out _ hdeeper hinput hbuilds ih =>
      have hbefore : t.versions = t.currentTable ++ t.frozenTables.flatten ++
          (t.l0 ++ l1).flatMap SST.entries ++ entriesOf deeper := by
        rw [versions, hdeeper]
        simp only [entriesOf, List.flatten_cons, List.flatMap_append, List.append_assoc]
      obtain ⟨hnewest, hwellFormed, hlevels⟩ := ih.arranged
      rw [hdeeper] at hlevels
      obtain ⟨hl1, hlevels⟩ := List.forall_mem_cons.mp hlevels
      obtain ⟨out', hout, hrun⟩ := compactionInput_compacted hwellFormed hl1.1 hnewest hl1.2
        (hbefore ▸ ih.descends).of_append.1.of_append.2
      obtain rfl := eq_of_eventually_ok hrun hinput
      refine ih.compact hbefore hout ?_ ⟨⟨.nil, ?_⟩, ?_, ?_⟩
      · rw [versions, ← hbuilds.entries]
        simp only [entriesOf, List.flatten_cons, List.flatMap_append, List.nil_append,
          List.append_assoc]
      · exact fun _ h => absurd h List.not_mem_nil
      · exact fun _ h => absurd h List.not_mem_nil
      · exact List.forall_mem_cons.mpr ⟨⟨hbuilds.wellFormed, hbuilds.ascending hout⟩, hlevels⟩
  | @compact t history lx ly ssts above below out _ hdeeper hinput hbuilds ih =>
      have hbefore : t.versions =
          t.currentTable ++ t.frozenTables.flatten ++ entriesOf (t.l0 :: above) ++
            (lx ++ ly).flatMap SST.entries ++ entriesOf below := by
        rw [versions, hdeeper]
        simp only [entriesOf, List.flatten_cons, List.flatten_append, List.flatMap_append,
          List.append_assoc]
      obtain ⟨hnewest, hwellFormed, hlevels⟩ := ih.arranged
      rw [hdeeper] at hlevels
      obtain ⟨habove, hlevels⟩ := List.forall_mem_append.mp hlevels
      obtain ⟨hlx, hlevels⟩ := List.forall_mem_cons.mp hlevels
      obtain ⟨hly, hbelow⟩ := List.forall_mem_cons.mp hlevels
      obtain ⟨out', hout, hrun⟩ := commonCompactionInput_compacted hlx.1 hly.1 hlx.2 hly.2
        (hbefore ▸ ih.descends).of_append.1.of_append.2
      obtain rfl := eq_of_eventually_ok hrun hinput
      refine ih.compact hbefore hout ?_ ⟨hnewest, hwellFormed, ?_⟩
      · rw [versions, ← hbuilds.entries]
        simp only [entriesOf, List.flatten_cons, List.flatten_append, List.flatMap_append,
          List.nil_append, List.append_assoc]
      · apply List.forall_mem_append.mpr ⟨habove, List.forall_mem_cons.mpr ⟨?_, ?_⟩⟩
        · exact ⟨fun _ h => absurd h List.not_mem_nil, .nil⟩
        · exact List.forall_mem_cons.mpr ⟨⟨hbuilds.wellFormed, hbuilds.ascending hout⟩, hbelow⟩
  | @addLevel t history _ ih =>
      obtain ⟨hnewest, hwellFormed, hlevels⟩ := ih.arranged
      refine ih.move ?_ ⟨hnewest, hwellFormed, ?_⟩
      · simp only [versions, entriesOf, List.flatten_cons, List.flatten_append, List.flatten_nil,
          List.append_nil]
      · apply List.forall_mem_append.mpr ⟨hlevels, List.forall_mem_singleton.mpr ?_⟩
        exact ⟨fun _ h => absurd h List.not_mem_nil, .nil⟩

/-- A table with one block, of inline values. -/
def tableOf (sstId : ℕ) (entries : List Entry) : SST := { sstId, blocks := [⟨entries⟩] }

theorem wellFormed_tableOf {sstId : ℕ} {entries : List Entry} (hne : entries ≠ [])
    (hsorted : entries.Pairwise (fun e e' => e.key ≤ e'.key)) :
  (tableOf sstId entries).WellFormed
  where
  blocks_ne := List.cons_ne_nil _ []
  entries_ne _ hb := by
    rw [List.mem_singleton.mp hb]
    exact hne
  sorted := by
    rw [tableOf, SST.entries, SST.entriesFrom]
    simpa using hsorted
  resolves e _ := SST.resolveValue_inline rfl e.value

/-- Two versions of a key are flushed, and their tables are compacted. -/
theorem reached_rewritten :
  Reached { deeper := [[tableOf 3 [⟨[1], [8], 2⟩, ⟨[1], [7], 1⟩]]] } [⟨[1], [8], 2⟩, ⟨[1], [7], 1⟩]
  := by
  have holder : (tableOf 1 [⟨[1], [7], 1⟩]).WellFormed :=
    wellFormed_tableOf (List.cons_ne_nil _ _) (List.pairwise_singleton _ _)
  have hnewer : (tableOf 2 [⟨[1], [8], 2⟩]).WellFormed :=
    wellFormed_tableOf (List.cons_ne_nil _ _) (List.pairwise_singleton _ _)
  have hfirst : Reached { l0 := [tableOf 1 [⟨[1], [7], 1⟩]] } [⟨[1], [7], 1⟩] :=
    (Reached.empty.put ⟨[1], [7], 1⟩ (by decide)).frozenCurTable.flush rfl holder (by decide)
      (by decide)
  have hsecond : Reached
      { l0 := [tableOf 2 [⟨[1], [8], 2⟩], tableOf 1 [⟨[1], [7], 1⟩]], deeper := [[]] }
      [⟨[1], [8], 2⟩, ⟨[1], [7], 1⟩] :=
    ((hfirst.put ⟨[1], [8], 2⟩ (by decide)).frozenCurTable.flush rfl hnewer (by decide)
      (by decide)).addLevel
  have harranged := hsecond.ordered.arranged
  obtain ⟨out, hout, hrun⟩ := compactionInput_compacted harranged.wellFormed
    (fun _ h => absurd h List.not_mem_nil) harranged.newest .nil (by unfold Descends; decide)
  obtain rfl := hout.unique (List.Perm.refl _) (by decide)
  refine hsecond.compactL0 rfl hrun ⟨?_, rfl, List.pairwise_singleton _ _⟩
  intro sst hsst
  rw [List.mem_singleton.mp hsst]
  exact wellFormed_tableOf (List.cons_ne_nil _ _) (by decide)

end LevelTree

end TinyLsm
