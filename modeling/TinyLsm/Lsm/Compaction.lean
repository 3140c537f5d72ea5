import TinyLsm.Lsm.TwoMergeIterator
import TinyLsm.Sst.ConcactIterator

/-!
# The input of a compaction

The compaction of the first two levels reads the merge of a heap iterator over the tables
of the first level, whose keys may overlap, and a concatenating iterator over the tables of
the second, whose keys are disjoint and ascending.  All iterators are for no transaction and
keep all versions.  What is read is every entry of every table, exactly once, with keys that
never decrease.
-/

namespace TinyLsm

/-- The iterator a compaction of the tables `l0` of the first level and `l1` of the second
reads. -/
def compactionInput (fuel : ℕ) (l0 l1 : List SST) :
    Except Fault (TwoMergeIterator HeapIterator ConcactIterator) := do
  let iterVec ← l0.mapM (fun sst => sst.begin 0 true)
  let l0Iter ← SstIterator.mergeSstIterator fuel iterVec 0 true
  let l1Iter ← ConcactIterator.ofSsts l1 0 true
  TwoMergeIterator.ofIterators fuel l0Iter l1Iter 0 true

/-- The keys of each table are less than the keys of the later tables. -/
def Ascending (ssts : List SST) : Prop :=
  ssts.Pairwise (fun sst sst' => ∀ e ∈ sst.entries, ∀ e' ∈ sst'.entries, e.key < e'.key)

/-- The iterators at the start of well-formed tables show the entries of the tables. -/
theorem mapM_begin_shows {ssts : List SST} (h : ∀ sst ∈ ssts, sst.WellFormed) :
  ∃ its, ssts.mapM (fun sst => sst.begin 0 true) = .ok its ∧
    List.Forall₂ SstIterator.Shows its (ssts.map SST.entries)
  := by
  induction ssts with
  | nil => exact ⟨[], rfl, .nil⟩
  | cons sst ssts ih =>
      obtain ⟨it, hbegin, hshows⟩ := SstIterator.begin_shows (h sst List.mem_cons_self)
      obtain ⟨its, hmap, hall⟩ := ih (fun sst' h' => h sst' (List.mem_cons_of_mem sst h'))
      refine ⟨it :: its, ?_, .cons hshows hall⟩
      rw [List.mapM_cons, Except.bind_eq_of_ok _ hbegin, Except.bind_eq_of_ok _ hmap]
      rfl

/-- The keys of well-formed ascending tables, one table after the other, do not decrease. -/
theorem pairwise_flatMap_entries {ssts : List SST} (h : ∀ sst ∈ ssts, sst.WellFormed)
    (hasc : Ascending ssts) :
  (ssts.flatMap SST.entries).Pairwise (fun e e' => e.key ≤ e'.key)
  := by
  apply List.pairwise_flatMap.mpr
  constructor
  · intro sst hsst
    apply (h sst hsst).sorted
  · apply hasc.imp
    intro sst sst' hlt e he e' he'
    apply le_of_lt (hlt e he e' he')

/-- The merge of entries with keys that do not decrease is such. -/
theorem pairwise_merge_takesLeft {es es' : List Entry}
    (h : es.Pairwise (fun e e' => e.key ≤ e'.key))
    (h' : es'.Pairwise (fun e e' => e.key ≤ e'.key)) :
  (es.merge es' TwoMergeIterator.takesLeft).Pairwise (fun e e' => e.key ≤ e'.key)
  := by
  apply List.pairwise_merge_of_choice _ _ _ h h'
  · intro a b c
    apply le_trans
  · intro a _ b _ htakes
    rw [TwoMergeIterator.takesLeft] at htakes
    split at htakes
    · apply le_of_lt (of_decide_eq_true htakes)
    next heq => apply le_of_eq (not_not.mp heq)
  · intro a _ b _ htakes
    rw [TwoMergeIterator.takesLeft] at htakes
    split at htakes
    · apply le_of_not_gt (of_decide_eq_false htakes)
    next heq => apply le_of_eq (not_not.mp heq).symm

theorem length_le_length_flatten {α : Type} {xss : List (List α)} {xs : List α}
    (h : xs ∈ xss) :
  xs.length ≤ xss.flatten.length
  := (List.sublist_flatten_of_mem h).length_le

/-- A compaction reads every entry of its tables exactly once, with keys that never
decrease. -/
theorem compactionInput_drain {l0 l1 : List SST} (h0 : ∀ sst ∈ l0, sst.WellFormed)
    (h1 : ∀ sst ∈ l1, sst.WellFormed) (hasc : Ascending l1) :
  ∃ out, out.Perm ((l0 ++ l1).flatMap SST.entries) ∧
    out.Pairwise (fun e e' => e.key ≤ e'.key) ∧
    ∃ bound, ∀ fuel ≥ bound,
      (compactionInput fuel l0 l1 >>= BaseIterator.drain fuel) = .ok out
  := by
  obtain ⟨its, hmap, hits⟩ := mapM_begin_shows h0
  obtain ⟨heap, es, hheap, hperm, hsorted, hmerge⟩ :=
    SstIterator.mergeSstIterator_shows hits 0
  obtain ⟨l1Iter, hof, hl1⟩ := ConcactIterator.ofSsts_shows h1
  have hout : (es.merge (l1.flatMap SST.entries) TwoMergeIterator.takesLeft).Perm
      ((l0 ++ l1).flatMap SST.entries) := by
    apply (List.merge_perm_append TwoMergeIterator.takesLeft).trans
    rw [List.flatMap_append]
    apply hperm.append_right _
  use es.merge (l1.flatMap SST.entries) TwoMergeIterator.takesLeft
  refine ⟨hout, pairwise_merge_takesLeft hsorted (pairwise_flatMap_entries h1 hasc), ?_⟩
  use ((l0 ++ l1).flatMap SST.entries).length + 1
  intro fuel hfuel
  have hlong : ∀ es ∈ l0.map SST.entries, es.length < fuel := by
    intro es' hes'
    have hle := length_le_length_flatten hes'
    rw [List.flatMap_append, List.length_append] at hfuel
    rw [← List.flatMap_def] at hle
    omega
  obtain ⟨it, hit, hshows⟩ :=
    TwoMergeIterator.ofIterators_shows HeapIterator.tracks_shows ConcactIterator.tracks_shows
      fuel hheap hl1
  have hinput : compactionInput fuel l0 l1 = .ok it := by
    rw [compactionInput, Except.bind_eq_of_ok _ hmap, Except.bind_eq_of_ok _ (hmerge fuel hlong),
      Except.bind_eq_of_ok _ hof]
    apply hit
  rw [Except.bind_eq_of_ok _ hinput]
  apply Cursor.drain_of_tracks
    (TwoMergeIterator.tracks_shows HeapIterator.tracks_shows ConcactIterator.tracks_shows)
  · apply hshows
  · rw [hout.length_eq]
    apply hfuel

/-- Three versions of one key in two levels, one of them a deletion mark, are all read. -/
theorem compactionInput_drain_versions :
  ∃ out, out.Perm [⟨[1], [], 5⟩, ⟨[1], [7], 3⟩, ⟨[2], [9], 4⟩, ⟨[1], [8], 2⟩, ⟨[3], [6], 1⟩] ∧
    out.Pairwise (fun e e' => e.key ≤ e'.key) ∧
    ∃ bound, ∀ fuel ≥ bound,
      (compactionInput fuel
          [{ sstId := 1, blocks := [⟨[⟨[1], [], 5⟩, ⟨[1], [7], 3⟩]⟩, ⟨[⟨[2], [9], 4⟩]⟩] }]
          [{ sstId := 0, blocks := [⟨[⟨[1], [8], 2⟩, ⟨[3], [6], 1⟩]⟩] }] >>=
        BaseIterator.drain fuel) = .ok out
  := by
  apply @compactionInput_drain
    [{ sstId := 1, blocks := [⟨[⟨[1], [], 5⟩, ⟨[1], [7], 3⟩]⟩, ⟨[⟨[2], [9], 4⟩]⟩] }]
    [{ sstId := 0, blocks := [⟨[⟨[1], [8], 2⟩, ⟨[3], [6], 1⟩]⟩] }]
  · intro sst hsst
    obtain rfl := List.mem_singleton.mp hsst
    exact
      { blocks_ne := by decide
        entries_ne := by decide
        sorted := by decide
        resolves := fun e _ => SST.resolveValue_inline rfl e.value }
  · intro sst hsst
    obtain rfl := List.mem_singleton.mp hsst
    exact
      { blocks_ne := by decide
        entries_ne := by decide
        sorted := by decide
        resolves := fun e _ => SST.resolveValue_inline rfl e.value }
  · apply List.pairwise_singleton

end TinyLsm
