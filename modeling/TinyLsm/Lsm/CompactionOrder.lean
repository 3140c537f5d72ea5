import TinyLsm.Iterator.SnapshotView
import TinyLsm.Lsm.Compaction
import TinyLsm.Lsm.Tables

/-!
# The order a compaction leaves

A compaction writes its input to new tables, in the order in which it reads it.  Where the tables
it reads, the newest first, have the versions of each key with descending ids, the input is in the
order of a table, and every query finds in it the version it has found in the tables:
`compactionInput_compacted` for the first two levels, and `commonCompactionInput_compacted` for two
deeper ones.  What is written then is such that it may be compacted again.
-/

namespace TinyLsm

/-- The versions of a key follow each other with descending ids. -/
def Descends (es : List Entry) : Prop :=
  es.Pairwise (fun e e' => e.key = e'.key → e'.trancId < e.trancId)

/-- The entries `out` are all of the entries `es`, in the order of a table, and a query finds
in them what it finds in `es`. -/
structure Compacted (es out : List Entry) : Prop where
  perm : out.Perm es
  ordered : out.Pairwise (fun e e' => e.key < e'.key ∨ e.key = e'.key ∧ e'.trancId < e.trancId)
  latest_eq : ∀ key trancId, latest key trancId out = latest key trancId es

/-- There is one order of a table for entries. -/
theorem Compacted.unique {es out out' : List Entry} (h : Compacted es out) (hperm : out'.Perm es)
    (hordered : out'.Pairwise
      (fun e e' => e.key < e'.key ∨ e.key = e'.key ∧ e'.trancId < e.trancId)) :
  out = out'
  := by
  apply List.Perm.eq_of_pairwise _ h.ordered hordered (h.perm.trans hperm.symm)
  rintro e e' - - (hlt | ⟨heq, hlt⟩) (hlt' | ⟨heq', hlt'⟩)
  · exact absurd hlt hlt'.asymm
  · exact absurd heq' hlt.ne'
  · exact absurd heq hlt'.ne'
  · exact absurd hlt hlt'.asymm

namespace Descends

theorem of_append {es es' : List Entry} (h : Descends (es ++ es')) : Descends es ∧ Descends es'
  := ⟨(List.pairwise_append.mp h).1, (List.pairwise_append.mp h).2.1⟩

theorem nodup_ids {es : List Entry} (h : Descends es) :
  (es.map (fun e => (e.key, e.trancId))).Nodup
  := by
  apply List.pairwise_map.mpr
  apply h.imp
  intro e e' hlt heq
  obtain ⟨hkey, hid⟩ := Prod.mk.inj heq
  exact (hlt hkey).ne hid.symm

/-- A query finds the same version in any two orders in which the ids of the keys descend. -/
theorem latest_eq {es es' : List Entry} (h : Descends es) (h' : Descends es')
    (hperm : es.Perm es') (key : Bytes) (trancId : TrancId) :
  latest key trancId es = latest key trancId es'
  := by
  rw [latest, latest, ← List.head?_filter, ← List.head?_filter]
  congr 1
  apply List.Perm.eq_of_pairwise _ (h.filter _) (h'.filter _) (hperm.filter _)
  intro e e' he he' hlt hlt'
  have hkey := (of_decide_eq_true (List.mem_filter.mp he).2).1
  have hkey' := (of_decide_eq_true (List.mem_filter.mp he').2).1
  have hsame : e.key = e'.key := hkey.trans hkey'.symm
  exact absurd (hlt hsame) (hlt' hsame.symm).asymm

/-- Tables with keys that ascend and ids that descend are in the order of versions. -/
theorem versioned {ssts : List SST} (h : ∀ sst ∈ ssts, sst.WellFormed) (hasc : Ascending ssts)
    (hdesc : Descends (ssts.flatMap SST.entries)) :
  Versioned (ssts.flatMap SST.entries)
  := by
  apply ((pairwise_flatMap_entries h hasc).and hdesc).imp
  rintro e e' ⟨hle, hlt⟩
  rcases lt_or_eq_of_le hle with hkey | hkey
  · exact .inl hkey
  · exact .inr ⟨hkey, (hlt hkey).le⟩

end Descends

/-- Entries in the order of versions, with no id of a key twice, are in the order of a table. -/
theorem Versioned.ordered {es : List Entry} (h : Versioned es)
    (hids : (es.map (fun e => (e.key, e.trancId))).Nodup) :
  es.Pairwise (fun e e' => e.key < e'.key ∨ e.key = e'.key ∧ e'.trancId < e.trancId)
  := by
  apply (h.and (List.pairwise_map.mp hids)).imp
  rintro e e' ⟨hlt | ⟨hkey, hle⟩, hne⟩
  · exact .inl hlt
  · refine .inr ⟨hkey, lt_of_le_of_ne hle ?_⟩
    intro hid
    exact hne (Prod.ext hkey hid.symm)

/-- The merge of lists in the order of versions is such. -/
theorem Versioned.merge {xs ys : List Entry} (hxs : Versioned xs) (hys : Versioned ys) :
  Versioned (xs.merge ys TwoMergeIterator.takesLeft)
  := by
  apply List.pairwise_merge_of_choice _ _ _ hxs hys
  · rintro a b c (hab | ⟨hab, hle⟩) (hbc | ⟨hbc, hle'⟩)
    · exact .inl (lt_trans hab hbc)
    · exact .inl (hbc ▸ hab)
    · exact .inl (hab ▸ hbc)
    · exact .inr ⟨hab.trans hbc, le_trans hle' hle⟩
  · intro a _ b _ htakes
    rw [TwoMergeIterator.takesLeft] at htakes
    split at htakes
    next => exact .inl (of_decide_eq_true htakes)
    next heq => exact .inr ⟨not_not.mp heq, (of_decide_eq_true htakes).le⟩
  · intro a _ b _ htakes
    rw [TwoMergeIterator.takesLeft] at htakes
    split at htakes
    next hne => exact .inl (lt_of_le_of_ne (le_of_not_gt (of_decide_eq_false htakes)) (Ne.symm hne))
    next heq => exact .inr ⟨(not_not.mp heq).symm, le_of_not_gt (of_decide_eq_false htakes)⟩

/-- The merge of two lists in the order of versions is a compaction of their entries, if these
descend in some order. -/
theorem compacted_merge {xs ys es : List Entry} (hxs : Versioned xs) (hys : Versioned ys)
    (hperm : (xs ++ ys).Perm es) (hdesc : Descends es) :
  Compacted es (xs.merge ys TwoMergeIterator.takesLeft)
  := by
  have hmerge := (List.merge_perm_append TwoMergeIterator.takesLeft).trans hperm
  have hids := (hmerge.map (fun e => (e.key, e.trancId))).nodup_iff.mpr hdesc.nodup_ids
  have hordered := (hxs.merge hys).ordered hids
  refine ⟨hmerge, hordered, ?_⟩
  have hout : Descends (xs.merge ys TwoMergeIterator.takesLeft) := by
    apply hordered.imp
    rintro e e' (hlt | ⟨-, hlt⟩) hkey
    · exact absurd hkey hlt.ne
    · exact hlt
  exact hout.latest_eq hdesc hmerge

/-! ### The items of the first level -/

namespace SstIterator

/-- The search item of an entry of a table. -/
def itemFor (sst : SST) (e : Entry) : SearchItem :=
  ⟨e.key, e.value, Int.bmod (-sst.sstId) (2 ^ 32), 0, e.trancId⟩

/-- The search items of tables. -/
def itemsOf (ssts : List SST) : List SearchItem :=
  ssts.flatMap (fun sst => sst.entries.map (itemFor sst))

theorem map_entry_itemsOf (ssts : List SST) :
  (itemsOf ssts).map SearchItem.entry = ssts.flatMap SST.entries
  := by
  rw [itemsOf, List.map_flatMap]
  congr 1
  funext sst
  rw [List.map_map]
  exact List.map_id _

theorem mem_itemsOf {ssts : List SST} {a : SearchItem} (h : a ∈ itemsOf ssts) :
  ∃ sst ∈ ssts, ∃ e ∈ sst.entries, itemFor sst e = a
  := by
  obtain ⟨sst, hsst, ha⟩ := List.mem_flatMap.mp h
  obtain ⟨e, he, ha⟩ := List.mem_map.mp ha
  exact ⟨sst, hsst, e, he, ha⟩

theorem eq_itemFor {it it' : SstIterator} {item : SearchItem} {sst : SST}
    (hsst : it.sst = some sst) (h : it.searchItem = .ok (item, it')) :
  item = itemFor sst item.entry
  := by
  rw [searchItem, hsst] at h
  obtain ⟨⟨key, it₁⟩, -, h⟩ := Except.exists_of_bind_eq_ok h
  obtain ⟨⟨value, it₂⟩, -, h⟩ := Except.exists_of_bind_eq_ok h
  rw [← (Prod.mk.inj (Except.ok.inj h)).1]
  rfl

theorem next_sst {it it' : SstIterator} (h : it.next = .ok it') : it'.sst = it.sst
  := by
  rw [next] at h
  split at h
  next => rw [← Except.ok.inj h]
  next => cases h
  next blockIt sst hblockIt hsst =>
    split at h
    · split at h
      · obtain ⟨block, -, h⟩ := Except.exists_of_bind_eq_ok h
        rw [← Except.ok.inj h]
      · rw [← Except.ok.inj h]
    · rw [← Except.ok.inj h]

theorem begin_sst {sst : SST} {trancId : TrancId} {keepAllVersions : Bool} {it : SstIterator}
    (h : sst.begin trancId keepAllVersions = .ok it) :
  it.sst = some sst
  := by
  rw [SST.begin, atFirst, seekFirst] at h
  dsimp only at h
  split at h
  next => rw [← Except.ok.inj h]
  next =>
    obtain ⟨block, -, h⟩ := Except.exists_of_bind_eq_ok h
    rw [← Except.ok.inj h]

/-- Emplacing the rest of an iterator over a table emplaces the items of its entries. -/
theorem emplaceRest_eq {sst : SST} {es : List Entry} {it : SstIterator} {heap : HeapIterator}
    (hshows : it.Shows es) (hsst : it.sst = some sst) {fuel : ℕ} (hfuel : es.length < fuel) :
  emplaceRest fuel it heap = .ok ((es.map (itemFor sst)).foldl HeapIterator.emplace heap)
  := by
  induction es generalizing it heap fuel with
  | nil =>
      have hend : it.isEnd = true := tracks_shows.isEnd_nil hshows
      obtain ⟨fuel, rfl⟩ := Nat.exists_eq_add_one.mpr hfuel
      rw [emplaceRest, hend, Bool.not_true, Bool.and_false, if_neg Bool.false_ne_true]
      rfl
  | cons e es ih =>
      cases hshows with
      | atEntry h =>
          obtain ⟨item, rfl, hitem⟩ := h.searchItem_eq
          obtain ⟨it', hnext, hshows'⟩ := h.fill.next_shows
          obtain ⟨fuel, rfl⟩ := Nat.exists_eq_add_one.mpr (Nat.zero_lt_of_lt hfuel)
          rw [emplaceRest, h.isEnd_eq, h.isValid_eq, Bool.not_false, Bool.and_self, if_pos rfl,
            Except.bind_eq_of_ok _ hitem]
          dsimp only
          rw [Except.bind_eq_of_ok _ hnext, List.map_cons, List.foldl_cons,
            ← eq_itemFor hsst hitem]
          apply ih hshows' ((next_sst hnext).trans hsst) (Nat.lt_of_succ_lt_succ hfuel)

/-- Merging iterators at the start of tables emplaces the items of their entries. -/
theorem foldlM_emplaceRest_eq {its : List SstIterator} {ssts : List SST}
    (hits : List.Forall₂ (fun it sst => it.Shows sst.entries ∧ it.sst = some sst) its ssts)
    {heap : HeapIterator} {fuel : ℕ} (hfuel : ∀ sst ∈ ssts, sst.entries.length < fuel) :
  its.foldlM (fun heap it => emplaceRest fuel it heap) heap =
    .ok ((itemsOf ssts).foldl HeapIterator.emplace heap)
  := by
  induction hits generalizing heap with
  | nil => rfl
  | @cons it sst its ssts hit _ ih =>
      rw [List.foldlM_cons, Except.bind_eq_of_ok _
        (emplaceRest_eq hit.1 hit.2 (hfuel sst List.mem_cons_self)), itemsOf, List.flatMap_cons,
        List.foldl_append]
      apply ih (fun sst' h => hfuel sst' (List.mem_cons_of_mem sst h))

end SstIterator

/-- Tables of level 0, the newest first: their numbers descend, and fit `int`. -/
structure NewestTablesFirst (l0 : List SST) : Prop where
  sstIds : l0.Pairwise (fun sst sst' => sst'.sstId < sst.sstId)
  fits : ∀ sst ∈ l0, sst.sstId ≤ 2 ^ 31

/-- The items of tables whose versions of a key are newer in a newer table are ordered by the
comparison of items. -/
theorem NewestTablesFirst.oneLevel {l0 : List SST} (h : NewestTablesFirst l0)
    (hdesc : Descends (l0.flatMap SST.entries)) :
  OneLevel (SstIterator.itemsOf l0)
  := by
  obtain ⟨-, hcross⟩ := List.pairwise_flatMap.mp hdesc
  -- whichever of two tables is the newer one, a smaller number goes with smaller ids
  have hnewer : ∀ sst ∈ l0, ∀ sst' ∈ l0, sst.sstId < sst'.sstId →
      ∀ e ∈ sst.entries, ∀ e' ∈ sst'.entries, e.key = e'.key → e.trancId < e'.trancId := by
    apply List.Pairwise.forall_of_forall_of_flip
    · intro sst _ hlt
      exact absurd hlt (lt_irrefl sst.sstId)
    · apply h.sstIds.imp
      intro sst sst' hgt hlt
      exact absurd hlt hgt.asymm
    · apply hcross.imp
      intro sst sst' hids _ e he e' he' hkey
      exact hids e' he' e he hkey.symm
  constructor
  · have hids := hdesc.nodup_ids
    rwa [← SstIterator.map_entry_itemsOf, List.map_map] at hids
  · intro a ha b hb
    obtain ⟨sst, -, e, -, rfl⟩ := SstIterator.mem_itemsOf ha
    obtain ⟨sst', -, e', -, rfl⟩ := SstIterator.mem_itemsOf hb
    rfl
  · intro a ha b hb hkey hid
    obtain ⟨sst, hsst, e, he, rfl⟩ := SstIterator.mem_itemsOf ha
    obtain ⟨sst', hsst', e', he', rfl⟩ := SstIterator.mem_itemsOf hb
    have hle : sst'.sstId ≤ sst.sstId := by
      by_contra hlt
      exact absurd (hnewer sst hsst sst' hsst' (not_le.mp hlt) e he e' he' hkey) hid.asymm
    have hfits := h.fits sst hsst
    have hfits' := h.fits sst' hsst'
    rw [SstIterator.itemFor, SstIterator.itemFor, Int.bmod_def, Int.bmod_def]
    dsimp only
    split <;> split <;> omega

/-- Merging the tables of level 0 gives an iterator that shows their entries in the order of
versions. -/
theorem NewestTablesFirst.mergeSstIterator_shows {l0 : List SST} (h : NewestTablesFirst l0)
    (hdesc : Descends (l0.flatMap SST.entries)) {its : List SstIterator}
    (hits : List.Forall₂ (fun it sst => it.Shows sst.entries ∧ it.sst = some sst) its l0) :
  ∃ heap es, heap.Shows es ∧ es.Perm (l0.flatMap SST.entries) ∧ Versioned es ∧
    ∀ fuel, (∀ sst ∈ l0, sst.entries.length < fuel) →
      SstIterator.mergeSstIterator fuel its 0 true = .ok heap
  := by
  cases hits with
  | nil =>
      refine ⟨{}, [], ⟨.inl rfl, [], rfl, rfl⟩, .nil, .nil, ?_⟩
      intro fuel _
      rfl
  | @cons it sst its ssts hit hits =>
      have hone := h.oneLevel hdesc
      obtain ⟨ordered, hdel, hperm, hpairwise⟩ := BinaryHeap.exists_delivers_foldl_push
        (fun _ _ => SearchItem.versionLe_of_versionGt)
        (fun _ _ => SearchItem.versionLe_of_not_versionGt) hone.gt_eq_versionGt
      refine ⟨(SstIterator.itemsOf (sst :: ssts)).foldl HeapIterator.emplace
          { skipDelete := false, keepAllVersions := true },
        ordered.map SearchItem.entry, ⟨.inr ?_, ordered, ?_, rfl⟩, ?_,
        List.pairwise_map.mpr hpairwise, ?_⟩
      · rw [HeapIterator.foldl_emplace]
        exact ⟨rfl, rfl, rfl⟩
      · rw [HeapIterator.foldl_emplace]
        exact hdel
      · rw [← SstIterator.map_entry_itemsOf]
        apply hperm.map
      · intro fuel hfuel
        rw [SstIterator.mergeSstIterator, if_neg (List.cons_ne_nil it its)]
        exact SstIterator.foldlM_emplaceRest_eq (.cons hit hits) hfuel

/-- The iterators at the start of well-formed tables show the entries of the tables they are
over. -/
theorem mapM_begin_shows_sst {ssts : List SST} (h : ∀ sst ∈ ssts, sst.WellFormed) :
  ∃ its, ssts.mapM (fun sst => sst.begin 0 true) = .ok its ∧
    List.Forall₂ (fun it sst => SstIterator.Shows it sst.entries ∧ it.sst = some sst) its ssts
  := by
  induction ssts with
  | nil => exact ⟨[], rfl, .nil⟩
  | cons sst ssts ih =>
      obtain ⟨it, hbegin, hshows⟩ := SstIterator.begin_shows (h sst List.mem_cons_self)
      obtain ⟨its, hmap, hall⟩ := ih (fun sst' h' => h sst' (List.mem_cons_of_mem sst h'))
      refine ⟨it :: its, ?_, .cons ⟨hshows, SstIterator.begin_sst hbegin⟩ hall⟩
      rw [List.mapM_cons, Except.bind_eq_of_ok _ hbegin, Except.bind_eq_of_ok _ hmap]
      rfl

/-! ### Compactions -/

/-- The merge of two iterators, for no transaction and with all versions, delivers the merge of
what they show. -/
theorem ofIterators_drain {α β : Type} [BaseIterator α] [BaseIterator β]
    {R : α → List Entry → Prop} {S : β → List Entry → Prop}
    (hR : (BaseIterator.cursor α).Tracks R) (hS : (BaseIterator.cursor β).Tracks S) {a : α} {b : β}
    {xs ys : List Entry} (ha : R a xs) (hb : S b ys) {fuel : ℕ}
    (hfuel : (xs ++ ys).length < fuel) :
  (TwoMergeIterator.ofIterators fuel a b 0 true >>= BaseIterator.drain fuel) =
    .ok (xs.merge ys TwoMergeIterator.takesLeft)
  := by
  obtain ⟨it, hit, hshows⟩ := TwoMergeIterator.ofIterators_shows hR hS fuel ha hb
  rw [Except.bind_eq_of_ok _ hit]
  apply Cursor.drain_of_tracks (TwoMergeIterator.tracks_shows hR hS) _ hshows
  rwa [(List.merge_perm_append TwoMergeIterator.takesLeft).length_eq]

/-- What a compaction of the first two levels reads is in the order of a table, and every query
finds in it what it finds in the tables, those of level 0 from the newest on and then those of
level 1. -/
theorem compactionInput_compacted {l0 l1 : List SST} (h0 : ∀ sst ∈ l0, sst.WellFormed)
    (h1 : ∀ sst ∈ l1, sst.WellFormed) (hnewest : NewestTablesFirst l0) (hasc : Ascending l1)
    (hdesc : Descends ((l0 ++ l1).flatMap SST.entries)) :
  ∃ out, Compacted ((l0 ++ l1).flatMap SST.entries) out ∧
    ∃ bound, ∀ fuel ≥ bound,
      (compactionInput fuel l0 l1 >>= BaseIterator.drain fuel) = .ok out
  := by
  obtain ⟨its, hmap, hits⟩ := mapM_begin_shows_sst h0
  obtain ⟨l1Iter, hof, hl1⟩ := ConcactIterator.ofSsts_shows h1
  have hsplit := hdesc
  rw [List.flatMap_append] at hsplit
  obtain ⟨hdesc0, hdesc1⟩ := hsplit.of_append
  obtain ⟨heap, es, hheap, hperm, hversioned, hmerge⟩ := hnewest.mergeSstIterator_shows hdesc0 hits
  have hall : (es ++ l1.flatMap SST.entries).Perm ((l0 ++ l1).flatMap SST.entries) := by
    rw [List.flatMap_append]
    exact hperm.append_right _
  refine ⟨_, compacted_merge hversioned (hdesc1.versioned h1 hasc) hall hdesc,
    ((l0 ++ l1).flatMap SST.entries).length + 1, ?_⟩
  intro fuel hfuel
  have hlong : ∀ sst ∈ l0, sst.entries.length < fuel := by
    intro sst hsst
    have hle := length_le_length_flatten (List.mem_map_of_mem hsst : sst.entries ∈ _)
    rw [List.flatMap_append, List.length_append] at hfuel
    rw [← List.flatMap_def] at hle
    omega
  rw [compactionInput, Except.bind_eq_of_ok _ hmap, Except.bind_eq_of_ok _ (hmerge fuel hlong),
    Except.bind_eq_of_ok _ hof]
  apply ofIterators_drain HeapIterator.tracks_shows ConcactIterator.tracks_shows hheap hl1
  rw [hall.length_eq]
  exact hfuel

/- The newer table may have the version with the smaller id, as when transactions commit in another
order than they have begun.  A query finds this version before a compaction and the other one after
it. -/
example :
  let l0 : List SST :=
    [{ sstId := 2, blocks := [⟨[⟨[1], [7], 1⟩]⟩] }, { sstId := 1, blocks := [⟨[⟨[1], [8], 2⟩]⟩] }]
  latest [1] 0 (l0.flatMap SST.entries) = some ⟨[1], [7], 1⟩ ∧
    (compactionInput 3 l0 [] >>= BaseIterator.drain 3) = .ok [⟨[1], [8], 2⟩, ⟨[1], [7], 1⟩]
  := by decide

/-- The iterator a compaction of the tables `lx` of a level and `ly` of the next one reads, below
level 0. -/
def commonCompactionInput (fuel : ℕ) (lx ly : List SST) :
    Except Fault (TwoMergeIterator ConcactIterator ConcactIterator) := do
  let lxIter ← ConcactIterator.ofSsts lx 0 true
  let lyIter ← ConcactIterator.ofSsts ly 0 true
  TwoMergeIterator.ofIterators fuel lxIter lyIter 0 true

/-- So is what a compaction of two deeper levels reads. -/
theorem commonCompactionInput_compacted {lx ly : List SST} (hx : ∀ sst ∈ lx, sst.WellFormed)
    (hy : ∀ sst ∈ ly, sst.WellFormed) (hascx : Ascending lx) (hascy : Ascending ly)
    (hdesc : Descends ((lx ++ ly).flatMap SST.entries)) :
  ∃ out, Compacted ((lx ++ ly).flatMap SST.entries) out ∧
    ∃ bound, ∀ fuel ≥ bound,
      (commonCompactionInput fuel lx ly >>= BaseIterator.drain fuel) = .ok out
  := by
  obtain ⟨lxIter, hofx, hlx⟩ := ConcactIterator.ofSsts_shows hx
  obtain ⟨lyIter, hofy, hly⟩ := ConcactIterator.ofSsts_shows hy
  rw [List.flatMap_append] at hdesc ⊢
  obtain ⟨hdescx, hdescy⟩ := hdesc.of_append
  refine ⟨_, compacted_merge (hdescx.versioned hx hascx) (hdescy.versioned hy hascy) (.refl _)
    hdesc, (lx.flatMap SST.entries ++ ly.flatMap SST.entries).length + 1, ?_⟩
  intro fuel hfuel
  rw [commonCompactionInput, Except.bind_eq_of_ok _ hofx, Except.bind_eq_of_ok _ hofy]
  exact ofIterators_drain ConcactIterator.tracks_shows ConcactIterator.tracks_shows hlx hly hfuel

end TinyLsm
