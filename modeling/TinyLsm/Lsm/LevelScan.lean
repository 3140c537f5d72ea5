import TinyLsm.Lsm.LevelTables

/-!
# A full scan over the levels

A full scan should show the newest version of each key, unless it is a deletion mark.  But the
heap over level 0 drops the deletion marks on its own, before the deeper levels are asked, and what
a mark has deleted there comes up again.  The scan is right just when no deletion mark that is
newest in level 0 has a live version below it.

The heap orders the versions of a key in level 0 by the numbers of their tables alone, negated in
`int`.  The newest version comes first as long as the numbers do not exceed `2 ^ 31`.
-/

namespace TinyLsm

/-! ### The newest versions of a table -/

namespace SST

/-- The first entries of the runs of a table as it is built have increasing keys. -/
theorem Built.firsts_ascending {sst : SST} (h : sst.Built) :
  Keyed.Ascending Entry.key sst.firsts
  := by
  have hsorted := h.sorted
  rw [entries, entriesFrom, List.drop_zero, List.pairwise_flatMap] at hsorted
  rw [firsts, firstsFrom, List.drop_zero]
  apply List.pairwise_flatMap.mpr
  constructor
  · intro block hblock
    apply Keyed.Sorted.firsts (hsorted.1 block hblock)
  · apply (hsorted.2.and h.oneBlock).imp
    rintro block block' ⟨hle, hne⟩ e he e' he'
    have hmem := (Keyed.firsts_sublist block.entries).subset he
    have hmem' := (Keyed.firsts_sublist block'.entries).subset he'
    apply lt_of_le_of_ne (hle e hmem e' hmem') (hne e hmem e' hmem')

/-- The first entry of a key in a table is the newest version of the key there. -/
theorem Built.trancId_le_of_mem_firsts {sst : SST} (h : sst.Built) {e : Entry}
    (he : e ∈ sst.firsts) {e' : Entry} (he' : e' ∈ sst.entries) (hkey : e'.key = e.key) :
  e'.trancId ≤ e.trancId
  := by
  have hfirst := (h.firsts_ascending.mem_iff e).mp he
  rw [firstOf_firsts] at hfirst
  have hpairwise : sst.entries.Pairwise (fun b c => b.key = c.key → c.trancId < b.trancId) := by
    apply h.ordered.imp
    rintro b c (hlt | ⟨-, hid⟩) hbc
    · exact absurd hbc hlt.ne
    · apply hid
  rcases Keyed.firstOf_related hpairwise hfirst e' he' hkey with rfl | hlt
  · apply le_refl
  · apply le_of_lt hlt

/-- Versions of a key in a table that have the same id are the same. -/
theorem Built.eq_of_trancId_eq {sst : SST} (h : sst.Built) {e e' : Entry} (he : e ∈ sst.entries)
    (he' : e' ∈ sst.entries) (hkey : e.key = e'.key) (hid : e.trancId = e'.trancId) :
  e = e'
  := by
  have hne : ∀ b c : Entry, b.key < c.key ∨ b.key = c.key ∧ c.trancId < b.trancId →
      ¬ (b.key = c.key ∧ b.trancId = c.trancId) := by
    rintro b c (hlt | ⟨-, hlt⟩) ⟨hkey', hid'⟩
    · apply hlt.ne hkey'
    · apply hlt.ne' hid'
  have hall := List.Pairwise.forall_of_forall_of_flip
    (R := fun b c => b.key = c.key ∧ b.trancId = c.trancId → b = c)
    (fun _ _ _ => rfl) (h.ordered.imp (fun hbc hsame => absurd hsame (hne _ _ hbc)))
    (h.ordered.imp (fun hbc hsame => absurd ⟨hsame.1.symm, hsame.2.symm⟩ (hne _ _ hbc)))
  apply hall he he' ⟨hkey, hid⟩

end SST

namespace LevelTables

section

variable {engine : LevelTables} (h : engine.Layered)

include h

/-- A table of a level is the one its number stands for. -/
theorem Layered.ssts_sstId {level : ℕ} {sst : SST} (hsst : sst ∈ engine.tablesAt level) :
  engine.ssts sst.sstId = some sst
  := by
  obtain ⟨sstId, hid, hfound⟩ := List.mem_filterMap.mp hsst
  obtain ⟨sst', hsst', rfl⟩ := h.found level sstId hid
  obtain rfl := Option.some.inj (hfound.symm.trans hsst')
  apply hfound

theorem Layered.eq_of_sstId_eq {level : ℕ} {sst sst' : SST} (hsst : sst ∈ engine.tablesAt level)
    (hsst' : sst' ∈ engine.tablesAt level) (hid : sst.sstId = sst'.sstId) :
  sst = sst'
  := by
  have hfound := h.ssts_sstId hsst
  rw [hid, h.ssts_sstId hsst'] at hfound
  exact (Option.some.inj hfound).symm

/-- Versions of a key in a level that have the same id are the same. -/
theorem Layered.eq_of_trancId_eq {level : ℕ} {e e' : Entry} (he : e ∈ engine.storedAt level)
    (he' : e' ∈ engine.storedAt level) (hkey : e.key = e'.key) (hid : e.trancId = e'.trancId) :
  e = e'
  := by
  obtain ⟨sst, hsst, he⟩ := he
  obtain ⟨sst', hsst', he'⟩ := he'
  have hsame : sst = sst' := by
    rcases Nat.eq_zero_or_pos level with rfl | hpos
    · rcases lt_trichotomy sst.sstId sst'.sstId with hlt | heq | hgt
      · exact absurd hid (h.newer sst hsst sst' hsst' hlt e he e' he' hkey).ne
      · apply h.eq_of_sstId_eq hsst hsst' heq
      · exact absurd hid.symm (h.newer sst' hsst' sst hsst hgt e' he' e he hkey.symm).ne
    · have hdisjoint := h.disjoint level hpos.ne'
      have hall := List.Pairwise.forall_of_forall_of_flip
        (R := fun sst sst' => (∃ e ∈ sst.entries, ∃ e' ∈ sst'.entries, e.key = e'.key) → sst = sst')
        (fun _ _ _ => rfl)
        (hdisjoint.imp (fun hlt ⟨b, hb, c, hc, hbc⟩ => absurd hbc (hlt b hb c hc).ne))
        (hdisjoint.imp (fun hlt ⟨b, hb, c, hc, hbc⟩ => absurd hbc (hlt c hc b hb).ne'))
      apply hall hsst hsst' ⟨e, he, e', he', hkey⟩
  subst hsame
  apply (h.built level sst hsst).eq_of_trancId_eq he he' hkey hid

/-! ### The newest versions of level 0 -/

omit h in
/-- Every key stored in level 0 has a newest version there. -/
theorem exists_newest_storedAt {e : Entry} (he : e ∈ engine.storedAt 0) :
  ∃ e', Newest (engine.storedAt 0) e' ∧ e'.key = e.key
  := by
  let versions : Finset Entry :=
    ((engine.tablesAt 0).flatMap SST.entries).toFinset.filter (fun e' => e'.key = e.key)
  have hmem : ∀ e', e' ∈ versions ↔ e' ∈ engine.storedAt 0 ∧ e'.key = e.key := by
    intro e'
    rw [Finset.mem_filter, List.mem_toFinset, List.mem_flatMap]
    rfl
  obtain ⟨e', he', hmax⟩ := versions.exists_max_image Entry.trancId ⟨e, (hmem e).mpr ⟨he, rfl⟩⟩
  obtain ⟨hstored, hkey⟩ := (hmem e').mp he'
  refine ⟨e', ⟨hstored, ?_⟩, hkey⟩
  intro e'' he'' hkey'
  apply hmax e'' ((hmem e'').mpr ⟨he'', hkey'.trans hkey⟩)

/-- The first of the items of a key that the heap over level 0 delivers is the newest version of
the key in level 0. -/
theorem Layered.exists_newest_of_firstOf (hidx : engine.NewestFirst)
    {ordered : List SearchItem} (hperm : ordered.Perm (itemsOf (engine.tablesAt 0)))
    (hordered : ordered.Pairwise SearchItem.IndexLe) {key : Bytes} {item : SearchItem}
    (hfirst : Keyed.firstOf SearchItem.key key ordered = some item) :
  ∃ e, Newest (engine.storedAt 0) e ∧ e.key = key ∧ e.value = item.value
  := by
  obtain ⟨hitem, hitemKey⟩ := Keyed.firstOf_eq_some hfirst
  obtain ⟨sst, hsst, e, he, rfl⟩ := mem_itemsOf.mp (hperm.mem_iff.mp hitem)
  have hkey : e.key = key := hitemKey
  have hmem := sst.firsts_sublist.subset he
  obtain ⟨newest, hnewest, hnewestKey⟩ := exists_newest_storedAt ⟨sst, hsst, hmem⟩
  obtain ⟨sst', hsst', hmem'⟩ := hnewest.1
  by_cases hid : sst.sstId = sst'.sstId
  · obtain rfl := h.eq_of_sstId_eq hsst hsst' hid
    have hle := (h.built 0 sst hsst).trancId_le_of_mem_firsts he hmem' hnewestKey
    have hge := hnewest.2 e ⟨sst, hsst, hmem⟩ hnewestKey.symm
    obtain rfl := (h.built 0 sst hsst).eq_of_trancId_eq hmem' hmem hnewestKey (le_antisymm hle hge)
    exact ⟨newest, hnewest, hkey, rfl⟩
  · -- the table with the newest version has an item of the key, whose index is less
    obtain ⟨e', hfirst'⟩ : ∃ e', Keyed.firstOf Entry.key key sst'.firsts = some e' := by
      apply Option.ne_none_iff_exists'.mp
      rw [SST.firstOf_firsts, Ne, Keyed.firstOf_eq_none]
      exact fun hnone => hnone newest hmem' (hnewestKey.trans hkey)
    obtain ⟨he', hkey'⟩ := Keyed.firstOf_eq_some hfirst'
    have hitem' : itemOf sst'.sstId e'.pair ∈ ordered :=
      hperm.mem_iff.mpr (mem_itemsOf.mpr ⟨sst', hsst', e', he', rfl⟩)
    have hle := HeapIterator.idx_le_of_firstOf hordered hfirst _ hitem' hkey'
    have hlt := hidx sst' hsst' newest hmem' hnewest sst hsst hid ⟨e, hmem, hnewestKey.symm⟩
    exact absurd hle (not_le_of_gt hlt)

omit h in
/-- A key of which the heap over level 0 delivers no item is not stored in level 0. -/
theorem not_mem_storedAt_of_firstOf {ordered : List SearchItem}
    (hperm : ordered.Perm (itemsOf (engine.tablesAt 0))) {key : Bytes}
    (hnone : Keyed.firstOf SearchItem.key key ordered = none) :
  ∀ e ∈ engine.storedAt 0, e.key ≠ key
  := by
  rintro e ⟨sst, hsst, he⟩ hkey
  have hfirst : Keyed.firstOf Entry.key key sst.firsts = none := by
    apply Keyed.firstOf_eq_none.mpr
    intro e' he'
    have hitem := hperm.mem_iff.mpr (mem_itemsOf.mpr ⟨sst, hsst, e', he', rfl⟩)
    apply Keyed.firstOf_eq_none.mp hnone _ hitem
  rw [SST.firstOf_firsts] at hfirst
  apply Keyed.firstOf_eq_none.mp hfirst e he hkey

/-! ### The newest versions below level 0 -/

/-- The versions stored below level 0, level by level. -/
def entriesBelow (engine : LevelTables) : List Entry :=
  engine.deeper.flatMap (fun level => (engine.tablesAt level).flatMap SST.entries)

omit h in
/-- The first version of a key below level 0 is the first of the first entries of the runs. -/
theorem firstOf_firstsBelow (engine : LevelTables) (key : Bytes) :
  Keyed.firstOf Entry.key key engine.firstsBelow.flatten =
    Keyed.firstOf Entry.key key engine.entriesBelow
  := by
  rw [firstsBelow, ← List.flatMap_def]
  apply Keyed.firstOf_flatMap
  intro level
  apply Keyed.firstOf_flatMap
  intro sst
  apply SST.firstOf_firsts

omit h in
/-- A level with tables is one of the levels. -/
theorem mem_levels_of_mem_tablesAt {level : ℕ} {sst : SST} (hsst : sst ∈ engine.tablesAt level) :
  level ∈ engine.levelSstIds.map Prod.fst
  := by
  rw [tablesAt, sstIdsAt] at hsst
  cases hlookup : engine.levelSstIds.lookup level with
  | none =>
      rw [hlookup] at hsst
      cases hsst
  | some sstIds =>
      obtain ⟨before, after, hsplit, -⟩ := List.lookup_eq_some_iff.mp hlookup
      rw [hsplit]
      simp

omit h in
theorem mem_entriesBelow {e : Entry} : e ∈ engine.entriesBelow ↔ e ∈ engine.storedBelow
  := by
  constructor
  · intro he
    obtain ⟨level, hlevel, he⟩ := List.mem_flatMap.mp he
    obtain ⟨sst, hsst, he⟩ := List.mem_flatMap.mp he
    exact ⟨level, of_decide_eq_true (List.mem_filter.mp hlevel).2, sst, hsst, he⟩
  · rintro ⟨level, hne, sst, hsst, he⟩
    apply List.mem_flatMap.mpr
    refine ⟨level, ?_, List.mem_flatMap.mpr ⟨sst, hsst, he⟩⟩
    apply List.mem_filter.mpr ⟨mem_levels_of_mem_tablesAt hsst, decide_eq_true hne⟩

/-- Below level 0, the newer versions of a key come first. -/
theorem Layered.entriesBelow_pairwise :
  engine.entriesBelow.Pairwise (fun e e' => e.key = e'.key → e'.trancId < e.trancId)
  := by
  apply List.pairwise_flatMap.mpr
  constructor
  · intro level hlevel
    have hne : level ≠ 0 := of_decide_eq_true (List.mem_filter.mp hlevel).2
    apply List.pairwise_flatMap.mpr
    constructor
    · intro sst hsst
      apply (h.built level sst hsst).ordered.imp
      rintro e e' (hlt | ⟨-, hid⟩) hkey
      · exact absurd hkey hlt.ne
      · apply hid
    · apply (h.disjoint level hne).imp
      intro sst sst' hlt e he e' he' hkey
      exact absurd hkey (hlt e he e' he').ne
  · apply (engine.ascending.filter _).imp
    intro level level' hlt e he e' he' hkey
    obtain ⟨sst, hsst, he⟩ := List.mem_flatMap.mp he
    obtain ⟨sst', hsst', he'⟩ := List.mem_flatMap.mp he'
    apply h.shallower level level' hlt e ⟨sst, hsst, he⟩ e' ⟨sst', hsst', he'⟩ hkey

/-- The first version of a key below level 0 is the newest. -/
theorem Layered.newest_of_firstOf {key : Bytes} {e : Entry}
    (hfirst : Keyed.firstOf Entry.key key engine.entriesBelow = some e) :
  Newest engine.storedBelow e ∧ e.key = key
  := by
  obtain ⟨he, hkey⟩ := Keyed.firstOf_eq_some hfirst
  refine ⟨⟨mem_entriesBelow.mp he, ?_⟩, hkey⟩
  intro e' he' hkey'
  rcases Keyed.firstOf_related h.entriesBelow_pairwise hfirst e' (mem_entriesBelow.mpr he')
    (hkey'.trans hkey) with rfl | hlt
  · apply le_refl
  · apply le_of_lt hlt

/-! ### The newest versions of all levels -/

omit h in
/-- A version stored in level 0 or below it is stored. -/
theorem mem_stored_iff {e : Entry} :
  e ∈ engine.stored ↔ e ∈ engine.storedAt 0 ∨ e ∈ engine.storedBelow
  := by
  constructor
  · rintro ⟨level, he⟩
    by_cases hlevel : level = 0
    · subst hlevel
      exact .inl he
    · exact .inr ⟨level, hlevel, he⟩
  · rintro (he | ⟨level, -, he⟩)
    · exact ⟨0, he⟩
    · exact ⟨level, he⟩

/-- The newest version of a key is the newest in level 0, or, if level 0 does not have the key, the
newest below. -/
theorem Layered.newest_stored_iff {e : Entry} :
  Newest engine.stored e ↔ Newest (engine.storedAt 0) e ∨
    Newest engine.storedBelow e ∧ ∀ e' ∈ engine.storedAt 0, e'.key ≠ e.key
  := by
  constructor
  · rintro ⟨he, hnewest⟩
    rcases mem_stored_iff.mp he with he0 | hbelow
    · exact .inl ⟨he0, fun e' he' => hnewest e' (mem_stored_iff.mpr (.inl he'))⟩
    · refine .inr ⟨⟨hbelow, fun e' he' => hnewest e' (mem_stored_iff.mpr (.inr he'))⟩, ?_⟩
      intro e' he' hkey
      obtain ⟨level, hlevel, he⟩ := hbelow
      have hlt := h.shallower 0 level (Nat.pos_of_ne_zero hlevel) e' he' e he hkey
      exact absurd (hnewest e' (mem_stored_iff.mpr (.inl he')) hkey) (not_le_of_gt hlt)
  · rintro (⟨he, hnewest⟩ | ⟨⟨he, hnewest⟩, habsent⟩)
    · refine ⟨mem_stored_iff.mpr (.inl he), ?_⟩
      intro e' he' hkey
      rcases mem_stored_iff.mp he' with he' | ⟨level, hlevel, he'⟩
      · apply hnewest e' he' hkey
      · apply le_of_lt
          (h.shallower 0 level (Nat.pos_of_ne_zero hlevel) e he e' he' hkey.symm)
    · refine ⟨mem_stored_iff.mpr (.inr he), ?_⟩
      intro e' he' hkey
      rcases mem_stored_iff.mp he' with he' | he'
      · exact absurd hkey (habsent e' he')
      · apply hnewest e' he' hkey

/-- The newest version of a key in level 0 is determined by the key. -/
theorem Layered.newest_storedAt_unique {e e' : Entry} (he : Newest (engine.storedAt 0) e)
    (he' : Newest (engine.storedAt 0) e') (hkey : e.key = e'.key) :
  e = e'
  := by
  apply h.eq_of_trancId_eq he.1 he'.1 hkey
  apply le_antisymm (he'.2 e he.1 hkey) (he.2 e' he'.1 hkey.symm)

/-- The newest version of a key below level 0 is determined by the key. -/
theorem Layered.newest_storedBelow_unique {e e' : Entry} (he : Newest engine.storedBelow e)
    (he' : Newest engine.storedBelow e') (hkey : e.key = e'.key) :
  e = e'
  := by
  have hid : e.trancId = e'.trancId :=
    le_antisymm (he'.2 e he.1 hkey) (he.2 e' he'.1 hkey.symm)
  obtain ⟨level, -, hmem⟩ := he.1
  obtain ⟨level', -, hmem'⟩ := he'.1
  rcases lt_trichotomy level level' with hlt | rfl | hgt
  · exact absurd hid (h.shallower level level' hlt e hmem e' hmem' hkey).ne'
  · apply h.eq_of_trancId_eq hmem hmem' hkey hid
  · exact absurd hid (h.shallower level' level hgt e' hmem' e hmem hkey.symm).ne

/-! ### What a scan shows -/

/-- The heap over level 0 shows the newest version of a key there, unless it is a deletion mark. -/
theorem Layered.firstOf_livePairs_cases (hidx : engine.NewestFirst)
    {ordered : List SearchItem} (hperm : ordered.Perm (itemsOf (engine.tablesAt 0)))
    (hordered : ordered.Pairwise SearchItem.IndexLe) (key : Bytes) :
  (Keyed.firstOf Prod.fst key (HeapIterator.livePairs ordered) = none ∧
      ∀ e, Newest (engine.storedAt 0) e → e.key = key → e.value = []) ∨
    ∃ e, Newest (engine.storedAt 0) e ∧ e.key = key ∧ e.value ≠ [] ∧
      Keyed.firstOf Prod.fst key (HeapIterator.livePairs ordered) = some (key, e.value)
  := by
  rw [HeapIterator.firstOf_livePairs hordered]
  cases hfirst : Keyed.firstOf SearchItem.key key ordered with
  | none =>
      refine .inl ⟨rfl, ?_⟩
      intro e he hkey
      exact absurd hkey (not_mem_storedAt_of_firstOf hperm hfirst e he.1)
  | some item =>
      obtain ⟨e, he, hkey, hvalue⟩ := h.exists_newest_of_firstOf hidx hperm hordered hfirst
      by_cases hlive : item.value = []
      · have hdead : item.live = false := by
          rw [SearchItem.live, hlive]
          rfl
        refine .inl ⟨by rw [Option.filter_some, hdead]; rfl, ?_⟩
        intro e' he' hkey'
        obtain rfl := h.newest_storedAt_unique he he' (hkey.trans hkey'.symm)
        apply hvalue.trans hlive
      · refine .inr ⟨e, he, hkey, fun hnil => hlive (hvalue.symm.trans hnil), ?_⟩
        rw [Option.filter_some, if_pos (SearchItem.live_iff.mpr hlive), hvalue,
          ← (Keyed.firstOf_eq_some hfirst).2]
        rfl

/-- The deeper levels show the newest version of a key below level 0. -/
theorem Layered.firstOf_firstsBelow_cases (key : Bytes) :
  (Keyed.firstOf Prod.fst key (engine.firstsBelow.flatten.map Entry.pair) = none ∧
      ∀ e ∈ engine.storedBelow, e.key ≠ key) ∨
    ∃ e, Newest engine.storedBelow e ∧ e.key = key ∧
      Keyed.firstOf Prod.fst key (engine.firstsBelow.flatten.map Entry.pair) =
        some (key, e.value)
  := by
  rw [@Keyed.firstOf_map _ _ _ Entry.key _ Prod.fst Entry.pair (fun _ => rfl),
    firstOf_firstsBelow]
  cases hfirst : Keyed.firstOf Entry.key key engine.entriesBelow with
  | none =>
      refine .inl ⟨rfl, ?_⟩
      intro e he
      apply Keyed.firstOf_eq_none.mp hfirst e (mem_entriesBelow.mpr he)
  | some e =>
      obtain ⟨he, hkey⟩ := h.newest_of_firstOf hfirst
      exact .inr ⟨e, he, hkey, by rw [← hkey]; rfl⟩

/-- A scan ends, and shows, for each key, the newest version in level 0, if this is not a deletion
mark, and otherwise the newest version below level 0, if this is not one. -/
theorem Layered.exists_scan_mem_iff (hidx : engine.NewestFirst) :
  ∃ out : List (Bytes × Bytes), (∃ bound, ∀ rounds ≥ bound, engine.scan rounds 0 = .ok out) ∧
    out.Pairwise (fun p p' => p.1 < p'.1) ∧
    ∀ key value, (key, value) ∈ out ↔ value ≠ [] ∧
      ((∃ e, Newest (engine.storedAt 0) e ∧ e.key = key ∧ e.value = value) ∨
        (∃ e, Newest engine.storedBelow e ∧ e.key = key ∧ e.value = value) ∧
          ∀ e, Newest (engine.storedAt 0) e → e.key = key → e.value = [])
  := by
  obtain ⟨ordered, out, hperm, hordered, hsel, hscan⟩ := h.exists_scan
  refine ⟨out, hscan, hsel.ascending, ?_⟩
  intro key value
  apply (hsel.mem_iff (key, value)).trans
  apply and_congr_right
  intro hlive
  have hvalue : value ≠ [] := hlive
  rw [Keyed.firstOf_append]
  rcases h.firstOf_livePairs_cases hidx hperm hordered key with
    ⟨hfirst, hdead⟩ | ⟨e, he, hkey, hne, hfirst⟩
  · -- level 0 shows nothing for the key
    rw [hfirst, Option.none_or]
    have habsent : ¬ ∃ e, Newest (engine.storedAt 0) e ∧ e.key = key ∧ e.value = value := by
      rintro ⟨e, he, hkey, rfl⟩
      apply hvalue (hdead e he hkey)
    rw [or_iff_right habsent, and_iff_left hdead]
    rcases h.firstOf_firstsBelow_cases key with ⟨hbelow, hnone⟩ | ⟨e, he, hkey, hbelow⟩
    · rw [hbelow]
      constructor
      · rintro ⟨⟩
      · rintro ⟨e, he, hkey, -⟩
        exact absurd hkey (hnone e he.1)
    · rw [hbelow]
      constructor
      · intro hsome
        exact ⟨e, he, hkey, (Prod.mk.inj (Option.some.inj hsome)).2⟩
      · rintro ⟨e', he', hkey', rfl⟩
        rw [h.newest_storedBelow_unique he he' (hkey.trans hkey'.symm)]
  · -- level 0 shows its newest version of the key
    rw [hfirst, Option.some_or]
    have hshown : ¬ ∀ e, Newest (engine.storedAt 0) e → e.key = key → e.value = [] :=
      fun hdead => hne (hdead e he hkey)
    rw [or_iff_left (fun hbelow => hshown hbelow.2)]
    constructor
    · intro hsome
      exact ⟨e, he, hkey, (Prod.mk.inj (Option.some.inj hsome)).2⟩
    · rintro ⟨e', he', hkey', rfl⟩
      rw [h.newest_storedAt_unique he he' (hkey.trans hkey'.symm)]

/-- The newest versions of level 0 come first when the numbers of its tables are up to `2 ^ 31`. -/
theorem Layered.newestFirst_of_le (hle : ∀ sst ∈ engine.tablesAt 0, sst.sstId ≤ 2 ^ 31) :
  engine.NewestFirst
  := by
  intro sst hsst e he hnewest sst' hsst' hne ⟨e', he', hkey⟩
  have hidx : ∀ sstId : ℕ, sstId ≤ 2 ^ 31 → itemIdx sstId = -sstId := by
    intro sstId hid
    apply Int.bmod_eq_of_le
    · omega
    · omega
  rw [hidx _ (hle sst hsst), hidx _ (hle sst' hsst')]
  rcases Nat.lt_or_gt_of_ne hne with hlt | hgt
  · omega
  · have hnewer := h.newer sst hsst sst' hsst' hgt e he e' he' hkey.symm
    exact absurd (hnewest.2 e' ⟨sst', hsst', he'⟩ hkey) (not_le_of_gt hnewer)

end

/-- A full scan for no transaction ends.  It shows the newest versions that are not deletion marks
just when no deletion mark that is newest in level 0 has a live version below it. -/
theorem isScan_iff {engine : LevelTables} (h : engine.Layered) (hidx : engine.NewestFirst) :
  ∃ out, (∃ bound, ∀ rounds ≥ bound, engine.scan rounds 0 = .ok out) ∧
    (engine.IsScan out ↔ engine.NoneResurface)
  := by
  obtain ⟨out, hscan, hascending, hmem⟩ := h.exists_scan_mem_iff hidx
  refine ⟨out, hscan, ?_, ?_⟩
  · intro hisScan e he hdead e' he' hkey
    by_contra hlive
    have hshown : (e.key, e'.value) ∈ out := by
      apply (hmem _ _).mpr
      refine ⟨hlive, .inr ⟨⟨e', he', hkey, rfl⟩, ?_⟩⟩
      intro e₀ he₀ hkey₀
      rw [h.newest_storedAt_unique he₀ he hkey₀, hdead]
    obtain ⟨-, trancId, hnewest⟩ := (hisScan.mem_iff _ _).mp hshown
    rcases h.newest_stored_iff.mp hnewest with hnewest | ⟨-, habsent⟩
    · have hsame := h.newest_storedAt_unique he hnewest rfl
      rw [hsame] at hdead
      apply hlive hdead
    · apply habsent e he.1 rfl
  · intro hnone
    refine ⟨hascending, ?_⟩
    intro key value
    rw [hmem]
    apply and_congr_right
    intro hvalue
    constructor
    · rintro (⟨e, he, rfl, rfl⟩ | ⟨⟨e, he, rfl, rfl⟩, hdead⟩)
      · exact ⟨e.trancId, h.newest_stored_iff.mpr (.inl he)⟩
      · refine ⟨e.trancId, h.newest_stored_iff.mpr (.inr ⟨he, ?_⟩)⟩
        intro e₀ he₀ hkey
        obtain ⟨e₁, he₁, hkey₁⟩ := exists_newest_storedAt he₀
        have hkey' : e₁.key = e.key := hkey₁.trans hkey
        apply hvalue (hnone e₁ he₁ (hdead e₁ he₁ hkey') e he hkey'.symm)
    · rintro ⟨trancId, hnewest⟩
      rcases h.newest_stored_iff.mp hnewest with hnewest | ⟨hnewest, habsent⟩
      · exact .inl ⟨_, hnewest, rfl, rfl⟩
      · exact .inr ⟨⟨_, hnewest, rfl, rfl⟩, fun e he hkey => absurd hkey (habsent e he.1)⟩

/-- A key has a value in the table of level 1, and is written again in that of level 0. -/
def rewrittenInL0 (value : Bytes) : LevelTables where
  levelSstIds := [(0, [1]), (1, [0])]
  ssts
    | 0 => some { sstId := 0, blocks := [⟨[⟨[1], [7], 1⟩]⟩] }
    | 1 => some { sstId := 1, blocks := [⟨[⟨[1], value, 2⟩]⟩] }
    | _ => none
  ascending := by decide

section

variable {value : Bytes}

theorem mem_tablesAt_rewrittenInL0 {sst : SST} :
  ∀ {level : ℕ}, sst ∈ (rewrittenInL0 value).tablesAt level ↔
    level = 0 ∧ sst = { sstId := 1, blocks := [⟨[⟨[1], value, 2⟩]⟩] } ∨
      level = 1 ∧ sst = { sstId := 0, blocks := [⟨[⟨[1], [7], 1⟩]⟩] }
  | 0 => by simp [tablesAt, sstIdsAt, rewrittenInL0]
  | 1 => by simp [tablesAt, sstIdsAt, rewrittenInL0, List.lookup_cons]
  | level + 2 => by simp [tablesAt, sstIdsAt, rewrittenInL0, List.lookup_cons]

theorem mem_storedAt_rewrittenInL0 {level : ℕ} {e : Entry} :
  e ∈ (rewrittenInL0 value).storedAt level ↔
    level = 0 ∧ e = ⟨[1], value, 2⟩ ∨ level = 1 ∧ e = ⟨[1], [7], 1⟩
  := by
  constructor
  · rintro ⟨sst, hsst, he⟩
    rcases mem_tablesAt_rewrittenInL0.mp hsst with ⟨rfl, rfl⟩ | ⟨rfl, rfl⟩
    · exact .inl ⟨rfl, List.mem_singleton.mp he⟩
    · exact .inr ⟨rfl, List.mem_singleton.mp he⟩
  · rintro (⟨rfl, rfl⟩ | ⟨rfl, rfl⟩)
    · exact ⟨_, mem_tablesAt_rewrittenInL0.mpr (.inl ⟨rfl, rfl⟩), List.mem_singleton_self _⟩
    · exact ⟨_, mem_tablesAt_rewrittenInL0.mpr (.inr ⟨rfl, rfl⟩), List.mem_singleton_self _⟩

/-- A table with one version is as it is built. -/
theorem built_singleton (sstId : ℕ) (e : Entry) :
  SST.Built { sstId, blocks := [⟨[e]⟩] }
  where
  blocks_ne := List.cons_ne_nil _ _
  entries_ne := by simp
  sorted := List.pairwise_singleton _ e
  resolves e' _ := SST.resolveValue_inline rfl e'.value
  ordered := List.pairwise_singleton _ e
  oneBlock := List.pairwise_singleton _ _

theorem layered_rewrittenInL0 : (rewrittenInL0 value).Layered
  where
  memtable_empty := rfl
  found := by
    intro level sstId hid
    match level with
    | 0 =>
        obtain rfl := List.mem_singleton.mp hid
        exact ⟨_, rfl, rfl⟩
    | 1 =>
        obtain rfl := List.mem_singleton.mp hid
        exact ⟨_, rfl, rfl⟩
    | level + 2 => cases hid
  built := by
    intro level sst hsst
    rcases mem_tablesAt_rewrittenInL0.mp hsst with ⟨-, rfl⟩ | ⟨-, rfl⟩
    · apply built_singleton
    · apply built_singleton
  keys_ne := by
    intro level e he
    rcases mem_storedAt_rewrittenInL0.mp he with ⟨-, rfl⟩ | ⟨-, rfl⟩
    · apply List.cons_ne_nil
    · apply List.cons_ne_nil
  disjoint := by
    intro level hne
    match level with
    | 0 => exact absurd rfl hne
    | 1 => apply List.pairwise_singleton
    | level + 2 => apply List.Pairwise.nil
  newer := by
    intro sst hsst sst' hsst' hlt
    rcases mem_tablesAt_rewrittenInL0.mp hsst with ⟨-, rfl⟩ | ⟨hlevel, -⟩
    · rcases mem_tablesAt_rewrittenInL0.mp hsst' with ⟨-, rfl⟩ | ⟨hlevel, -⟩
      · exact absurd hlt (lt_irrefl _)
      · cases hlevel
    · cases hlevel
  shallower := by
    intro level level' hlt e he e' he' _
    rcases mem_storedAt_rewrittenInL0.mp he with ⟨rfl, rfl⟩ | ⟨rfl, rfl⟩
    · rcases mem_storedAt_rewrittenInL0.mp he' with ⟨rfl, -⟩ | ⟨-, rfl⟩
      · omega
      · exact Nat.one_lt_two
    · rcases mem_storedAt_rewrittenInL0.mp he' with ⟨rfl, -⟩ | ⟨rfl, -⟩
      · omega
      · omega

end

/-- The newest versions are shown where a value has replaced another. -/
theorem isScan_iff_rewrittenInL0 :
  ∃ out, (∃ bound, ∀ rounds ≥ bound, (rewrittenInL0 [8]).scan rounds 0 = .ok out) ∧
    (rewrittenInL0 [8]).IsScan out
  := by
  obtain ⟨out, hscan, hisScan⟩ := isScan_iff (@layered_rewrittenInL0 [8])
    (layered_rewrittenInL0.newestFirst_of_le (by decide))
  refine ⟨out, hscan, hisScan.mpr ?_⟩
  intro e he hdead
  rcases mem_storedAt_rewrittenInL0.mp he.1 with ⟨-, rfl⟩ | ⟨hlevel, -⟩
  · cases hdead
  · cases hlevel

/-- A scan may show a key whose newest version is a deletion mark. -/
theorem not_isScan_of_scan :
  ¬ ∀ (engine : LevelTables) (rounds : ℕ) (out : List (Bytes × Bytes)), engine.Layered →
    engine.scan rounds 0 = .ok out → engine.IsScan out
  := by
  intro hall
  have hscan : (rewrittenInL0 []).scan 8 0 = .ok [([1], [7])] := by decide
  have hisScan := hall (rewrittenInL0 []) 8 _ layered_rewrittenInL0 hscan
  obtain ⟨-, trancId, ⟨level, he⟩, hnewest⟩ := (hisScan.mem_iff [1] [7]).mp List.mem_cons_self
  have hdeleted : (⟨[1], [], 2⟩ : Entry) ∈ (rewrittenInL0 []).stored :=
    ⟨0, mem_storedAt_rewrittenInL0.mpr (.inl ⟨rfl, rfl⟩)⟩
  have hle := hnewest _ hdeleted rfl
  rcases mem_storedAt_rewrittenInL0.mp he with ⟨-, heq⟩ | ⟨-, heq⟩
  · cases heq
  · cases heq
    revert hle
    decide

end LevelTables

end TinyLsm
