import TinyLsm.Block.BlockScan
import TinyLsm.Sst.FirstVersions

/-!
# Scanning a table at a snapshot

As long as it is valid, the iterator of a transaction shows the newest visible version of each
key of a block, one block after the other.  At a block in which nothing is visible it is not
valid, so that a scan ends there.  A scan is complete if and only if what is visible is not
preceded by such a block.
-/

namespace TinyLsm

/-- A table with versions by their keys and ids, those of a key in one block, whose values
resolve to themselves. -/
structure SST.Versioned (sst : SST) : Prop where
  versioned : TinyLsm.Versioned sst.entries
  together : sst.blocks.Pairwise (fun b b' => ∀ e ∈ b.entries, ∀ e' ∈ b'.entries, e.key ≠ e'.key)
  resolves : ∀ e ∈ sst.entries, sst.resolveValue e.value = .ok e.value

/-- Something of a block is visible. -/
def Block.Shows (trancId : TrancId) (b : Block) : Prop := ∃ e ∈ b.entries, e.Visible trancId

instance (trancId : TrancId) (b : Block) : Decidable (b.Shows trancId) :=
  inferInstanceAs (Decidable (∃ e ∈ b.entries, e.Visible trancId))

/-- No block in which nothing is visible precedes one in which something is. -/
def SST.Unbroken (sst : SST) (trancId : TrancId) : Prop :=
  sst.blocks.Pairwise (fun b b' => b'.Shows trancId → b.Shows trancId)

instance (sst : SST) (trancId : TrancId) : Decidable (sst.Unbroken trancId) :=
  inferInstanceAs (Decidable (sst.blocks.Pairwise (fun b b' =>
    b'.Shows trancId → b.Shows trancId)))

/-! ### What a scan shows -/

/-- The first visible versions of the keys of a block. -/
def Block.visibleFirsts (trancId : TrancId) (b : Block) : List Entry :=
  Keyed.firsts Entry.key (visibleIn trancId b.entries)

/-- The first visible versions of blocks, up to a block in which nothing is visible. -/
def scanned (trancId : TrancId) : List Block → List Entry
  | [] => []
  | b :: bs =>
      if b.visibleFirsts trancId = [] then [] else b.visibleFirsts trancId ++ scanned trancId bs

theorem Block.visibleFirsts_eq_nil_iff {trancId : TrancId} {b : Block} :
  b.visibleFirsts trancId = [] ↔ ¬ b.Shows trancId
  := by
  rw [visibleFirsts, Keyed.firsts_eq_nil, visibleIn, List.filter_eq_nil_iff, Block.Shows]
  simp only [decide_eq_true_eq, not_exists, not_and]

/-- What is scanned is among the entries of the blocks. -/
theorem scanned_sublist (trancId : TrancId) :
  ∀ bs : List Block, (scanned trancId bs).Sublist (bs.flatMap Block.entries)
  | [] => List.Sublist.refl _
  | b :: bs => by
      rw [scanned, List.flatMap_cons]
      split
      next => apply List.nil_sublist
      next =>
        apply ((Keyed.firsts_sublist _).trans List.filter_sublist).append
        apply scanned_sublist trancId bs

/-- If nothing visible comes after a block in which nothing is, the newest visible versions are
scanned. -/
theorem newestVersions_scanned (trancId : TrancId) :
  ∀ {bs : List Block}, Versioned (bs.flatMap Block.entries) →
    bs.Pairwise (fun b b' => ∀ e ∈ b.entries, ∀ e' ∈ b'.entries, e.key ≠ e'.key) →
    bs.Pairwise (fun b b' => b'.Shows trancId → b.Shows trancId) →
    NewestVersions (visibleIn trancId (bs.flatMap Block.entries)) (scanned trancId bs)
  | [], _, _, _ => NewestVersions.nil
  | b :: bs, hversioned, htogether, hunbroken => by
      rw [List.flatMap_cons] at hversioned ⊢
      obtain ⟨hb, hbs, hcross⟩ := List.pairwise_append.mp hversioned
      obtain ⟨hapart, htogether⟩ := List.pairwise_cons.mp htogether
      obtain ⟨hfirst, hunbroken⟩ := List.pairwise_cons.mp hunbroken
      rw [scanned]
      split
      next hnil =>
        have hnone := Block.visibleFirsts_eq_nil_iff.mp hnil
        have hinvisible : visibleIn trancId (b.entries ++ bs.flatMap Block.entries) = [] := by
          apply List.eq_nil_iff_forall_not_mem.mpr
          intro e he
          obtain ⟨he, hvisible⟩ := mem_visibleIn.mp he
          rcases List.mem_append.mp he with he | he
          · exact hnone ⟨e, he, hvisible⟩
          · obtain ⟨b', hb', he⟩ := List.mem_flatMap.mp he
            exact hnone (hfirst b' hb' ⟨e, he, hvisible⟩)
        rw [hinvisible]
        apply NewestVersions.nil
      next =>
        have hrest := newestVersions_scanned trancId hbs htogether hunbroken
        rw [visibleIn_append]
        apply (Versioned.visibleIn hb trancId).newestVersions.append hrest
        intro e he e' he'
        have he := (mem_visibleIn.mp he).1
        have he' := (mem_visibleIn.mp he').1
        obtain ⟨b', hb', hmem⟩ := List.mem_flatMap.mp he'
        rcases hcross e he e' he' with hlt | ⟨heq, -⟩
        · apply hlt
        · exact absurd heq (hapart b' hb' e he e' hmem)

/-- If every key with a visible version is scanned, then nothing visible comes after a block in
which nothing is. -/
theorem pairwise_shows_of_scanned {trancId : TrancId} :
  ∀ {bs : List Block},
    bs.Pairwise (fun b b' => ∀ e ∈ b.entries, ∀ e' ∈ b'.entries, e.key ≠ e'.key) →
    (∀ e ∈ visibleIn trancId (bs.flatMap Block.entries),
      ∃ e' ∈ scanned trancId bs, e'.key = e.key) →
    bs.Pairwise (fun b b' => b'.Shows trancId → b.Shows trancId)
  | [], _, _ => .nil
  | b :: bs, htogether, hscanned => by
      obtain ⟨hapart, htogether⟩ := List.pairwise_cons.mp htogether
      simp only [scanned, List.flatMap_cons] at hscanned
      split at hscanned
      next =>
        -- nothing is scanned, so that nothing is visible
        have hnone : ∀ b' ∈ b :: bs, ¬ b'.Shows trancId := by
          rintro b' hb' ⟨e, he, hvisible⟩
          have hmem : e ∈ (b :: bs).flatMap Block.entries := List.mem_flatMap.mpr ⟨b', hb', he⟩
          obtain ⟨e', he', -⟩ := hscanned e (mem_visibleIn.mpr ⟨hmem, hvisible⟩)
          cases he'
        apply List.pairwise_iff_forall_sublist.mpr
        intro b₁ b₂ hsub hshows
        exact absurd hshows (hnone b₂ (hsub.subset (by simp)))
      next hne =>
        have hshows : b.Shows trancId := not_not.mp (fun h =>
          hne (Block.visibleFirsts_eq_nil_iff.mpr h))
        apply List.pairwise_cons.mpr ⟨fun _ _ _ => hshows, _⟩
        apply pairwise_shows_of_scanned htogether
        intro e he
        obtain ⟨e', he', hkey⟩ := hscanned e (by
          rw [visibleIn_append]
          apply List.mem_append_right _ he)
        rcases List.mem_append.mp he' with he' | he'
        · obtain ⟨b', hb', hmem⟩ := List.mem_flatMap.mp (mem_visibleIn.mp he).1
          have hfirst := (mem_visibleIn.mp ((Keyed.firsts_sublist _).subset he')).1
          exact absurd hkey (hapart b' hb' e' hfirst e hmem)
        · exact ⟨e', he', hkey⟩

/-! ### Scanning -/

namespace SstIterator

/-- The pairs met by stepping an iterator as long as it is valid. -/
def scan (fuel : ℕ) (it : SstIterator) : Except Fault (List (Bytes × Bytes)) :=
  ({ isEnd := fun it => !it.isValid, peek := deref, next := next } :
    Cursor Fault (Bytes × Bytes) SstIterator).drain .outOfFuel fuel it

/-- At a visible entry of a block with versions by their keys, the iterator belongs to a
transaction and shows one version of a key. -/
structure AtVisible (it : SstIterator) (trancId : TrancId) (sst : SST) (blockIt : BlockIterator)
    (e : Entry) (es : List Entry) : Prop extends it.AtBlock sst blockIt e es where
  maxTrancId_eq : it.maxTrancId = trancId
  keepAllVersions_eq : it.keepAllVersions = false
  trancId_eq : blockIt.trancId = trancId
  firstVersions : blockIt.keepAllVersions = false
  visible : e.Visible trancId
  sorted : Keyed.Sorted Entry.key (e :: es)
  stored : ∀ e' ∈ es, e' ∈ sst.entries

/-- The iterator is no longer valid, or has the visible versions left that are scanned from its
position on. -/
inductive YieldsVisible (trancId : TrancId) (it : SstIterator) : List (Bytes × Bytes) → Prop
  | stopped (h : it.isValid = false) : YieldsVisible trancId it []
  | atVisible {sst : SST} {blockIt : BlockIterator} {e : Entry} {es : List Entry}
      (hsst : sst.Versioned) (h : it.AtVisible trancId sst blockIt e es) :
      YieldsVisible trancId it
        ((Keyed.firsts Entry.key (visibleIn trancId (e :: es)) ++
          scanned trancId (sst.blocks.drop (it.blockIdx + 1))).map Entry.pair)

section

variable {trancId : TrancId} {it : SstIterator} {sst : SST} {blockIt : BlockIterator}
  {e : Entry} {es : List Entry}

theorem AtVisible.fill (h : it.AtVisible trancId sst blockIt e es) :
  (it.withCached blockIt e).AtVisible trancId sst { blockIt with cachedValue := some e.pair } e es
  where
  toAtBlock := h.toAtBlock.fill
  maxTrancId_eq := h.maxTrancId_eq
  keepAllVersions_eq := h.keepAllVersions_eq
  trancId_eq := h.trancId_eq
  firstVersions := h.firstVersions
  visible := h.visible
  sorted := h.sorted
  stored := h.stored

theorem scanned_drop {blockIdx : ℕ} {block : Block} (h : sst.blocks[blockIdx]? = some block) :
  scanned trancId (sst.blocks.drop blockIdx) =
    if block.visibleFirsts trancId = [] then []
    else block.visibleFirsts trancId ++ scanned trancId (sst.blocks.drop (blockIdx + 1))
  := by
  obtain ⟨hlt, rfl⟩ := List.getElem?_eq_some_iff.mp h
  rw [List.drop_eq_getElem_cons hlt, scanned]

/-- An iterator at the start of a block scans from that block on. -/
theorem atIndex_yieldsVisible (hsst : sst.Versioned) {blockIdx : ℕ} {block : Block}
    (hblock : sst.blocks[blockIdx]? = some block) (cachedValue : Option (Bytes × Bytes)) :
  YieldsVisible trancId
    { sst := some sst, blockIdx, maxTrancId := trancId, cachedValue, keepAllVersions := false,
      blockIt := some (BlockIterator.atIndex block 0 trancId false) }
    ((scanned trancId (sst.blocks.drop blockIdx)).map Entry.pair)
  := by
  have hmem := List.mem_of_getElem? hblock
  have hcoherent := BlockIterator.coherent_atIndex (b := block) (Nat.zero_le _) trancId false
  have hid : (BlockIterator.atIndex block 0 trancId false).trancId = trancId :=
    BlockIterator.skipByTrancId_trancId _
  have hrest : (BlockIterator.atIndex block 0 trancId false).rest = block.entries.dropWhile _ :=
    BlockIterator.rest_skipByTrancId _
  have hinvisible : ∀ e : Entry,
      ({ block, currentIndex := 0, trancId, keepAllVersions := false } : BlockIterator).invisible e =
        true ↔ ¬ e.Visible trancId := BlockIterator.invisible_iff rfl
  have hvisible := visibleIn_dropWhile hinvisible block.entries
  rw [← hrest] at hvisible
  rw [scanned_drop hblock, Block.visibleFirsts, ← hvisible]
  cases hleft : (BlockIterator.atIndex block 0 trancId false).rest with
  | nil =>
      have hend := (BlockIterator.isEnd_iff hcoherent).mpr hleft
      apply YieldsVisible.stopped
      rw [isValid]
      dsimp only
      rw [hend]
      rfl
  | cons e es =>
      have hsub : (e :: es).Sublist block.entries := by
        rw [← hleft, hrest]
        apply List.dropWhile_sublist
      have hshown : e.Visible trancId := visible_of_dropWhile hinvisible (hrest.symm.trans hleft)
      have hstored : ∀ e' ∈ e :: es, e' ∈ sst.entries := fun e' he' =>
        SST.mem_entries hmem (hsub.subset he')
      have hsorted : Keyed.Sorted Entry.key (e :: es) :=
        hsst.versioned.sorted.sublist (hsub.trans (sst.entries_sublist hmem))
      have hne : Keyed.firsts Entry.key (visibleIn trancId (e :: es)) ≠ [] := by
        rw [BlockIterator.firsts_visibleIn_cons hshown hsorted]
        apply List.cons_ne_nil
      rw [if_neg hne]
      have hat : AtVisible
          { sst := some sst, blockIdx, maxTrancId := trancId, cachedValue,
            keepAllVersions := false,
            blockIt := some (BlockIterator.atIndex block 0 trancId false) }
          trancId sst (BlockIterator.atIndex block 0 trancId false) e es :=
        { sst_eq := rfl
          blockIt_eq := rfl
          inside := (List.getElem?_eq_some_iff.mp hblock).1
          coherent := hcoherent
          rest_eq := hleft
          resolves := hsst.resolves e (hstored e List.mem_cons_self)
          maxTrancId_eq := rfl
          keepAllVersions_eq := rfl
          trancId_eq := hid
          firstVersions := BlockIterator.skipByTrancId_keepAllVersions _
          visible := hshown
          sorted := hsorted
          stored := fun e' he' => hstored e' (List.mem_cons_of_mem e he') }
      exact .atVisible hsst hat

/-- Stepping leaves the first visible versions of the other keys. -/
theorem AtVisible.next_yields (hsst : sst.Versioned) (h : it.AtVisible trancId sst blockIt e es) :
  ∃ it', it.next = .ok it' ∧
    it'.YieldsVisible trancId
      ((Keyed.firsts Entry.key (visibleIn trancId (Keyed.dropKey Entry.key e.key es)) ++
        scanned trancId (sst.blocks.drop (it.blockIdx + 1))).map Entry.pair)
  := by
  have hrest := BlockIterator.rest_next h.rest_eq
  rw [h.firstVersions, if_neg Bool.false_ne_true] at hrest
  change _ = (Keyed.dropKey Entry.key e.key es).dropWhile _ at hrest
  have hcoherent := BlockIterator.coherent_next h.coherent
  have hinvisible := BlockIterator.invisible_iff h.trancId_eq
  have hvisible := visibleIn_dropWhile hinvisible (Keyed.dropKey Entry.key e.key es)
  rw [← hvisible, ← hrest]
  cases hleft : blockIt.next.rest with
  | cons e' es' =>
      have hend : blockIt.next.isEnd = false := by
        rw [Bool.eq_false_iff, Ne, BlockIterator.isEnd_iff hcoherent, hleft]
        apply List.cons_ne_nil
      have hsub : (e' :: es').Sublist es := by
        rw [← hleft, hrest]
        apply (List.dropWhile_sublist _).trans (Keyed.dropKey_sublist Entry.key e.key es)
      have hstored : ∀ e'' ∈ e' :: es', e'' ∈ sst.entries := fun e'' he'' =>
        h.stored e'' (hsub.subset he'')
      have hat : AtVisible { it with blockIt := some blockIt.next } trancId sst blockIt.next e'
          es' :=
        { sst_eq := h.sst_eq
          blockIt_eq := rfl
          inside := h.inside
          coherent := hcoherent
          rest_eq := hleft
          resolves := hsst.resolves e' (hstored e' List.mem_cons_self)
          maxTrancId_eq := h.maxTrancId_eq
          keepAllVersions_eq := h.keepAllVersions_eq
          trancId_eq := by rw [BlockIterator.next_trancId, h.trancId_eq]
          firstVersions := by rw [BlockIterator.next_keepAllVersions, h.firstVersions]
          visible := visible_of_dropWhile hinvisible (hrest.symm.trans hleft)
          sorted := (List.pairwise_cons.mp h.sorted).2.sublist hsub
          stored := fun e'' he'' => hstored e'' (List.mem_cons_of_mem e' he'') }
      exact ⟨_, next_inside h.sst_eq h.blockIt_eq hend, .atVisible hsst hat⟩
  | nil =>
      have hend : blockIt.next.isEnd = true := (BlockIterator.isEnd_iff hcoherent).mpr hleft
      cases hblock : sst.blocks[it.blockIdx + 1]? with
      | some block =>
          have hstep := next_block h.sst_eq h.blockIt_eq hend hblock
          rw [h.sst_eq, h.maxTrancId_eq, h.keepAllVersions_eq] at hstep
          exact ⟨_, hstep, atIndex_yieldsVisible hsst hblock it.cachedValue⟩
      | none =>
          rw [List.drop_eq_nil_of_le (List.getElem?_eq_none_iff.mp hblock)]
          exact ⟨_, next_last h.sst_eq h.blockIt_eq hend hblock, .stopped rfl⟩

end

/-- The pairs left at a visible entry are its own and those left when its key is dropped. -/
theorem YieldsVisible.of_cons {trancId : TrancId} {it : SstIterator} {p : Bytes × Bytes}
    {ps : List (Bytes × Bytes)} (h : it.YieldsVisible trancId (p :: ps)) :
  ∃ sst blockIt e es, sst.Versioned ∧ it.AtVisible trancId sst blockIt e es ∧ p = e.pair ∧
    ps = (Keyed.firsts Entry.key (visibleIn trancId (Keyed.dropKey Entry.key e.key es)) ++
      scanned trancId (sst.blocks.drop (it.blockIdx + 1))).map Entry.pair
  := by
  generalize hleft : p :: ps = left at h
  cases h with
  | stopped => cases hleft
  | @atVisible sst blockIt e es hsst hat =>
      rw [BlockIterator.firsts_visibleIn_cons hat.visible hat.sorted, List.cons_append,
        List.map_cons] at hleft
      obtain ⟨rfl, rfl⟩ := List.cons.inj hleft
      exact ⟨sst, blockIt, e, es, hsst, hat, rfl, rfl⟩

/-- A scan meets the pairs an iterator has left. -/
theorem scan_eq {trancId : TrancId} {it : SstIterator} {ps : List (Bytes × Bytes)} {fuel : ℕ}
    (h : it.YieldsVisible trancId ps) (hfuel : ps.length < fuel) :
  it.scan fuel = .ok ps
  := by
  apply Cursor.drain_of_tracks (R := YieldsVisible trancId) _ _ h hfuel
  constructor
  · intro it h
    generalize hleft : ([] : List (Bytes × Bytes)) = left at h
    cases h with
    | stopped hvalid =>
        dsimp only
        rw [hvalid]
        rfl
    | atVisible hsst hat =>
        rw [BlockIterator.firsts_visibleIn_cons hat.visible hat.sorted] at hleft
        cases hleft
  · intro it p ps h
    obtain ⟨sst, blockIt, e, es, -, hat, -, -⟩ := h.of_cons
    dsimp only
    rw [hat.isValid_eq]
    rfl
  · intro it p ps h
    obtain ⟨sst, blockIt, e, es, hsst, hat, rfl, rfl⟩ := h.of_cons
    refine ⟨_, hat.deref_eq, ?_⟩
    have hyields := YieldsVisible.atVisible hsst hat.fill
    rwa [BlockIterator.firsts_visibleIn_cons hat.visible hat.sorted, List.cons_append,
      List.map_cons] at hyields
  · intro it p ps h
    obtain ⟨sst, blockIt, e, es, hsst, hat, rfl, rfl⟩ := h.of_cons
    exact hat.next_yields hsst

/-- The iterator at the start of a table scans its blocks. -/
theorem begin_yieldsVisible {sst : SST} (hsst : sst.Versioned) (trancId : TrancId) :
  ∃ it, sst.begin trancId = .ok it ∧
    it.YieldsVisible trancId ((scanned trancId sst.blocks).map Entry.pair)
  := by
  rw [SST.begin, atFirst, seekFirst]
  dsimp only
  split
  next hzero =>
    rw [List.length_eq_zero_iff.mp hzero]
    exact ⟨_, rfl, .stopped rfl⟩
  next hne =>
    have hblock := List.getElem?_eq_getElem (Nat.pos_of_ne_zero hne)
    rw [Except.bind_eq_of_ok _ (SST.readBlock_of_getElem? hblock)]
    exact ⟨_, rfl, atIndex_yieldsVisible hsst hblock none⟩

/-- A scan at a snapshot meets the newest visible version of every key that has any if and only
if no block in which nothing is visible precedes one in which something is. -/
theorem scan_iff {sst : SST} (hsst : sst.Versioned) (trancId : TrancId) :
  ∃ ps, (do
      let it ← sst.begin trancId
      it.scan (sst.entries.length + 1)) = .ok ps ∧
    ((∃ out, NewestVersions (visibleIn trancId sst.entries) out ∧ ps = out.map Entry.pair) ↔
      sst.Unbroken trancId)
  := by
  obtain ⟨it, hbegin, hyields⟩ := begin_yieldsVisible hsst trancId
  have hsub : (scanned trancId sst.blocks).Sublist sst.entries := scanned_sublist trancId sst.blocks
  have hscan : it.scan (sst.entries.length + 1) =
      .ok ((scanned trancId sst.blocks).map Entry.pair) := by
    apply scan_eq hyields
    rw [List.length_map]
    exact Nat.lt_succ_of_le hsub.length_le
  refine ⟨_, (Except.bind_eq_of_ok _ hbegin).trans hscan, ?_⟩
  constructor
  · rintro ⟨out, hnewest, hps⟩
    apply pairwise_shows_of_scanned hsst.together
    intro e he
    obtain ⟨e', he', hkey⟩ := hnewest.complete e he
    have hpair : e'.pair ∈ (scanned trancId sst.blocks).map Entry.pair := by
      rw [hps]
      apply List.mem_map_of_mem he'
    obtain ⟨e'', he'', heq⟩ := List.mem_map.mp hpair
    exact ⟨e'', he'', (congrArg Prod.fst heq).trans hkey⟩
  · intro hunbroken
    exact ⟨_, newestVersions_scanned trancId hsst.versioned hsst.together hunbroken, rfl⟩

/-- A table of two blocks, of which the first one has been written after the second one. -/
def newerFirst : SST := ⟨1, [⟨[⟨[1], [7], 5⟩]⟩, ⟨[⟨[2], [8], 1⟩]⟩], 0, none⟩

theorem versioned_newerFirst : newerFirst.Versioned
  where
  versioned := by
    rw [Versioned]
    decide
  together := by decide
  resolves _ _ := SST.resolveValue_inline rfl _

theorem scan_iff_newerFirst :
  ∃ ps, (do
      let it ← newerFirst.begin 5
      it.scan (newerFirst.entries.length + 1)) = .ok ps ∧
    ((∃ out, NewestVersions (visibleIn 5 newerFirst.entries) out ∧ ps = out.map Entry.pair) ↔
      newerFirst.Unbroken 5)
  := scan_iff versioned_newerFirst 5

/-- A scan stops at a first block in which nothing is visible. -/
theorem not_scan_newestVersions :
  ¬ ∀ sst : SST, sst.Versioned → (∀ b ∈ sst.blocks, b.entries ≠ []) → ∀ trancId, ∃ out,
    NewestVersions (visibleIn trancId sst.entries) out ∧
      (do
        let it ← sst.begin trancId
        it.scan (sst.entries.length + 1)) = .ok (out.map Entry.pair)
  := by
  intro h
  obtain ⟨out, hnewest, hscan⟩ := h newerFirst versioned_newerFirst (by decide) 3
  have hnone : (do
      let it ← newerFirst.begin 3
      it.scan (newerFirst.entries.length + 1)) = .ok [] := by decide
  have hnil : out = [] := List.map_eq_nil_iff.mp (Except.ok.inj (hscan.symm.trans hnone))
  obtain ⟨e, he, -⟩ := hnewest.complete ⟨[2], [8], 1⟩ (by decide)
  rw [hnil] at he
  cases he

end SstIterator

end TinyLsm
