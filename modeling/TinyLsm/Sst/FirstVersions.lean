import TinyLsm.Sst.ConcactIterator

/-!
# Iterating over first versions

For no transaction, and not keeping all versions, the iterators over tables show the first
entry of each run of one key in each block: the newest version of the key, when the versions of
a key are in one block, the newest first.
-/

namespace TinyLsm

/-- The first entries of the runs of one key in the blocks from a given one on. -/
def SST.firstsFrom (sst : SST) (blockIdx : ℕ) : List Entry :=
  (sst.blocks.drop blockIdx).flatMap (fun block => Keyed.firsts Entry.key block.entries)

/-- The first entries of the runs of one key in the blocks of a table. -/
def SST.firsts (sst : SST) : List Entry := sst.firstsFrom 0

namespace SST

theorem firstsFrom_of_le {sst : SST} {blockIdx : ℕ} (h : sst.numBlocks ≤ blockIdx) :
  sst.firstsFrom blockIdx = []
  := by
  rw [firstsFrom, List.drop_eq_nil_of_le h]
  rfl

theorem firstsFrom_of_getElem? {sst : SST} {blockIdx : ℕ} {block : Block}
    (h : sst.blocks[blockIdx]? = some block) :
  sst.firstsFrom blockIdx =
    Keyed.firsts Entry.key block.entries ++ sst.firstsFrom (blockIdx + 1)
  := by
  obtain ⟨hlt, rfl⟩ := List.getElem?_eq_some_iff.mp h
  rw [firstsFrom, List.drop_eq_getElem_cons hlt]
  rfl

/-- The first version of a key in a table is the first of the first entries of the runs. -/
theorem firstOf_firsts (sst : SST) (key : Bytes) :
  Keyed.firstOf Entry.key key sst.firsts = Keyed.firstOf Entry.key key sst.entries
  := Keyed.firstOf_flatMap key (f := fun block => Keyed.firsts Entry.key block.entries)
    (g := Block.entries) (fun block => Keyed.firstOf_firsts key block.entries) _

/-- The first entries of the runs are among the entries of a table, in their order. -/
theorem firsts_sublist (sst : SST) : sst.firsts.Sublist sst.entries
  := by
  rw [firsts, firstsFrom, entries, entriesFrom]
  induction sst.blocks.drop 0 with
  | nil => apply List.Sublist.refl
  | cons block blocks ih =>
      rw [List.flatMap_cons, List.flatMap_cons]
      apply (Keyed.firsts_sublist block.entries).append ih

theorem WellFormed.firsts_ne_nil {sst : SST} (h : sst.WellFormed) : sst.firsts ≠ []
  := by
  obtain ⟨block, blocks, hblocks⟩ := List.exists_cons_of_ne_nil h.blocks_ne
  have hblock : sst.blocks[0]? = some block := by
    rw [hblocks]
    rfl
  rw [firsts, firstsFrom_of_getElem? hblock]
  intro hnil
  have hfirsts := Keyed.firsts_eq_nil.mp (List.append_eq_nil_iff.mp hnil).1
  apply h.entries_ne block (List.mem_of_getElem? hblock) hfirsts

/-- The entries of a block are among those of the table, in their order. -/
theorem entries_sublist {sst : SST} {block : Block} (hblock : block ∈ sst.blocks) :
  block.entries.Sublist sst.entries
  := List.sublist_flatten_of_mem (List.mem_map_of_mem hblock)

theorem mem_entries {sst : SST} {block : Block} (hblock : block ∈ sst.blocks) {e : Entry}
    (he : e ∈ block.entries) :
  e ∈ sst.entries
  := List.mem_flatMap.mpr ⟨block, hblock, he⟩

end SST

/-! ### Positions in a table -/

namespace SstIterator

/-- The value the table resolves the stored value under the block iterator to, read through
`operator->`. -/
def value (it : SstIterator) : Except Fault (Bytes × SstIterator) :=
  match it.blockIt, it.sst with
  | none, _ => .error (.runtimeError "Iterator is invalid")
  | some _, none => .error .undefinedBehavior
  | some blockIt, some sst => do
      let (raw, blockIt') ← blockIt.arrow
      let value ← sst.resolveValue raw.2
      return (value, { it with blockIt := some blockIt' })

/-- The iterator is at the entry `e` of a block of the table, the entries `es` following it in
the block, and the table resolves the value of the entry to itself. -/
structure AtBlock (it : SstIterator) (sst : SST) (blockIt : BlockIterator) (e : Entry)
    (es : List Entry) : Prop where
  sst_eq : it.sst = some sst
  blockIt_eq : it.blockIt = some blockIt
  inside : it.blockIdx < sst.numBlocks
  coherent : blockIt.Coherent
  rest_eq : blockIt.rest = e :: es
  resolves : sst.resolveValue e.value = .ok e.value

section

variable {it : SstIterator} {sst : SST} {blockIt : BlockIterator} {e : Entry} {es : List Entry}

/-- Filling the cache of the block iterator leaves the position. -/
theorem AtBlock.fill (h : it.AtBlock sst blockIt e es) :
  (it.withCached blockIt e).AtBlock sst { blockIt with cachedValue := some e.pair } e es
  where
  sst_eq := h.sst_eq
  blockIt_eq := rfl
  inside := h.inside
  coherent := h.coherent.fill h.rest_eq
  rest_eq := h.rest_eq
  resolves := h.resolves

theorem AtBlock.isEnd_eq (h : it.AtBlock sst blockIt e es) : it.isEnd = false
  := by
  rw [isEnd, h.blockIt_eq]
  rfl

theorem AtBlock.isValid_eq (h : it.AtBlock sst blockIt e es) : it.isValid = true
  := by
  have hend : blockIt.isEnd = false := by
    rw [Bool.eq_false_iff]
    intro hend
    have hnil := (BlockIterator.isEnd_iff h.coherent).mp hend
    rw [h.rest_eq] at hnil
    cases hnil
  rw [isValid, h.blockIt_eq, h.sst_eq]
  dsimp only
  rw [hend, decide_eq_true h.inside]
  rfl

theorem AtBlock.deref_eq (h : it.AtBlock sst blockIt e es) :
  it.deref = .ok (e.pair, it.withCached blockIt e)
  := by
  rw [deref, h.blockIt_eq, h.sst_eq]
  dsimp only
  rw [Except.bind_eq_of_ok _ (BlockIterator.deref_of_rest h.coherent h.rest_eq)]
  dsimp only
  rw [Entry.pair, Except.bind_eq_of_ok _ h.resolves, withCached, h.sst_eq]
  rfl

theorem AtBlock.key_eq (h : it.AtBlock sst blockIt e es) :
  it.key = .ok (e.key, it.withCached blockIt e)
  := by
  rw [key, h.blockIt_eq]
  dsimp only
  rw [Except.bind_eq_of_ok _ (BlockIterator.arrow_of_rest h.coherent h.rest_eq)]
  rfl

theorem AtBlock.value_eq (h : it.AtBlock sst blockIt e es) :
  it.value = .ok (e.value, it.withCached blockIt e)
  := by
  rw [value, h.blockIt_eq, h.sst_eq]
  dsimp only
  rw [Except.bind_eq_of_ok _ (BlockIterator.arrow_of_rest h.coherent h.rest_eq)]
  dsimp only
  rw [Entry.pair, Except.bind_eq_of_ok _ h.resolves, withCached, h.sst_eq]
  rfl

end

/-! ### Showing first versions -/

/-- At an entry of a well-formed table, the iterator belongs to no transaction and shows first
versions only. -/
structure AtFirst (it : SstIterator) (sst : SST) (blockIt : BlockIterator) (e : Entry)
    (es : List Entry) : Prop extends it.AtBlock sst blockIt e es where
  wellFormed : sst.WellFormed
  maxTrancId_eq : it.maxTrancId = 0
  keepAllVersions_eq : it.keepAllVersions = false
  noTranc : blockIt.trancId = 0
  firstVersions : blockIt.keepAllVersions = false
  stored : ∀ e' ∈ es, e' ∈ sst.entries

/-- The iterator shows the first entry of each run of one key in each block, and has the pairs
`ps` left: those of the runs left in the current block, then those of the later blocks. -/
inductive YieldsFirsts (it : SstIterator) : List (Bytes × Bytes) → Prop
  | atEnd (h : it.blockIt = none) : YieldsFirsts it []
  | atFirst {sst : SST} {blockIt : BlockIterator} {e : Entry} {es : List Entry}
      (h : it.AtFirst sst blockIt e es) :
      YieldsFirsts it
        ((Keyed.firsts Entry.key (e :: es) ++ sst.firstsFrom (it.blockIdx + 1)).map Entry.pair)

section

variable {it : SstIterator} {sst : SST} {blockIt : BlockIterator} {e : Entry} {es : List Entry}

theorem AtFirst.fill (h : it.AtFirst sst blockIt e es) :
  (it.withCached blockIt e).AtFirst sst { blockIt with cachedValue := some e.pair } e es
  where
  toAtBlock := h.toAtBlock.fill
  wellFormed := h.wellFormed
  maxTrancId_eq := h.maxTrancId_eq
  keepAllVersions_eq := h.keepAllVersions_eq
  noTranc := h.noTranc
  firstVersions := h.firstVersions
  stored := h.stored

/-- The pairs left at an entry are its own and those left when its key is dropped. -/
theorem YieldsFirsts.cons (h : it.AtFirst sst blockIt e es) :
  it.YieldsFirsts (e.pair ::
    (Keyed.firsts Entry.key (Keyed.dropKey Entry.key e.key es) ++
      sst.firstsFrom (it.blockIdx + 1)).map Entry.pair)
  := by
  have hyields := YieldsFirsts.atFirst h
  rwa [Keyed.firsts_cons, List.cons_append, List.map_cons] at hyields

/-- An iterator with no pairs left is over no block. -/
theorem YieldsFirsts.blockIt_eq_none (h : it.YieldsFirsts []) : it.blockIt = none
  := by
  generalize hleft : ([] : List (Bytes × Bytes)) = left at h
  cases h with
  | atEnd hnone => apply hnone
  | atFirst =>
      rw [Keyed.firsts_cons] at hleft
      cases hleft

/-- An iterator with pairs left is at the entry of the first of them. -/
theorem YieldsFirsts.exists_atFirst {p : Bytes × Bytes} {ps : List (Bytes × Bytes)}
    (h : it.YieldsFirsts (p :: ps)) :
  ∃ sst blockIt e es, it.AtFirst sst blockIt e es ∧ p = e.pair ∧
    ps = (Keyed.firsts Entry.key (Keyed.dropKey Entry.key e.key es) ++
      sst.firstsFrom (it.blockIdx + 1)).map Entry.pair
  := by
  generalize hleft : p :: ps = left at h
  cases h with
  | atEnd => cases hleft
  | @atFirst sst blockIt e es hat =>
      rw [Keyed.firsts_cons, List.cons_append, List.map_cons] at hleft
      obtain ⟨rfl, rfl⟩ := List.cons.inj hleft
      exact ⟨sst, blockIt, e, es, hat, rfl, rfl⟩

/-- An iterator at the start of a block has the runs of the block and of the later ones left. -/
theorem atIndex_yieldsFirsts (hwf : sst.WellFormed) {blockIdx : ℕ} {block : Block}
    (hblock : sst.blocks[blockIdx]? = some block) (cachedValue : Option (Bytes × Bytes)) :
  YieldsFirsts
    { sst := some sst, blockIdx, maxTrancId := 0, cachedValue, keepAllVersions := false,
      blockIt := some (BlockIterator.atIndex block 0 0 false) }
    ((sst.firstsFrom blockIdx).map Entry.pair)
  := by
  have hmem := List.mem_of_getElem? hblock
  obtain ⟨e, es, hentries⟩ := List.exists_cons_of_ne_nil (hwf.entries_ne block hmem)
  have hstored : ∀ e' ∈ e :: es, e' ∈ sst.entries := by
    intro e' he'
    apply SST.mem_entries hmem
    rwa [hentries]
  have hat : AtFirst
      { sst := some sst, blockIdx, maxTrancId := 0, cachedValue, keepAllVersions := false,
        blockIt := some (BlockIterator.atIndex block 0 0 false) }
      sst (BlockIterator.atIndex block 0 0 false) e es :=
    { sst_eq := rfl
      blockIt_eq := rfl
      inside := (List.getElem?_eq_some_iff.mp hblock).1
      coherent := BlockIterator.coherent_atIndex (Nat.zero_le _) 0 false
      rest_eq := hentries
      resolves := hwf.resolves e (hstored e List.mem_cons_self)
      wellFormed := hwf
      maxTrancId_eq := rfl
      keepAllVersions_eq := rfl
      noTranc := rfl
      firstVersions := rfl
      stored := fun e' he' => hstored e' (List.mem_cons_of_mem e he') }
  rw [SST.firstsFrom_of_getElem? hblock, hentries]
  apply YieldsFirsts.atFirst hat

/-- Stepping leaves the runs of the other keys. -/
theorem AtFirst.next_yields (h : it.AtFirst sst blockIt e es) :
  ∃ it', it.next = .ok it' ∧
    it'.YieldsFirsts ((Keyed.firsts Entry.key (Keyed.dropKey Entry.key e.key es) ++
      sst.firstsFrom (it.blockIdx + 1)).map Entry.pair)
  := by
  have hrest := BlockIterator.rest_next_of_firstVersions h.noTranc h.firstVersions h.rest_eq
  have hcoherent := BlockIterator.coherent_next h.coherent
  cases hleft : Keyed.dropKey Entry.key e.key es with
  | cons e' es' =>
      have hend : blockIt.next.isEnd = false := by
        rw [Bool.eq_false_iff, Ne, BlockIterator.isEnd_iff hcoherent, hrest, hleft]
        apply List.cons_ne_nil
      have hstored : ∀ e'' ∈ e' :: es', e'' ∈ sst.entries := by
        intro e'' he''
        rw [← hleft] at he''
        apply h.stored e'' ((Keyed.dropKey_sublist Entry.key e.key es).subset he'')
      have hat : AtFirst { it with blockIt := some blockIt.next } sst blockIt.next e' es' :=
        { sst_eq := h.sst_eq
          blockIt_eq := rfl
          inside := h.inside
          coherent := hcoherent
          rest_eq := hrest.trans hleft
          resolves := h.wellFormed.resolves e' (hstored e' List.mem_cons_self)
          wellFormed := h.wellFormed
          maxTrancId_eq := h.maxTrancId_eq
          keepAllVersions_eq := h.keepAllVersions_eq
          noTranc := by rw [BlockIterator.next_trancId, h.noTranc]
          firstVersions := by rw [BlockIterator.next_keepAllVersions, h.firstVersions]
          stored := fun e'' he'' => hstored e'' (List.mem_cons_of_mem e' he'') }
      exact ⟨_, next_inside h.sst_eq h.blockIt_eq hend, .atFirst hat⟩
  | nil =>
      have hend : blockIt.next.isEnd = true := by
        rw [BlockIterator.isEnd_iff hcoherent, hrest, hleft]
      cases hblock : sst.blocks[it.blockIdx + 1]? with
      | some block =>
          have hstep := next_block h.sst_eq h.blockIt_eq hend hblock
          rw [h.sst_eq, h.maxTrancId_eq, h.keepAllVersions_eq] at hstep
          exact ⟨_, hstep, atIndex_yieldsFirsts h.wellFormed hblock it.cachedValue⟩
      | none =>
          have hstep := next_last h.sst_eq h.blockIt_eq hend hblock
          rw [SST.firstsFrom_of_le (List.getElem?_eq_none_iff.mp hblock)]
          exact ⟨_, hstep, .atEnd rfl⟩

end

/-- An iterator over first versions delivers the pairs it has left. -/
theorem yields_yieldsFirsts :
  BaseIterator.Yields YieldsFirsts
  where
  isEnd_eq := by
    intro it ps h
    cases ps with
    | nil =>
        change it.blockIt.isNone = true
        rw [h.blockIt_eq_none]
        rfl
    | cons p ps =>
        obtain ⟨sst, blockIt, e, es, hat, -, -⟩ := h.exists_atFirst
        apply hat.isEnd_eq
  isValid_eq := by
    intro it ps h
    cases ps with
    | nil =>
        change it.isValid = false
        rw [isValid, h.blockIt_eq_none]
    | cons p ps =>
        obtain ⟨sst, blockIt, e, es, hat, -, -⟩ := h.exists_atFirst
        apply hat.isValid_eq
  deref_cons := by
    intro it p ps h
    obtain ⟨sst, blockIt, e, es, hat, rfl, rfl⟩ := h.exists_atFirst
    exact ⟨_, hat.deref_eq, .cons hat.fill⟩
  next_cons := by
    intro it p ps h
    obtain ⟨sst, blockIt, e, es, hat, rfl, rfl⟩ := h.exists_atFirst
    apply hat.next_yields

/-- An iterator at the start of a well-formed table shows the first entries of its runs. -/
theorem begin_yieldsFirsts {sst : SST} (h : sst.WellFormed) :
  ∃ it, sst.begin 0 = .ok it ∧ it.YieldsFirsts (sst.firsts.map Entry.pair)
  := by
  obtain ⟨block, blocks, hblocks⟩ := List.exists_cons_of_ne_nil h.blocks_ne
  have hblock : sst.blocks[0]? = some block := by
    rw [hblocks]
    rfl
  have hpos : 0 < sst.numBlocks := List.length_pos_of_ne_nil h.blocks_ne
  rw [SST.begin, atFirst, seekFirst]
  dsimp only
  rw [if_neg hpos.ne', Except.bind_eq_of_ok _ (SST.readBlock_of_getElem? hblock)]
  exact ⟨_, rfl, atIndex_yieldsFirsts h hblock none⟩

end SstIterator

/-! ### One table after the other -/

namespace ConcactIterator

/-- The current iterator is related by `R` to the pairs left of its table, each table begins with
an iterator related to the pairs `contents` of the table, of which there are some, and `ps` are
the pairs left of the current table, then those of the later tables.  When none are left of the
current table, there are no later tables. -/
structure Chains (R : SstIterator → List (Bytes × Bytes) → Prop)
    (contents : SST → List (Bytes × Bytes)) (it : ConcactIterator) (ps : List (Bytes × Bytes)) :
    Prop where
  begins : ∀ sst ∈ it.ssts, contents sst ≠ [] ∧
    ∃ curIter, sst.begin it.maxTrancId it.keepAllVersions = .ok curIter ∧ R curIter (contents sst)
  left : ∃ here, R it.curIter here ∧ ps = here ++ (it.ssts.drop (it.curIdx + 1)).flatMap contents ∧
    (here = [] → it.ssts.length ≤ it.curIdx + 1)

variable {R : SstIterator → List (Bytes × Bytes) → Prop} {contents : SST → List (Bytes × Bytes)}

/-- When pairs are left, the current iterator is at the first of them. -/
theorem Chains.exists_here {it : ConcactIterator} {p : Bytes × Bytes} {ps : List (Bytes × Bytes)}
    (h : Chains R contents it (p :: ps)) :
  ∃ here, R it.curIter (p :: here) ∧
    ps = here ++ (it.ssts.drop (it.curIdx + 1)).flatMap contents
  := by
  obtain ⟨here, hcur, hps, hlast⟩ := h.left
  cases here with
  | nil =>
      rw [List.drop_eq_nil_of_le (hlast rfl)] at hps
      cases hps
  | cons p' here =>
      obtain ⟨rfl, rfl⟩ := List.cons.inj hps
      exact ⟨here, hcur, rfl⟩

/-- An iterator over a table is at its end, or not valid, just when it has no pairs left. -/
theorem isEnd_or_not_isValid_of_yields (hR : BaseIterator.Yields R) {it : SstIterator}
    {ps : List (Bytes × Bytes)} (h : R it ps) :
  (it.isEnd || !it.isValid) = ps.isEmpty
  := by
  have hend : it.isEnd = ps.isEmpty := hR.isEnd_eq h
  have hvalid : it.isValid = !ps.isEmpty := hR.isValid_eq h
  rw [hend, hvalid, Bool.not_not, Bool.or_self]

/-- Nothing is left at the iterator when nothing is left of the current table. -/
theorem Chains.isEmpty_eq {it : ConcactIterator} {ps : List (Bytes × Bytes)}
    (h : Chains R contents it ps) :
  ∃ here, R it.curIter here ∧ here.isEmpty = ps.isEmpty
  := by
  obtain ⟨here, hcur, rfl, hlast⟩ := h.left
  refine ⟨here, hcur, ?_⟩
  cases here with
  | nil =>
      rw [List.drop_eq_nil_of_le (hlast rfl)]
      rfl
  | cons p here => rfl

/-- Stepping leaves the other pairs, those of the later tables after those of the current one. -/
theorem Chains.next (hR : BaseIterator.Yields R)
    (hnull : ∀ it : SstIterator, it.blockIt = none → R it [])
    {it : ConcactIterator} {p : Bytes × Bytes} {ps : List (Bytes × Bytes)}
    (h : Chains R contents it (p :: ps)) :
  ∃ it', it.next = .ok it' ∧ Chains R contents it' ps
  := by
  obtain ⟨here, hcur, rfl⟩ := h.exists_here
  obtain ⟨stepped, hstep, hstepped⟩ := hR.next_cons hcur
  have hnext : it.curIter.next = .ok stepped := hstep
  rw [ConcactIterator.next, Except.bind_eq_of_ok _ hnext,
    isEnd_or_not_isValid_of_yields hR hstepped]
  cases here with
  | cons p' here =>
      exact ⟨_, rfl, h.begins, p' :: here, hstepped, rfl, by rintro ⟨⟩⟩
  | nil =>
      rw [List.isEmpty_nil, if_pos rfl, List.nil_append]
      cases hsst : it.ssts[it.curIdx + 1]? with
      | none =>
          have hle := List.getElem?_eq_none_iff.mp hsst
          refine ⟨_, rfl, h.begins, [], hnull _ rfl, ?_, fun _ => Nat.le_succ_of_le hle⟩
          rw [List.drop_eq_nil_of_le hle, List.drop_eq_nil_of_le (Nat.le_succ_of_le hle)]
          rfl
      | some sst =>
          obtain ⟨hlt, hget⟩ := List.getElem?_eq_some_iff.mp hsst
          obtain ⟨hne, curIter, hbegin, hcur'⟩ := h.begins sst (List.mem_of_getElem? hsst)
          dsimp only
          rw [Except.bind_eq_of_ok _ hbegin, List.drop_eq_getElem_cons hlt, hget]
          exact ⟨_, rfl, h.begins, contents sst, hcur', rfl, fun hnil => absurd hnil hne⟩

/-- An iterator over tables delivers the pairs of one table after the other. -/
theorem yields_chains (contents : SST → List (Bytes × Bytes)) (hR : BaseIterator.Yields R)
    (hnull : ∀ it : SstIterator, it.blockIt = none → R it []) :
  BaseIterator.Yields (Chains R contents)
  where
  isEnd_eq := by
    intro it ps h
    obtain ⟨here, hcur, hempty⟩ := h.isEmpty_eq
    rw [← hempty]
    apply isEnd_or_not_isValid_of_yields hR hcur
  isValid_eq := by
    intro it ps h
    obtain ⟨here, hcur, hempty⟩ := h.isEmpty_eq
    have hend : it.curIter.isEnd = here.isEmpty := hR.isEnd_eq hcur
    have hvalid : it.curIter.isValid = !here.isEmpty := hR.isValid_eq hcur
    change (!it.curIter.isEnd && it.curIter.isValid) = _
    rw [hend, hvalid, Bool.and_self, hempty]
  deref_cons := by
    intro it p ps h
    obtain ⟨here, hcur, rfl⟩ := h.exists_here
    obtain ⟨curIter, hread, hcur'⟩ := hR.deref_cons hcur
    have hderef : it.curIter.deref = .ok (p, curIter) := hread
    refine ⟨{ it with curIter }, ?_, h.begins, p :: here, hcur', rfl, by rintro ⟨⟩⟩
    change it.deref = _
    rw [deref, Except.bind_eq_of_ok _ hderef]
    rfl
  next_cons h := h.next hR hnull

/-- An iterator over well-formed tables shows the first entries of the runs of one key. -/
theorem ofSsts_yieldsFirsts {ssts : List SST} (h : ∀ sst ∈ ssts, sst.WellFormed) :
  ∃ it, ofSsts ssts 0 = .ok it ∧
    Chains SstIterator.YieldsFirsts (fun sst => sst.firsts.map Entry.pair) it
      ((ssts.flatMap SST.firsts).map Entry.pair)
  := by
  have hbegins : ∀ sst ∈ ssts, sst.firsts.map Entry.pair ≠ [] ∧
      ∃ curIter, sst.begin 0 = .ok curIter ∧
        curIter.YieldsFirsts (sst.firsts.map Entry.pair) := by
    intro sst hsst
    refine ⟨?_, SstIterator.begin_yieldsFirsts (h sst hsst)⟩
    rw [Ne, List.map_eq_nil_iff]
    apply (h sst hsst).firsts_ne_nil
  rw [List.map_flatMap]
  cases ssts with
  | nil => exact ⟨_, rfl, hbegins, [], .atEnd rfl, rfl, fun _ => Nat.zero_le _⟩
  | cons sst ssts =>
      obtain ⟨hne, curIter, hbegin, hcur⟩ := hbegins sst List.mem_cons_self
      rw [ofSsts, Except.bind_eq_of_ok _ hbegin]
      exact ⟨_, rfl, hbegins, _, hcur, rfl, fun hnil => absurd hnil hne⟩

end ConcactIterator

end TinyLsm
