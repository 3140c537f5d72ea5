import TinyLsm.Iterator.HeapIterator
import TinyLsm.Sst.Sst

/-!
# The iterator over a table

`SstIterator` walks over the blocks of a table, one block iterator at a time.  For no
transaction, and keeping all versions, it shows every entry of a well-formed table.

`merge_sst_iterator` drains iterators over tables into the queue of one heap iterator.
-/

namespace TinyLsm

/-- An iterator over a table.  The table is null in the iterators that stand for an end. -/
structure SstIterator where
  sst : Option SST
  blockIdx : ℕ := 0
  maxTrancId : TrancId
  blockIt : Option BlockIterator := none
  cachedValue : Option (Bytes × Bytes) := none
  keepAllVersions : Bool := false

namespace SstIterator

def seekFirst (it : SstIterator) : Except Fault SstIterator :=
  match it.sst with
  | none => .ok { it with blockIt := none }
  | some sst =>
      if sst.numBlocks = 0 then
        .ok { it with blockIt := none }
      else do
        let block ← sst.readBlock 0
        return { it with
          blockIdx := 0
          blockIt := some (BlockIterator.atIndex block 0 it.maxTrancId it.keepAllVersions) }

/-- The iterator at the first entry of a table. -/
def atFirst (sst : Option SST) (trancId : TrancId) (keepAllVersions : Bool := false) :
    Except Fault SstIterator :=
  match sst with
  | none => .ok { sst := none, maxTrancId := trancId, keepAllVersions }
  | some sst =>
      ({ sst := some sst, maxTrancId := trancId, keepAllVersions } : SstIterator).seekFirst

/-- Step the block iterator, moving on to the next block, if there is one, when it reaches
its end. -/
def next (it : SstIterator) : Except Fault SstIterator :=
  match it.blockIt, it.sst with
  | none, _ => .ok it
  | some _, none => .error .undefinedBehavior
  | some blockIt, some sst =>
      if blockIt.next.isEnd then
        if it.blockIdx + 1 < sst.numBlocks then do
          let nextBlock ← sst.readBlock (it.blockIdx + 1)
          return { it with
            blockIdx := it.blockIdx + 1
            blockIt :=
              some (BlockIterator.atIndex nextBlock 0 it.maxTrancId it.keepAllVersions) }
        else
          .ok { it with blockIdx := it.blockIdx + 1, blockIt := none }
      else
        .ok { it with blockIt := some blockIt.next }

def key (it : SstIterator) : Except Fault (Bytes × SstIterator) :=
  match it.blockIt with
  | none => .error (.runtimeError "Iterator is invalid")
  | some blockIt => do
      let (raw, blockIt') ← blockIt.arrow
      return (raw.1, { it with blockIt := some blockIt' })

/-- The value the table resolves the stored value under the block iterator to. -/
def resolvedValue (it : SstIterator) : Except Fault (Bytes × SstIterator) :=
  match it.blockIt, it.sst with
  | some blockIt, some sst => do
      let (raw, blockIt') ← blockIt.deref
      let value ← sst.resolveValue raw.2
      return (value, { it with blockIt := some blockIt' })
  | _, _ => .error .undefinedBehavior

def deref (it : SstIterator) : Except Fault ((Bytes × Bytes) × SstIterator) :=
  match it.blockIt, it.sst with
  | none, _ => .error (.runtimeError "Iterator is invalid")
  | some _, none => .error .undefinedBehavior
  | some blockIt, some sst => do
      let (raw, blockIt') ← blockIt.deref
      let value ← sst.resolveValue raw.2
      return ((raw.1, value), { it with blockIt := some blockIt' })

def getCurTrancId (it : SstIterator) : TrancId :=
  match it.blockIt with
  | none => 0
  | some blockIt => blockIt.getCurTrancId

def getTrancId (it : SstIterator) : TrancId :=
  match it.blockIt with
  | none => it.maxTrancId
  | some blockIt => if it.keepAllVersions then blockIt.getCurTrancId else it.maxTrancId

def isEnd (it : SstIterator) : Bool := it.blockIt.isNone

def isValid (it : SstIterator) : Bool :=
  match it.blockIt, it.sst with
  | some blockIt, some sst => !blockIt.isEnd && decide (it.blockIdx < sst.numBlocks)
  | _, _ => false

instance : BaseIterator SstIterator where
  next := next
  deref := deref
  getTrancId := getTrancId
  isEnd := isEnd
  isValid := isValid

section

variable {it : SstIterator} {sst : SST} {blockIt : BlockIterator}

/-- A step inside a block. -/
theorem next_inside (hsst : it.sst = some sst) (hblockIt : it.blockIt = some blockIt)
    (hend : blockIt.next.isEnd = false) :
  it.next = .ok { it with blockIt := some blockIt.next }
  := by
  rw [next, hblockIt, hsst]
  dsimp only
  rw [hend, if_neg Bool.false_ne_true]

/-- A step to the next block. -/
theorem next_block (hsst : it.sst = some sst) (hblockIt : it.blockIt = some blockIt)
    (hend : blockIt.next.isEnd = true) {block : Block}
    (hblock : sst.blocks[it.blockIdx + 1]? = some block) :
  it.next = .ok { it with
    blockIdx := it.blockIdx + 1
    blockIt := some (BlockIterator.atIndex block 0 it.maxTrancId it.keepAllVersions) }
  := by
  have hinside : it.blockIdx + 1 < sst.numBlocks := (List.getElem?_eq_some_iff.mp hblock).1
  rw [next, hblockIt, hsst]
  dsimp only
  rw [hend, if_pos rfl, if_pos hinside,
    Except.bind_eq_of_ok _ (SST.readBlock_of_getElem? hblock)]
  rfl

/-- A step past the last block. -/
theorem next_last (hsst : it.sst = some sst) (hblockIt : it.blockIt = some blockIt)
    (hend : blockIt.next.isEnd = true) (hblock : sst.blocks[it.blockIdx + 1]? = none) :
  it.next = .ok { it with blockIdx := it.blockIdx + 1, blockIt := none }
  := by
  have hlast : sst.numBlocks ≤ it.blockIdx + 1 := List.getElem?_eq_none_iff.mp hblock
  rw [next, hblockIt, hsst]
  dsimp only
  rw [hend, if_pos rfl, if_neg (Nat.not_lt.mpr hlast)]

end

end SstIterator

/-- The iterator at the start of a table. -/
def SST.begin (sst : SST) (trancId : TrancId) (keepAllVersions : Bool := false) :
    Except Fault SstIterator :=
  SstIterator.atFirst (some sst) trancId keepAllVersions

namespace SstIterator

/-- The search item an iterator is at, with the number of its table negated in `int` as its
index. -/
def searchItem (it : SstIterator) : Except Fault (SearchItem × SstIterator) :=
  match it.sst with
  | none => .error .undefinedBehavior
  | some sst => do
      let (key, it') ← it.key
      let (value, it'') ← it'.resolvedValue
      return (⟨key, value, Int.bmod (-sst.sstId) (2 ^ 32), 0, it''.getCurTrancId⟩, it'')

/-- Emplace the items from an iterator to its end. -/
def emplaceRest : ℕ → SstIterator → HeapIterator → Except Fault HeapIterator
  | 0, _, _ => .error .outOfFuel
  | fuel + 1, it, heap =>
      if it.isValid && !it.isEnd then do
        let (item, it') ← it.searchItem
        let it'' ← it'.next
        emplaceRest fuel it'' (heap.emplace item)
      else
        .ok heap

/-- The heap iterator over the items of a vector of iterators, `merge_sst_iterator`.  The
transaction id is not used. -/
def mergeSstIterator (fuel : ℕ) (iterVec : List SstIterator) (_trancId : TrancId)
    (keepAllVersions : Bool := false) : Except Fault HeapIterator :=
  if iterVec = [] then
    .ok {}
  else
    iterVec.foldlM (fun heap it => emplaceRest fuel it heap)
      { skipDelete := false, keepAllVersions }

/-! ### Showing every entry -/

/-- The iterator is at an entry of a block of the table, keeps everything, and has the
entries `es` left. -/
structure AtEntry (it : SstIterator) (sst : SST) (blockIt : BlockIterator) (es : List Entry) :
    Prop where
  sst_eq : it.sst = some sst
  blockIt_eq : it.blockIt = some blockIt
  inside : it.blockIdx < sst.numBlocks
  coherent : blockIt.Coherent
  maxTrancId_eq : it.maxTrancId = 0
  keepAllVersions_eq : it.keepAllVersions = true
  noTranc : blockIt.trancId = 0
  keepsAll : blockIt.keepAllVersions = true
  rest_ne : blockIt.rest ≠ []
  left : es = blockIt.rest ++ sst.entriesFrom (it.blockIdx + 1)
  entries_ne : ∀ b ∈ sst.blocks, b.entries ≠ []
  resolves : ∀ e ∈ es, sst.resolveValue e.value = .ok e.value

/-- The iterator shows every entry, and has the entries `es` left. -/
inductive Shows (it : SstIterator) : List Entry → Prop
  | atEnd (h : it.blockIt = none) : Shows it []
  | atEntry {sst : SST} {blockIt : BlockIterator} {es : List Entry}
      (h : it.AtEntry sst blockIt es) : Shows it es

/-- At an entry, the block iterator is at the same entry. -/
theorem AtEntry.rest_eq {it : SstIterator} {sst : SST} {blockIt : BlockIterator} {e : Entry}
    {es : List Entry} (h : it.AtEntry sst blockIt (e :: es)) :
  ∃ es', blockIt.rest = e :: es' ∧ es = es' ++ sst.entriesFrom (it.blockIdx + 1)
  := by
  have hleft := h.left
  cases hrest : blockIt.rest with
  | nil => exact absurd hrest h.rest_ne
  | cons e' es' =>
      rw [hrest, List.cons_append] at hleft
      obtain ⟨rfl, rfl⟩ := List.cons.inj hleft
      exact ⟨es', rfl, rfl⟩

/-- The iterator with the pair of `e` in the cache of its block iterator. -/
def withCached (it : SstIterator) (blockIt : BlockIterator) (e : Entry) : SstIterator :=
  { it with blockIt := some { blockIt with cachedValue := some e.pair } }

/-- At an entry, filling the cache of the block iterator leaves the iterator at the entry. -/
theorem AtEntry.fill {it : SstIterator} {sst : SST} {blockIt : BlockIterator} {e : Entry}
    {es : List Entry} (h : it.AtEntry sst blockIt (e :: es)) :
  (it.withCached blockIt e).AtEntry sst { blockIt with cachedValue := some e.pair } (e :: es)
  := by
  obtain ⟨es', hrest, -⟩ := h.rest_eq
  exact
    { sst_eq := h.sst_eq
      blockIt_eq := rfl
      inside := h.inside
      coherent := h.coherent.fill hrest
      maxTrancId_eq := h.maxTrancId_eq
      keepAllVersions_eq := h.keepAllVersions_eq
      noTranc := h.noTranc
      keepsAll := h.keepsAll
      rest_ne := h.rest_ne
      left := h.left
      entries_ne := h.entries_ne
      resolves := h.resolves }

theorem AtEntry.isEnd_eq {it : SstIterator} {sst : SST} {blockIt : BlockIterator}
    {es : List Entry} (h : it.AtEntry sst blockIt es) :
  it.isEnd = false
  := by
  rw [isEnd, h.blockIt_eq]
  rfl

theorem AtEntry.isValid_eq {it : SstIterator} {sst : SST} {blockIt : BlockIterator}
    {es : List Entry} (h : it.AtEntry sst blockIt es) :
  it.isValid = true
  := by
  have hend : blockIt.isEnd = false := by
    rw [Bool.eq_false_iff]
    intro hend
    apply h.rest_ne ((BlockIterator.isEnd_iff h.coherent).mp hend)
  rw [isValid, h.blockIt_eq, h.sst_eq]
  dsimp only
  rw [hend, decide_eq_true h.inside]
  rfl

theorem AtEntry.getCurTrancId_eq {it : SstIterator} {sst : SST} {blockIt : BlockIterator}
    {e : Entry} {es : List Entry} (h : it.AtEntry sst blockIt (e :: es)) :
  it.getCurTrancId = e.trancId
  := by
  obtain ⟨es', hrest, -⟩ := h.rest_eq
  rw [getCurTrancId, h.blockIt_eq]
  apply BlockIterator.getCurTrancId_of_rest hrest

theorem AtEntry.getTrancId_eq {it : SstIterator} {sst : SST} {blockIt : BlockIterator}
    {e : Entry} {es : List Entry} (h : it.AtEntry sst blockIt (e :: es)) :
  it.getTrancId = e.trancId
  := by
  have hid := h.getCurTrancId_eq
  rw [getCurTrancId, h.blockIt_eq] at hid
  rw [getTrancId, h.blockIt_eq]
  dsimp only at hid ⊢
  rw [if_pos h.keepAllVersions_eq, hid]

/-- At an entry, an iterator dereferences to the pair of the entry. -/
theorem AtEntry.deref_eq {it : SstIterator} {sst : SST} {blockIt : BlockIterator}
    {e : Entry} {es : List Entry} (h : it.AtEntry sst blockIt (e :: es)) :
  it.deref = .ok (e.pair, it.withCached blockIt e)
  := by
  obtain ⟨es', hrest, -⟩ := h.rest_eq
  have hvalue := h.resolves e List.mem_cons_self
  rw [deref, h.blockIt_eq, h.sst_eq]
  dsimp only
  rw [Except.bind_eq_of_ok _ (BlockIterator.deref_of_rest h.coherent hrest)]
  dsimp only
  rw [Entry.pair, Except.bind_eq_of_ok _ hvalue, withCached, h.sst_eq]
  rfl

theorem AtEntry.key_eq {it : SstIterator} {sst : SST} {blockIt : BlockIterator}
    {e : Entry} {es : List Entry} (h : it.AtEntry sst blockIt (e :: es)) :
  it.key = .ok (e.key, it.withCached blockIt e)
  := by
  obtain ⟨es', hrest, -⟩ := h.rest_eq
  rw [key, h.blockIt_eq]
  dsimp only
  rw [Except.bind_eq_of_ok _ (BlockIterator.arrow_of_rest h.coherent hrest)]
  rfl

theorem AtEntry.resolvedValue_eq {it : SstIterator} {sst : SST} {blockIt : BlockIterator}
    {e : Entry} {es : List Entry} (h : it.AtEntry sst blockIt (e :: es)) :
  it.resolvedValue = .ok (e.value, it.withCached blockIt e)
  := by
  obtain ⟨es', hrest, -⟩ := h.rest_eq
  have hvalue := h.resolves e List.mem_cons_self
  rw [resolvedValue, h.blockIt_eq, h.sst_eq]
  dsimp only
  rw [Except.bind_eq_of_ok _ (BlockIterator.deref_of_rest h.coherent hrest)]
  dsimp only
  rw [Entry.pair, Except.bind_eq_of_ok _ hvalue, withCached, h.sst_eq]
  rfl

/-- The search item at an entry is the entry. -/
theorem AtEntry.searchItem_eq {it : SstIterator} {sst : SST} {blockIt : BlockIterator}
    {e : Entry} {es : List Entry} (h : it.AtEntry sst blockIt (e :: es)) :
  ∃ item, item.entry = e ∧ it.searchItem = .ok (item, it.withCached blockIt e)
  := by
  use ⟨e.key, e.value, Int.bmod (-sst.sstId) (2 ^ 32), 0, e.trancId⟩
  constructor
  · rfl
  · rw [searchItem, h.sst_eq]
    dsimp only
    rw [Except.bind_eq_of_ok _ h.key_eq]
    dsimp only
    rw [Except.bind_eq_of_ok _ h.fill.resolvedValue_eq]
    dsimp only
    rw [h.fill.fill.getCurTrancId_eq]
    rfl

/-- Stepping from an entry leaves the other entries, those of the later blocks after those
of the block. -/
theorem AtEntry.next_shows {it : SstIterator} {sst : SST} {blockIt : BlockIterator}
    {e : Entry} {es : List Entry} (h : it.AtEntry sst blockIt (e :: es)) :
  ∃ it', it.next = .ok it' ∧ it'.Shows es
  := by
  obtain ⟨es', hrest, hes⟩ := h.rest_eq
  have hnext := BlockIterator.rest_next_of_keepsAll h.noTranc h.keepsAll hrest
  have hcoherent := BlockIterator.coherent_next h.coherent
  have hresolves : ∀ e' ∈ es, sst.resolveValue e'.value = .ok e'.value :=
    fun e' he' => h.resolves e' (List.mem_cons_of_mem e he')
  cases hend : blockIt.next.isEnd with
  | false =>
      have hat : AtEntry { it with blockIt := some blockIt.next } sst blockIt.next es :=
        { sst_eq := h.sst_eq
          blockIt_eq := rfl
          inside := h.inside
          coherent := hcoherent
          maxTrancId_eq := h.maxTrancId_eq
          keepAllVersions_eq := h.keepAllVersions_eq
          noTranc := by rw [BlockIterator.next_trancId, h.noTranc]
          keepsAll := by rw [BlockIterator.next_keepAllVersions, h.keepsAll]
          rest_ne := by
            rw [Ne, ← BlockIterator.isEnd_iff hcoherent, hend]
            apply Bool.false_ne_true
          left := by rw [hnext, hes]
          entries_ne := h.entries_ne
          resolves := hresolves }
      exact ⟨_, next_inside h.sst_eq h.blockIt_eq hend, .atEntry hat⟩
  | true =>
      have hnil : es' = [] := by rw [← hnext, (BlockIterator.isEnd_iff hcoherent).mp hend]
      rw [hnil, List.nil_append] at hes
      cases hblock : sst.blocks[it.blockIdx + 1]? with
      | some block =>
          have hlt : it.blockIdx + 1 < sst.numBlocks := (List.getElem?_eq_some_iff.mp hblock).1
          have hfrom := SST.entriesFrom_of_getElem? hblock
          have hat : AtEntry
              { it with
                blockIdx := it.blockIdx + 1
                blockIt :=
                  some (BlockIterator.atIndex block 0 it.maxTrancId it.keepAllVersions) }
              sst (BlockIterator.atIndex block 0 0 true) es :=
            { sst_eq := h.sst_eq
              blockIt_eq := by rw [h.maxTrancId_eq, h.keepAllVersions_eq]
              inside := hlt
              coherent := BlockIterator.coherent_atIndex (Nat.zero_le _) 0 true
              maxTrancId_eq := h.maxTrancId_eq
              keepAllVersions_eq := h.keepAllVersions_eq
              noTranc := rfl
              keepsAll := rfl
              rest_ne := h.entries_ne block (List.mem_of_getElem? hblock)
              left := by rw [hes, hfrom, BlockIterator.rest_atIndex_zero]
              entries_ne := h.entries_ne
              resolves := hresolves }
          exact ⟨_, next_block h.sst_eq h.blockIt_eq hend hblock, .atEntry hat⟩
      | none =>
          rw [hes, SST.entriesFrom_of_le (List.getElem?_eq_none_iff.mp hblock)]
          exact ⟨_, next_last h.sst_eq h.blockIt_eq hend hblock, .atEnd rfl⟩

theorem AtEntry.ne_nil {it : SstIterator} {sst : SST} {blockIt : BlockIterator}
    (h : it.AtEntry sst blockIt []) : False
  := h.rest_ne (List.append_eq_nil_iff.mp h.left.symm).1

/-- An iterator that shows every entry delivers the entries it has left. -/
theorem tracks_shows :
  (BaseIterator.cursor SstIterator).Tracks Shows
  where
  isEnd_nil := by
    intro it hshows
    change it.isEnd = true
    cases hshows with
    | atEnd h =>
        rw [isEnd, h]
        rfl
    | atEntry h => apply h.ne_nil.elim
  isEnd_cons := by
    intro it e es hshows
    cases hshows with
    | atEntry h => apply h.isEnd_eq
  peek_cons := by
    intro it e es hshows
    cases hshows with
    | atEntry h =>
        have hid := h.fill.getTrancId_eq
        refine ⟨_, ?_, .atEntry h.fill⟩
        change BaseIterator.entry it = _
        rw [BaseIterator.entry_of_deref h.deref_eq]
        change Except.ok (Entry.mk e.key e.value (it.withCached _ e).getTrancId, _) = _
        rw [hid]
  next_cons := by
    intro it e es hshows
    cases hshows with
    | atEntry h => apply h.next_shows

/-- An iterator at the start of a well-formed table shows the entries of the table. -/
theorem begin_shows {sst : SST} (h : sst.WellFormed) :
  ∃ it, sst.begin 0 true = .ok it ∧ it.Shows sst.entries
  := by
  have hpos : 0 < sst.numBlocks := List.length_pos_of_ne_nil h.blocks_ne
  obtain ⟨block, hread, hmem, hfrom⟩ := SST.readBlock_of_lt hpos
  rw [SST.begin, atFirst, seekFirst]
  dsimp only
  rw [if_neg hpos.ne', Except.bind_eq_of_ok _ hread]
  have hat : AtEntry
      { sst := some sst, maxTrancId := 0, keepAllVersions := true,
        blockIt := some (BlockIterator.atIndex block 0 0 true) }
      sst (BlockIterator.atIndex block 0 0 true) sst.entries :=
    { sst_eq := rfl
      blockIt_eq := rfl
      inside := hpos
      coherent := BlockIterator.coherent_atIndex (Nat.zero_le _) 0 true
      maxTrancId_eq := rfl
      keepAllVersions_eq := rfl
      noTranc := rfl
      keepsAll := rfl
      rest_ne := h.entries_ne block hmem
      left := by rw [SST.entries, hfrom, BlockIterator.rest_atIndex_zero]
      entries_ne := h.entries_ne
      resolves := h.resolves }
  exact ⟨_, rfl, .atEntry hat⟩

/-! ### Merging -/

/-- A heap iterator that filters nothing out and holds the entries `es`, in some order, with
its keys ordered. -/
structure Collects (heap : HeapIterator) (es : List Entry) : Prop where
  unfiltered : heap.Unfiltered
  keyOrdered : heap.KeyOrdered
  perm : (heap.items.toList.map SearchItem.entry).Perm es

theorem Collects.emplace {heap : HeapIterator} {es : List Entry} (h : Collects heap es)
    (item : SearchItem) :
  Collects (heap.emplace item) (item.entry :: es)
  where
  unfiltered := h.unfiltered.emplace item
  keyOrdered := h.keyOrdered.emplace item
  perm := ((BinaryHeap.push_perm SearchItem.gt heap.items item).map _).trans (h.perm.cons _)

theorem Collects.of_perm {heap : HeapIterator} {es es' : List Entry} (h : Collects heap es)
    (hperm : es.Perm es') :
  Collects heap es'
  := ⟨h.unfiltered, h.keyOrdered, h.perm.trans hperm⟩

/-- Emplacing the rest of an iterator adds the entries it has left. -/
theorem emplaceRest_of_shows
    {es : List Entry} {it : SstIterator} {heap : HeapIterator} {held : List Entry}
    (hshows : it.Shows es) (hheap : Collects heap held) :
  ∃ heap', Collects heap' (held ++ es) ∧
    ∀ fuel, es.length < fuel → emplaceRest fuel it heap = .ok heap'
  := by
  induction es generalizing it heap held with
  | nil =>
      have hend : it.isEnd = true := tracks_shows.isEnd_nil hshows
      refine ⟨heap, by rwa [List.append_nil], ?_⟩
      intro fuel hfuel
      obtain ⟨fuel, rfl⟩ := Nat.exists_eq_add_one.mpr hfuel
      rw [emplaceRest, hend, Bool.not_true, Bool.and_false, if_neg Bool.false_ne_true]
  | cons e es ih =>
      cases hshows with
      | atEntry h =>
          obtain ⟨item, rfl, hitem⟩ := h.searchItem_eq
          obtain ⟨it', hnext, hshows'⟩ := h.fill.next_shows
          obtain ⟨heap', hheap', hrest⟩ := ih hshows' (hheap.emplace item)
          refine ⟨heap', hheap'.of_perm List.perm_middle.symm, ?_⟩
          intro fuel hfuel
          obtain ⟨fuel, rfl⟩ := Nat.exists_eq_add_one.mpr (Nat.zero_lt_of_lt hfuel)
          rw [emplaceRest, h.isEnd_eq, h.isValid_eq, Bool.not_false, Bool.and_self, if_pos rfl,
            Except.bind_eq_of_ok _ hitem]
          dsimp only
          rw [Except.bind_eq_of_ok _ hnext]
          apply hrest fuel (Nat.lt_of_succ_lt_succ hfuel)

/-- Emplacing the rests of iterators adds the entries they have left. -/
theorem foldlM_emplaceRest
    {its : List SstIterator} {ess : List (List Entry)} (hshows : List.Forall₂ Shows its ess)
    {heap : HeapIterator} {held : List Entry} (hheap : Collects heap held) :
  ∃ heap', Collects heap' (held ++ ess.flatten) ∧
    ∀ fuel, (∀ es ∈ ess, es.length < fuel) →
      its.foldlM (fun heap it => emplaceRest fuel it heap) heap = .ok heap'
  := by
  induction hshows generalizing heap held with
  | nil =>
      rw [List.flatten_nil, List.append_nil]
      exact ⟨heap, hheap, fun _ _ => rfl⟩
  | @cons it es its ess hit _ ih =>
      obtain ⟨heap', hheap', hrun⟩ := emplaceRest_of_shows hit hheap
      obtain ⟨heap'', hheap'', hruns⟩ := ih hheap'
      use heap''
      constructor
      · rw [List.flatten_cons, ← List.append_assoc]
        apply hheap''
      · intro fuel hfuel
        rw [List.foldlM_cons, Except.bind_eq_of_ok _ (hrun fuel (hfuel es List.mem_cons_self))]
        apply hruns fuel (fun es' hes' => hfuel es' (List.mem_cons_of_mem es hes'))

/-- Merging iterators that show every entry gives a heap iterator that shows their entries,
its keys not decreasing. -/
theorem mergeSstIterator_shows
    {its : List SstIterator} {ess : List (List Entry)} (hshows : List.Forall₂ Shows its ess)
    (trancId : TrancId) :
  ∃ heap es, heap.Shows es ∧ es.Perm ess.flatten ∧
    es.Pairwise (fun e e' => e.key ≤ e'.key) ∧
    ∀ fuel, (∀ es ∈ ess, es.length < fuel) →
      mergeSstIterator fuel its trancId true = .ok heap
  := by
  cases hshows with
  | nil =>
      refine ⟨{}, [], ⟨Or.inl rfl, [], rfl, rfl⟩, .nil, .nil, ?_⟩
      intro fuel _
      rfl
  | @cons it es its ess hit hits =>
      have hstart : Collects { skipDelete := false, keepAllVersions := true } [] :=
        { unfiltered := ⟨rfl, rfl, rfl⟩
          keyOrdered := BinaryHeap.ordered_empty
          perm := List.Perm.nil }
      obtain ⟨heap, hheap, hrun⟩ := foldlM_emplaceRest (.cons hit hits) hstart
      obtain ⟨es', hshows', hperm⟩ := HeapIterator.exists_shows (.inr hheap.unfiltered)
      refine ⟨heap, es', hshows', hperm.trans hheap.perm, hshows'.pairwise hheap.keyOrdered, ?_⟩
      intro fuel hfuel
      rw [mergeSstIterator, if_neg (List.cons_ne_nil it its)]
      apply hrun fuel hfuel

end SstIterator

end TinyLsm
