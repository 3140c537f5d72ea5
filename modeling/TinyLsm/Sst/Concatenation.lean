import TinyLsm.Library.Relay
import TinyLsm.Sst.ConcactIterator
import TinyLsm.Sst.SnapshotScan

/-!
# Stepping over a sequence of tables

The iterator over a sequence of tables hands over to the next table when stepping leaves the one
before it, whatever this table shows.  It does not look for a table that shows something, neither
then nor when it is built.  If a table shows nothing the iterator is not valid there, and nothing
of the later tables is met.
-/

namespace TinyLsm

/-- Something of the first block of a table is visible. -/
def SST.Starts (trancId : TrancId) (sst : SST) : Prop :=
  ∃ b ∈ sst.blocks.head?, b.Shows trancId

/-- The pairs met by stepping the iterator at the start of a table as long as it is valid. -/
def SST.scanBegin (fuel : ℕ) (trancId : TrancId) (keepAllVersions : Bool) (sst : SST) :
    Except Fault (List (Bytes × Bytes)) := do
  let it ← sst.begin trancId keepAllVersions
  it.scan fuel

namespace SstIterator

/-- An iterator as a cursor that ends where it is not valid. -/
def scanCursor : Cursor Fault (Bytes × Bytes) SstIterator where
  isEnd it := !it.isValid
  peek := deref
  next := next

/-- The block iterator is coherent. -/
def Placed (it : SstIterator) : Prop := ∀ blockIt ∈ it.blockIt, blockIt.Coherent

/-- The number of entries from the position of an iterator on. -/
def left (it : SstIterator) : ℕ :=
  match it.blockIt, it.sst with
  | some blockIt, some sst => blockIt.rest.length + (sst.entriesFrom (it.blockIdx + 1)).length
  | _, _ => 0

/-- A valid iterator is at an entry. -/
theorem exists_of_isValid {it : SstIterator} (hplaced : it.Placed) (hvalid : it.isValid = true) :
  ∃ sst blockIt e es, it.sst = some sst ∧ it.blockIt = some blockIt ∧ blockIt.Coherent ∧
    blockIt.rest = e :: es ∧ it.blockIdx < sst.numBlocks
  := by
  rw [isValid] at hvalid
  split at hvalid
  next blockIt sst hblockIt hsst =>
    have hcoherent := hplaced blockIt hblockIt
    obtain ⟨hend, hinside⟩ := (Bool.and_eq_true _ _).mp hvalid
    cases hrest : blockIt.rest with
    | nil =>
        rw [(BlockIterator.isEnd_iff hcoherent).mpr hrest] at hend
        cases hend
    | cons e es =>
        exact ⟨sst, blockIt, e, es, hsst, hblockIt, hcoherent, hrest, of_decide_eq_true hinside⟩
  next => cases hvalid

/-- At an entry an iterator dereferences to its key and what its value resolves to. -/
theorem deref_of_rest {it : SstIterator} {sst : SST} {blockIt : BlockIterator} {e : Entry}
    {es : List Entry} (hsst : it.sst = some sst) (hblockIt : it.blockIt = some blockIt)
    (hcoherent : blockIt.Coherent) (hrest : blockIt.rest = e :: es) :
  it.deref = (sst.resolveValue e.value).map (fun value => ((e.key, value), it.withCached blockIt e))
  := by
  rw [deref, hblockIt, hsst]
  dsimp only
  rw [Except.bind_eq_of_ok _ (BlockIterator.deref_of_rest hcoherent hrest)]
  dsimp only [Entry.pair, withCached]
  rw [hsst]
  cases sst.resolveValue e.value with
  | error fault => rfl
  | ok value => rfl

/-- The rest of a block after a step is shorter. -/
theorem length_rest_next {blockIt : BlockIterator} {e : Entry} {es : List Entry}
    (hrest : blockIt.rest = e :: es) :
  blockIt.next.rest.length < blockIt.rest.length
  := by
  rw [BlockIterator.rest_next hrest, hrest, List.length_cons, Nat.lt_succ_iff]
  apply (List.length_dropWhile_le _ _).trans
  split
  · apply le_rfl
  · apply List.length_dropWhile_le

theorem placed_atIndex (it : SstIterator) (blockIdx : ℕ) (block : Block) :
  Placed { it with
    blockIdx := blockIdx
    blockIt := some (BlockIterator.atIndex block 0 it.maxTrancId it.keepAllVersions) }
  := by
  rintro blockIt ⟨⟩
  apply BlockIterator.coherent_atIndex (Nat.zero_le _)

theorem length_rest_atIndex (block : Block) (trancId : TrancId) (keepAllVersions : Bool) :
  (BlockIterator.atIndex block 0 trancId keepAllVersions).rest.length ≤ block.entries.length
  := by
  rw [BlockIterator.atIndex, BlockIterator.rest_skipByTrancId]
  apply List.length_dropWhile_le

/-- Stepping from an entry leaves fewer entries. -/
theorem next_of_rest {it : SstIterator} {sst : SST} {blockIt : BlockIterator} {e : Entry}
    {es : List Entry} (hsst : it.sst = some sst) (hblockIt : it.blockIt = some blockIt)
    (hcoherent : blockIt.Coherent) (hrest : blockIt.rest = e :: es) :
  ∃ it', it.next = .ok it' ∧ it'.Placed ∧ it'.left < it.left
  := by
  have hlt := length_rest_next hrest
  have hleft : it.left = blockIt.rest.length + (sst.entriesFrom (it.blockIdx + 1)).length := by
    rw [left, hblockIt, hsst]
  rw [hleft]
  cases hend : blockIt.next.isEnd with
  | false =>
      refine ⟨_, next_inside hsst hblockIt hend, ?_, ?_⟩
      · rintro blockIt' ⟨⟩
        exact BlockIterator.coherent_next hcoherent
      · rw [left, hsst]
        exact Nat.add_lt_add_right hlt _
  | true =>
      cases hblock : sst.blocks[it.blockIdx + 1]? with
      | some block =>
          refine ⟨_, next_block hsst hblockIt hend hblock, placed_atIndex it _ block, ?_⟩
          have hblockLeft := length_rest_atIndex block it.maxTrancId it.keepAllVersions
          rw [left, hsst, SST.entriesFrom_of_getElem? hblock, List.length_append]
          change (BlockIterator.atIndex block 0 it.maxTrancId it.keepAllVersions).rest.length +
            (sst.entriesFrom (it.blockIdx + 1 + 1)).length < _
          omega
      | none =>
          refine ⟨_, next_last hsst hblockIt hend hblock, by rintro _ ⟨⟩, ?_⟩
          change 0 < _
          omega

/-- From any position an iterator delivers something, in as many steps as entries are left. -/
theorem exists_delivers {n : ℕ} {it : SstIterator} (hplaced : it.Placed) (hleft : it.left ≤ n) :
  ∃ out, scanCursor.Delivers it n out
  := by
  induction n generalizing it with
  | zero =>
      cases hvalid : it.isValid with
      | false => exact ⟨_, .done (congrArg not hvalid)⟩
      | true =>
          obtain ⟨sst, blockIt, e, es, hsst, hblockIt, -, hrest, -⟩ :=
            exists_of_isValid hplaced hvalid
          rw [left, hblockIt, hsst] at hleft
          dsimp only at hleft
          rw [hrest, List.length_cons] at hleft
          omega
  | succ n ih =>
      cases hvalid : it.isValid with
      | false => exact ⟨_, .done (congrArg not hvalid)⟩
      | true =>
          obtain ⟨sst, blockIt, e, es, hsst, hblockIt, hcoherent, hrest, -⟩ :=
            exists_of_isValid hplaced hvalid
          have hderef := deref_of_rest hsst hblockIt hcoherent hrest
          cases hvalue : sst.resolveValue e.value with
          | error fault =>
              rw [hvalue] at hderef
              exact ⟨_, .peekFault (congrArg not hvalid) hderef⟩
          | ok value =>
              rw [hvalue] at hderef
              have hcached : (it.withCached blockIt e).sst = some sst := hsst
              obtain ⟨it', hnext, hplaced', hlt⟩ :=
                next_of_rest hcached rfl (hcoherent.fill hrest) hrest
              have hsame : (it.withCached blockIt e).left = it.left := by
                rw [left, left, hblockIt, withCached, hsst]
                rfl
              obtain ⟨out, hout⟩ := ih hplaced' (by omega)
              exact ⟨_, .step (congrArg not hvalid) hderef hnext hout⟩

end SstIterator

/-- The iterator at the start of a block is at the end if nothing of the block is visible. -/
theorem BlockIterator.isEnd_atIndex_iff (block : Block) (trancId : TrancId)
    (keepAllVersions : Bool) :
  (atIndex block 0 trancId keepAllVersions).isEnd = true ↔ ¬ block.Shows trancId
  := by
  rw [isEnd_iff (coherent_atIndex (Nat.zero_le _) trancId keepAllVersions), atIndex,
    rest_skipByTrancId, List.dropWhile_eq_nil_iff, Block.Shows]
  simp only [not_exists, not_and]
  apply forall_congr'
  intro e
  apply imp_congr_right
  intro _
  exact invisible_iff rfl e

namespace SST

/-- The iterator at the start of a table has at most the entries of the table left, and is valid
if and only if the table starts with something visible. -/
theorem begin_placed (sst : SST) (trancId : TrancId) (keepAllVersions : Bool) :
  ∃ it, sst.begin trancId keepAllVersions = .ok it ∧ it.Placed ∧ it.left ≤ sst.entries.length ∧
    (it.isValid = true ↔ sst.Starts trancId)
  := by
  rw [SST.begin, SstIterator.atFirst, SstIterator.seekFirst]
  dsimp only
  split
  next hzero =>
    refine ⟨_, rfl, by rintro _ ⟨⟩, Nat.zero_le _, ?_⟩
    apply iff_of_false
    · rintro ⟨⟩
    · rintro ⟨b, hb, -⟩
      rw [List.eq_nil_of_length_eq_zero hzero] at hb
      cases hb
  next hpos =>
    have hinside : 0 < sst.numBlocks := Nat.pos_of_ne_zero hpos
    obtain ⟨block, hblock, -, hfrom⟩ := readBlock_of_lt hinside
    rw [Except.bind_eq_of_ok _ hblock]
    refine ⟨_, rfl, SstIterator.placed_atIndex ⟨some sst, 0, trancId, none, none, keepAllVersions⟩
      0 block, ?_, ?_⟩
    · have hblockLeft := SstIterator.length_rest_atIndex block trancId keepAllVersions
      rw [SST.entries, hfrom, List.length_append]
      change _ + (sst.entriesFrom (0 + 1)).length ≤ _
      exact Nat.add_le_add_right hblockLeft _
    · have hhead : sst.blocks.head? = some block := by
        rw [List.head?_eq_getElem?]
        rw [readBlock] at hblock
        split at hblock
        next heq =>
          cases hblock
          exact heq
        next => cases hblock
      rw [Starts, hhead, SstIterator.isValid]
      dsimp only
      rw [decide_eq_true hinside, Bool.and_true, Bool.not_eq_true', Bool.eq_false_iff, Ne,
        BlockIterator.isEnd_atIndex_iff, not_not]
      simp

end SST

namespace SST

/-- Stepping from the start of a table meets what the iterator there delivers. -/
theorem scanBegin_of_delivers {sst : SST} {trancId : TrancId} {keepAllVersions : Bool}
    {it : SstIterator} (hbegin : sst.begin trancId keepAllVersions = .ok it) {n fuel : ℕ}
    {out : Except Fault (List (Bytes × Bytes))} (h : SstIterator.scanCursor.Delivers it n out)
    (hfuel : n < fuel) :
  sst.scanBegin fuel trancId keepAllVersions = out
  := by
  rw [scanBegin, Except.bind_eq_of_ok _ hbegin]
  apply Cursor.drain_of_delivers _ h hfuel

/-- Stepping from the start of a table meets nothing if and only if the table does not start with
something visible. -/
theorem scanBegin_eq_nil_iff {sst : SST} {trancId : TrancId} {keepAllVersions : Bool} {fuel : ℕ}
    (hfuel : sst.entries.length < fuel) :
  sst.scanBegin fuel trancId keepAllVersions = .ok [] ↔ ¬ sst.Starts trancId
  := by
  obtain ⟨it, hbegin, hplaced, hleft, hstarts⟩ := sst.begin_placed trancId keepAllVersions
  obtain ⟨out, hout⟩ := SstIterator.exists_delivers hplaced hleft
  rw [scanBegin_of_delivers hbegin hout hfuel, ← hstarts, Bool.not_eq_true]
  constructor
  · intro hnil
    cases hvalid : it.isValid with
    | false => rfl
    | true => exact absurd hnil (hout.ne_of_not_isEnd (congrArg not hvalid))
  · intro hvalid
    exact hout.eq_of_isEnd (congrArg not hvalid)

end SST

namespace ConcactIterator

/-- An iterator as a cursor that ends where it is not valid. -/
def scanCursor : Cursor Fault (Bytes × Bytes) ConcactIterator where
  isEnd it := !it.isValid
  peek := deref
  next := next

/-- The pairs met by stepping an iterator as long as it is valid. -/
def scan (fuel : ℕ) (it : ConcactIterator) : Except Fault (List (Bytes × Bytes)) :=
  scanCursor.drain .outOfFuel fuel it

/-- The pairs met by stepping the iterator over tables as long as it is valid. -/
def scanSsts (fuel : ℕ) (trancId : TrancId) (keepAllVersions : Bool) (ssts : List SST) :
    Except Fault (List (Bytes × Bytes)) := do
  let it ← ofSsts ssts trancId keepAllVersions
  it.scan fuel

/-- Move on to the next table, if there is one. -/
def handOver (it : ConcactIterator) : Except Fault ConcactIterator :=
  match it.ssts[it.curIdx + 1]? with
  | some sst => do
      let curIter ← sst.begin it.maxTrancId it.keepAllVersions
      return { it with curIter, curIdx := it.curIdx + 1 }
  | none => do
      let curIter ← SstIterator.atFirst none it.maxTrancId
      return { it with curIter, curIdx := it.curIdx + 1 }

theorem isEnd_or_isValid (it : SstIterator) :
  (it.isEnd || !it.isValid) = !it.isValid
  := by
  cases hblockIt : it.blockIt with
  | none =>
      rw [SstIterator.isEnd, SstIterator.isValid, hblockIt]
      rfl
  | some blockIt =>
      rw [SstIterator.isEnd, hblockIt]
      rfl

/-- The iterator over tables is a relay of the iterators over the tables. -/
def relay : Cursor.Relay SstIterator.scanCursor scanCursor where
  current it := it.curIter
  withCurrent it curIter := { it with curIter }
  handOver := handOver
  withCurrent_current _ := rfl
  current_withCurrent _ _ := rfl
  withCurrent_withCurrent _ _ _ := rfl
  handOver_withCurrent _ _ := rfl
  isEnd_eq it := by
    have hend := isEnd_or_isValid it.curIter
    change (!(!it.curIter.isEnd && it.curIter.isValid)) = !it.curIter.isValid
    rw [Bool.not_and, Bool.not_not, hend]
  peek_eq it := by
    change (it.curIter.deref >>= _) = _
    change _ = (it.curIter.deref).map _
    cases it.curIter.deref with
    | error fault => rfl
    | ok p => rfl
  next_eq it := by
    change (it.curIter.next >>= _) = (it.curIter.next).bind _
    cases it.curIter.next with
    | error fault => rfl
    | ok stepped =>
        change (if (stepped.isEnd || !stepped.isValid) = true then _ else _) = _
        rw [isEnd_or_isValid]
        rfl

section

variable {fuel : ℕ} {trancId : TrancId} {keepAllVersions : Bool}

/-- From the start of a table the iterator delivers what is met there, and then, unless this is
nothing, what it delivers from where it hands over to. -/
theorem delivers_begin {it t : ConcactIterator} {sst : SST} {later : List SST} {m : ℕ}
    (hbegin : sst.begin trancId keepAllVersions = .ok it.curIter)
    (hfuel : sst.entries.length < fuel) (hover : it.handOver = .ok t)
    (hrest : scanCursor.Delivers t m
      (Cursor.chained (SST.scanBegin fuel trancId keepAllVersions) later)) :
  scanCursor.Delivers it (sst.entries.length + m)
    (Cursor.chained (SST.scanBegin fuel trancId keepAllVersions) (sst :: later))
  := by
  obtain ⟨curIter, hbegin', hplaced, hleft, -⟩ := sst.begin_placed trancId keepAllVersions
  cases hbegin.symm.trans hbegin'
  obtain ⟨out, hout⟩ := SstIterator.exists_delivers hplaced hleft
  have hscan := SST.scanBegin_of_delivers hbegin hout hfuel
  cases hvalid : it.curIter.isValid with
  | false =>
      have hnil := hout.eq_of_isEnd (congrArg not hvalid)
      rw [Cursor.chained_cons_of_eq (hscan.trans hnil)]
      apply Cursor.Delivers.done
      rw [relay.isEnd_eq]
      exact congrArg not hvalid
  | true =>
      have hne := hout.ne_of_not_isEnd (congrArg not hvalid)
      rw [Cursor.chained_cons_of_ne (hscan.symm ▸ hne), hscan]
      exact relay.delivers hout (congrArg not hvalid) hover hrest

/-- Where an iterator hands over to, it delivers what is met in the later tables up to one that
does not start with something visible. -/
theorem handOver_delivers (it : ConcactIterator) {later : List SST}
    (hlater : it.ssts.drop (it.curIdx + 1) = later) (hid : it.maxTrancId = trancId)
    (hkeep : it.keepAllVersions = keepAllVersions)
    (hfuel : ∀ sst ∈ later, sst.entries.length < fuel) :
  ∃ t, it.handOver = .ok t ∧ scanCursor.Delivers t (later.flatMap SST.entries).length
    (Cursor.chained (SST.scanBegin fuel trancId keepAllVersions) later)
  := by
  induction later generalizing it with
  | nil =>
      have hnone : it.ssts[it.curIdx + 1]? = none :=
        List.getElem?_eq_none_iff.mpr (List.drop_eq_nil_iff.mp hlater)
      rw [handOver, hnone]
      exact ⟨_, rfl, .done rfl⟩
  | cons sst later ih =>
      obtain ⟨hsst, hfuel⟩ := List.forall_mem_cons.mp hfuel
      have hsome : it.ssts[it.curIdx + 1]? = some sst := by
        rw [← List.head?_drop, hlater]
        rfl
      have hlater' : it.ssts.drop (it.curIdx + 1 + 1) = later := by
        rw [← List.drop_drop, hlater]
        rfl
      obtain ⟨curIter, hbegin, -⟩ := sst.begin_placed trancId keepAllVersions
      obtain ⟨t, hover, hrest⟩ :=
        ih { it with curIter, curIdx := it.curIdx + 1 } hlater' hid hkeep hfuel
      have hthis := delivers_begin hbegin hsst hover hrest
      rw [handOver, hsome]
      dsimp only
      rw [hid, hkeep, Except.bind_eq_of_ok _ hbegin]
      refine ⟨_, rfl, ?_⟩
      rw [List.flatMap_cons, List.length_append, ← hid, ← hkeep]
      rw [← hid, ← hkeep] at hthis
      exact hthis

theorem entries_sublist_flatMap {ssts : List SST} {sst : SST} (h : sst ∈ ssts) :
  sst.entries.Sublist (ssts.flatMap SST.entries)
  := by
  apply List.sublist_flatten_of_mem
  exact List.mem_map_of_mem h

/-- Stepping over tables meets what is met in each of them up to one that does not start with
something visible. -/
theorem scanSsts_eq_chained {ssts : List SST} (hfuel : (ssts.flatMap SST.entries).length < fuel) :
  scanSsts fuel trancId keepAllVersions ssts =
    Cursor.chained (SST.scanBegin fuel trancId keepAllVersions) ssts
  := by
  cases ssts with
  | nil =>
      apply Cursor.drain_of_delivers (n := 0) _ (.done rfl) hfuel
  | cons sst later =>
      rw [List.flatMap_cons, List.length_append] at hfuel
      have hlater : ∀ sst' ∈ later, sst'.entries.length < fuel := by
        intro sst' hsst'
        have hle := (entries_sublist_flatMap hsst').length_le
        omega
      obtain ⟨curIter, hbegin, -⟩ := sst.begin_placed trancId keepAllVersions
      obtain ⟨t, hover, hrest⟩ :=
        handOver_delivers ⟨curIter, 0, sst :: later, trancId, keepAllVersions⟩ rfl rfl rfl hlater
      have hthis := delivers_begin hbegin (by omega) hover hrest
      rw [scanSsts, ofSsts, Except.bind_eq_of_ok _ hbegin]
      exact Cursor.drain_of_delivers _ hthis hfuel

/-- Stepping over tables meets what is met in all of them exactly if no table that starts with
something visible comes after one that does not, where no failure comes before. -/
theorem scanSsts_eq_concatenation_iff {ssts : List SST}
    (hfuel : (ssts.flatMap SST.entries).length < fuel) :
  scanSsts fuel trancId keepAllVersions ssts =
      (ssts.mapM (SST.scanBegin fuel trancId keepAllVersions)).map List.flatten ↔
    ∀ before sst after, ssts = before ++ sst :: after →
      (∀ sst' ∈ before, ∃ ps, sst'.scanBegin fuel trancId keepAllVersions = .ok ps) →
      ¬ sst.Starts trancId → ∀ sst' ∈ after, ¬ sst'.Starts trancId
  := by
  have hnil : ∀ sst ∈ ssts, sst.scanBegin fuel trancId keepAllVersions = .ok [] ↔
      ¬ sst.Starts trancId := by
    intro sst hsst
    apply SST.scanBegin_eq_nil_iff
    exact (entries_sublist_flatMap hsst).length_le.trans_lt hfuel
  rw [scanSsts_eq_chained hfuel]
  apply Cursor.chained_eq_concatenated_iff.trans
  constructor
  · rintro h before sst after rfl hbefore hstarts sst' hsst'
    have hsst := (hnil sst (by simp)).mpr hstarts
    apply (hnil sst' (by simp [hsst'])).mp (h before sst after rfl hbefore hsst sst' hsst')
  · rintro h before sst after rfl hbefore hsst sst' hsst'
    have hstarts := (hnil sst (by simp)).mp hsst
    apply (hnil sst' (by simp [hsst'])).mpr (h before sst after rfl hbefore hstarts sst' hsst')

end

/-- A table with a version of a later transaction. -/
def unseenTable : SST := ⟨1, [⟨[⟨[1], [7], 5⟩]⟩], 0, none⟩

/-- A table with a version of an earlier transaction. -/
def seenTable : SST := ⟨2, [⟨[⟨[2], [8], 1⟩]⟩], 0, none⟩

theorem scanSsts_eq_concatenation_iff_seenTable :
  scanSsts 3 2 false [seenTable, unseenTable] =
      ([seenTable, unseenTable].mapM (SST.scanBegin 3 2 false)).map List.flatten ↔
    ∀ before sst after, [seenTable, unseenTable] = before ++ sst :: after →
      (∀ sst' ∈ before, ∃ ps, sst'.scanBegin 3 2 false = .ok ps) →
      ¬ sst.Starts 2 → ∀ sst' ∈ after, ¬ sst'.Starts 2
  := scanSsts_eq_concatenation_iff (by decide)

/-- A table of which nothing is visible hides those after it. -/
theorem not_scanSsts_eq_concatenation :
  ¬ ∀ (fuel : ℕ) (trancId : TrancId) (keepAllVersions : Bool) (ssts : List SST),
    (ssts.flatMap SST.entries).length < fuel →
    scanSsts fuel trancId keepAllVersions ssts =
      (ssts.mapM (SST.scanBegin fuel trancId keepAllVersions)).map List.flatten
  := by
  intro h
  have heq := h 3 2 false [unseenTable, seenTable] (by decide)
  have hscan : scanSsts 3 2 false [unseenTable, seenTable] = .ok [] := rfl
  have hall : ([unseenTable, seenTable].mapM (SST.scanBegin 3 2 false)).map List.flatten =
      .ok [([2], [8])] := rfl
  rw [hscan, hall] at heq
  cases heq

end ConcactIterator

end TinyLsm
