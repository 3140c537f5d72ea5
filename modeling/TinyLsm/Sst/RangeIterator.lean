import TinyLsm.Sst.Concatenation

/-!
# Ranges in a table

A range in a table is two iterators, one at its start and one at its end.  Iterators are compared
by their blocks, each as the object that was read, and their places in these.

Stepping never stops at the end of a block: it moves on to the next block, or to no block.  So an
end is reached only if it comes before a key of its block; and an end in a later block than the
start only if this block is read again as the same object, as it is as long as the block cache has
it.
-/

namespace TinyLsm

/-- A table with blocks that are not empty, sorted by key, with the versions of a key in one
block. -/
structure SST.Sorted (sst : SST) : Prop where
  blocks_ne : sst.blocks ≠ []
  entries_ne : ∀ b ∈ sst.blocks, b.entries ≠ []
  sorted : Keyed.Sorted Entry.key sst.entries
  together : sst.blocks.Pairwise (fun b b' => ∀ e ∈ b.entries, ∀ e' ∈ b'.entries, e.key ≠ e'.key)

/-- An iterator over a table with the address of the block its block iterator is over. -/
structure RangeIterator where
  it : SstIterator
  address : ℕ

namespace RangeIterator

/-- `operator==` of iterators over one table, which compares blocks by their addresses. -/
def equals (a b : RangeIterator) : Bool :=
  decide (a.it.blockIdx = b.it.blockIdx) &&
    match a.it.blockIt, b.it.blockIt with
    | none, none => true
    | some blockIt, some blockIt' =>
        decide (a.address = b.address) && decide (blockIt.currentIndex = blockIt'.currentIndex)
    | _, _ => false

/-- Step an iterator.  A block that is read on the way has an address of its own. -/
def next (addressInSteps : ℕ → ℕ) (a : RangeIterator) : Except Fault RangeIterator := do
  let it ← a.it.next
  return ⟨it, if it.blockIdx = a.it.blockIdx then a.address else addressInSteps it.blockIdx⟩

/-- Stepping leads to an end, past keys. -/
inductive Reaches (addressInSteps : ℕ → ℕ) (stop : RangeIterator) :
    RangeIterator → List Bytes → Prop
  | done {a : RangeIterator} : a.equals stop = true → Reaches addressInSteps stop a []
  | step {a a' : RangeIterator} {it : SstIterator} {key : Bytes} {keys : List Bytes} :
      a.equals stop = false → a.it.key = .ok (key, it) →
      next addressInSteps ⟨it, a.address⟩ = .ok a' → Reaches addressInSteps stop a' keys →
      Reaches addressInSteps stop a (key :: keys)

end RangeIterator

/-! ### Keys -/

/-- The keys of versions, each one once. -/
def keysOf (es : List Entry) : List Bytes := (Keyed.firsts Entry.key es).map Entry.key

theorem keysOf_cons (e : Entry) (es : List Entry) :
  keysOf (e :: es) = e.key :: keysOf (Keyed.dropKey Entry.key e.key es)
  := by
  rw [keysOf, Keyed.firsts_cons]
  rfl

theorem keysOf_append {es es' : List Entry} (h : ∀ e ∈ es, ∀ e' ∈ es', e'.key ≠ e.key) :
  keysOf (es ++ es') = keysOf es ++ keysOf es'
  := by
  rw [keysOf, Keyed.firsts_append h, List.map_append]
  rfl

theorem mem_keysOf {key : Bytes} {es : List Entry} :
  key ∈ keysOf es ↔ ∃ e ∈ es, e.key = key
  := by
  rw [keysOf, List.mem_map]
  constructor
  · rintro ⟨e, he, hkey⟩
    exact ⟨e, (Keyed.firsts_sublist es).subset he, hkey⟩
  · rintro ⟨e, he, rfl⟩
    cases hfirst : Keyed.firstOf Entry.key e.key (Keyed.firsts Entry.key es) with
    | none =>
        rw [Keyed.firstOf_firsts, Keyed.firstOf_eq_none] at hfirst
        exact absurd rfl (hfirst e he)
    | some e' =>
        obtain ⟨hmem, hkey⟩ := Keyed.firstOf_eq_some hfirst
        exact ⟨e', hmem, hkey⟩

theorem nodup_keysOf {es : List Entry} (h : Keyed.Sorted Entry.key es) : (keysOf es).Nodup
  := by
  have hascending := h.firsts
  rw [keysOf, List.Nodup, List.pairwise_map]
  exact hascending.imp ne_of_lt

/-! ### Stepping -/

namespace RangeIterator

variable {sst : SST} {addressInSteps : ℕ → ℕ}

/-- The iterator is in a block of the table, with the entries left of the block. -/
structure At (sst : SST) (a : RangeIterator) (blockIdx : ℕ) (block : Block) (rest : List Entry)
    (address : ℕ) : Prop where
  sst_eq : a.it.sst = some sst
  blockIdx_eq : a.it.blockIdx = blockIdx
  block_eq : sst.blocks[blockIdx]? = some block
  maxTrancId_eq : a.it.maxTrancId = 0
  keepAllVersions_eq : a.it.keepAllVersions = false
  address_eq : a.address = address
  blockIt : ∃ blockIt, a.it.blockIt = some blockIt ∧ blockIt.block = block ∧
    blockIt.Coherent ∧ blockIt.trancId = 0 ∧ blockIt.keepAllVersions = false ∧ blockIt.rest = rest

section

variable {a : RangeIterator} {blockIdx : ℕ} {block : Block} {e : Entry} {es : List Entry}
  {address : ℕ}

/-- Reading the key moves nothing. -/
theorem At.key (h : At sst a blockIdx block (e :: es) address) :
  ∃ it, a.it.key = .ok (e.key, it) ∧ At sst ⟨it, a.address⟩ blockIdx block (e :: es) address
  := by
  obtain ⟨blockIt, hblockIt, hblock, hcoherent, hid, hkeep, hrest⟩ := h.blockIt
  refine ⟨a.it.withCached blockIt e, ?_, h.sst_eq, h.blockIdx_eq, h.block_eq, h.maxTrancId_eq,
    h.keepAllVersions_eq, h.address_eq, ?_⟩
  · rw [SstIterator.key, hblockIt]
    dsimp only
    rw [Except.bind_eq_of_ok _ (BlockIterator.arrow_of_rest hcoherent hrest)]
    rfl
  · exact ⟨_, rfl, hblock, hcoherent.fill hrest, hid, hkeep, hrest⟩

/-- The block iterator after a step has dropped the key. -/
theorem At.exists_next (h : At sst a blockIdx block (e :: es) address) :
  ∃ blockIt, a.it.blockIt = some blockIt ∧ blockIt.next.block = block ∧
    blockIt.next.Coherent ∧ blockIt.next.trancId = 0 ∧ blockIt.next.keepAllVersions = false ∧
    blockIt.next.rest = Keyed.dropKey Entry.key e.key es ∧
    (blockIt.next.isEnd = true ↔ Keyed.dropKey Entry.key e.key es = [])
  := by
  obtain ⟨blockIt, hblockIt, hblock, hcoherent, hid, hkeep, hrest⟩ := h.blockIt
  have hcoherent' := BlockIterator.coherent_next hcoherent
  have hrest' := BlockIterator.rest_next_of_firstVersions hid hkeep hrest
  have hend := BlockIterator.isEnd_iff hcoherent'
  rw [hrest'] at hend
  refine ⟨blockIt, hblockIt, ?_, hcoherent', ?_, ?_, hrest', hend⟩
  · rw [BlockIterator.next_block, hblock]
  · rw [BlockIterator.next_trancId, hid]
  · rw [BlockIterator.next_keepAllVersions, hkeep]

variable (addressInSteps) in
theorem At.next_inside (h : At sst a blockIdx block (e :: es) address)
    (hne : Keyed.dropKey Entry.key e.key es ≠ []) :
  ∃ a', next addressInSteps a = .ok a' ∧
    At sst a' blockIdx block (Keyed.dropKey Entry.key e.key es) address
  := by
  obtain ⟨blockIt, hblockIt, hblock, hcoherent, hid, hkeep, hrest, hend⟩ := h.exists_next
  have hisEnd : blockIt.next.isEnd = false := Bool.eq_false_iff.mpr (fun h => hne (hend.mp h))
  have hstep := SstIterator.next_inside h.sst_eq hblockIt hisEnd
  refine ⟨_, Except.bind_eq_of_ok _ hstep, h.sst_eq, h.blockIdx_eq, h.block_eq, h.maxTrancId_eq,
    h.keepAllVersions_eq, (if_pos rfl).trans h.address_eq, ?_⟩
  exact ⟨_, rfl, hblock, hcoherent, hid, hkeep, hrest⟩

theorem At.next_block (h : At sst a blockIdx block (e :: es) address)
    (hnil : Keyed.dropKey Entry.key e.key es = []) {block' : Block}
    (hblock' : sst.blocks[blockIdx + 1]? = some block') :
  ∃ a', next addressInSteps a = .ok a' ∧
    At sst a' (blockIdx + 1) block' block'.entries (addressInSteps (blockIdx + 1))
  := by
  obtain ⟨blockIt, hblockIt, -, -, -, -, -, hend⟩ := h.exists_next
  have hblockIdx := h.blockIdx_eq
  have hstep := SstIterator.next_block h.sst_eq hblockIt (hend.mpr hnil)
    (hblockIdx.symm ▸ hblock')
  rw [h.maxTrancId_eq, h.keepAllVersions_eq] at hstep
  have hne : ¬ a.it.blockIdx + 1 = a.it.blockIdx := Nat.succ_ne_self _
  refine ⟨_, Except.bind_eq_of_ok _ hstep, h.sst_eq, congrArg (· + 1) hblockIdx, hblock', rfl,
    rfl, (if_neg hne).trans (by rw [hblockIdx]), ?_⟩
  exact ⟨_, rfl, rfl, BlockIterator.coherent_atIndex (Nat.zero_le _) 0 false, rfl, rfl, rfl⟩

theorem At.next_last (h : At sst a blockIdx block (e :: es) address)
    (hnil : Keyed.dropKey Entry.key e.key es = []) (hlast : sst.blocks[blockIdx + 1]? = none) :
  ∃ a', next addressInSteps a = .ok a' ∧ a'.it.blockIt = none
  := by
  obtain ⟨blockIt, hblockIt, -, -, -, -, -, hend⟩ := h.exists_next
  have hstep := SstIterator.next_last h.sst_eq hblockIt (hend.mpr hnil)
    (h.blockIdx_eq.symm ▸ hlast)
  exact ⟨_, Except.bind_eq_of_ok _ hstep, rfl⟩

theorem At.index_eq (h : At sst a blockIdx block es address) :
  ∃ blockIt, a.it.blockIt = some blockIt ∧ blockIt.currentIndex + es.length = block.size
  := by
  obtain ⟨blockIt, hblockIt, hblock, hcoherent, -, -, hrest⟩ := h.blockIt
  refine ⟨blockIt, hblockIt, ?_⟩
  have hinside := hcoherent.inside
  rw [← hrest, BlockIterator.rest, List.length_drop]
  rw [hblock] at hinside ⊢
  exact Nat.add_sub_cancel' hinside

/-- Iterators in a table are equal if they are in one block, read once, with as much left. -/
theorem At.equals_iff (h : At sst a blockIdx block es address) {a' : RangeIterator}
    {blockIdx' address' : ℕ} {block' : Block} {es' : List Entry}
    (h' : At sst a' blockIdx' block' es' address') :
  a.equals a' = true ↔ blockIdx = blockIdx' ∧ address = address' ∧ es.length = es'.length
  := by
  obtain ⟨blockIt, hblockIt, hindex⟩ := h.index_eq
  obtain ⟨blockIt', hblockIt', hindex'⟩ := h'.index_eq
  rw [equals, hblockIt, hblockIt', h.blockIdx_eq, h'.blockIdx_eq, h.address_eq, h'.address_eq,
    Bool.and_eq_true, Bool.and_eq_true, decide_eq_true_iff, decide_eq_true_iff,
    decide_eq_true_iff]
  constructor
  · rintro ⟨rfl, haddress, hcurrent⟩
    cases h.block_eq.symm.trans h'.block_eq
    exact ⟨rfl, haddress, by omega⟩
  · rintro ⟨rfl, haddress, hlength⟩
    cases h.block_eq.symm.trans h'.block_eq
    exact ⟨rfl, haddress, by omega⟩

theorem At.ne_stop (h : At sst a blockIdx block es address) {stop : RangeIterator}
    {blockIdx' address' : ℕ} {block' : Block} {es' : List Entry}
    (hstop : At sst stop blockIdx' block' es' address')
    (hne : ¬ (blockIdx = blockIdx' ∧ address = address' ∧ es.length = es'.length)) :
  a.equals stop = false
  := by
  rw [Bool.eq_false_iff, Ne, h.equals_iff hstop]
  exact hne

/-- An end in the block, before its end, is reached past the keys before it. -/
theorem reaches_within {stop : RangeIterator} {after : List Entry}
    (hstop : At sst stop blockIdx block after address) (hafter : after ≠ []) {found : List Entry}
    (ha : At sst a blockIdx block (found ++ after) address)
    (hapart : ∀ e ∈ found, ∀ e' ∈ after, e'.key ≠ e.key) :
  Reaches addressInSteps stop a (keysOf found)
  := by
  induction hn : found.length using Nat.strongRecOn generalizing a found with
  | ind n ih =>
      cases found with
      | nil => exact .done ((ha.equals_iff hstop).mpr ⟨rfl, rfl, rfl⟩)
      | cons e es =>
          rw [List.cons_append] at ha
          have hsub := Keyed.dropKey_sublist Entry.key e.key es
          have hdrop : Keyed.dropKey Entry.key e.key (es ++ after) =
              Keyed.dropKey Entry.key e.key es ++ after :=
            Keyed.dropKey_append (hapart e List.mem_cons_self)
          have hlt : (Keyed.dropKey Entry.key e.key es).length < n := by
            have hle := hsub.length_le
            rw [← hn, List.length_cons]
            omega
          obtain ⟨it, hkey, hat⟩ := ha.key
          have hne : Keyed.dropKey Entry.key e.key (es ++ after) ≠ [] := by
            rw [hdrop]
            exact List.append_ne_nil_of_right_ne_nil _ hafter
          obtain ⟨a', hnext, ha'⟩ := At.next_inside addressInSteps hat hne
          rw [hdrop] at ha'
          have hstep := ih _ hlt ha' (fun e' he' => hapart e'
            (List.mem_cons_of_mem e (hsub.subset he'))) rfl
          rw [keysOf_cons]
          apply Reaches.step _ hkey hnext hstep
          apply ha.ne_stop hstop
          rintro ⟨-, -, hlength⟩
          rw [List.length_cons, List.length_append] at hlength
          omega

/-- An end in a later block is reached past the keys left in the block. -/
theorem reaches_across {stop : RangeIterator} {blockIdx' address' : ℕ} {block' next : Block}
    {after : List Entry} (hstop : At sst stop blockIdx' block' after address')
    (hne : blockIdx ≠ blockIdx') (hblock : sst.blocks[blockIdx + 1]? = some next)
    {keys : List Bytes}
    (hnext : ∀ a', At sst a' (blockIdx + 1) next next.entries (addressInSteps (blockIdx + 1)) →
      Reaches addressInSteps stop a' keys)
    {rest : List Entry} (ha : At sst a blockIdx block rest address) (hrest : rest ≠ []) :
  Reaches addressInSteps stop a (keysOf rest ++ keys)
  := by
  induction hn : rest.length using Nat.strongRecOn generalizing a rest with
  | ind n ih =>
      cases rest with
      | nil => exact absurd rfl hrest
      | cons e es =>
          have hsub := Keyed.dropKey_sublist Entry.key e.key es
          have hlt : (Keyed.dropKey Entry.key e.key es).length < n := by
            have hle := hsub.length_le
            rw [← hn, List.length_cons]
            omega
          obtain ⟨it, hkey, hat⟩ := ha.key
          have hstop' : a.equals stop = false := ha.ne_stop hstop (fun h => hne h.1)
          rw [keysOf_cons, List.cons_append]
          by_cases hnil : Keyed.dropKey Entry.key e.key es = []
          · obtain ⟨a', hstep, ha'⟩ := hat.next_block hnil hblock
            rw [hnil]
            exact .step hstop' hkey hstep (hnext a' ha')
          · obtain ⟨a', hstep, ha'⟩ := At.next_inside addressInSteps hat hnil
            exact .step hstop' hkey hstep (ih _ hlt ha' hnil rfl)

/-- An end in a later block is reached past the keys of the blocks before it, and those before it
in its block. -/
theorem reaches_blocks (hsst : sst.Sorted) {stop : RangeIterator} {last : Block} {lastIdx : ℕ}
    {found after : List Entry}
    (hstop : At sst stop lastIdx last after (addressInSteps lastIdx)) (hafter : after ≠ [])
    (hlast : last.entries = found ++ after) (hapart : ∀ e ∈ found, ∀ e' ∈ after, e'.key ≠ e.key)
    {between later : List Block} {blocks : List Block}
    (hdrop : sst.blocks.drop blockIdx = block :: blocks)
    (hblocks : block :: blocks = between ++ last :: later)
    (hlength : blockIdx + between.length = lastIdx)
    (ha : At sst a blockIdx block block.entries (addressInSteps blockIdx)) :
  Reaches addressInSteps stop a (keysOf (between.flatMap Block.entries ++ found))
  := by
  induction between generalizing a blockIdx block blocks with
  | nil =>
      cases hblocks
      cases hlength
      rw [hlast] at ha
      exact reaches_within hstop hafter ha hapart
  | cons b between ih =>
      cases hblocks
      have hdrop' : sst.blocks.drop (blockIdx + 1) = between ++ last :: later := by
        rw [← List.drop_drop, hdrop]
        rfl
      obtain ⟨next, blocks, hnext⟩ : ∃ next blocks, between ++ last :: later = next :: blocks :=
        List.exists_cons_of_ne_nil (by simp)
      have hblock : sst.blocks[blockIdx + 1]? = some next := by
        rw [← List.head?_drop, hdrop', hnext]
        rfl
      have hlength' : blockIdx + 1 + between.length = lastIdx := by
        rw [List.length_cons] at hlength
        omega
      have hsub : (b :: (between ++ last :: later)).Sublist sst.blocks := by
        have hsublist := List.drop_sublist blockIdx sst.blocks
        rwa [hdrop] at hsublist
      have htogether := (List.pairwise_cons.mp (hsst.together.sublist hsub)).1
      have hcross : ∀ e ∈ b.entries, ∀ e' ∈ between.flatMap Block.entries ++ found,
          e'.key ≠ e.key := by
        intro e he e' he'
        rcases List.mem_append.mp he' with he' | he'
        · obtain ⟨b', hb', hmem⟩ := List.mem_flatMap.mp he'
          exact (htogether b' (List.mem_append_left _ hb') e he e' hmem).symm
        · have hmem : e' ∈ last.entries := hlast ▸ List.mem_append_left _ he'
          exact (htogether last (by simp) e he e' hmem).symm
      have hne : b.entries ≠ [] := hsst.entries_ne b (hsub.subset List.mem_cons_self)
      rw [List.flatMap_cons, List.append_assoc, keysOf_append hcross]
      apply reaches_across hstop _ hblock _ ha hne
      · omega
      · intro a' ha'
        exact ih (hdrop'.trans hnext) hnext.symm hlength' ha'

/-- An end in a later block is reached past the keys between. -/
theorem reaches_later (hsst : sst.Sorted) {before between after : List Block} {first last : Block}
    (hblocks : sst.blocks = before ++ first :: (between ++ last :: after))
    {start stop : RangeIterator} {left rest found later : List Entry}
    (hstart : At sst start before.length first rest address) (hrest : rest ≠ [])
    (hfirst : first.entries = left ++ rest)
    (hstop : At sst stop (before.length + 1 + between.length) last later
      (addressInSteps (before.length + 1 + between.length)))
    (hlater : later ≠ []) (hlast : last.entries = found ++ later)
    (hapart : ∀ e ∈ found, ∀ e' ∈ later, e'.key ≠ e.key) :
  Reaches addressInSteps stop start
    (keysOf (rest ++ (between.flatMap Block.entries ++ found)))
  := by
  obtain ⟨next, blocks, hnext⟩ : ∃ next blocks, between ++ last :: after = next :: blocks :=
    List.exists_cons_of_ne_nil (by simp)
  have hdrop : sst.blocks.drop (before.length + 1) = next :: blocks := by
    rw [hblocks, ← List.drop_drop, List.drop_left, ← hnext]
    rfl
  have hget : sst.blocks[before.length + 1]? = some next := by
    rw [← List.head?_drop, hdrop]
    rfl
  have hsub : (first :: (between ++ last :: after)).Sublist sst.blocks := by
    rw [hblocks]
    apply List.sublist_append_right
  have htogether := (List.pairwise_cons.mp (hsst.together.sublist hsub)).1
  have hcross : ∀ e ∈ rest, ∀ e' ∈ between.flatMap Block.entries ++ found, e'.key ≠ e.key := by
    intro e he e' he'
    have hmem : e ∈ first.entries := hfirst ▸ List.mem_append_right left he
    rcases List.mem_append.mp he' with he' | he'
    · obtain ⟨b, hb, hmem'⟩ := List.mem_flatMap.mp he'
      exact (htogether b (List.mem_append_left _ hb) e hmem e' hmem').symm
    · have hmem' : e' ∈ last.entries := hlast ▸ List.mem_append_left later he'
      exact (htogether last (by simp) e hmem e' hmem').symm
  have hne : before.length ≠ before.length + 1 + between.length := by omega
  rw [keysOf_append hcross]
  apply reaches_across hstop hne hget _ hstart hrest
  intro a ha
  exact reaches_blocks hsst hstop hlater hlast hapart hdrop hnext.symm rfl ha

/-- Stepping from a block never stops at the end of a block, and reads each later block anew. -/
theorem not_reaches (hne : ∀ b ∈ sst.blocks, b.entries ≠ []) {stop : RangeIterator}
    {firstIdx lastIdx lastAddress : ℕ} {last : Block} {after : List Entry}
    (hstop : At sst stop lastIdx last after lastAddress)
    (hbad : after = [] ∨ firstIdx < lastIdx ∧ addressInSteps lastIdx ≠ lastAddress)
    {keys : List Bytes} (h : Reaches addressInSteps stop a keys) :
  ¬ (a.it.blockIt = none ∨ ∃ blockIdx block rest address, At sst a blockIdx block rest address ∧
    rest ≠ [] ∧ firstIdx ≤ blockIdx ∧ (blockIdx ≠ firstIdx → address = addressInSteps blockIdx))
  := by
  obtain ⟨stopIt, hstopIt, -⟩ := hstop.blockIt
  induction h with
  | @done a heq =>
      rintro (hnone | ⟨blockIdx, block, rest, address, ha, hrest, hle, haddress⟩)
      · rw [equals, hnone, hstopIt, Bool.and_false] at heq
        cases heq
      · obtain ⟨rfl, rfl, hlength⟩ := (ha.equals_iff hstop).mp heq
        rcases hbad with rfl | ⟨hlt, hother⟩
        · exact hrest (List.eq_nil_of_length_eq_zero hlength)
        · exact hother (haddress (Nat.ne_of_gt hlt)).symm
  | @step a a' it key keys _ hkey hnext _ ih =>
      rintro (hnone | ⟨blockIdx, block, rest, address, ha, hrest, hle, haddress⟩)
      · rw [SstIterator.key, hnone] at hkey
        cases hkey
      · obtain ⟨e, es, rfl⟩ := List.exists_cons_of_ne_nil hrest
        obtain ⟨it', hkey', hat⟩ := ha.key
        cases hkey.symm.trans hkey'
        apply ih
        by_cases hnil : Keyed.dropKey Entry.key e.key es = []
        · cases hblock : sst.blocks[blockIdx + 1]? with
          | none =>
              left
              obtain ⟨a'', hnext', hnone⟩ := hat.next_last hnil hblock
              cases hnext.symm.trans hnext'
              exact hnone
          | some next =>
              right
              obtain ⟨a'', hnext', ha'⟩ := hat.next_block hnil hblock
              cases hnext.symm.trans hnext'
              exact ⟨_, _, _, _, ha', hne next (List.mem_of_getElem? hblock),
                Nat.le_succ_of_le hle, fun _ => rfl⟩
        · right
          obtain ⟨a'', hnext', ha'⟩ := At.next_inside addressInSteps hat hnil
          cases hnext.symm.trans hnext'
          exact ⟨_, _, _, _, ha', hnil, hle, haddress⟩

end

end RangeIterator

end TinyLsm
