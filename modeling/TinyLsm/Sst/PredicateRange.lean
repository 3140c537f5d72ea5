import Mathlib.Data.List.Flatten
import TinyLsm.Sst.RangeIterator

/-!
# The range of a monotone predicate

A predicate on keys is positive before a range of keys, zero in it and negative after it.  The
search for its range in a table asks each block in which the range may lie for its part, and
answers an iterator at the start of the first part and one at the end of the last part, which is in
the block of this part.

If no key of this block comes after the range, this iterator is at the end of the block, where
stepping never stops.
-/

namespace TinyLsm

/-- Positive before some keys, zero at them and negative after them. -/
def Monotony (predicate : Bytes → ℤ) (es : List Entry) : Prop :=
  ∀ e ∈ es, ∀ e' ∈ es, e.key ≤ e'.key →
    (0 < predicate e'.key → 0 < predicate e.key) ∧ (predicate e.key < 0 → predicate e'.key < 0)

namespace Block

/-- The first key, which the meta entry of the block holds. -/
def firstKey (b : Block) : Bytes := (b.entries.head?.map Entry.key).getD []

/-- The last key, which the meta entry of the block holds. -/
def lastKey (b : Block) : Bytes := (b.entries.getLast?.map Entry.key).getD []

/-- A key of the block satisfies the predicate. -/
def Satisfied (predicate : Bytes → ℤ) (b : Block) : Prop :=
  ∃ e ∈ b.entries, predicate e.key = 0

instance (predicate : Bytes → ℤ) (b : Block) : Decidable (b.Satisfied predicate) :=
  inferInstanceAs (Decidable (∃ e ∈ b.entries, predicate e.key = 0))

/-- A search for the range of a predicate in a block. -/
abbrev MonotonyPredicateIters :=
  Block → TrancId → (Bytes → ℤ) → Option (BlockIterator × BlockIterator)

/-- The search gives iterators at the first satisfying entry and one past the last one, and none if
there is no such entry. -/
def MonotonyPredicateIters.Documented (getMonotonyPredicateIters : MonotonyPredicateIters) : Prop :=
  ∀ (b : Block) (predicate : Bytes → ℤ), Keyed.Sorted Entry.key b.entries →
    Monotony predicate b.entries →
    (¬ b.Satisfied predicate ∧ getMonotonyPredicateIters b 0 predicate = none) ∨
    ∃ before found after, b.entries = before ++ (found ++ after) ∧ found ≠ [] ∧
      (∀ e ∈ found, predicate e.key = 0) ∧
      (∀ e ∈ before, predicate e.key ≠ 0) ∧ (∀ e ∈ after, predicate e.key ≠ 0) ∧
      getMonotonyPredicateIters b 0 predicate =
        some (BlockIterator.atIndex b before.length 0 false,
          BlockIterator.atIndex b (before.length + found.length) 0 false)

end Block

section

variable (getMonotonyPredicateIters : Block.MonotonyPredicateIters) (addressInSearch : ℕ → ℕ)
  (sst : SST) (trancId : TrancId) (predicate : Bytes → ℤ)

/-- The iterator over the table with an iterator over one of its blocks. -/
def rangeIterator (blockIdx : ℕ) (blockIt : BlockIterator) : RangeIterator :=
  ⟨{ sst := some sst, blockIdx, maxTrancId := trancId, blockIt := some blockIt },
    addressInSearch blockIdx⟩

/-- Search the blocks from an index on. -/
def searchBlocks : ℕ → List Block → Option RangeIterator → Option RangeIterator →
    Option RangeIterator × Option RangeIterator
  | _, [], finalBegin, finalEnd => (finalBegin, finalEnd)
  | blockIdx, block :: blocks, finalBegin, finalEnd =>
      if predicate block.firstKey < 0 then
        (finalBegin, finalEnd)
      else if 0 < predicate block.lastKey then
        searchBlocks (blockIdx + 1) blocks finalBegin finalEnd
      else
        match getMonotonyPredicateIters block trancId predicate with
        | none => searchBlocks (blockIdx + 1) blocks finalBegin finalEnd
        | some (iBegin, iEnd) =>
            let finalBegin :=
              finalBegin.or (some (rangeIterator addressInSearch sst trancId blockIdx iBegin))
            let tmpIt := rangeIterator addressInSearch sst trancId blockIdx iEnd
            -- an iterator with a block iterator is not at the end
            let tmpIt :=
              if tmpIt.it.isEnd && decide (tmpIt.it.blockIdx = sst.numBlocks) then
                { tmpIt with it := { tmpIt.it with blockIt := none } }
              else tmpIt
            searchBlocks (blockIdx + 1) blocks finalBegin (some tmpIt)

/-- The iterators at the start and at the end of the range of a predicate. -/
def sstItersMonotonyPredicate : Option (RangeIterator × RangeIterator) :=
  match searchBlocks getMonotonyPredicateIters addressInSearch sst trancId predicate 0 sst.blocks
      none none with
  | (some finalBegin, some finalEnd) => some (finalBegin, finalEnd)
  | _ => none

end

/-! ### Searching -/

/-- If one entry of sorted ones comes before another and both satisfy a monotone predicate, so do
the ones between. -/
theorem Monotony.between {predicate : Bytes → ℤ} {es : List Entry} (h : Monotony predicate es)
    {e₁ e e₂ : Entry} (h₁ : e₁ ∈ es) (he : e ∈ es) (h₂ : e₂ ∈ es) (hle₁ : e₁.key ≤ e.key)
    (hle₂ : e.key ≤ e₂.key) (hzero₁ : predicate e₁.key = 0) (hzero₂ : predicate e₂.key = 0) :
  predicate e.key = 0
  := by
  have hpos := (h e₁ h₁ e he hle₁).1
  have hneg := (h e he e₂ h₂ hle₂).2
  omega

theorem Monotony.mono {predicate : Bytes → ℤ} {es es' : List Entry} (h : Monotony predicate es')
    (hsub : ∀ e ∈ es, e ∈ es') :
  Monotony predicate es
  := fun e he e' he' hle => h e (hsub e he) e' (hsub e' he') hle

theorem Block.exists_firstKey {b : Block} (h : b.entries ≠ []) :
  ∃ e es, b.entries = e :: es ∧ b.firstKey = e.key
  := by
  obtain ⟨e, es, hes⟩ := List.exists_cons_of_ne_nil h
  exact ⟨e, es, hes, by rw [firstKey, hes]; rfl⟩

theorem Block.exists_lastKey {b : Block} (h : b.entries ≠ []) :
  ∃ es e, b.entries = es ++ [e] ∧ b.lastKey = e.key
  := by
  refine ⟨b.entries.dropLast, b.entries.getLast h, (List.dropLast_append_getLast h).symm, ?_⟩
  rw [lastKey, List.getLast?_eq_some_getLast h]
  rfl

section

variable {getMonotonyPredicateIters : Block.MonotonyPredicateIters} {addressInSearch : ℕ → ℕ}
  {sst : SST} {predicate : Bytes → ℤ}

variable (getMonotonyPredicateIters addressInSearch sst predicate) in
/-- The ranges in the blocks from an index on. -/
def foundRanges : ℕ → List Block → List (RangeIterator × RangeIterator)
  | _, [] => []
  | blockIdx, block :: blocks =>
      ((getMonotonyPredicateIters block 0 predicate).map (fun q =>
        (rangeIterator addressInSearch sst 0 blockIdx q.1,
          rangeIterator addressInSearch sst 0 blockIdx q.2))).toList ++
        foundRanges (blockIdx + 1) blocks

theorem foundRanges_append (blocks blocks' : List Block) (blockIdx : ℕ) :
  foundRanges getMonotonyPredicateIters addressInSearch sst predicate blockIdx
      (blocks ++ blocks') =
    foundRanges getMonotonyPredicateIters addressInSearch sst predicate blockIdx blocks ++
      foundRanges getMonotonyPredicateIters addressInSearch sst predicate
        (blockIdx + blocks.length) blocks'
  := by
  induction blocks generalizing blockIdx with
  | nil => rfl
  | cons block blocks ih =>
      rw [List.cons_append, foundRanges, foundRanges, ih, List.append_assoc, List.length_cons,
        Nat.add_right_comm, Nat.add_assoc]

theorem Block.MonotonyPredicateIters.Documented.eq_none
    (h : getMonotonyPredicateIters.Documented) {b : Block}
    (hsorted : Keyed.Sorted Entry.key b.entries) (hmonotony : Monotony predicate b.entries)
    (hb : ¬ b.Satisfied predicate) :
  getMonotonyPredicateIters b 0 predicate = none
  := by
  rcases h b predicate hsorted hmonotony with
    ⟨-, hnone⟩ | ⟨before, found, after, hes, hne, hzero, -⟩
  · exact hnone
  · obtain ⟨e, found, rfl⟩ := List.exists_cons_of_ne_nil hne
    exact absurd ⟨e, by simp [hes], hzero e List.mem_cons_self⟩ hb

/-- Where the search applies: blocks that are sorted, and a monotone predicate. -/
structure Searchable (predicate : Bytes → ℤ) (blocks : List Block) : Prop where
  entries_ne : ∀ b ∈ blocks, b.entries ≠ []
  sorted : Keyed.Sorted Entry.key (blocks.flatMap Block.entries)
  monotony : Monotony predicate (blocks.flatMap Block.entries)

theorem Searchable.block {blocks : List Block} (h : Searchable predicate blocks) {b : Block}
    (hb : b ∈ blocks) :
  Keyed.Sorted Entry.key b.entries ∧ Monotony predicate b.entries
  := by
  have hsub : b.entries.Sublist (blocks.flatMap Block.entries) :=
    List.sublist_flatten_of_mem (List.mem_map_of_mem hb)
  exact ⟨h.sorted.sublist hsub, h.monotony.mono (fun e he => hsub.subset he)⟩

theorem Searchable.sublist {blocks blocks' : List Block} (h : Searchable predicate blocks)
    (hsub : blocks'.Sublist blocks) :
  Searchable predicate blocks'
  where
  entries_ne b hb := h.entries_ne b (hsub.subset hb)
  sorted := h.sorted.sublist (hsub.flatMap Block.entries)
  monotony := h.monotony.mono (fun _ he => (hsub.flatMap Block.entries).subset he)

theorem Searchable.tail {b : Block} {blocks : List Block} (h : Searchable predicate (b :: blocks)) :
  Searchable predicate blocks
  := h.sublist (List.sublist_cons_self b blocks)

/-- Blocks without a satisfying key have no range. -/
theorem foundRanges_eq_nil (hdoc : getMonotonyPredicateIters.Documented) {blocks : List Block}
    (h : Searchable predicate blocks) (hblocks : ∀ b ∈ blocks, ¬ b.Satisfied predicate)
    (blockIdx : ℕ) :
  foundRanges getMonotonyPredicateIters addressInSearch sst predicate blockIdx blocks = []
  := by
  induction blocks generalizing blockIdx with
  | nil => rfl
  | cons block blocks ih =>
      obtain ⟨hsorted, hmonotony⟩ := h.block List.mem_cons_self
      have hnone := hdoc.eq_none hsorted hmonotony (hblocks block List.mem_cons_self)
      rw [foundRanges, hnone, ih h.tail (fun b hb => hblocks b (List.mem_cons_of_mem _ hb))]
      rfl

/-- No key of the blocks satisfies the predicate if it is negative at the first key. -/
theorem Searchable.not_satisfied_of_neg {block : Block} {blocks : List Block}
    (h : Searchable predicate (block :: blocks)) (hneg : predicate block.firstKey < 0) :
  ∀ b ∈ block :: blocks, ¬ b.Satisfied predicate
  := by
  obtain ⟨e₀, es, hes, hfirst⟩ := Block.exists_firstKey (h.entries_ne block List.mem_cons_self)
  rw [hfirst] at hneg
  rintro b hb ⟨e, he, hzero⟩
  have hmem : e ∈ (block :: blocks).flatMap Block.entries := List.mem_flatMap.mpr ⟨b, hb, he⟩
  have hall : (block :: blocks).flatMap Block.entries =
      e₀ :: (es ++ blocks.flatMap Block.entries) := by
    rw [List.flatMap_cons, hes, List.cons_append]
  have hsorted := h.sorted
  have hmonotony := h.monotony
  rw [hall] at hmem hsorted hmonotony
  have hle : e₀.key ≤ e.key := by
    rcases List.mem_cons.mp hmem with rfl | hmem'
    · exact le_rfl
    · exact (List.pairwise_cons.mp hsorted).1 e hmem'
  have hlt := (hmonotony e₀ List.mem_cons_self e hmem hle).2 hneg
  omega

/-- No key of a block satisfies the predicate if it is positive at the last key. -/
theorem not_satisfied_of_pos {b : Block} (hne : b.entries ≠ [])
    (hsorted : Keyed.Sorted Entry.key b.entries) (hmonotony : Monotony predicate b.entries)
    (hpos : 0 < predicate b.lastKey) :
  ¬ b.Satisfied predicate
  := by
  obtain ⟨es, e₁, hes, hlast⟩ := Block.exists_lastKey hne
  rw [hlast] at hpos
  rintro ⟨e, he, hzero⟩
  rw [hes] at he hsorted hmonotony
  have hle : e.key ≤ e₁.key := by
    rcases List.mem_append.mp he with he' | he'
    · exact (List.pairwise_append.mp hsorted).2.2 e he' e₁ (List.mem_singleton_self e₁)
    · rw [List.mem_singleton.mp he']
  have hlt := (hmonotony e he e₁ (by simp) hle).1 hpos
  omega

/-- The last element of a list with one more at the front. -/
theorem map_getLast?_or {ρ σ : Type} (f : ρ → σ) (r : ρ) (rs : List ρ) (o : Option σ) :
  (rs.getLast?.map f).or (some (f r)) = ((r :: rs).getLast?.map f).or o
  := by
  cases rs with
  | nil => rfl
  | cons r' rs =>
      rw [List.getLast?_cons_cons, List.getLast?_cons]
      rfl

/-- The search gives the start of the first range and the end of the last one. -/
theorem searchBlocks_eq (hdoc : getMonotonyPredicateIters.Documented) {blocks : List Block}
    (h : Searchable predicate blocks) (blockIdx : ℕ) (finalBegin finalEnd : Option RangeIterator) :
  searchBlocks getMonotonyPredicateIters addressInSearch sst 0 predicate blockIdx blocks
      finalBegin finalEnd =
    (finalBegin.or ((foundRanges getMonotonyPredicateIters addressInSearch sst predicate blockIdx
        blocks).head?.map Prod.fst),
      ((foundRanges getMonotonyPredicateIters addressInSearch sst predicate blockIdx
        blocks).getLast?.map Prod.snd).or finalEnd)
  := by
  induction blocks generalizing blockIdx finalBegin finalEnd with
  | nil =>
      rw [searchBlocks, foundRanges]
      cases finalBegin <;> rfl
  | cons block blocks ih =>
      obtain ⟨hsorted, hmonotony⟩ := h.block List.mem_cons_self
      rw [searchBlocks]
      split
      next hneg =>
        rw [foundRanges_eq_nil hdoc h (h.not_satisfied_of_neg hneg)]
        cases finalBegin <;> rfl
      next =>
        split
        next hpos =>
          have hnot := not_satisfied_of_pos (h.entries_ne block List.mem_cons_self) hsorted
            hmonotony hpos
          rw [ih h.tail, foundRanges, hdoc.eq_none hsorted hmonotony hnot]
          rfl
        next =>
          rw [foundRanges]
          cases hiters : getMonotonyPredicateIters block 0 predicate with
          | none =>
              dsimp only
              rw [ih h.tail]
              rfl
          | some q =>
              dsimp only
              rw [ih h.tail]
              apply Prod.ext
              · cases finalBegin <;> rfl
              · exact map_getLast?_or Prod.snd (_, rangeIterator addressInSearch sst 0 blockIdx q.2)
                  _ finalEnd

theorem sstItersMonotonyPredicate_eq (hdoc : getMonotonyPredicateIters.Documented)
    (h : Searchable predicate sst.blocks) :
  sstItersMonotonyPredicate getMonotonyPredicateIters addressInSearch sst 0 predicate =
    match (foundRanges getMonotonyPredicateIters addressInSearch sst predicate 0
        sst.blocks).head?,
      (foundRanges getMonotonyPredicateIters addressInSearch sst predicate 0
        sst.blocks).getLast? with
    | some first, some last => some (first.1, last.2)
    | _, _ => none
  := by
  rw [sstItersMonotonyPredicate, searchBlocks_eq hdoc h]
  generalize foundRanges getMonotonyPredicateIters addressInSearch sst predicate 0 sst.blocks =
    ranges
  cases ranges with
  | nil => rfl
  | cons range ranges =>
      rw [List.getLast?_cons]
      rfl

/-- The part of the range in a block, with an iterator at its start and one past its end. -/
structure PartIn (addressInSearch : ℕ → ℕ) (sst : SST) (predicate : Bytes → ℤ) (blockIdx : ℕ)
    (block : Block) (part : RangeIterator × RangeIterator) (before found after : List Entry) :
    Prop where
  entries_eq : block.entries = before ++ (found ++ after)
  found_ne : found ≠ []
  found_zero : ∀ e ∈ found, predicate e.key = 0
  before_ne : ∀ e ∈ before, predicate e.key ≠ 0
  after_ne : ∀ e ∈ after, predicate e.key ≠ 0
  start : part.1.At sst blockIdx block (found ++ after) (addressInSearch blockIdx)
  stop : part.2.At sst blockIdx block after (addressInSearch blockIdx)

theorem at_rangeIterator {blockIdx : ℕ} {block : Block}
    (hblock : sst.blocks[blockIdx]? = some block) {before rest : List Entry}
    (hentries : block.entries = before ++ rest) {index : ℕ} (hindex : before.length = index) :
  (rangeIterator addressInSearch sst 0 blockIdx (BlockIterator.atIndex block index 0 false)).At sst
    blockIdx block rest (addressInSearch blockIdx)
  := by
  subst hindex
  refine ⟨rfl, rfl, hblock, rfl, rfl, rfl, _, rfl, rfl, ?_, rfl, rfl, ?_⟩
  · apply BlockIterator.coherent_atIndex
    rw [Block.size, hentries, List.length_append]
    apply Nat.le_add_right
  · change block.entries.drop before.length = rest
    rw [hentries, List.drop_left]

variable (addressInSearch) in
/-- A block with a satisfying key has a part of the range. -/
theorem exists_partIn (hdoc : getMonotonyPredicateIters.Documented)
    (h : Searchable predicate sst.blocks) {blockIdx : ℕ} {block : Block}
    (hblock : sst.blocks[blockIdx]? = some block) (hsatisfied : block.Satisfied predicate)
    (blocks : List Block) :
  ∃ part before found after,
    foundRanges getMonotonyPredicateIters addressInSearch sst predicate blockIdx
        (block :: blocks) =
      part :: foundRanges getMonotonyPredicateIters addressInSearch sst predicate (blockIdx + 1)
        blocks ∧
    PartIn addressInSearch sst predicate blockIdx block part before found after
  := by
  obtain ⟨hsorted, hmonotony⟩ := h.block (List.mem_of_getElem? hblock)
  rcases hdoc block predicate hsorted hmonotony with ⟨hnot, -⟩ |
    ⟨before, found, after, hentries, hne, hzero, hbefore, hafter, hiters⟩
  · exact absurd hsatisfied hnot
  · rw [foundRanges, hiters]
    refine ⟨_, before, found, after, rfl, hentries, hne, hzero, hbefore, hafter, ?_, ?_⟩
    · apply at_rangeIterator hblock hentries rfl
    · have hentries' : block.entries = (before ++ found) ++ after := by
        rw [hentries, List.append_assoc]
      apply at_rangeIterator hblock hentries' List.length_append

variable (addressInSearch) in
/-- If the range lies in one block, the search gives its part there. -/
theorem sstItersMonotonyPredicate_of_one (hdoc : getMonotonyPredicateIters.Documented)
    (h : Searchable predicate sst.blocks) {before after : List Block} {block : Block}
    (hblocks : sst.blocks = before ++ block :: after) (hblock : block.Satisfied predicate)
    (hbefore : ∀ b ∈ before, ¬ b.Satisfied predicate)
    (hafter : ∀ b ∈ after, ¬ b.Satisfied predicate) :
  ∃ part pre found post,
    sstItersMonotonyPredicate getMonotonyPredicateIters addressInSearch sst 0 predicate =
      some part ∧
    PartIn addressInSearch sst predicate before.length block part pre found post
  := by
  have hget : sst.blocks[before.length]? = some block := by
    rw [hblocks, List.getElem?_append_right le_rfl, Nat.sub_self]
    rfl
  have hsearchable := hblocks ▸ h
  have hleft := hsearchable.sublist (List.sublist_append_left before (block :: after))
  have hright := (hsearchable.sublist (List.sublist_append_right before (block :: after))).tail
  obtain ⟨part, pre, found, post, hranges, hpart⟩ :=
    exists_partIn addressInSearch hdoc h hget hblock after
  refine ⟨part, pre, found, post, ?_, hpart⟩
  rw [sstItersMonotonyPredicate_eq hdoc h, hblocks, foundRanges_append,
    foundRanges_eq_nil hdoc hleft hbefore, Nat.zero_add, hranges,
    foundRanges_eq_nil hdoc hright hafter]
  rfl

variable (addressInSearch) in
/-- If the range lies in several blocks, the search gives the start of its part in the first one
and the end of its part in the last one. -/
theorem sstItersMonotonyPredicate_of_several (hdoc : getMonotonyPredicateIters.Documented)
    (h : Searchable predicate sst.blocks) {before between after : List Block} {first last : Block}
    (hblocks : sst.blocks = before ++ first :: (between ++ last :: after))
    (hfirst : first.Satisfied predicate) (hlast : last.Satisfied predicate)
    (hbefore : ∀ b ∈ before, ¬ b.Satisfied predicate)
    (hafter : ∀ b ∈ after, ¬ b.Satisfied predicate) :
  ∃ part pre found post part' pre' found' post',
    sstItersMonotonyPredicate getMonotonyPredicateIters addressInSearch sst 0 predicate =
      some (part.1, part'.2) ∧
    PartIn addressInSearch sst predicate before.length first part pre found post ∧
    PartIn addressInSearch sst predicate (before.length + 1 + between.length) last part' pre'
      found' post'
  := by
  have hgetFirst : sst.blocks[before.length]? = some first := by
    rw [hblocks, List.getElem?_append_right le_rfl, Nat.sub_self]
    rfl
  have hgetLast : sst.blocks[before.length + 1 + between.length]? = some last := by
    rw [hblocks, List.getElem?_append_right (by omega), Nat.add_assoc, Nat.add_sub_cancel_left,
      Nat.add_comm 1, List.getElem?_cons_succ, List.getElem?_append_right le_rfl, Nat.sub_self]
    rfl
  have hsearchable := hblocks ▸ h
  have hleft := hsearchable.sublist (List.sublist_append_left before _)
  have htail := (hsearchable.sublist (List.sublist_append_right before _)).tail
  have hright := (htail.sublist (List.sublist_append_right between (last :: after))).tail
  obtain ⟨part, pre, found, post, hranges, hpart⟩ :=
    exists_partIn addressInSearch hdoc h hgetFirst hfirst (between ++ last :: after)
  obtain ⟨part', pre', found', post', hranges', hpart'⟩ :=
    exists_partIn addressInSearch hdoc h hgetLast hlast after
  refine ⟨part, pre, found, post, part', pre', found', post', ?_, hpart, hpart'⟩
  rw [sstItersMonotonyPredicate_eq hdoc h, hblocks, foundRanges_append,
    foundRanges_eq_nil hdoc hleft hbefore, Nat.zero_add, List.nil_append, hranges,
    foundRanges_append, hranges', foundRanges_eq_nil hdoc hright hafter, ← List.cons_append,
    List.getLast?_concat]
  rfl

theorem sstItersMonotonyPredicate_of_none (hdoc : getMonotonyPredicateIters.Documented)
    (h : Searchable predicate sst.blocks) (hblocks : ∀ b ∈ sst.blocks, ¬ b.Satisfied predicate) :
  sstItersMonotonyPredicate getMonotonyPredicateIters addressInSearch sst 0 predicate = none
  := by
  rw [sstItersMonotonyPredicate_eq hdoc h, foundRanges_eq_nil hdoc h hblocks]
  rfl

/-! ### Exactness -/

/-- In sorted entries, a monotone predicate that is zero at both ends is zero throughout. -/
theorem Monotony.zero_of_ends {es es₁ es₂ : List Entry} (h : Monotony predicate es)
    (hsorted : Keyed.Sorted Entry.key es) {e₁ e₂ : Entry} (h₁ : es = e₁ :: es₁)
    (h₂ : es = es₂ ++ [e₂]) (hzero₁ : predicate e₁.key = 0) (hzero₂ : predicate e₂.key = 0) :
  ∀ e ∈ es, predicate e.key = 0
  := by
  intro e he
  have hmem₁ : e₁ ∈ es := h₁ ▸ List.mem_cons_self
  have hmem₂ : e₂ ∈ es := h₂ ▸ List.mem_append_right es₂ (List.mem_singleton_self e₂)
  apply h.between hmem₁ he hmem₂ _ _ hzero₁ hzero₂
  · rw [h₁] at he hsorted
    rcases List.mem_cons.mp he with rfl | he'
    · exact le_rfl
    · exact (List.pairwise_cons.mp hsorted).1 e he'
  · rw [h₂] at he hsorted
    rcases List.mem_append.mp he with he' | he'
    · exact (List.pairwise_append.mp hsorted).2.2 e he' e₂ (List.mem_singleton_self e₂)
    · rw [List.mem_singleton.mp he']

/-- The last key of a block comes after the range if a key does. -/
theorem PartIn.lastKey_ne_iff {blockIdx : ℕ} {block : Block} {part : RangeIterator × RangeIterator}
    {before found after : List Entry}
    (h : PartIn addressInSearch sst predicate blockIdx block part before found after) :
  predicate block.lastKey ≠ 0 ↔ after ≠ []
  := by
  rw [Block.lastKey, h.entries_eq]
  rcases List.eq_nil_or_concat' after with rfl | ⟨after', e, rfl⟩
  · obtain ⟨e, es, hes⟩ := (List.eq_nil_or_concat' found).resolve_left h.found_ne
    have hzero := h.found_zero es (hes ▸ by simp)
    simp [hes, hzero]
  · have hne := h.after_ne e (by simp)
    rw [← List.append_assoc, ← List.append_assoc, List.getLast?_concat]
    simpa using hne

variable (addressInSteps : ℕ → ℕ) in
/-- A range is exact if it is none just if no key satisfies the predicate, and if stepping from its
start to its end passes each key that does, once, and no other key. -/
def SST.ExactRange (sst : SST) (predicate : Bytes → ℤ)
    (range : Option (RangeIterator × RangeIterator)) : Prop :=
  (range = none ↔ ∀ e ∈ sst.entries, predicate e.key ≠ 0) ∧
    ∀ start stop, range = some (start, stop) →
      ∃ keys, RangeIterator.Reaches addressInSteps stop start keys ∧ keys.Nodup ∧
        ∀ key, key ∈ keys ↔ predicate key = 0 ∧ ∃ e ∈ sst.entries, e.key = key

variable {addressInSteps : ℕ → ℕ}

/-- Split a list at its first element with a property. -/
theorem exists_first_of_exists {α : Type} {P : α → Prop} [DecidablePred P] {xs : List α}
    (h : ∃ x ∈ xs, P x) :
  ∃ before x after, xs = before ++ x :: after ∧ P x ∧ ∀ y ∈ before, ¬ P y
  := by
  have hsome : (xs.find? (fun x => decide (P x))).isSome := by simpa using h
  obtain ⟨x, hfind⟩ := Option.isSome_iff_exists.mp hsome
  obtain ⟨hx, before, after, hxs, hbefore⟩ := List.find?_eq_some_iff_append.mp hfind
  exact ⟨before, x, after, hxs, of_decide_eq_true hx, by simpa using hbefore⟩

/-- Split a list at its last element with a property. -/
theorem exists_last_of_exists {α : Type} {P : α → Prop} [DecidablePred P] {xs : List α}
    (h : ∃ x ∈ xs, P x) :
  ∃ before x after, xs = before ++ x :: after ∧ P x ∧ ∀ y ∈ after, ¬ P y
  := by
  have hreverse : ∃ x ∈ xs.reverse, P x := by simpa using h
  obtain ⟨after, x, before, hxs, hx, hafter⟩ := exists_first_of_exists hreverse
  refine ⟨before.reverse, x, after.reverse, ?_, hx, by simpa using hafter⟩
  rw [← List.reverse_reverse xs, hxs, List.reverse_append, List.reverse_cons, List.append_assoc]
  rfl

theorem sublist_of_eq_append {α : Type} {xs before middle after : List α}
    (h : xs = before ++ (middle ++ after)) :
  middle.Sublist xs
  := by
  rw [h]
  exact (List.sublist_append_left middle after).trans (List.sublist_append_right before _)

/-- A range is exact if stepping passes the keys of the satisfying entries, which lie together. -/
theorem SST.Sorted.exactRange_some (hsst : sst.Sorted) {before found after : List Entry}
    (hentries : sst.entries = before ++ (found ++ after)) (hne : found ≠ [])
    (hfound : ∀ e ∈ found, predicate e.key = 0) (hbefore : ∀ e ∈ before, predicate e.key ≠ 0)
    (hafter : ∀ e ∈ after, predicate e.key ≠ 0) {start stop : RangeIterator}
    (hreaches : RangeIterator.Reaches addressInSteps stop start (keysOf found)) :
  sst.ExactRange addressInSteps predicate (some (start, stop))
  := by
  have hsub := sublist_of_eq_append hentries
  constructor
  · obtain ⟨e, es, rfl⟩ := List.exists_cons_of_ne_nil hne
    have hzero := hfound e List.mem_cons_self
    have hmem := hsub.subset List.mem_cons_self
    constructor
    · intro hnone
      cases hnone
    · intro hnot
      exact absurd hzero (hnot e hmem)
  · rintro start stop ⟨rfl, rfl⟩
    refine ⟨keysOf found, hreaches, nodup_keysOf (hsst.sorted.sublist hsub), ?_⟩
    intro key
    rw [mem_keysOf]
    constructor
    · rintro ⟨e, he, rfl⟩
      exact ⟨hfound e he, e, hsub.subset he, rfl⟩
    · rintro ⟨hzero, e, he, rfl⟩
      rw [hentries, List.mem_append, List.mem_append] at he
      rcases he with he | he | he
      · exact absurd hzero (hbefore e he)
      · exact ⟨e, he, rfl⟩
      · exact absurd hzero (hafter e he)

theorem SST.Sorted.searchable (hsst : sst.Sorted) (hp : Monotony predicate sst.entries) :
  Searchable predicate sst.blocks
  := ⟨hsst.entries_ne, hsst.sorted, hp⟩

theorem SST.entries_eq (sst : SST) : sst.entries = sst.blocks.flatMap Block.entries
  := rfl

theorem ne_zero_of_not_satisfied {blocks : List Block}
    (h : ∀ b ∈ blocks, ¬ b.Satisfied predicate) :
  ∀ e ∈ blocks.flatMap Block.entries, predicate e.key ≠ 0
  := by
  intro e he hzero
  obtain ⟨b, hb, hmem⟩ := List.mem_flatMap.mp he
  exact h b hb ⟨e, hmem, hzero⟩

/-- The keys of a part and those after it are apart. -/
theorem PartIn.apart {blockIdx : ℕ} {block : Block} {part : RangeIterator × RangeIterator}
    {before found after : List Entry}
    (h : PartIn addressInSearch sst predicate blockIdx block part before found after) :
  ∀ e ∈ found, ∀ e' ∈ after, e'.key ≠ e.key
  := by
  intro e he e' he' hkey
  apply h.after_ne e' he'
  rw [hkey, h.found_zero e he]

/-- The empty range is exact. -/
theorem exactRange_of_none (hdoc : getMonotonyPredicateIters.Documented) (hsst : sst.Sorted)
    (hp : Monotony predicate sst.entries) (hnone : ∀ b ∈ sst.blocks, ¬ b.Satisfied predicate) :
  sst.ExactRange addressInSteps predicate
    (sstItersMonotonyPredicate getMonotonyPredicateIters addressInSearch sst 0 predicate)
  := by
  rw [sstItersMonotonyPredicate_of_none hdoc (hsst.searchable hp) hnone]
  constructor
  · exact ⟨fun _ => ne_zero_of_not_satisfied hnone, fun _ => rfl⟩
  · intro start stop hrange
    cases hrange

/-- A range in one block is exact if a key of the block comes after it. -/
theorem exactRange_of_one (hdoc : getMonotonyPredicateIters.Documented) (hsst : sst.Sorted)
    (hp : Monotony predicate sst.entries) {before after : List Block} {block : Block}
    (hblocks : sst.blocks = before ++ block :: after) (hblock : block.Satisfied predicate)
    (hbefore : ∀ b ∈ before, ¬ b.Satisfied predicate)
    (hafter : ∀ b ∈ after, ¬ b.Satisfied predicate) (hlastKey : predicate block.lastKey ≠ 0) :
  sst.ExactRange addressInSteps predicate
    (sstItersMonotonyPredicate getMonotonyPredicateIters addressInSearch sst 0 predicate)
  := by
  obtain ⟨part, pre, found, post, hrange, hpart⟩ := sstItersMonotonyPredicate_of_one
    addressInSearch hdoc (hsst.searchable hp) hblocks hblock hbefore hafter
  have hentries : sst.entries = (before.flatMap Block.entries ++ pre) ++
      (found ++ (post ++ after.flatMap Block.entries)) := by
    rw [SST.entries_eq, hblocks, List.flatMap_append, List.flatMap_cons, hpart.entries_eq]
    simp only [List.append_assoc]
  have hpost := hpart.lastKey_ne_iff.mp hlastKey
  have hreaches : RangeIterator.Reaches addressInSteps part.2 part.1 (keysOf found) :=
    RangeIterator.reaches_within hpart.stop hpost hpart.start hpart.apart
  rw [hrange]
  apply hsst.exactRange_some hentries hpart.found_ne hpart.found_zero _ _ hreaches
  · exact List.forall_mem_append.mpr ⟨ne_zero_of_not_satisfied hbefore, hpart.before_ne⟩
  · exact List.forall_mem_append.mpr ⟨hpart.after_ne, ne_zero_of_not_satisfied hafter⟩

/-- A range in several blocks is exact if a key of the last one comes after it and this block is
read again as the same object. -/
theorem exactRange_of_several (hdoc : getMonotonyPredicateIters.Documented) (hsst : sst.Sorted)
    (hp : Monotony predicate sst.entries) {before between after : List Block} {first last : Block}
    (hblocks : sst.blocks = before ++ first :: (between ++ last :: after))
    (hfirst : first.Satisfied predicate) (hlast : last.Satisfied predicate)
    (hbefore : ∀ b ∈ before, ¬ b.Satisfied predicate)
    (hafter : ∀ b ∈ after, ¬ b.Satisfied predicate) (hlastKey : predicate last.lastKey ≠ 0)
    (hsame : addressInSteps (before.length + 1 + between.length) =
      addressInSearch (before.length + 1 + between.length)) :
  sst.ExactRange addressInSteps predicate
    (sstItersMonotonyPredicate getMonotonyPredicateIters addressInSearch sst 0 predicate)
  := by
  obtain ⟨part, pre, found, post, part', pre', found', post', hrange, hpart, hpart'⟩ :=
    sstItersMonotonyPredicate_of_several addressInSearch hdoc (hsst.searchable hp) hblocks hfirst
      hlast hbefore hafter
  -- the entries from the start of the part in the first block to the end of the one in the last
  have hentries : sst.entries = (before.flatMap Block.entries ++ pre) ++
      (((found ++ post) ++ (between.flatMap Block.entries ++ (pre' ++ found'))) ++
        (post' ++ after.flatMap Block.entries)) := by
    rw [SST.entries_eq, hblocks, List.flatMap_append, List.flatMap_cons, List.flatMap_append,
      List.flatMap_cons, hpart.entries_eq, hpart'.entries_eq]
    simp only [List.append_assoc]
  have hzero : ∀ e ∈ (found ++ post) ++ (between.flatMap Block.entries ++ (pre' ++ found')),
      predicate e.key = 0 := by
    have hsub := sublist_of_eq_append hentries
    obtain ⟨e₁, found, rfl⟩ := List.exists_cons_of_ne_nil hpart.found_ne
    obtain ⟨found', e₂, rfl⟩ := (List.eq_nil_or_concat' found').resolve_left hpart'.found_ne
    have hmonotony := hp.mono (fun e he => hsub.subset he)
    apply hmonotony.zero_of_ends (hsst.sorted.sublist hsub) rfl
    · simp only [← List.append_assoc]
      rfl
    · exact hpart.found_zero e₁ List.mem_cons_self
    · exact hpart'.found_zero e₂ (List.mem_append_right _ (List.mem_singleton_self e₂))
  have hpost' := hpart'.lastKey_ne_iff.mp hlastKey
  have hstop := hpart'.stop
  rw [← hsame] at hstop
  have hapart : ∀ e ∈ pre' ++ found', ∀ e' ∈ post', e'.key ≠ e.key := by
    intro e he e' he' hkey
    apply hpart'.after_ne e' he'
    rw [hkey]
    exact hzero e (List.mem_append_right _ (List.mem_append_right _ he))
  have hstart : found ++ post ≠ [] := List.append_ne_nil_of_left_ne_nil hpart.found_ne post
  have hlastEntries : last.entries = (pre' ++ found') ++ post' := by
    rw [hpart'.entries_eq, List.append_assoc]
  have hreaches := RangeIterator.reaches_later hsst hblocks hpart.start hstart hpart.entries_eq
    hstop hpost' hlastEntries hapart
  rw [hrange]
  apply hsst.exactRange_some hentries _ hzero _ _ hreaches
  · simp [hpart.found_ne]
  · exact List.forall_mem_append.mpr ⟨ne_zero_of_not_satisfied hbefore, hpart.before_ne⟩
  · exact List.forall_mem_append.mpr ⟨hpart'.after_ne, ne_zero_of_not_satisfied hafter⟩

theorem length_before_cons {α : Type} (before : List α) (x : α) (between : List α) :
  (before ++ x :: between).length = before.length + 1 + between.length
  := by
  rw [List.length_append, List.length_cons]
  omega

/-- A range with an end at the end of its block, or in a later block that is read anew, is not
exact. -/
theorem SST.ExactRange.lastKey_ne (hdoc : getMonotonyPredicateIters.Documented) (hsst : sst.Sorted)
    (hp : Monotony predicate sst.entries) {before after : List Block} {last : Block}
    (hblocks : sst.blocks = before ++ last :: after) (hlast : last.Satisfied predicate)
    (hafter : ∀ b ∈ after, ¬ b.Satisfied predicate)
    (hexact : sst.ExactRange addressInSteps predicate
      (sstItersMonotonyPredicate getMonotonyPredicateIters addressInSearch sst 0 predicate)) :
  predicate last.lastKey ≠ 0 ∧
    ((∀ b ∈ before, ¬ b.Satisfied predicate) ∨
      addressInSteps before.length = addressInSearch before.length)
  := by
  by_cases hbefore : ∀ b ∈ before, ¬ b.Satisfied predicate
  · obtain ⟨part, pre, found, post, hrange, hpart⟩ := sstItersMonotonyPredicate_of_one
      addressInSearch hdoc (hsst.searchable hp) hblocks hlast hbefore hafter
    have hstart : found ++ post ≠ [] := List.append_ne_nil_of_left_ne_nil hpart.found_ne post
    refine ⟨hpart.lastKey_ne_iff.mpr ?_, .inl hbefore⟩
    intro hpost
    obtain ⟨keys, hreaches, -⟩ := hexact.2 part.1 part.2 hrange
    apply RangeIterator.not_reaches hsst.entries_ne hpart.stop (.inl hpost) hreaches
    exact .inr ⟨_, _, _, _, hpart.start, hstart, le_rfl, fun h => absurd rfl h⟩
  · obtain ⟨before, first, between, rfl, hfirst, hbefore⟩ := exists_first_of_exists
      (by simpa using hbefore)
    rw [List.append_assoc, List.cons_append] at hblocks
    rw [length_before_cons]
    obtain ⟨part, pre, found, post, part', pre', found', post', hrange, hpart, hpart'⟩ :=
      sstItersMonotonyPredicate_of_several addressInSearch hdoc (hsst.searchable hp) hblocks hfirst
        hlast hbefore hafter
    have hstart : found ++ post ≠ [] := List.append_ne_nil_of_left_ne_nil hpart.found_ne post
    obtain ⟨keys, hreaches, -⟩ := hexact.2 part.1 part'.2 hrange
    have hlater : before.length < before.length + 1 + between.length := by omega
    have hgood : ¬ (post' = [] ∨ before.length < before.length + 1 + between.length ∧
        addressInSteps (before.length + 1 + between.length) ≠
          addressInSearch (before.length + 1 + between.length)) := by
      intro hbad
      apply RangeIterator.not_reaches hsst.entries_ne hpart'.stop hbad hreaches
      exact .inr ⟨_, _, _, _, hpart.start, hstart, le_rfl, fun h => absurd rfl h⟩
    rw [not_or] at hgood
    constructor
    · exact hpart'.lastKey_ne_iff.mpr hgood.1
    · right
      by_contra hother
      exact hgood.2 ⟨hlater, hother⟩

end

/-- The range is exact just if it is empty, or a key of its last block comes after it and this
block is the only one, or is read again as the same object. -/
theorem sstItersMonotonyPredicate_exact_iff
    {getMonotonyPredicateIters : Block.MonotonyPredicateIters}
    (hdoc : getMonotonyPredicateIters.Documented) {sst : SST} (hsst : sst.Sorted)
    {predicate : Bytes → ℤ} (hp : Monotony predicate sst.entries)
    (addressInSearch addressInSteps : ℕ → ℕ) :
  sst.ExactRange addressInSteps predicate
      (sstItersMonotonyPredicate getMonotonyPredicateIters addressInSearch sst 0 predicate) ↔
    (∀ b ∈ sst.blocks, ¬ b.Satisfied predicate) ∨
    ∃ before last after, sst.blocks = before ++ last :: after ∧
      last.Satisfied predicate ∧ (∀ b ∈ after, ¬ b.Satisfied predicate) ∧
      predicate last.lastKey ≠ 0 ∧
      ((∀ b ∈ before, ¬ b.Satisfied predicate) ∨
        addressInSteps before.length = addressInSearch before.length)
  := by
  constructor
  · intro hexact
    by_cases hnone : ∀ b ∈ sst.blocks, ¬ b.Satisfied predicate
    · exact .inl hnone
    · right
      obtain ⟨before, last, after, hblocks, hlast, hafter⟩ :
          ∃ before last after, sst.blocks = before ++ last :: after ∧ last.Satisfied predicate ∧
            ∀ b ∈ after, ¬ b.Satisfied predicate :=
        exists_last_of_exists (by simpa using hnone)
      have hends := hexact.lastKey_ne hdoc hsst hp hblocks hlast hafter
      exact ⟨before, last, after, hblocks, hlast, hafter, hends⟩
  · rintro (hnone | ⟨before, last, after, hblocks, hlast, hafter, hlastKey, hsame⟩)
    · exact exactRange_of_none hdoc hsst hp hnone
    · by_cases hbefore : ∀ b ∈ before, ¬ b.Satisfied predicate
      · exact exactRange_of_one hdoc hsst hp hblocks hlast hbefore hafter hlastKey
      · have hsame := hsame.resolve_left hbefore
        obtain ⟨before, first, between, rfl, hfirst, hbefore⟩ := exists_first_of_exists
          (by simpa using hbefore)
        rw [List.append_assoc, List.cons_append] at hblocks
        rw [length_before_cons] at hsame
        exact exactRange_of_several hdoc hsst hp hblocks hfirst hlast hbefore hafter hlastKey hsame

/-! ### A search for the range in a block -/

/-- Entries in the order of a monotone predicate are the positive ones, then those it is zero at,
then the negative ones. -/
theorem Monotony.eq_filter_append {predicate : Bytes → ℤ} {es : List Entry}
    (h : Monotony predicate es) (hsorted : Keyed.Sorted Entry.key es) :
  es = es.filter (fun e => decide (0 < predicate e.key)) ++
    (es.filter (fun e => decide (predicate e.key = 0)) ++
      es.filter (fun e => decide (predicate e.key < 0)))
  := by
  induction es with
  | nil => rfl
  | cons e es ih =>
      have hes := ih (h.mono (fun e' he' => List.mem_cons_of_mem e he')) hsorted.of_cons
      have hle := (List.pairwise_cons.mp hsorted).1
      have hmono : ∀ e' ∈ es, (0 < predicate e'.key → 0 < predicate e.key) ∧
          (predicate e.key < 0 → predicate e'.key < 0) :=
        fun e' he' => h e List.mem_cons_self e' (List.mem_cons_of_mem e he') (hle e' he')
      rcases lt_trichotomy (predicate e.key) 0 with hneg | hzero | hpos
      · have hall : ∀ e' ∈ es, predicate e'.key < 0 := fun e' he' => (hmono e' he').2 hneg
        have hpos : es.filter (fun e => decide (0 < predicate e.key)) = [] := by
          apply List.filter_eq_nil_iff.mpr
          intro e' he'
          simpa using (hall e' he').le
        have hzero : es.filter (fun e => decide (predicate e.key = 0)) = [] := by
          apply List.filter_eq_nil_iff.mpr
          intro e' he'
          simpa using (hall e' he').ne
        rw [hpos, hzero] at hes
        simp [hneg, hneg.ne, hneg.le, hpos, hzero]
        exact hes
      · have hpos : es.filter (fun e => decide (0 < predicate e.key)) = [] := by
          apply List.filter_eq_nil_iff.mpr
          intro e' he'
          have hnot := mt (hmono e' he').1 (by omega)
          simpa using hnot
        rw [hpos] at hes
        simp [hzero, hpos]
        exact hes
      · simp [hpos, hpos.ne', hpos.le, ← hes]

namespace Block

/-- A search that counts the entries before the range and those in it. -/
def countMonotonyPredicateIters : MonotonyPredicateIters := fun b trancId predicate =>
  let start := b.entries.countP (fun e => decide (0 < predicate e.key))
  let found := b.entries.countP (fun e => decide (predicate e.key = 0))
  if found = 0 then
    none
  else
    some (BlockIterator.atIndex b start trancId false,
      BlockIterator.atIndex b (start + found) trancId false)

theorem documented_countMonotonyPredicateIters : countMonotonyPredicateIters.Documented
  := by
  intro b predicate hsorted hmonotony
  rw [countMonotonyPredicateIters, List.countP_eq_length_filter, List.countP_eq_length_filter]
  split
  next hnone =>
    left
    refine ⟨?_, rfl⟩
    rintro ⟨e, he, hzero⟩
    have hfound := List.filter_eq_nil_iff.mp (List.eq_nil_of_length_eq_zero hnone) e he
    exact hfound (decide_eq_true hzero)
  next hsome =>
    right
    refine ⟨_, _, _, hmonotony.eq_filter_append hsorted, ?_, ?_, ?_, ?_, rfl⟩
    · intro hnil
      apply hsome
      rw [hnil, List.length_nil]
    · intro e he
      exact of_decide_eq_true (List.mem_filter.mp he).2
    · intro e he
      have hpos := of_decide_eq_true (List.mem_filter.mp he).2
      omega
    · intro e he
      have hneg := of_decide_eq_true (List.mem_filter.mp he).2
      omega

end Block

/-! ### A range inside a table and one at its end -/

/-- The keys from `[2]` to `[3]`. -/
def twoToThree (key : Bytes) : ℤ := if key < [2] then 1 else if [3] < key then -1 else 0

/-- A table in which the keys from `[2]` to `[3]` are in two blocks. -/
def acrossTable : SST := ⟨1, [⟨[⟨[1], [7], 0⟩, ⟨[2], [8], 0⟩]⟩, ⟨[⟨[3], [9], 0⟩, ⟨[4], [7], 0⟩]⟩],
  0, none⟩

theorem sstItersMonotonyPredicate_exact_acrossTable :
  acrossTable.ExactRange id twoToThree
    (sstItersMonotonyPredicate Block.countMonotonyPredicateIters id acrossTable 0 twoToThree)
  := by
  have hsorted : acrossTable.Sorted :=
    ⟨by decide, by decide, by unfold Keyed.Sorted; decide, by decide⟩
  have hmonotony : Monotony twoToThree acrossTable.entries := by
    unfold Monotony
    decide
  apply (sstItersMonotonyPredicate_exact_iff Block.documented_countMonotonyPredicateIters hsorted
    hmonotony id id).mpr
  right
  exact ⟨[⟨[⟨[1], [7], 0⟩, ⟨[2], [8], 0⟩]⟩], ⟨[⟨[3], [9], 0⟩, ⟨[4], [7], 0⟩]⟩, [], rfl, by decide,
    by decide, by decide, .inr rfl⟩

/-- A table that ends with a satisfying key. -/
def atEndTable : SST := ⟨1, [⟨[⟨[1], [7], 0⟩, ⟨[2], [8], 0⟩]⟩], 0, none⟩

/-- The end of a range at the end of a table is never reached. -/
theorem not_sstItersMonotonyPredicate_exact :
  ¬ ∀ getMonotonyPredicateIters : Block.MonotonyPredicateIters,
    getMonotonyPredicateIters.Documented → ∀ sst : SST, sst.Sorted →
    ∀ predicate : Bytes → ℤ, Monotony predicate sst.entries → ∀ address : ℕ → ℕ,
    sst.ExactRange address predicate
      (sstItersMonotonyPredicate getMonotonyPredicateIters address sst 0 predicate)
  := by
  intro h
  have hsorted : atEndTable.Sorted :=
    ⟨by decide, by decide, by unfold Keyed.Sorted; decide, by decide⟩
  have hmonotony : Monotony twoToThree atEndTable.entries := by
    unfold Monotony
    decide
  have hexact := h _ Block.documented_countMonotonyPredicateIters atEndTable hsorted twoToThree
    hmonotony id
  have hends := hexact.lastKey_ne Block.documented_countMonotonyPredicateIters hsorted hmonotony
    (List.nil_append _).symm (by decide) (by decide)
  exact hends.1 (by decide)

end TinyLsm
