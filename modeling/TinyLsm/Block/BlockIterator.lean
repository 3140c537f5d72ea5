import TinyLsm.Basic
import TinyLsm.Library.Cursor
import TinyLsm.Library.Firsts

/-!
# Blocks and their iterator

A block is the list of its entries: the accessors of the source answer the fields of the
entry at a given offset, and the offsets list the entries.

`BlockIterator` walks over a block for a transaction, `0` standing for none.  It skips the
entries the transaction does not see, and the other versions of a key unless all versions
are kept.  It caches the pair it is at.  Its cache is coherent: a cached pair is the pair of
the entry at the current index.
-/

namespace TinyLsm

structure Block where
  entries : List Entry
deriving DecidableEq, Repr

namespace Block

def size (b : Block) : ℕ := b.entries.length

/-- The entry at the offset with index `idx`, for `get_entry_at` of `get_offset_at`. -/
def getEntryAt (b : Block) (idx : ℕ) : Option Entry := b.entries[idx]?

/-- Advance an index past the entries that satisfy `p`. -/
def advanceWhile (b : Block) (p : Entry → Bool) : ℕ → ℕ → ℕ
  | 0, idx => idx
  | fuel + 1, idx =>
      match b.getEntryAt idx with
      | some e => if p e then advanceWhile b p fuel (idx + 1) else idx
      | none => idx

theorem getEntryAt_of_drop {b : Block} {idx : ℕ} {e : Entry} {es : List Entry}
    (h : b.entries.drop idx = e :: es) :
  b.getEntryAt idx = some e
  := by
  rw [getEntryAt, ← List.head?_drop, h]
  rfl

theorem drop_succ_of_drop {b : Block} {idx : ℕ} {e : Entry} {es : List Entry}
    (h : b.entries.drop idx = e :: es) :
  b.entries.drop (idx + 1) = es
  := by
  rw [← List.drop_drop, h]
  rfl

/-- Advancing past the entries that satisfy `p` drops them off the entries left. -/
theorem drop_advanceWhile (b : Block) (p : Entry → Bool) :
  ∀ (fuel idx : ℕ), b.size ≤ fuel + idx →
    b.entries.drop (b.advanceWhile p fuel idx) = (b.entries.drop idx).dropWhile p
  | 0, idx, h => by
      have hnil : b.entries.drop idx = [] := List.drop_eq_nil_of_le (by simpa [size] using h)
      rw [advanceWhile, hnil]
      rfl
  | fuel + 1, idx, h => by
      rw [advanceWhile]
      cases hdrop : b.entries.drop idx with
      | nil =>
          have hnone : b.getEntryAt idx = none := by
            rw [getEntryAt, ← List.head?_drop, hdrop]
            rfl
          rw [hnone, hdrop]
          rfl
      | cons e es =>
          rw [getEntryAt_of_drop hdrop]
          cases hp : p e with
          | true =>
              dsimp only
              rw [if_pos hp, drop_advanceWhile b p fuel (idx + 1) (by omega),
                drop_succ_of_drop hdrop, List.dropWhile_cons_of_pos hp]
          | false =>
              have hp' : ¬ p e = true := by simp [hp]
              dsimp only
              rw [if_neg hp', hdrop, List.dropWhile_cons_of_neg hp']

/-- Advancing does not leave the block. -/
theorem advanceWhile_le (b : Block) (p : Entry → Bool) :
  ∀ (fuel idx : ℕ), idx ≤ b.size → b.advanceWhile p fuel idx ≤ b.size
  | 0, _, h => h
  | fuel + 1, idx, h => by
      rw [advanceWhile]
      split
      next e he =>
        obtain ⟨hlt, -⟩ := List.getElem?_eq_some_iff.mp he
        split
        · apply advanceWhile_le b p fuel (idx + 1) hlt
        · apply h
      · apply h

end Block

/-- An iterator over a block.  The block is never null: the null iterator of the default
constructor is built by no code but stubs. -/
structure BlockIterator where
  block : Block
  currentIndex : ℕ
  trancId : TrancId
  cachedValue : Option (Bytes × Bytes) := none
  keepAllVersions : Bool := false
deriving DecidableEq, Repr

namespace BlockIterator

/-- Skip the entries newer than the transaction, and empty the cache. -/
def skipByTrancId (it : BlockIterator) : BlockIterator :=
  if it.trancId = 0 then
    { it with cachedValue := none }
  else
    { it with
      currentIndex :=
        it.block.advanceWhile (fun e => it.trancId < e.trancId) it.block.size it.currentIndex
      cachedValue := none }

/-- The iterator at an index of a block. -/
def atIndex (block : Block) (index : ℕ) (trancId : TrancId) (keepAllVersions : Bool) :
    BlockIterator :=
  ({ block, currentIndex := index, trancId, keepAllVersions } : BlockIterator).skipByTrancId

def next (it : BlockIterator) : BlockIterator :=
  match it.block.getEntryAt it.currentIndex with
  | none => it
  | some prevEntry =>
      let idx :=
        if it.keepAllVersions then it.currentIndex + 1
        else it.block.advanceWhile (fun e => e.key = prevEntry.key) it.block.size
          (it.currentIndex + 1)
      { it with currentIndex := idx }.skipByTrancId

/-- Fill the cache, if it is empty, with the pair at the current index, if there is one. -/
def updateCurrent (it : BlockIterator) : BlockIterator :=
  match it.cachedValue, it.block.getEntryAt it.currentIndex with
  | none, some e => { it with cachedValue := some e.pair }
  | _, _ => it

def deref (it : BlockIterator) : Except Fault ((Bytes × Bytes) × BlockIterator) :=
  if it.block.size ≤ it.currentIndex then
    .error (.outOfRange "Iterator out of range")
  else
    match it.updateCurrent.cachedValue with
    | some v => .ok (v, it.updateCurrent)
    | none => .error .undefinedBehavior

/-- `operator->`, the address of the cached pair, is undefined when the cache stays
empty. -/
def arrow (it : BlockIterator) : Except Fault ((Bytes × Bytes) × BlockIterator) :=
  match it.updateCurrent.cachedValue with
  | some v => .ok (v, it.updateCurrent)
  | none => .error .undefinedBehavior

def isEnd (it : BlockIterator) : Bool := it.currentIndex = it.block.size

def getCurTrancId (it : BlockIterator) : TrancId :=
  match it.block.getEntryAt it.currentIndex with
  | none => 0
  | some e => e.trancId

/-! ### The entries left -/

/-- The entries of the block from the current index on. -/
def rest (it : BlockIterator) : List Entry := it.block.entries.drop it.currentIndex

/-- The cached pair is the pair at the current index, which lies in the block or at its
end. -/
structure Coherent (it : BlockIterator) : Prop where
  cached : ∀ v ∈ it.cachedValue, (it.block.getEntryAt it.currentIndex).map Entry.pair = some v
  inside : it.currentIndex ≤ it.block.size

theorem isEnd_iff {it : BlockIterator} (h : it.Coherent) :
  it.isEnd = true ↔ it.rest = []
  := by
  have hinside := h.inside
  rw [isEnd, decide_eq_true_iff, rest, List.drop_eq_nil_iff]
  simp only [Block.size] at hinside ⊢
  omega

theorem getEntryAt_of_rest {it : BlockIterator} {e : Entry} {es : List Entry}
    (h : it.rest = e :: es) :
  it.block.getEntryAt it.currentIndex = some e
  := Block.getEntryAt_of_drop h

theorem getCurTrancId_of_rest {it : BlockIterator} {e : Entry} {es : List Entry}
    (h : it.rest = e :: es) :
  it.getCurTrancId = e.trancId
  := by
  rw [getCurTrancId, getEntryAt_of_rest h]

/-- At an entry, filling the cache of a coherent iterator caches the pair of the entry, and
changes nothing else. -/
theorem updateCurrent_of_rest {it : BlockIterator} (hc : it.Coherent) {e : Entry}
    {es : List Entry} (h : it.rest = e :: es) :
  it.updateCurrent = { it with cachedValue := some e.pair }
  := by
  have he := getEntryAt_of_rest h
  rw [updateCurrent, he]
  cases hv : it.cachedValue with
  | none => rfl
  | some v =>
      have hcached := hc.cached v hv
      rw [he] at hcached
      obtain rfl := Option.some.inj hcached
      dsimp only
      rw [← hv]

theorem Coherent.fill {it : BlockIterator} (hc : it.Coherent) {e : Entry} {es : List Entry}
    (h : it.rest = e :: es) :
  Coherent { it with cachedValue := some e.pair }
  where
  cached v hv := by
    obtain rfl := Option.some.inj hv
    dsimp only
    rw [getEntryAt_of_rest h]
    rfl
  inside := hc.inside

/-- At an entry, a coherent iterator dereferences to its pair, caching it. -/
theorem deref_of_rest {it : BlockIterator} (hc : it.Coherent) {e : Entry} {es : List Entry}
    (h : it.rest = e :: es) :
  it.deref = .ok (e.pair, { it with cachedValue := some e.pair })
  := by
  have hlt : ¬ it.block.size ≤ it.currentIndex := by
    intro hle
    rw [rest, List.drop_eq_nil_of_le hle] at h
    cases h
  rw [deref, if_neg hlt, updateCurrent_of_rest hc h]

theorem arrow_of_rest {it : BlockIterator} (hc : it.Coherent) {e : Entry} {es : List Entry}
    (h : it.rest = e :: es) :
  it.arrow = .ok (e.pair, { it with cachedValue := some e.pair })
  := by
  rw [arrow, updateCurrent_of_rest hc h]

/-! ### Stepping -/

theorem coherent_skipByTrancId {it : BlockIterator} (h : it.currentIndex ≤ it.block.size) :
  it.skipByTrancId.Coherent
  := by
  rw [skipByTrancId]
  split
  · exact ⟨by rintro _ ⟨⟩, h⟩
  · exact ⟨by rintro _ ⟨⟩, Block.advanceWhile_le _ _ _ _ h⟩

/-- The entries the transaction of the iterator does not see. -/
def invisible (it : BlockIterator) (e : Entry) : Bool :=
  decide (it.trancId ≠ 0) && decide (it.trancId < e.trancId)

theorem invisible_of_noTranc {it : BlockIterator} (h : it.trancId = 0) :
  it.invisible = fun _ => false
  := by
  funext e
  simp [invisible, h]

theorem dropWhile_false {α : Type} (xs : List α) : xs.dropWhile (fun _ => false) = xs
  := by
  cases xs with
  | nil => rfl
  | cons x xs => rw [List.dropWhile_cons_of_neg Bool.false_ne_true]

theorem rest_skipByTrancId (it : BlockIterator) :
  it.skipByTrancId.rest = it.rest.dropWhile it.invisible
  := by
  rw [skipByTrancId]
  split
  next h =>
    rw [invisible_of_noTranc h, dropWhile_false]
    rfl
  next h =>
    have htrue : it.invisible = fun e => decide (it.trancId < e.trancId) := by
      funext e
      simp [invisible, h]
    rw [htrue]
    apply Block.drop_advanceWhile
    omega

/-- Stepping drops the current entry, then the other versions of its key unless they are
kept, then the entries the transaction does not see. -/
theorem rest_next {it : BlockIterator} {e : Entry} {es : List Entry} (h : it.rest = e :: es) :
  it.next.rest =
    (if it.keepAllVersions then es
      else es.dropWhile (fun e' => e'.key = e.key)).dropWhile it.invisible
  := by
  have hdrop : it.block.entries.drop (it.currentIndex + 1) = es := Block.drop_succ_of_drop h
  rw [next, getEntryAt_of_rest h]
  dsimp only
  rw [rest_skipByTrancId]
  congr 1
  cases it.keepAllVersions with
  | true => apply hdrop
  | false =>
      rw [← hdrop]
      apply Block.drop_advanceWhile
      omega

/-- For no transaction, and keeping all versions, stepping drops just the current entry. -/
theorem rest_next_of_keepsAll {it : BlockIterator} (ht : it.trancId = 0)
    (hk : it.keepAllVersions = true) {e : Entry} {es : List Entry} (h : it.rest = e :: es) :
  it.next.rest = es
  := by
  rw [rest_next h, if_pos hk, invisible_of_noTranc ht, dropWhile_false]

/-- For no transaction, and keeping the first versions only, stepping drops the current entry and
the other versions of its key that follow it. -/
theorem rest_next_of_firstVersions {it : BlockIterator} (ht : it.trancId = 0)
    (hk : it.keepAllVersions = false) {e : Entry} {es : List Entry} (h : it.rest = e :: es) :
  it.next.rest = Keyed.dropKey Entry.key e.key es
  := by
  rw [rest_next h, hk, if_neg Bool.false_ne_true, invisible_of_noTranc ht, dropWhile_false]
  rfl

@[simp]
theorem skipByTrancId_trancId (it : BlockIterator) : it.skipByTrancId.trancId = it.trancId
  := by
  rw [skipByTrancId]
  split
  · rfl
  · rfl

@[simp]
theorem skipByTrancId_keepAllVersions (it : BlockIterator) :
  it.skipByTrancId.keepAllVersions = it.keepAllVersions
  := by
  rw [skipByTrancId]
  split
  · rfl
  · rfl

@[simp]
theorem next_trancId (it : BlockIterator) : it.next.trancId = it.trancId
  := by
  rw [next]
  split
  · rfl
  · rw [skipByTrancId_trancId]

@[simp]
theorem next_keepAllVersions (it : BlockIterator) :
  it.next.keepAllVersions = it.keepAllVersions
  := by
  rw [next]
  split
  · rfl
  · rw [skipByTrancId_keepAllVersions]

theorem coherent_next {it : BlockIterator} (h : it.Coherent) : it.next.Coherent
  := by
  rw [next]
  split
  · apply h
  next e he =>
    obtain ⟨hlt, -⟩ := List.getElem?_eq_some_iff.mp he
    apply coherent_skipByTrancId
    dsimp only
    split
    · apply hlt
    · apply Block.advanceWhile_le _ _ _ _ hlt

theorem coherent_atIndex {b : Block} {index : ℕ} (h : index ≤ b.size) (trancId : TrancId)
    (keepAllVersions : Bool) :
  (atIndex b index trancId keepAllVersions).Coherent
  := by
  apply coherent_skipByTrancId
  apply h

/-- For no transaction, the iterator at the start of a block has all of its entries left. -/
theorem rest_atIndex_zero (b : Block) (keepAllVersions : Bool) :
  (atIndex b 0 0 keepAllVersions).rest = b.entries
  := rfl

end BlockIterator

end TinyLsm
