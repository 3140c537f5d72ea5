import TinyLsm.Sst.SstIterator

/-!
# The iterator over a sequence of tables

`ConcactIterator` walks over tables one after the other.  For no transaction, and keeping
all versions, it shows every entry of the tables when they are well formed.
-/

namespace TinyLsm

structure ConcactIterator where
  curIter : SstIterator
  curIdx : ℕ
  ssts : List SST
  maxTrancId : TrancId
  keepAllVersions : Bool := false

namespace ConcactIterator

/-- The iterator at the first of a sequence of tables. -/
def ofSsts (ssts : List SST) (trancId : TrancId) (keepAllVersions : Bool := false) :
    Except Fault ConcactIterator :=
  match ssts with
  | [] => do
      let curIter ← SstIterator.atFirst none trancId
      return { curIter, curIdx := 0, ssts, maxTrancId := trancId, keepAllVersions }
  | sst :: _ => do
      let curIter ← sst.begin trancId keepAllVersions
      return { curIter, curIdx := 0, ssts, maxTrancId := trancId, keepAllVersions }

/-- Step the iterator over the current table, moving on to the next table, if there is one,
when it reaches its end. -/
def next (it : ConcactIterator) : Except Fault ConcactIterator := do
  let stepped ← it.curIter.next
  if stepped.isEnd || !stepped.isValid then
    match it.ssts[it.curIdx + 1]? with
    | some sst => do
        let curIter ← sst.begin it.maxTrancId it.keepAllVersions
        return { it with curIter, curIdx := it.curIdx + 1 }
    | none => do
        let curIter ← SstIterator.atFirst none it.maxTrancId
        return { it with curIter, curIdx := it.curIdx + 1 }
  else
    return { it with curIter := stepped }

def deref (it : ConcactIterator) : Except Fault ((Bytes × Bytes) × ConcactIterator) := do
  let (raw, curIter) ← it.curIter.deref
  return (raw, { it with curIter })

def getTrancId (it : ConcactIterator) : TrancId :=
  if it.keepAllVersions then it.curIter.getTrancId else it.maxTrancId

def isEnd (it : ConcactIterator) : Bool := it.curIter.isEnd || !it.curIter.isValid

def isValid (it : ConcactIterator) : Bool := !it.curIter.isEnd && it.curIter.isValid

instance : BaseIterator ConcactIterator where
  next := next
  deref := deref
  getTrancId := getTrancId
  isEnd := isEnd
  isValid := isValid

/-! ### Showing every entry -/

/-- The entries of the tables from a given one on. -/
def entriesOfDrop (ssts : List SST) (idx : ℕ) : List Entry := (ssts.drop idx).flatMap SST.entries

theorem entriesOfDrop_of_le {ssts : List SST} {idx : ℕ} (h : ssts.length ≤ idx) :
  entriesOfDrop ssts idx = []
  := by
  rw [entriesOfDrop, List.drop_eq_nil_of_le h]
  rfl

theorem entriesOfDrop_of_getElem? {ssts : List SST} {idx : ℕ} {sst : SST}
    (h : ssts[idx]? = some sst) :
  entriesOfDrop ssts idx = sst.entries ++ entriesOfDrop ssts (idx + 1)
  := by
  obtain ⟨hlt, rfl⟩ := List.getElem?_eq_some_iff.mp h
  rw [entriesOfDrop, List.drop_eq_getElem_cons hlt]
  rfl

/-- The entries of the tables after the current one. -/
def later (it : ConcactIterator) : List Entry := entriesOfDrop it.ssts (it.curIdx + 1)

/-- The iterator shows every entry, and has the entries `es` left: those left in the current
table, then those of the later tables.  When none are left in the current table, there are
no later tables. -/
structure Shows (it : ConcactIterator) (es : List Entry) : Prop where
  maxTrancId_eq : it.maxTrancId = 0
  keepAllVersions_eq : it.keepAllVersions = true
  wellFormed : ∀ sst ∈ it.ssts, sst.WellFormed
  left : ∃ here, it.curIter.Shows here ∧ es = here ++ it.later ∧
    (here = [] → it.later = [])

/-- When entries are left, the current iterator is at the first of them. -/
theorem Shows.curIter_atEntry {it : ConcactIterator} {e : Entry} {es : List Entry}
    (h : it.Shows (e :: es)) :
  ∃ sst blockIt here, it.curIter.AtEntry sst blockIt (e :: here) ∧ es = here ++ it.later
  := by
  obtain ⟨here, hcur, hes, hlater⟩ := h.left
  cases hcur with
  | atEnd hnone =>
      rw [hlater rfl, List.nil_append] at hes
      cases hes
  | atEntry hat =>
      cases here with
      | nil => apply hat.ne_nil.elim
      | cons e' here =>
          obtain ⟨rfl, rfl⟩ := List.cons.inj hes
          exact ⟨_, _, here, hat, rfl⟩

/-- An iterator that shows entries over a table is at its end, or not valid, just when it
has none left. -/
theorem isEnd_or_not_isValid {it : SstIterator} {es : List Entry} (h : it.Shows es) :
  (it.isEnd || !it.isValid) = es.isEmpty
  := by
  cases h with
  | atEnd hnone =>
      rw [SstIterator.isEnd, hnone]
      rfl
  | atEntry hat =>
      cases es with
      | nil => apply hat.ne_nil.elim
      | cons e es =>
          rw [hat.isEnd_eq, hat.isValid_eq]
          rfl

/-- Stepping leaves the other entries. -/
theorem Shows.next {it : ConcactIterator} {e : Entry} {es : List Entry}
    (h : it.Shows (e :: es)) :
  ∃ it', it.next = .ok it' ∧ it'.Shows es
  := by
  obtain ⟨sst, blockIt, here, hat, rfl⟩ := h.curIter_atEntry
  obtain ⟨stepped, hnext, hshows⟩ := hat.next_shows
  rw [ConcactIterator.next, Except.bind_eq_of_ok _ hnext, isEnd_or_not_isValid hshows]
  cases here with
  | cons e' here =>
      refine ⟨_, rfl, h.maxTrancId_eq, h.keepAllVersions_eq, h.wellFormed, ?_⟩
      exact ⟨e' :: here, hshows, rfl, by rintro ⟨⟩⟩
  | nil =>
      rw [List.isEmpty_nil, if_pos rfl, List.nil_append]
      cases hsst : it.ssts[it.curIdx + 1]? with
      | none =>
          have hle := List.getElem?_eq_none_iff.mp hsst
          have hlater : it.later = [] := entriesOfDrop_of_le hle
          refine ⟨_, rfl, h.maxTrancId_eq, h.keepAllVersions_eq, h.wellFormed, ?_⟩
          refine ⟨[], .atEnd rfl, ?_, fun _ => entriesOfDrop_of_le (Nat.le_succ_of_le hle)⟩
          rw [hlater]
          exact (entriesOfDrop_of_le (Nat.le_succ_of_le hle)).symm
      | some sst' =>
          have hwf := h.wellFormed sst' (List.mem_of_getElem? hsst)
          obtain ⟨curIter, hbegin, hshows'⟩ := SstIterator.begin_shows hwf
          dsimp only
          rw [h.maxTrancId_eq, h.keepAllVersions_eq, Except.bind_eq_of_ok _ hbegin]
          refine ⟨_, rfl, rfl, rfl, h.wellFormed, sst'.entries, hshows', ?_, ?_⟩
          · apply entriesOfDrop_of_getElem? hsst
          · intro hnil
            exact absurd hnil hwf.entries_ne_nil

/-- An iterator that shows every entry delivers the entries it has left. -/
theorem tracks_shows :
  (BaseIterator.cursor ConcactIterator).Tracks Shows
  where
  isEnd_nil := by
    intro it hshows
    obtain ⟨here, hcur, hes, -⟩ := hshows.left
    obtain ⟨rfl, -⟩ := List.append_eq_nil_iff.mp hes.symm
    change (it.curIter.isEnd || !it.curIter.isValid) = true
    rw [isEnd_or_not_isValid hcur]
    rfl
  isEnd_cons := by
    intro it e es hshows
    obtain ⟨sst, blockIt, here, hat, -⟩ := hshows.curIter_atEntry
    change (it.curIter.isEnd || !it.curIter.isValid) = false
    rw [hat.isEnd_eq, hat.isValid_eq]
    rfl
  peek_cons := by
    intro it e es hshows
    obtain ⟨sst, blockIt, here, hat, rfl⟩ := hshows.curIter_atEntry
    have hderef :
        it.deref = .ok (e.pair, { it with curIter := it.curIter.withCached blockIt e }) := by
      rw [deref, Except.bind_eq_of_ok _ hat.deref_eq]
      rfl
    use { it with curIter := it.curIter.withCached blockIt e }
    constructor
    · change BaseIterator.entry it = _
      rw [BaseIterator.entry_of_deref hderef]
      change Except.ok (Entry.mk e.key e.value (getTrancId _), _) = _
      rw [getTrancId, if_pos hshows.keepAllVersions_eq, hat.fill.getTrancId_eq]
    · refine ⟨hshows.maxTrancId_eq, hshows.keepAllVersions_eq, hshows.wellFormed, ?_⟩
      exact ⟨e :: here, .atEntry hat.fill, rfl, by rintro ⟨⟩⟩
  next_cons := Shows.next

/-- An iterator over well-formed tables shows the entries of the tables. -/
theorem ofSsts_shows {ssts : List SST} (h : ∀ sst ∈ ssts, sst.WellFormed) :
  ∃ it, ofSsts ssts 0 true = .ok it ∧ it.Shows (ssts.flatMap SST.entries)
  := by
  cases ssts with
  | nil => exact ⟨_, rfl, rfl, rfl, h, [], .atEnd rfl, rfl, fun _ => rfl⟩
  | cons sst ssts =>
      have hwf := h sst List.mem_cons_self
      obtain ⟨curIter, hbegin, hshows⟩ := SstIterator.begin_shows hwf
      rw [ofSsts, Except.bind_eq_of_ok _ hbegin]
      refine ⟨_, rfl, rfl, rfl, h, sst.entries, hshows, rfl, ?_⟩
      intro hnil
      exact absurd hnil hwf.entries_ne_nil

end ConcactIterator

end TinyLsm
