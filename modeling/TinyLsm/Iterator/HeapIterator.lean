import TinyLsm.Iterator.BaseIterator
import TinyLsm.Library.BinaryHeap
import TinyLsm.Library.Firsts

/-!
# The heap iterator

`HeapIterator` orders search items with a priority queue.  Its comparison `SearchItem.gt` is
not an order on items of one key, where the transaction ids, the levels and the indices may
disagree, but it never contradicts the order of the keys.  So the queue delivers the items
with keys that never decrease, whatever ids and indices they have.

When the items all have the same id and the same level, the comparison is an order: by the
keys, then by the indices.  An iterator for no transaction then shows, for each key whose item
with the least index is not a deletion mark, that item.
-/

namespace TinyLsm

/-- An entry with the index and the level of the table it comes from. -/
structure SearchItem where
  key : Bytes
  value : Bytes
  idx : ℤ
  level : ℤ
  trancId : TrancId
deriving DecidableEq, Repr

def SearchItem.entry (a : SearchItem) : Entry := ⟨a.key, a.value, a.trancId⟩

/-- `operator>` on search items. -/
def SearchItem.gt (a b : SearchItem) : Bool :=
  if a.key ≠ b.key then
    b.key < a.key
  else if a.trancId < b.trancId then
    true
  else if a.level < b.level then
    true
  else
    b.idx < a.idx

structure HeapIterator where
  items : Array SearchItem := #[]
  maxTrancId : TrancId := 0
  skipDelete : Bool := true
  keepAllVersions : Bool := false

namespace HeapIterator

def top? (it : HeapIterator) : Option SearchItem := BinaryHeap.top? it.items

def emplace (it : HeapIterator) (item : SearchItem) : HeapIterator :=
  { it with items := BinaryHeap.push SearchItem.gt it.items item }

def pop (it : HeapIterator) : HeapIterator :=
  { it with items := BinaryHeap.pop SearchItem.gt it.items }

def popWhile (it : HeapIterator) (p : SearchItem → Bool) : HeapIterator :=
  { it with items := BinaryHeap.popWhile SearchItem.gt p it.items.size it.items }

/-- The top is visible to the transaction and, if deletion marks are skipped, not one. -/
def topValueLegal (it : HeapIterator) : Bool :=
  match it.top? with
  | none => true
  | some item =>
      if it.maxTrancId = 0 then
        if it.skipDelete then !item.value.isEmpty else true
      else if item.trancId ≤ it.maxTrancId then
        if it.skipDelete then !item.value.isEmpty else true
      else
        false

def skipByTrancId (it : HeapIterator) : HeapIterator :=
  if it.maxTrancId = 0 then it
  else it.popWhile (fun item => it.maxTrancId < item.trancId)

/-- Pop deletion marks off the top, each with the other versions of its key unless all
versions are kept. -/
def skipDeleted : ℕ → HeapIterator → HeapIterator
  | 0, it => it
  | fuel + 1, it =>
      match it.top? with
      | none => it
      | some item =>
          if item.value.isEmpty then
            if it.keepAllVersions then
              skipDeleted fuel it.pop
            else
              skipDeleted fuel (it.popWhile (fun other => other.key = item.key))
          else it

/-- Skip what the iterator does not show until its top is legal.  Every round pops an item,
so as many rounds as there are items suffice. -/
def skipIllegal : ℕ → HeapIterator → HeapIterator
  | 0, it => it
  | fuel + 1, it =>
      if it.topValueLegal then it
      else
        let visible := it.skipByTrancId
        if visible.skipDelete then
          skipIllegal fuel (skipDeleted visible.items.size visible)
        else
          skipIllegal fuel visible

/-- The iterator over a vector of search items. -/
def ofItems (items : List SearchItem) (maxTrancId : TrancId) (skipDelete : Bool := true)
    (keepAllVersions : Bool := false) : HeapIterator :=
  let it := items.foldl emplace ⟨#[], maxTrancId, skipDelete, keepAllVersions⟩
  it.skipIllegal it.items.size

def next (it : HeapIterator) : HeapIterator :=
  match it.top? with
  | none => it
  | some oldItem =>
      let popped := it.pop
      let it' :=
        if it.keepAllVersions then popped
        else popped.popWhile (fun item => item.key = oldItem.key)
      it'.skipIllegal it'.items.size

/-- Dereferencing an iterator at its end reads the top of an empty queue. -/
def deref (it : HeapIterator) : Except Fault (Bytes × Bytes) :=
  match it.top? with
  | none => .error .undefinedBehavior
  | some item => .ok (item.key, item.value)

def isEnd (it : HeapIterator) : Bool := it.items.isEmpty

def isValid (it : HeapIterator) : Bool := !it.items.isEmpty

def getTrancId (it : HeapIterator) : TrancId :=
  match it.top? with
  | none => it.maxTrancId
  | some item => if it.keepAllVersions then item.trancId else it.maxTrancId

instance : BaseIterator HeapIterator where
  next it := .ok it.next
  deref it := it.deref.map (·, it)
  getTrancId := getTrancId
  isEnd := isEnd
  isValid := isValid

end HeapIterator

/-! ### The order of the keys -/

/-- The relation between items the comparison never contradicts: the keys do not
decrease. -/
def SearchItem.KeyLe (a b : SearchItem) : Prop := a.key ≤ b.key

instance : Std.Refl SearchItem.KeyLe := ⟨fun a => le_refl a.key⟩

instance : IsTrans SearchItem SearchItem.KeyLe := ⟨fun _ _ _ => le_trans⟩

theorem SearchItem.keyLe_of_gt {a b : SearchItem} (h : a.gt b = true) :
  b.KeyLe a
  := by
  rw [gt] at h
  split at h
  · apply le_of_lt
    simpa using h
  next hne =>
    apply le_of_eq
    simpa using (not_not.mp hne).symm

theorem SearchItem.keyLe_of_not_gt {a b : SearchItem} (h : a.gt b = false) :
  a.KeyLe b
  := by
  rw [gt] at h
  split at h
  · apply le_of_not_gt
    simpa using h
  next hne =>
    apply le_of_eq
    simpa using not_not.mp hne

namespace HeapIterator

/-- The keys in the queue do not decrease from a position to its children. -/
def KeyOrdered (it : HeapIterator) : Prop := BinaryHeap.Ordered SearchItem.KeyLe it.items

theorem KeyOrdered.emplace {it : HeapIterator} (h : it.KeyOrdered) (item : SearchItem) :
  (it.emplace item).KeyOrdered
  := BinaryHeap.push_ordered (fun _ _ => SearchItem.keyLe_of_gt)
    (fun _ _ => SearchItem.keyLe_of_not_gt) h item

/-! ### Showing every item -/

/-- The iterator belongs to no transaction and keeps deletion marks and all versions. -/
structure Unfiltered (it : HeapIterator) : Prop where
  noTranc : it.maxTrancId = 0
  keepsDeleted : it.skipDelete = false
  keepsVersions : it.keepAllVersions = true

theorem Unfiltered.emplace {it : HeapIterator} (h : it.Unfiltered) (item : SearchItem) :
  (it.emplace item).Unfiltered
  := ⟨h.noTranc, h.keepsDeleted, h.keepsVersions⟩

theorem Unfiltered.pop {it : HeapIterator} (h : it.Unfiltered) : it.pop.Unfiltered
  := ⟨h.noTranc, h.keepsDeleted, h.keepsVersions⟩

/-- The iterator is at its end just when it has no top. -/
theorem isEnd_eq (it : HeapIterator) : it.isEnd = it.top?.isNone
  := by
  rw [isEnd, top?, BinaryHeap.top?, Array.isEmpty]
  by_cases hsize : it.items.size = 0
  · rw [decide_eq_true hsize, Array.getElem?_eq_none (Nat.le_of_eq hsize)]
    rfl
  · rw [decide_eq_false hsize, Array.getElem?_eq_getElem (Nat.pos_of_ne_zero hsize)]
    rfl

/-- The iterator is at its end or filters nothing out. -/
def KeepsAll (it : HeapIterator) : Prop := it.top? = none ∨ it.Unfiltered

/-- The iterator shows every item and has the entries `es` left. -/
def Shows (it : HeapIterator) (es : List Entry) : Prop :=
  it.KeepsAll ∧ ∃ items, BinaryHeap.Delivers SearchItem.gt it.items items ∧
    es = items.map SearchItem.entry

theorem topValueLegal_of_keepsAll {it : HeapIterator} (h : it.KeepsAll) :
  it.topValueLegal = true
  := by
  rw [topValueLegal]
  rcases h with h | h
  · rw [h]
  · split
    · rfl
    · rw [if_pos h.noTranc, h.keepsDeleted]
      rfl

theorem skipIllegal_of_keepsAll {it : HeapIterator} (h : it.KeepsAll) (fuel : ℕ) :
  it.skipIllegal fuel = it
  := by
  cases fuel with
  | zero => rfl
  | succ n => rw [skipIllegal, if_pos (topValueLegal_of_keepsAll h)]

/-- An iterator that keeps everything and is not at its end steps by a pop. -/
theorem next_of_keepsAll {it : HeapIterator} (h : it.KeepsAll) {item : SearchItem}
    (htop : it.top? = some item) :
  it.next = it.pop ∧ it.pop.KeepsAll
  := by
  rcases h with h | h
  · rw [h] at htop
    cases htop
  · have hpop : it.pop.KeepsAll := Or.inr h.pop
    rw [next, htop]
    dsimp only
    rw [if_pos h.keepsVersions]
    exact ⟨skipIllegal_of_keepsAll hpop _, hpop⟩

/-- An iterator that shows every item delivers the entries it has left. -/
theorem tracks_shows :
  (BaseIterator.cursor HeapIterator).Tracks Shows
  where
  isEnd_nil := by
    rintro it ⟨-, items, hdel, hes⟩
    obtain rfl := List.map_eq_nil_iff.mp hes.symm
    have htop : it.top? = none := hdel
    change it.isEnd = true
    rw [isEnd_eq, htop]
    rfl
  isEnd_cons := by
    rintro it e es ⟨-, items, hdel, hes⟩
    obtain ⟨item, items, rfl, -, -⟩ := List.map_eq_cons_iff.mp hes.symm
    have htop : it.top? = some item := hdel.1
    change it.isEnd = false
    rw [isEnd_eq, htop]
    rfl
  peek_cons := by
    rintro it e es ⟨hkeep, items, hdel, hes⟩
    obtain ⟨item, items, rfl, rfl, rfl⟩ := List.map_eq_cons_iff.mp hes.symm
    have htop : it.top? = some item := hdel.1
    use it
    constructor
    · rcases hkeep with h | h
      · rw [htop] at h
        cases h
      · have hderef : BaseIterator.deref it = .ok ((item.key, item.value), it) := by
          change (it.deref.map (·, it)) = _
          rw [deref, htop]
          rfl
        have hid : BaseIterator.getTrancId it = item.trancId := by
          change it.getTrancId = _
          rw [getTrancId, htop]
          apply if_pos h.keepsVersions
        change BaseIterator.entry it = _
        rw [BaseIterator.entry_of_deref hderef, hid]
        rfl
    · exact ⟨hkeep, item :: items, hdel, rfl⟩
  next_cons := by
    rintro it e es ⟨hkeep, items, hdel, hes⟩
    obtain ⟨item, items, rfl, rfl, rfl⟩ := List.map_eq_cons_iff.mp hes.symm
    obtain ⟨hnext, hpop⟩ := next_of_keepsAll hkeep hdel.1
    use it.pop
    constructor
    · change Except.ok it.next = _
      rw [hnext]
    · exact ⟨hpop, items, hdel.2, rfl⟩

/-- The keys of the entries left at a key-ordered iterator do not decrease. -/
theorem Shows.pairwise {it : HeapIterator} {es : List Entry} (h : it.Shows es)
    (hord : it.KeyOrdered) :
  es.Pairwise (fun e e' => e.key ≤ e'.key)
  := by
  obtain ⟨-, items, hdel, rfl⟩ := h
  apply List.pairwise_map.mpr
  apply hdel.pairwise (r := SearchItem.KeyLe) (fun _ _ => SearchItem.keyLe_of_gt)
    (fun _ _ => SearchItem.keyLe_of_not_gt) hord

/-- An iterator that keeps everything shows its items. -/
theorem exists_shows {it : HeapIterator} (h : it.KeepsAll) :
  ∃ es, it.Shows es ∧ es.Perm (it.items.toList.map SearchItem.entry)
  := by
  obtain ⟨items, hdel⟩ := BinaryHeap.exists_delivers SearchItem.gt _ it.items rfl
  use items.map SearchItem.entry
  exact ⟨⟨h, items, hdel, rfl⟩, hdel.perm.map _⟩

end HeapIterator

/-! ### Showing the first live item of each key -/

def SearchItem.pair (a : SearchItem) : Bytes × Bytes := (a.key, a.value)

/-- The item is not a deletion mark. -/
def SearchItem.live (a : SearchItem) : Bool := !a.value.isEmpty

theorem SearchItem.live_iff {a : SearchItem} : a.live = true ↔ a.value ≠ []
  := by
  rw [live, Bool.not_eq_true', List.isEmpty_eq_false_iff]

namespace HeapIterator

/-- The pairs of the first items of the keys that are not deletion marks. -/
def livePairs (items : List SearchItem) : List (Bytes × Bytes) :=
  ((Keyed.firsts SearchItem.key items).filter SearchItem.live).map SearchItem.pair

theorem livePairs_of_live {item : SearchItem} {items : List SearchItem} (h : item.value ≠ []) :
  livePairs (item :: items) =
    item.pair :: livePairs (Keyed.dropKey SearchItem.key item.key items)
  := by
  rw [livePairs, Keyed.firsts_cons, List.filter_cons_of_pos (SearchItem.live_iff.mpr h)]
  rfl

theorem livePairs_of_dead {item : SearchItem} {items : List SearchItem} (h : item.value = []) :
  livePairs (item :: items) = livePairs (Keyed.dropKey SearchItem.key item.key items)
  := by
  have hdead : ¬ item.live = true := fun hlive => SearchItem.live_iff.mp hlive h
  rw [livePairs, Keyed.firsts_cons, List.filter_cons_of_neg hdead]
  rfl

/-- The iterator belongs to no transaction and skips deletion marks and older versions. -/
structure Filtered (it : HeapIterator) : Prop where
  noTranc : it.maxTrancId = 0
  skipsDeleted : it.skipDelete = true
  firstVersions : it.keepAllVersions = false

/-- The iterator has the pairs `ps` left: those of the first items of the keys left that are not
deletion marks, the top item not being one. -/
structure YieldsFirsts (it : HeapIterator) (ps : List (Bytes × Bytes)) : Prop where
  filtered : it.Filtered
  left : ∃ items, BinaryHeap.Delivers SearchItem.gt it.items items ∧
    (∀ item ∈ items.head?, item.value ≠ []) ∧ ps = livePairs items

theorem Filtered.popWhile {it : HeapIterator} (h : it.Filtered) (p : SearchItem → Bool) :
  (it.popWhile p).Filtered
  := ⟨h.noTranc, h.skipsDeleted, h.firstVersions⟩

theorem delivers_popWhile {it : HeapIterator} {items : List SearchItem}
    (h : BinaryHeap.Delivers SearchItem.gt it.items items) (p : SearchItem → Bool) :
  BinaryHeap.Delivers SearchItem.gt (it.popWhile p).items (items.dropWhile p)
  := by
  apply h.popWhile p
  rw [h.perm.length_eq, Array.length_toList]

/-- The top of a filtered iterator is legal if it is not a deletion mark. -/
theorem topValueLegal_of_filtered {it : HeapIterator} (h : it.Filtered)
    {items : List SearchItem} (hdel : BinaryHeap.Delivers SearchItem.gt it.items items) :
  it.topValueLegal = true ↔ ∀ item ∈ items.head?, item.value ≠ []
  := by
  cases items with
  | nil =>
      have htop : it.top? = none := hdel
      rw [topValueLegal, htop]
      simp
  | cons item items =>
      have htop : it.top? = some item := hdel.1
      rw [topValueLegal, htop]
      dsimp only
      rw [if_pos h.noTranc, h.skipsDeleted, if_pos rfl]
      simp

/-- Skipping deletion marks leaves the first items that are not such. -/
theorem skipDeleted_yields :
  ∀ {fuel : ℕ} {it : HeapIterator} {items : List SearchItem}, it.Filtered →
    BinaryHeap.Delivers SearchItem.gt it.items items → items.length ≤ fuel →
    (it.skipDeleted fuel).YieldsFirsts (livePairs items)
  | 0, it, items, h, hdel, hfuel => by
      obtain rfl := List.length_eq_zero_iff.mp (Nat.le_zero.mp hfuel)
      exact ⟨h, [], hdel, by simp, rfl⟩
  | fuel + 1, it, [], h, hdel, _ => by
      have htop : it.top? = none := hdel
      rw [skipDeleted, htop]
      exact ⟨h, [], hdel, by simp, rfl⟩
  | fuel + 1, it, item :: items, h, hdel, hfuel => by
      have htop : it.top? = some item := hdel.1
      rw [skipDeleted, htop]
      dsimp only
      split
      next hempty =>
        rw [h.firstVersions, if_neg Bool.false_ne_true,
          livePairs_of_dead (List.isEmpty_iff.mp hempty),
          ← @Keyed.dropKey_cons_of_eq _ _ _ SearchItem.key _ item _ rfl]
        apply skipDeleted_yields (h.popWhile _) (delivers_popWhile hdel _)
        have hle := (Keyed.dropKey_sublist SearchItem.key item.key items).length_le
        rw [List.length_cons] at hfuel
        change (Keyed.dropKey SearchItem.key item.key (item :: items)).length ≤ fuel
        rw [Keyed.dropKey_cons_of_eq rfl]
        omega
      next hlive =>
        refine ⟨h, item :: items, hdel, ?_, rfl⟩
        intro other hother
        obtain rfl := Option.some.inj hother
        exact fun hnil => hlive (List.isEmpty_iff.mpr hnil)

/-- Skipping what is not legal leaves the first items that are not deletion marks. -/
theorem skipIllegal_yields {it : HeapIterator} (h : it.Filtered) {items : List SearchItem}
    (hdel : BinaryHeap.Delivers SearchItem.gt it.items items) :
  (it.skipIllegal it.items.size).YieldsFirsts (livePairs items)
  := by
  have hsize : it.items.size = items.length := by
    rw [hdel.perm.length_eq, Array.length_toList]
  have hlegal : ∀ (fuel : ℕ) (it' : HeapIterator), it'.topValueLegal = true →
      it'.skipIllegal fuel = it' := by
    intro fuel it' hlegal
    cases fuel with
    | zero => rfl
    | succ n => rw [skipIllegal, if_pos hlegal]
  by_cases htop : it.topValueLegal = true
  · rw [hlegal _ _ htop]
    exact ⟨h, items, hdel, (topValueLegal_of_filtered h hdel).mp htop, rfl⟩
  · cases items with
    | nil => exact absurd ((topValueLegal_of_filtered h hdel).mpr (by simp)) htop
    | cons item items =>
        rw [List.length_cons] at hsize
        rw [hsize, skipIllegal, if_neg htop, skipByTrancId, if_pos h.noTranc, if_pos h.skipsDeleted]
        have hyields := skipDeleted_yields h hdel (Nat.le_of_eq hsize.symm)
        rw [hsize] at hyields ⊢
        obtain ⟨items', hdel', hlive, -⟩ := hyields.left
        rwa [hlegal _ _ ((topValueLegal_of_filtered hyields.filtered hdel').mpr hlive)]

/-- The pairs left at an iterator with items left start with that of the first item. -/
theorem YieldsFirsts.cases {it : HeapIterator} {ps : List (Bytes × Bytes)}
    (h : it.YieldsFirsts ps) :
  (it.top? = none ∧ ps = []) ∨
    ∃ item items, it.top? = some item ∧
      BinaryHeap.Delivers SearchItem.gt it.pop.items items ∧
      ps = item.pair :: livePairs (Keyed.dropKey SearchItem.key item.key items)
  := by
  obtain ⟨items, hdel, hlive, rfl⟩ := h.left
  cases items with
  | nil => exact .inl ⟨hdel, rfl⟩
  | cons item items =>
      exact .inr ⟨item, items, hdel.1, hdel.2, livePairs_of_live (hlive item rfl)⟩

/-- Stepping a filtered iterator leaves the pairs of the other keys. -/
theorem YieldsFirsts.next {it : HeapIterator} {p : Bytes × Bytes} {ps : List (Bytes × Bytes)}
    (h : it.YieldsFirsts (p :: ps)) :
  it.next.YieldsFirsts ps
  := by
  rcases h.cases with ⟨-, hnil⟩ | ⟨item, items, htop, hdel, hcons⟩
  · cases hnil
  · obtain ⟨-, rfl⟩ := List.cons.inj hcons
    have hpop : it.pop.Filtered := ⟨h.filtered.noTranc, h.filtered.skipsDeleted,
      h.filtered.firstVersions⟩
    rw [HeapIterator.next, htop]
    dsimp only
    rw [h.filtered.firstVersions, if_neg Bool.false_ne_true]
    apply skipIllegal_yields (hpop.popWhile _) (delivers_popWhile hdel _)

/-- At its end, a filtered iterator has no pairs left. -/
theorem YieldsFirsts.isEnd_eq {it : HeapIterator} {ps : List (Bytes × Bytes)}
    (h : it.YieldsFirsts ps) :
  it.isEnd = ps.isEmpty
  := by
  rcases h.cases with ⟨htop, rfl⟩ | ⟨item, items, htop, -, rfl⟩
  · rw [HeapIterator.isEnd_eq, htop]
    rfl
  · rw [HeapIterator.isEnd_eq, htop]
    rfl

/-- A filtered iterator delivers the pairs it has left. -/
theorem yields_yieldsFirsts :
  BaseIterator.Yields YieldsFirsts
  where
  isEnd_eq h := h.isEnd_eq
  isValid_eq h := congrArg not h.isEnd_eq
  deref_cons := by
    intro it p ps h
    rcases h.cases with ⟨-, hnil⟩ | ⟨item, items, htop, -, hcons⟩
    · cases hnil
    · obtain ⟨rfl, -⟩ := List.cons.inj hcons
      refine ⟨it, ?_, h⟩
      change it.deref.map (·, it) = _
      rw [deref, htop]
      rfl
  next_cons h := ⟨_, rfl, h.next⟩

end HeapIterator

/-! ### Items of one id and one level -/

/-- The order by the keys, then by the indices. -/
def SearchItem.IndexLe (a b : SearchItem) : Prop :=
  a.key < b.key ∨ a.key = b.key ∧ a.idx ≤ b.idx

instance : Std.Refl SearchItem.IndexLe := ⟨fun _ => .inr ⟨rfl, le_refl _⟩⟩

instance : IsTrans SearchItem SearchItem.IndexLe where
  trans := by
    rintro a b c (hab | ⟨hab, hle⟩) (hbc | ⟨hbc, hle'⟩)
    · exact .inl (lt_trans hab hbc)
    · exact .inl (hbc ▸ hab)
    · exact .inl (hab ▸ hbc)
    · exact .inr ⟨hab.trans hbc, le_trans hle hle'⟩

/-- The comparison of items that have the same id and the same level. -/
def SearchItem.indexGt (a b : SearchItem) : Bool :=
  if a.key ≠ b.key then b.key < a.key else b.idx < a.idx

/-- The item has the id `trancId` and the level `level`. -/
def SearchItem.Of (trancId : TrancId) (level : ℤ) (a : SearchItem) : Prop :=
  a.trancId = trancId ∧ a.level = level

theorem SearchItem.gt_eq_indexGt {trancId : TrancId} {level : ℤ} (a b : SearchItem)
    (ha : a.Of trancId level) (hb : b.Of trancId level) :
  a.gt b = a.indexGt b
  := by
  rw [gt, indexGt, ha.1, hb.1, ha.2, hb.2, if_neg (lt_irrefl trancId), if_neg (lt_irrefl level)]

theorem SearchItem.indexLe_of_indexGt {a b : SearchItem} (h : a.indexGt b = true) :
  b.IndexLe a
  := by
  rw [indexGt] at h
  split at h
  next => exact .inl (of_decide_eq_true h)
  next hkey => exact .inr ⟨(not_not.mp hkey).symm, le_of_lt (of_decide_eq_true h)⟩

theorem SearchItem.indexLe_of_not_indexGt {a b : SearchItem} (h : a.indexGt b = false) :
  a.IndexLe b
  := by
  rw [indexGt] at h
  split at h
  next hkey =>
    exact .inl (lt_of_le_of_ne (le_of_not_gt (of_decide_eq_false h)) hkey)
  next hkey =>
    exact .inr ⟨not_not.mp hkey, le_of_not_gt (of_decide_eq_false h)⟩

namespace HeapIterator

variable {trancId : TrancId} {level : ℤ}

/-- Emplacing items pushes them to the queue. -/
theorem foldl_emplace :
  ∀ (items : List SearchItem) (it : HeapIterator), items.foldl emplace it =
    { it with items := items.foldl (BinaryHeap.push SearchItem.gt) it.items }
  | [], _ => rfl
  | item :: items, it => by
      rw [List.foldl_cons, foldl_emplace items, List.foldl_cons]
      rfl

/-- The iterator over items of one id and one level, for no transaction, shows the first items
of the keys that are not deletion marks, the items being ordered by keys and indices. -/
theorem ofItems_yields (items : List SearchItem) (h : ∀ item ∈ items, item.Of trancId level) :
  ∃ ordered : List SearchItem, ordered.Perm items ∧ ordered.Pairwise SearchItem.IndexLe ∧
    (ofItems items 0).YieldsFirsts (livePairs ordered)
  := by
  obtain ⟨ordered, hdel, hperm, hpairwise⟩ := BinaryHeap.exists_delivers_foldl_push
    (fun _ _ => SearchItem.indexLe_of_indexGt) (fun _ _ => SearchItem.indexLe_of_not_indexGt)
    (fun a b ha hb => SearchItem.gt_eq_indexGt a b (h a ha) (h b hb))
  refine ⟨ordered, hperm, hpairwise, ?_⟩
  rw [ofItems, foldl_emplace]
  exact skipIllegal_yields ⟨rfl, rfl, rfl⟩ hdel

theorem mem_livePairs {items : List SearchItem} {p : Bytes × Bytes} (h : p ∈ livePairs items) :
  ∃ item ∈ items, item.pair = p
  := by
  obtain ⟨item, hitem, rfl⟩ := List.mem_map.mp h
  exact ⟨item, (Keyed.firsts_sublist items).subset (List.mem_of_mem_filter hitem), rfl⟩

/-- The first items of the keys, the items being ordered by keys and indices, have increasing
keys. -/
theorem firsts_ascending {items : List SearchItem} (h : items.Pairwise SearchItem.IndexLe) :
  Keyed.Ascending SearchItem.key (Keyed.firsts SearchItem.key items)
  := by
  apply Keyed.Sorted.firsts
  apply h.imp
  rintro a b (hlt | ⟨heq, -⟩)
  · apply le_of_lt hlt
  · apply le_of_eq heq

/-- The pairs shown have increasing keys. -/
theorem livePairs_ascending {items : List SearchItem} (h : items.Pairwise SearchItem.IndexLe) :
  Keyed.Ascending Prod.fst (livePairs items)
  := by
  apply List.pairwise_map.mpr
  apply (firsts_ascending h).filter

/-- The pair shown for a key is that of its first item, if this is not a deletion mark. -/
theorem firstOf_livePairs {items : List SearchItem} (h : items.Pairwise SearchItem.IndexLe)
    (key : Bytes) :
  Keyed.firstOf Prod.fst key (livePairs items) =
    ((Keyed.firstOf SearchItem.key key items).filter SearchItem.live).map SearchItem.pair
  := by
  rw [livePairs, @Keyed.firstOf_map _ _ _ SearchItem.key _ Prod.fst SearchItem.pair (fun _ => rfl),
    (firsts_ascending h).firstOf_filter, Keyed.firstOf_firsts]

/-- The first item of a key has the least index of the items of the key. -/
theorem idx_le_of_firstOf {key : Bytes} :
  ∀ {items : List SearchItem}, items.Pairwise SearchItem.IndexLe → ∀ {item : SearchItem},
    Keyed.firstOf SearchItem.key key items = some item →
    ∀ item' ∈ items, item'.key = key → item.idx ≤ item'.idx
  | first :: items, h, item, hfirst, item', hitem', hkey => by
      obtain ⟨hle, hitems⟩ := List.pairwise_cons.mp h
      rw [Keyed.firstOf_cons] at hfirst
      split at hfirst
      next hfirstKey =>
        obtain rfl := Option.some.inj hfirst
        rcases List.mem_cons.mp hitem' with rfl | hitem'
        · apply le_refl
        · rcases hle item' hitem' with hlt | ⟨-, hidx⟩
          · exact absurd (hfirstKey.trans hkey.symm) hlt.ne
          · apply hidx
      next hfirstKey =>
        rcases List.mem_cons.mp hitem' with rfl | hitem'
        · exact absurd hkey hfirstKey
        · apply idx_le_of_firstOf hitems hfirst item' hitem' hkey

end HeapIterator

end TinyLsm
