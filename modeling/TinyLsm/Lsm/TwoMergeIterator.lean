import TinyLsm.Iterator.BaseIterator
import TinyLsm.Library.Merge

/-!
# Merging two iterators

`TwoMergeIterator` merges two iterators by the order of their keys.  On equal keys it
prefers the first iterator, dropping the key from the second, or, when all versions are
kept, it takes the larger transaction id first.

For no transaction, and keeping all versions, it shows the merge of what the two iterators
show, for the test `takesLeft`.
-/

namespace TinyLsm

open BaseIterator

/-- An iterator merging iterators of types `α` and `β`.  Either may be null.  The source
does not bound the rounds of the loops of `skip_by_tranc_id`; they are given `rounds`. -/
structure TwoMergeIterator (α β : Type) where
  itA : Option α
  itB : Option β
  chooseA : Bool := false
  maxTrancId : TrancId := 0
  keepAllVersions : Bool := false
  rounds : ℕ

namespace TwoMergeIterator

variable {α β : Type} [BaseIterator α] [BaseIterator β]

/-- Follow a pointer, which is undefined for the null pointer. -/
def follow {ι : Type} : Option ι → Except Fault ι
  | some it => .ok it
  | none => .error .undefinedBehavior

/-- Whether the current element is that of the first iterator, looking at the elements of
both. -/
def chooseItA (it : TwoMergeIterator α β) : Except Fault (Bool × TwoMergeIterator α β) := do
  let a ← follow it.itA
  if isEnd a then
    .ok (false, it)
  else do
    let b ← follow it.itB
    if isEnd b then
      .ok (true, it)
    else do
      let ((keyA, _), a') ← deref a
      let ((keyB, _), b') ← deref b
      let it' := { it with itA := some a', itB := some b' }
      if keyA ≠ keyB then
        .ok (decide (keyA < keyB), it')
      else if it.keepAllVersions then
        .ok (decide (getTrancId b' < getTrancId a'), it')
      else
        .ok (true, it')

/-- Skip an element of the second iterator with the key of the first. -/
def skipItB (it : TwoMergeIterator α β) : Except Fault (TwoMergeIterator α β) :=
  if it.keepAllVersions then
    .ok it
  else do
    let a ← follow it.itA
    if isEnd a then
      .ok it
    else do
      let b ← follow it.itB
      if isEnd b then
        .ok it
      else do
        let ((keyA, _), a') ← deref a
        let ((keyB, _), b') ← deref b
        if keyA = keyB then do
          let b'' ← next b'
          return { it with itA := some a', itB := some b'' }
        else
          return { it with itA := some a', itB := some b' }

/-- Step an iterator while it reports an id newer than the transaction. -/
def skipNewer {ι : Type} [BaseIterator ι] (maxTrancId : TrancId) : ℕ → ι → Except Fault ι
  | 0, _ => .error .outOfFuel
  | fuel + 1, it =>
      if maxTrancId < getTrancId it then do
        let it' ← next it
        skipNewer maxTrancId fuel it'
      else
        .ok it

def skipByTrancId (it : TwoMergeIterator α β) : Except Fault (TwoMergeIterator α β) :=
  if it.maxTrancId = 0 then
    .ok it
  else do
    let a ← follow it.itA
    let a' ← skipNewer it.maxTrancId it.rounds a
    let b ← follow it.itB
    let b' ← skipNewer it.maxTrancId it.rounds b
    return { it with itA := some a', itB := some b' }

/-- Skip what is not visible and what is repeated, and choose between the two iterators, as
the constructor and `operator++` do last. -/
def settle (it : TwoMergeIterator α β) : Except Fault (TwoMergeIterator α β) := do
  let visible ← it.skipByTrancId
  let distinct ← visible.skipItB
  let (chooseA, it') ← distinct.chooseItA
  return { it' with chooseA }

/-- The iterator merging two iterators. -/
def ofIterators (rounds : ℕ) (itA : α) (itB : β) (maxTrancId : TrancId)
    (keepAllVersions : Bool := false) : Except Fault (TwoMergeIterator α β) :=
  settle { itA := some itA, itB := some itB, maxTrancId, keepAllVersions, rounds }

def next (it : TwoMergeIterator α β) : Except Fault (TwoMergeIterator α β) :=
  if it.chooseA then do
    let a ← follow it.itA
    let a' ← BaseIterator.next a
    settle { it with itA := some a' }
  else do
    let b ← follow it.itB
    let b' ← BaseIterator.next b
    settle { it with itB := some b' }

def deref (it : TwoMergeIterator α β) :
    Except Fault ((Bytes × Bytes) × TwoMergeIterator α β) :=
  if it.chooseA then do
    let a ← follow it.itA
    let (raw, a') ← BaseIterator.deref a
    return (raw, { it with itA := some a' })
  else do
    let b ← follow it.itB
    let (raw, b') ← BaseIterator.deref b
    return (raw, { it with itB := some b' })

def getTrancId (it : TwoMergeIterator α β) : TrancId :=
  match it.keepAllVersions, it.chooseA, it.itA, it.itB with
  | true, true, some a, _ =>
      if BaseIterator.isEnd a then it.maxTrancId else BaseIterator.getTrancId a
  | true, false, _, some b =>
      if BaseIterator.isEnd b then it.maxTrancId else BaseIterator.getTrancId b
  | _, _, _, _ => it.maxTrancId

def isEnd (it : TwoMergeIterator α β) : Bool :=
  match it.itA, it.itB with
  | none, none => true
  | none, some b => BaseIterator.isEnd b
  | some a, none => BaseIterator.isEnd a
  | some a, some b => BaseIterator.isEnd a && BaseIterator.isEnd b

def isValid (it : TwoMergeIterator α β) : Bool :=
  match it.itA, it.itB with
  | none, none => false
  | none, some b => BaseIterator.isValid b
  | some a, none => BaseIterator.isValid a
  | some a, some b => BaseIterator.isValid a || BaseIterator.isValid b

instance : BaseIterator (TwoMergeIterator α β) where
  next := next
  deref := deref
  getTrancId := getTrancId
  isEnd := isEnd
  isValid := isValid

/-! ### Showing the merge -/

/-- The choice of the left of two entries: a smaller key comes first, and a larger id on
equal keys. -/
def takesLeft (e e' : Entry) : Bool :=
  if e.key ≠ e'.key then decide (e.key < e'.key) else decide (e'.trancId < e.trancId)

/-- The choice between two lists of entries, the left one being taken when the right one is
empty. -/
def takesLeftOf : List Entry → List Entry → Bool
  | [], _ => false
  | _ :: _, [] => true
  | e :: _, e' :: _ => takesLeft e e'

/-- The iterator keeps everything, its two iterators are related by `R` and `S` to lists of
entries, it chooses rightly between them, and `es` is the merge of the lists. -/
structure Shows (R : α → List Entry → Prop) (S : β → List Entry → Prop)
    (it : TwoMergeIterator α β) (es : List Entry) : Prop where
  maxTrancId_eq : it.maxTrancId = 0
  keepAllVersions_eq : it.keepAllVersions = true
  left : ∃ a xs b ys, it.itA = some a ∧ it.itB = some b ∧ R a xs ∧ S b ys ∧
    it.chooseA = takesLeftOf xs ys ∧ es = xs.merge ys takesLeft

variable {R : α → List Entry → Prop} {S : β → List Entry → Prop}

/-- Choosing between iterators at `xs` and `ys` is choosing between `xs` and `ys`. -/
theorem chooseItA_eq (hR : (cursor α).Tracks R) (hS : (cursor β).Tracks S)
    {it : TwoMergeIterator α β} (hkeep : it.keepAllVersions = true) {a : α} {b : β}
    {xs ys : List Entry} (ha : it.itA = some a) (hb : it.itB = some b) (hxs : R a xs)
    (hys : S b ys) :
  ∃ a' b', R a' xs ∧ S b' ys ∧
    it.chooseItA = .ok (takesLeftOf xs ys, { it with itA := some a', itB := some b' })
  := by
  have hsame : it = { it with itA := some a, itB := some b } := by rw [← ha, ← hb]
  rw [chooseItA, ha, hb, follow, follow]
  cases xs with
  | nil =>
      have hend : BaseIterator.isEnd a = true := hR.isEnd_nil hxs
      refine ⟨a, b, hxs, hys, ?_⟩
      rw [← hsame]
      apply if_pos hend
  | cons e xs =>
      have hend : ¬ BaseIterator.isEnd a = true := Bool.eq_false_iff.mp (hR.isEnd_cons hxs)
      cases ys with
      | nil =>
          have hend' : BaseIterator.isEnd b = true := hS.isEnd_nil hys
          refine ⟨a, b, hxs, hys, ?_⟩
          rw [← hsame]
          exact (if_neg hend).trans (if_pos hend')
      | cons e' ys =>
          have hend' : ¬ BaseIterator.isEnd b = true := Bool.eq_false_iff.mp (hS.isEnd_cons hys)
          obtain ⟨a', hpeek, hxs'⟩ := hR.peek_cons hxs
          obtain ⟨b', hpeek', hys'⟩ := hS.peek_cons hys
          obtain ⟨hderef, hid⟩ := deref_of_entry hpeek
          obtain ⟨hderef', hid'⟩ := deref_of_entry hpeek'
          refine ⟨a', b', hxs', hys', ?_⟩
          refine ((if_neg hend).trans (if_neg hend')).trans ?_
          rw [Except.bind_eq_of_ok _ hderef]
          dsimp only
          rw [Except.bind_eq_of_ok _ hderef']
          dsimp only
          rw [hkeep, hid, hid', takesLeftOf, takesLeft]
          split
          · rfl
          · rfl

/-- For no transaction, and keeping all versions, settling an iterator over iterators at
`xs` and `ys` makes it show their merge. -/
theorem settle_shows (hR : (cursor α).Tracks R) (hS : (cursor β).Tracks S)
    (it : TwoMergeIterator α β) (hmax : it.maxTrancId = 0) (hkeep : it.keepAllVersions = true)
    {a : α} {b : β} {xs ys : List Entry} (ha : it.itA = some a) (hb : it.itB = some b)
    (hxs : R a xs) (hys : S b ys) :
  ∃ it', it.settle = .ok it' ∧ Shows R S it' (xs.merge ys takesLeft)
  := by
  obtain ⟨a', b', hxs', hys', hchoose⟩ := chooseItA_eq hR hS hkeep ha hb hxs hys
  have hvisible : it.skipByTrancId = .ok it := if_pos hmax
  have hdistinct : it.skipItB = .ok it := if_pos hkeep
  rw [settle, Except.bind_eq_of_ok _ hvisible, Except.bind_eq_of_ok _ hdistinct,
    Except.bind_eq_of_ok _ hchoose]
  refine ⟨_, rfl, hmax, hkeep, ?_⟩
  exact ⟨a', xs, b', ys, rfl, rfl, hxs', hys', rfl, rfl⟩

/-- Merging iterators at `xs` and `ys` gives an iterator that shows their merge. -/
theorem ofIterators_shows (hR : (cursor α).Tracks R) (hS : (cursor β).Tracks S)
    (rounds : ℕ) {a : α} {b : β} {xs ys : List Entry} (hxs : R a xs) (hys : S b ys) :
  ∃ it, ofIterators rounds a b 0 true = .ok it ∧ Shows R S it (xs.merge ys takesLeft)
  := settle_shows hR hS _ rfl rfl rfl rfl hxs hys

omit [BaseIterator α] [BaseIterator β] in
/-- An iterator that shows the merge is at one of the two sides: the chosen one, whose
element is the first of the merge. -/
theorem Shows.cases {it : TwoMergeIterator α β} {e : Entry} {es : List Entry}
    (h : Shows R S it (e :: es)) :
  ∃ a xs b ys, it.itA = some a ∧ it.itB = some b ∧ R a xs ∧ S b ys ∧
    it.chooseA = takesLeftOf xs ys ∧ e :: es = xs.merge ys takesLeft ∧
    ((it.chooseA = true ∧ ∃ xs', xs = e :: xs' ∧ es = xs'.merge ys takesLeft) ∨
     (it.chooseA = false ∧ ∃ ys', ys = e :: ys' ∧ es = xs.merge ys' takesLeft))
  := by
  obtain ⟨a, xs, b, ys, ha, hb, hxs, hys, hchoose, hes⟩ := h.left
  refine ⟨a, xs, b, ys, ha, hb, hxs, hys, hchoose, hes, ?_⟩
  cases xs with
  | nil =>
      rw [List.nil_merge] at hes
      subst hes
      apply Or.inr ⟨hchoose, es, rfl, (List.nil_merge es).symm⟩
  | cons x xs =>
      cases ys with
      | nil =>
          rw [List.merge_right] at hes
          obtain ⟨rfl, rfl⟩ := List.cons.inj hes
          apply Or.inl ⟨hchoose, _, rfl, (List.merge_right _).symm⟩
      | cons y ys =>
          rw [hchoose, takesLeftOf]
          cases hle : takesLeft x y with
          | true =>
              rw [List.cons_merge_cons_pos _ _ _ hle] at hes
              obtain ⟨rfl, rfl⟩ := List.cons.inj hes
              apply Or.inl ⟨rfl, xs, rfl, rfl⟩
          | false =>
              have hle' : ¬ takesLeft x y = true := Bool.eq_false_iff.mp hle
              rw [List.cons_merge_cons_neg _ _ _ hle'] at hes
              obtain ⟨rfl, rfl⟩ := List.cons.inj hes
              apply Or.inr ⟨rfl, ys, rfl, rfl⟩

/-- Stepping an iterator that shows the merge leaves the other entries of the merge. -/
theorem Shows.next (hR : (cursor α).Tracks R) (hS : (cursor β).Tracks S)
    {it : TwoMergeIterator α β} {e : Entry} {es : List Entry} (h : Shows R S it (e :: es)) :
  ∃ it', it.next = .ok it' ∧ Shows R S it' es
  := by
  obtain ⟨a, xs, b, ys, ha, hb, hxs, hys, -, -, hside⟩ := h.cases
  rw [TwoMergeIterator.next]
  rcases hside with ⟨hchoose, xs', rfl, rfl⟩ | ⟨hchoose, ys', rfl, rfl⟩
  · obtain ⟨a', hnext, hxs'⟩ := hR.next_cons hxs
    change BaseIterator.next a = _ at hnext
    obtain ⟨it', hsettle, hshows⟩ :=
      settle_shows hR hS { it with itA := some a' } h.maxTrancId_eq
        h.keepAllVersions_eq rfl hb hxs' hys
    refine ⟨it', ?_, hshows⟩
    rw [if_pos hchoose, ha, follow, Except.bind_eq_of_ok _ rfl, Except.bind_eq_of_ok _ hnext]
    apply hsettle
  · obtain ⟨b', hnext, hys'⟩ := hS.next_cons hys
    change BaseIterator.next b = _ at hnext
    obtain ⟨it', hsettle, hshows⟩ :=
      settle_shows hR hS { it with itB := some b' } h.maxTrancId_eq
        h.keepAllVersions_eq ha rfl hxs hys'
    refine ⟨it', ?_, hshows⟩
    rw [if_neg (Bool.eq_false_iff.mp hchoose), hb, follow, Except.bind_eq_of_ok _ rfl,
      Except.bind_eq_of_ok _ hnext]
    apply hsettle

/-- Looking at the element of an iterator that shows the merge gives its first entry, with
the id of the entry. -/
theorem Shows.entry (hR : (cursor α).Tracks R) (hS : (cursor β).Tracks S)
    {it : TwoMergeIterator α β} {e : Entry} {es : List Entry} (h : Shows R S it (e :: es)) :
  ∃ it', BaseIterator.entry it = .ok (e, it') ∧ Shows R S it' (e :: es)
  := by
  obtain ⟨a, xs, b, ys, ha, hb, hxs, hys, htakes, hes, hside⟩ := h.cases
  rcases hside with ⟨hchoose, xs', rfl, -⟩ | ⟨hchoose, ys', rfl, -⟩
  · obtain ⟨a', hpeek, hxs'⟩ := hR.peek_cons hxs
    obtain ⟨hderef, hid⟩ := deref_of_entry hpeek
    have hend : ¬ BaseIterator.isEnd a' = true := Bool.eq_false_iff.mp (hR.isEnd_cons hxs')
    have hderef' :
        BaseIterator.deref it = .ok ((e.key, e.value), { it with itA := some a' }) := by
      change it.deref = _
      rw [deref, if_pos hchoose, ha, follow, Except.bind_eq_of_ok _ rfl,
        Except.bind_eq_of_ok _ hderef]
      rfl
    have hid' :
        BaseIterator.getTrancId { it with itA := some a' } = e.trancId := by
      change getTrancId { it with itA := some a' } = _
      rw [getTrancId, h.keepAllVersions_eq, hchoose]
      exact (if_neg hend).trans hid
    refine ⟨{ it with itA := some a' }, ?_, h.maxTrancId_eq, h.keepAllVersions_eq, ?_⟩
    · rw [BaseIterator.entry_of_deref hderef', hid']
    · exact ⟨a', e :: xs', b, ys, rfl, hb, hxs', hys, htakes, hes⟩
  · obtain ⟨b', hpeek, hys''⟩ := hS.peek_cons hys
    obtain ⟨hderef, hid⟩ := deref_of_entry hpeek
    have hend : ¬ BaseIterator.isEnd b' = true := Bool.eq_false_iff.mp (hS.isEnd_cons hys'')
    have hderef' :
        BaseIterator.deref it = .ok ((e.key, e.value), { it with itB := some b' }) := by
      change it.deref = _
      rw [deref, if_neg (Bool.eq_false_iff.mp hchoose), hb, follow, Except.bind_eq_of_ok _ rfl,
        Except.bind_eq_of_ok _ hderef]
      rfl
    have hid' :
        BaseIterator.getTrancId { it with itB := some b' } = e.trancId := by
      change getTrancId { it with itB := some b' } = _
      rw [getTrancId, h.keepAllVersions_eq, hchoose]
      exact (if_neg hend).trans hid
    refine ⟨{ it with itB := some b' }, ?_, h.maxTrancId_eq, h.keepAllVersions_eq, ?_⟩
    · rw [BaseIterator.entry_of_deref hderef', hid']
    · exact ⟨a, xs, b', e :: ys', ha, rfl, hxs, hys'', htakes, hes⟩

/-- An iterator that shows the merge delivers it. -/
theorem tracks_shows (hR : (cursor α).Tracks R) (hS : (cursor β).Tracks S) :
  (cursor (TwoMergeIterator α β)).Tracks (Shows R S)
  where
  isEnd_nil := by
    intro it hshows
    obtain ⟨a, xs, b, ys, ha, hb, hxs, hys, -, hes⟩ := hshows.left
    have hperm : (xs.merge ys takesLeft).Perm (xs ++ ys) := List.merge_perm_append takesLeft
    rw [← hes, List.nil_perm, List.append_eq_nil_iff] at hperm
    obtain ⟨rfl, rfl⟩ := hperm
    have hend : BaseIterator.isEnd a = true := hR.isEnd_nil hxs
    have hend' : BaseIterator.isEnd b = true := hS.isEnd_nil hys
    change it.isEnd = true
    rw [isEnd, ha, hb]
    dsimp only
    rw [hend, hend', Bool.and_self]
  isEnd_cons := by
    intro it e es hshows
    obtain ⟨a, xs, b, ys, ha, hb, hxs, hys, -, -, hside⟩ := hshows.cases
    change it.isEnd = false
    rw [isEnd, ha, hb]
    dsimp only
    rcases hside with ⟨-, xs', rfl, -⟩ | ⟨-, ys', rfl, -⟩
    · have hend : BaseIterator.isEnd a = false := hR.isEnd_cons hxs
      rw [hend, Bool.false_and]
    · have hend : BaseIterator.isEnd b = false := hS.isEnd_cons hys
      rw [hend, Bool.and_false]
  peek_cons := Shows.entry hR hS
  next_cons := Shows.next hR hS

end TwoMergeIterator

end TinyLsm
