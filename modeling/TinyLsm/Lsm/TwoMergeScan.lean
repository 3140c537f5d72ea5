import TinyLsm.Iterator.NewestVersions
import TinyLsm.Library.LeftUnion
import TinyLsm.Lsm.TwoMergeIterator
import TinyLsm.Sst.FirstVersions

/-!
# Scanning a merge

Keeping all versions, the merge of two iterators over versions in order meets the versions of both,
in order.  Otherwise the merge of two iterators over ascending keys meets each key once, with the
pair of the first iterator if this has the key.
-/

namespace TinyLsm

namespace TwoMergeIterator

open BaseIterator

variable {α β : Type} [BaseIterator α] [BaseIterator β]

/-! ### All versions -/

/-- The merge of versions in order is in order. -/
theorem versioned_merge {es es' : List Entry} (h : Versioned es) (h' : Versioned es') :
  Versioned (es.merge es' takesLeft)
  := by
  apply List.pairwise_merge_of_choice _ _ _ h h'
  · rintro e₁ e₂ e₃ (hlt | ⟨heq, hle⟩) (hlt' | ⟨heq', hle'⟩)
    · exact .inl (hlt.trans hlt')
    · exact .inl (heq' ▸ hlt)
    · exact .inl (heq ▸ hlt')
    · exact .inr ⟨heq.trans heq', hle'.trans hle⟩
  · intro e _ e' _ htakes
    rw [takesLeft] at htakes
    split at htakes
    next => exact .inl (of_decide_eq_true htakes)
    next heq => exact .inr ⟨not_not.mp heq, (of_decide_eq_true htakes).le⟩
  · intro e _ e' _ htakes
    rw [takesLeft] at htakes
    split at htakes
    next hne =>
      have hle := le_of_not_gt (of_decide_eq_false htakes)
      exact .inl (lt_of_le_of_ne hle (Ne.symm hne))
    next heq =>
      exact .inr ⟨(not_not.mp heq).symm, le_of_not_gt (of_decide_eq_false htakes)⟩

/-- Keeping all versions, the merge of two iterators over versions in order meets the versions of
both, in order and each with its id. -/
theorem drain_merge_versioned {R : α → List Entry → Prop} {S : β → List Entry → Prop}
    (hR : (cursor α).Tracks R) (hS : (cursor β).Tracks S) {a : α} {b : β} {xs ys : List Entry}
    (hxs : R a xs) (hys : S b ys) (hx : Versioned xs) (hy : Versioned ys) (rounds : ℕ) :
  ∃ it out, ofIterators rounds a b 0 true = .ok it ∧
    (∀ fuel, xs.length + ys.length < fuel → drain fuel it = .ok out) ∧
    out.Perm (xs ++ ys) ∧ Versioned out
  := by
  obtain ⟨it, hit, hshows⟩ := ofIterators_shows hR hS rounds hxs hys
  refine ⟨it, xs.merge ys takesLeft, hit, ?_, List.merge_perm_append takesLeft,
    versioned_merge hx hy⟩
  intro fuel hfuel
  apply Cursor.drain_of_tracks (tracks_shows hR hS) _ hshows
  rwa [List.length_merge]

/-- A table with two versions of a key. -/
def laterTable : SST := ⟨2, [⟨[⟨[1], [7], 2⟩, ⟨[1], [8], 1⟩]⟩], 0, none⟩

/-- A table with a version of the same key, and one of another key. -/
def earlierTable : SST := ⟨1, [⟨[⟨[1], [9], 1⟩, ⟨[2], [9], 3⟩]⟩], 0, none⟩

theorem wellFormed_laterTable : laterTable.WellFormed
  where
  blocks_ne := by decide
  entries_ne := by decide
  sorted := by decide
  resolves _ _ := SST.resolveValue_inline rfl _

theorem wellFormed_earlierTable : earlierTable.WellFormed
  where
  blocks_ne := by decide
  entries_ne := by decide
  sorted := by decide
  resolves _ _ := SST.resolveValue_inline rfl _

theorem drain_merge_versioned_tables :
  ∃ a b it out, laterTable.begin 0 true = .ok a ∧ earlierTable.begin 0 true = .ok b ∧
    ofIterators 0 a b 0 true = .ok it ∧ (∀ fuel, 4 < fuel → drain fuel it = .ok out) ∧
    out.Perm (laterTable.entries ++ earlierTable.entries) ∧ Versioned out
  := by
  obtain ⟨a, ha, hxs⟩ := SstIterator.begin_shows wellFormed_laterTable
  obtain ⟨b, hb, hys⟩ := SstIterator.begin_shows wellFormed_earlierTable
  obtain ⟨it, out, hit, hdrain, hperm, hversioned⟩ :=
    drain_merge_versioned SstIterator.tracks_shows SstIterator.tracks_shows hxs hys
      (by rw [Versioned]; decide) (by rw [Versioned]; decide) 0
  exact ⟨a, b, it, out, ha, hb, hit, hdrain, hperm, hversioned⟩

/-! ### One pair for each key -/

theorem skipNewer_of_le {ι : Type} [BaseIterator ι] {maxTrancId : TrancId} {it : ι}
    (h : BaseIterator.getTrancId it ≤ maxTrancId) {fuel : ℕ} (hfuel : 0 < fuel) :
  skipNewer maxTrancId fuel it = .ok it
  := by
  obtain ⟨fuel, rfl⟩ := Nat.exists_eq_add_one.mpr hfuel
  apply if_neg (Nat.not_lt_of_le h)

/-- The ids that an iterator reports are not newer than the transaction, if there is one. -/
def Reports {ι : Type} [BaseIterator ι] (maxTrancId : TrancId)
    (R : ι → List (Bytes × Bytes) → Prop) : Prop :=
  ∀ it ps, R it ps → maxTrancId = 0 ∨ BaseIterator.getTrancId it ≤ maxTrancId

/-- The heads of the lists have different keys. -/
def Apart : List (Bytes × Bytes) → List (Bytes × Bytes) → Prop
  | p :: _, q :: _ => p.1 ≠ q.1
  | _, _ => True

/-- The choice between two lists of pairs, the left one being taken when the right one is empty. -/
def takesSmaller : List (Bytes × Bytes) → List (Bytes × Bytes) → Bool
  | [], _ => false
  | _ :: _, [] => true
  | p :: _, q :: _ => decide (p.1 < q.1)

/-- The iterator shows one pair for each key, its two iterators are related by `R` and `S` to pairs
with ascending keys, it chooses rightly between them, and `ps` is their union. -/
structure YieldsUnion (R : α → List (Bytes × Bytes) → Prop) (S : β → List (Bytes × Bytes) → Prop)
    (it : TwoMergeIterator α β) (ps : List (Bytes × Bytes)) : Prop where
  keepAllVersions_eq : it.keepAllVersions = false
  rounds_pos : 0 < it.rounds
  reportsA : Reports it.maxTrancId R
  reportsB : Reports it.maxTrancId S
  left : ∃ a xs b ys, it.itA = some a ∧ it.itB = some b ∧ R a xs ∧ S b ys ∧
    Keyed.Ascending Prod.fst xs ∧ Keyed.Ascending Prod.fst ys ∧ Apart xs ys ∧
    it.chooseA = takesSmaller xs ys ∧ ps = Keyed.leftUnion Prod.fst xs ys

variable {R : α → List (Bytes × Bytes) → Prop} {S : β → List (Bytes × Bytes) → Prop}

/-- Nothing is skipped at iterators that report no newer ids. -/
theorem skipByTrancId_eq {it : TwoMergeIterator α β} (hrounds : 0 < it.rounds)
    (hreportsA : Reports it.maxTrancId R) (hreportsB : Reports it.maxTrancId S) {a : α} {b : β}
    {xs ys : List (Bytes × Bytes)} (ha : it.itA = some a) (hb : it.itB = some b) (hxs : R a xs)
    (hys : S b ys) :
  it.skipByTrancId = .ok it
  := by
  rw [skipByTrancId]
  split
  next => rfl
  next hne =>
    have hsame : it = { it with itA := some a, itB := some b } := by rw [← ha, ← hb]
    have hskipA := skipNewer_of_le ((hreportsA a xs hxs).resolve_left hne) hrounds
    have hskipB := skipNewer_of_le ((hreportsB b ys hys).resolve_left hne) hrounds
    rw [ha, hb, follow, follow, Except.bind_eq_of_ok _ rfl,
      Except.bind_eq_of_ok _ hskipA, Except.bind_eq_of_ok _ rfl, Except.bind_eq_of_ok _ hskipB]
    exact congrArg Except.ok hsame.symm

/-- An element of the second iterator with the key of the first is skipped. -/
theorem skipItB_eq (hR : (pairs α).Tracks R) (hS : (pairs β).Tracks S) {it : TwoMergeIterator α β}
    (hkeep : it.keepAllVersions = false) {a : α} {b : β} {xs ys : List (Bytes × Bytes)}
    (ha : it.itA = some a) (hb : it.itB = some b) (hxs : R a xs) (hys : S b ys)
    (hascX : Keyed.Ascending Prod.fst xs) (hascY : Keyed.Ascending Prod.fst ys) :
  ∃ a' b' ys', it.skipItB = .ok { it with itA := some a', itB := some b' } ∧ R a' xs ∧ S b' ys' ∧
    Keyed.Ascending Prod.fst ys' ∧ Apart xs ys' ∧
    Keyed.leftUnion Prod.fst xs ys' = Keyed.leftUnion Prod.fst xs ys
  := by
  have hsame : it = { it with itA := some a, itB := some b } := by rw [← ha, ← hb]
  have hnot : ¬ it.keepAllVersions = true := Bool.eq_false_iff.mp hkeep
  rw [skipItB, if_neg hnot, ha, hb, follow, follow]
  cases xs with
  | nil =>
      have hend : BaseIterator.isEnd a = true := hR.isEnd_nil hxs
      refine ⟨a, b, ys, ?_, hxs, hys, hascY, trivial, rfl⟩
      rw [← hsame]
      apply if_pos hend
  | cons p xs =>
      have hend : ¬ BaseIterator.isEnd a = true := Bool.eq_false_iff.mp (hR.isEnd_cons hxs)
      cases ys with
      | nil =>
          have hend' : BaseIterator.isEnd b = true := hS.isEnd_nil hys
          refine ⟨a, b, [], ?_, hxs, hys, hascY, trivial, rfl⟩
          rw [← hsame]
          exact (if_neg hend).trans (if_pos hend')
      | cons q ys =>
          have hend' : ¬ BaseIterator.isEnd b = true := Bool.eq_false_iff.mp (hS.isEnd_cons hys)
          obtain ⟨a', hpeek, hxs'⟩ := hR.peek_cons hxs
          obtain ⟨b', hpeek', hys'⟩ := hS.peek_cons hys
          change BaseIterator.deref a = _ at hpeek
          change BaseIterator.deref b = _ at hpeek'
          by_cases heq : p.1 = q.1
          · obtain ⟨b'', hnext, hys''⟩ := hS.next_cons hys'
            change BaseIterator.next b' = _ at hnext
            have hascY' := (List.pairwise_cons.mp hascY).2
            refine ⟨a', b'', ys, ?_, hxs', hys'', hascY', ?_, ?_⟩
            · refine ((if_neg hend).trans (if_neg hend')).trans ?_
              rw [Except.bind_eq_of_ok _ hpeek]
              dsimp only
              rw [Except.bind_eq_of_ok _ hpeek']
              dsimp only
              rw [if_pos heq, Except.bind_eq_of_ok _ hnext]
              rfl
            · cases ys with
              | nil => trivial
              | cons q' ys =>
                  have hlt := (List.pairwise_cons.mp hascY).1 q' List.mem_cons_self
                  exact fun h => absurd (heq.symm.trans h) hlt.ne
            · exact (Keyed.leftUnion_cons_of_eq heq).symm
          · refine ⟨a', b', q :: ys, ?_, hxs', hys', hascY, heq, rfl⟩
            refine ((if_neg hend).trans (if_neg hend')).trans ?_
            rw [Except.bind_eq_of_ok _ hpeek]
            dsimp only
            rw [Except.bind_eq_of_ok _ hpeek']
            dsimp only
            rw [if_neg heq]
            rfl

/-- Choosing between iterators at `xs` and `ys` is choosing between `xs` and `ys`. -/
theorem chooseItA_eq_takesSmaller (hR : (pairs α).Tracks R) (hS : (pairs β).Tracks S)
    (it : TwoMergeIterator α β) {a : α} {b : β} {xs ys : List (Bytes × Bytes)}
    (ha : it.itA = some a) (hb : it.itB = some b) (hxs : R a xs) (hys : S b ys)
    (hapart : Apart xs ys) :
  ∃ a' b', R a' xs ∧ S b' ys ∧
    it.chooseItA = .ok (takesSmaller xs ys, { it with itA := some a', itB := some b' })
  := by
  have hsame : it = { it with itA := some a, itB := some b } := by rw [← ha, ← hb]
  rw [chooseItA, ha, hb, follow, follow]
  cases xs with
  | nil =>
      have hend : BaseIterator.isEnd a = true := hR.isEnd_nil hxs
      refine ⟨a, b, hxs, hys, ?_⟩
      rw [← hsame]
      apply if_pos hend
  | cons p xs =>
      have hend : ¬ BaseIterator.isEnd a = true := Bool.eq_false_iff.mp (hR.isEnd_cons hxs)
      cases ys with
      | nil =>
          have hend' : BaseIterator.isEnd b = true := hS.isEnd_nil hys
          refine ⟨a, b, hxs, hys, ?_⟩
          rw [← hsame]
          exact (if_neg hend).trans (if_pos hend')
      | cons q ys =>
          have hend' : ¬ BaseIterator.isEnd b = true := Bool.eq_false_iff.mp (hS.isEnd_cons hys)
          obtain ⟨a', hpeek, hxs'⟩ := hR.peek_cons hxs
          obtain ⟨b', hpeek', hys'⟩ := hS.peek_cons hys
          change BaseIterator.deref a = _ at hpeek
          change BaseIterator.deref b = _ at hpeek'
          refine ⟨a', b', hxs', hys', ?_⟩
          refine ((if_neg hend).trans (if_neg hend')).trans ?_
          rw [Except.bind_eq_of_ok _ hpeek]
          dsimp only
          rw [Except.bind_eq_of_ok _ hpeek']
          dsimp only
          have hne : p.1 ≠ q.1 := hapart
          rw [if_pos hne]
          rfl

/-- Settling an iterator over iterators at `xs` and `ys` makes it show their union. -/
theorem settle_yieldsUnion (hR : (pairs α).Tracks R) (hS : (pairs β).Tracks S)
    (it : TwoMergeIterator α β) (hkeep : it.keepAllVersions = false) (hrounds : 0 < it.rounds)
    (hreportsA : Reports it.maxTrancId R) (hreportsB : Reports it.maxTrancId S) {a : α} {b : β}
    {xs ys : List (Bytes × Bytes)} (ha : it.itA = some a) (hb : it.itB = some b) (hxs : R a xs)
    (hys : S b ys) (hascX : Keyed.Ascending Prod.fst xs) (hascY : Keyed.Ascending Prod.fst ys) :
  ∃ it', it.settle = .ok it' ∧ YieldsUnion R S it' (Keyed.leftUnion Prod.fst xs ys)
  := by
  have hvisible := skipByTrancId_eq hrounds hreportsA hreportsB ha hb hxs hys
  obtain ⟨a', b', ys', hdistinct, hxs', hys', hascY', hapart, hunion⟩ :=
    skipItB_eq hR hS hkeep ha hb hxs hys hascX hascY
  obtain ⟨a'', b'', hxs'', hys'', hchoose⟩ := chooseItA_eq_takesSmaller hR hS
    { it with itA := some a', itB := some b' } rfl rfl hxs' hys' hapart
  rw [settle, Except.bind_eq_of_ok _ hvisible, Except.bind_eq_of_ok _ hdistinct,
    Except.bind_eq_of_ok _ hchoose]
  refine ⟨_, rfl, hkeep, hrounds, hreportsA, hreportsB, ?_⟩
  exact ⟨a'', xs, b'', ys', rfl, rfl, hxs'', hys'', hascX, hascY', hapart, rfl, hunion.symm⟩

/-- An iterator with pairs left is at one of its two iterators: the chosen one, whose pair is the
first one left. -/
theorem YieldsUnion.cases {it : TwoMergeIterator α β} {p : Bytes × Bytes}
    {ps : List (Bytes × Bytes)} (h : YieldsUnion R S it (p :: ps)) :
  ∃ a xs b ys, it.itA = some a ∧ it.itB = some b ∧ R a xs ∧ S b ys ∧
    Keyed.Ascending Prod.fst xs ∧ Keyed.Ascending Prod.fst ys ∧ Apart xs ys ∧
    it.chooseA = takesSmaller xs ys ∧ p :: ps = Keyed.leftUnion Prod.fst xs ys ∧
    ((it.chooseA = true ∧ ∃ xs', xs = p :: xs' ∧ ps = Keyed.leftUnion Prod.fst xs' ys) ∨
      (it.chooseA = false ∧ ∃ ys', ys = p :: ys' ∧ ps = Keyed.leftUnion Prod.fst xs ys'))
  := by
  obtain ⟨a, xs, b, ys, ha, hb, hxs, hys, hascX, hascY, hapart, hchoose, hps⟩ := h.left
  refine ⟨a, xs, b, ys, ha, hb, hxs, hys, hascX, hascY, hapart, hchoose, hps, ?_⟩
  cases xs with
  | nil =>
      rw [Keyed.leftUnion_nil_left] at hps
      subst hps
      exact .inr ⟨hchoose, ps, rfl, (Keyed.leftUnion_nil_left ps).symm⟩
  | cons x xs =>
      cases ys with
      | nil =>
          rw [Keyed.leftUnion_nil_right] at hps
          obtain ⟨rfl, rfl⟩ := List.cons.inj hps
          exact .inl ⟨hchoose, _, rfl, (Keyed.leftUnion_nil_right _).symm⟩
      | cons y ys =>
          rw [hchoose, takesSmaller]
          rcases lt_or_gt_of_ne hapart with hlt | hgt
          · rw [Keyed.leftUnion_cons_of_lt hlt hascY] at hps
            obtain ⟨rfl, rfl⟩ := List.cons.inj hps
            exact .inl ⟨decide_eq_true hlt, xs, rfl, rfl⟩
          · rw [Keyed.leftUnion_cons_of_gt hgt hascX] at hps
            obtain ⟨rfl, rfl⟩ := List.cons.inj hps
            exact .inr ⟨decide_eq_false hgt.not_gt, ys, rfl, rfl⟩

/-- Stepping leaves the other pairs. -/
theorem YieldsUnion.next (hR : (pairs α).Tracks R) (hS : (pairs β).Tracks S)
    {it : TwoMergeIterator α β} {p : Bytes × Bytes} {ps : List (Bytes × Bytes)}
    (h : YieldsUnion R S it (p :: ps)) :
  ∃ it', it.next = .ok it' ∧ YieldsUnion R S it' ps
  := by
  obtain ⟨a, xs, b, ys, ha, hb, hxs, hys, hascX, hascY, -, -, -, hside⟩ :=
    h.cases
  rw [TwoMergeIterator.next]
  rcases hside with ⟨hchoose, xs', rfl, rfl⟩ | ⟨hchoose, ys', rfl, rfl⟩
  · obtain ⟨a', hnext, hxs'⟩ := hR.next_cons hxs
    change BaseIterator.next a = _ at hnext
    obtain ⟨it', hsettle, hyields⟩ :=
      settle_yieldsUnion hR hS { it with itA := some a' } h.keepAllVersions_eq
        h.rounds_pos h.reportsA h.reportsB rfl hb hxs' hys (List.pairwise_cons.mp hascX).2 hascY
    refine ⟨it', ?_, hyields⟩
    rw [if_pos hchoose, ha, follow, Except.bind_eq_of_ok _ rfl, Except.bind_eq_of_ok _ hnext]
    apply hsettle
  · obtain ⟨b', hnext, hys'⟩ := hS.next_cons hys
    change BaseIterator.next b = _ at hnext
    obtain ⟨it', hsettle, hyields⟩ :=
      settle_yieldsUnion hR hS { it with itB := some b' } h.keepAllVersions_eq
        h.rounds_pos h.reportsA h.reportsB ha rfl hxs hys' hascX (List.pairwise_cons.mp hascY).2
    refine ⟨it', ?_, hyields⟩
    rw [if_neg (Bool.eq_false_iff.mp hchoose), hb, follow, Except.bind_eq_of_ok _ rfl,
      Except.bind_eq_of_ok _ hnext]
    apply hsettle

/-- Looking at an iterator with pairs left gives the first of them. -/
theorem YieldsUnion.deref (hR : (pairs α).Tracks R) (hS : (pairs β).Tracks S)
    {it : TwoMergeIterator α β} {p : Bytes × Bytes} {ps : List (Bytes × Bytes)}
    (h : YieldsUnion R S it (p :: ps)) :
  ∃ it', it.deref = .ok (p, it') ∧ YieldsUnion R S it' (p :: ps)
  := by
  obtain ⟨a, xs, b, ys, ha, hb, hxs, hys, hascX, hascY, hapart, htakes, hps, hside⟩ :=
    h.cases
  rw [TwoMergeIterator.deref]
  rcases hside with ⟨hchoose, xs', rfl, -⟩ | ⟨hchoose, ys', rfl, -⟩
  · obtain ⟨a', hpeek, hxs'⟩ := hR.peek_cons hxs
    change BaseIterator.deref a = _ at hpeek
    rw [if_pos hchoose, ha, follow, Except.bind_eq_of_ok _ rfl, Except.bind_eq_of_ok _ hpeek]
    refine ⟨_, rfl, h.keepAllVersions_eq, h.rounds_pos, h.reportsA, h.reportsB, ?_⟩
    exact ⟨a', p :: xs', b, ys, rfl, hb, hxs', hys, hascX, hascY, hapart, htakes, hps⟩
  · obtain ⟨b', hpeek, hys''⟩ := hS.peek_cons hys
    change BaseIterator.deref b = _ at hpeek
    rw [if_neg (Bool.eq_false_iff.mp hchoose), hb, follow, Except.bind_eq_of_ok _ rfl,
      Except.bind_eq_of_ok _ hpeek]
    refine ⟨_, rfl, h.keepAllVersions_eq, h.rounds_pos, h.reportsA, h.reportsB, ?_⟩
    exact ⟨a, xs, b', p :: ys', ha, rfl, hxs, hys'', hascX, hascY, hapart, htakes, hps⟩

/-- An iterator that shows the union delivers it. -/
theorem tracks_yieldsUnion (hR : (pairs α).Tracks R) (hS : (pairs β).Tracks S) :
  (pairs (TwoMergeIterator α β)).Tracks (YieldsUnion R S)
  where
  isEnd_nil := by
    intro it h
    obtain ⟨a, xs, b, ys, ha, hb, hxs, hys, -, -, -, -, hps⟩ := h.left
    obtain ⟨rfl, rfl⟩ := Keyed.leftUnion_eq_nil hps.symm
    have hend : BaseIterator.isEnd a = true := hR.isEnd_nil hxs
    have hend' : BaseIterator.isEnd b = true := hS.isEnd_nil hys
    change it.isEnd = true
    rw [isEnd, ha, hb]
    dsimp only
    rw [hend, hend', Bool.and_self]
  isEnd_cons := by
    intro it p ps h
    obtain ⟨a, xs, b, ys, ha, hb, hxs, hys, -, -, -, -, -, hside⟩ := h.cases
    change it.isEnd = false
    rw [isEnd, ha, hb]
    dsimp only
    rcases hside with ⟨-, xs', rfl, -⟩ | ⟨-, ys', rfl, -⟩
    · have hend : BaseIterator.isEnd a = false := hR.isEnd_cons hxs
      rw [hend, Bool.false_and]
    · have hend : BaseIterator.isEnd b = false := hS.isEnd_cons hys
      rw [hend, Bool.and_false]
  peek_cons := YieldsUnion.deref hR hS
  next_cons := YieldsUnion.next hR hS

/-- The merge of two iterators over ascending keys meets the keys of both, in order and each once,
with the pair of the first iterator if this has the key. -/
theorem drainPairs_leftUnion (hR : (pairs α).Tracks R) (hS : (pairs β).Tracks S)
    {maxTrancId : TrancId} (hreportsA : Reports maxTrancId R) (hreportsB : Reports maxTrancId S)
    {a : α} {b : β} {xs ys : List (Bytes × Bytes)} (hxs : R a xs) (hys : S b ys)
    (hascX : Keyed.Ascending Prod.fst xs) (hascY : Keyed.Ascending Prod.fst ys) (rounds : ℕ) :
  ∃ it out, ofIterators (rounds + 1) a b maxTrancId = .ok it ∧
    (∀ fuel, xs.length + ys.length < fuel → drainPairs fuel it = .ok out) ∧
    Keyed.Ascending Prod.fst out ∧ ∀ p, p ∈ out ↔ p ∈ xs ∨ p ∈ ys ∧ ∀ q ∈ xs, q.1 ≠ p.1
  := by
  obtain ⟨it, hit, hyields⟩ := settle_yieldsUnion hR hS
    { itA := some a, itB := some b, maxTrancId, rounds := rounds + 1 } rfl
    (Nat.succ_pos rounds) hreportsA hreportsB rfl rfl hxs hys hascX hascY
  refine ⟨it, Keyed.leftUnion Prod.fst xs ys, hit, ?_, hascX.leftUnion hascY, ?_⟩
  · intro fuel hfuel
    apply Cursor.drain_of_tracks (tracks_yieldsUnion hR hS) _ hyields
    exact Nat.lt_of_le_of_lt (Keyed.length_leftUnion_le xs ys) hfuel
  · intro p
    apply Keyed.mem_leftUnion

theorem drainPairs_leftUnion_tables :
  ∃ a b it out, laterTable.begin 0 = .ok a ∧ earlierTable.begin 0 = .ok b ∧
    ofIterators 1 a b 0 = .ok it ∧ (∀ fuel, 3 < fuel → drainPairs fuel it = .ok out) ∧
    Keyed.Ascending Prod.fst out ∧
    ∀ p : Bytes × Bytes, p ∈ out ↔ p ∈ [([1], [7])] ∨
      p ∈ [([1], [9]), ([2], [9])] ∧ ∀ q : Bytes × Bytes, q ∈ [([1], [7])] → q.1 ≠ p.1
  := by
  obtain ⟨a, ha, hxs⟩ := SstIterator.begin_yieldsFirsts wellFormed_laterTable
  obtain ⟨b, hb, hys⟩ := SstIterator.begin_yieldsFirsts wellFormed_earlierTable
  have hlater : laterTable.firsts.map Entry.pair = [([1], [7])] := by decide
  have hearlier : earlierTable.firsts.map Entry.pair = [([1], [9]), ([2], [9])] := by decide
  rw [hlater] at hxs
  rw [hearlier] at hys
  have hreports : Reports 0 SstIterator.YieldsFirsts := fun _ _ _ => .inl rfl
  obtain ⟨it, out, hit, hdrain, hascending, hmem⟩ :=
    drainPairs_leftUnion SstIterator.yields_yieldsFirsts.tracks
      SstIterator.yields_yieldsFirsts.tracks hreports hreports hxs hys
      (by rw [Keyed.Ascending]; decide) (by rw [Keyed.Ascending]; decide) 0
  exact ⟨a, b, it, out, ha, hb, hit, hdrain, hascending, hmem⟩

end TwoMergeIterator

end TinyLsm
