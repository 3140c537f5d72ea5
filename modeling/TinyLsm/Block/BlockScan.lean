import TinyLsm.Block.BlockIterator
import TinyLsm.Iterator.NewestVersions

/-!
# Scanning a block

In a block the versions are ordered by their keys and, from the greatest on, by their ids.  A scan
of such a block meets the visible versions, or the newest one of each key.  Wherever the iterator
is, all ways to look at it see the same version.
-/

namespace TinyLsm

/-- The keys ascend, and the ids of a key strictly descend. -/
def Block.Ordered (b : Block) : Prop :=
  b.entries.Pairwise (fun e e' => e.key < e'.key ∨ e.key = e'.key ∧ e'.trancId < e.trancId)

instance (b : Block) : Decidable b.Ordered := inferInstanceAs (Decidable (List.Pairwise _ _))

theorem Block.Ordered.versioned {b : Block} (h : b.Ordered) : Versioned b.entries
  := by
  apply h.imp
  rintro e e' (hlt | ⟨heq, hid⟩)
  · exact .inl hlt
  · exact .inr ⟨heq, hid.le⟩

namespace BlockIterator

/-- The version at the position: the pair of `operator*`, with the id of `get_cur_tranc_id`. -/
def entry (it : BlockIterator) : Except Fault (Entry × BlockIterator) := do
  let ((key, value), it') ← it.deref
  return (⟨key, value, it'.getCurTrancId⟩, it')

/-- A block iterator as a cursor over versions. -/
def cursor : Cursor Fault Entry BlockIterator where
  isEnd := isEnd
  peek := entry
  next it := .ok it.next

/-- The versions met by stepping an iterator to the end of its block. -/
def scan (fuel : ℕ) (it : BlockIterator) : Except Fault (List Entry) :=
  cursor.drain .outOfFuel fuel it

/-- What looking at an iterator and stepping it leads to. -/
inductive Reached (start : BlockIterator) : BlockIterator → Prop
  | start : Reached start start
  | next {it : BlockIterator} : Reached start it → Reached start it.next
  | deref {it it' : BlockIterator} {p : Bytes × Bytes} : Reached start it →
      it.deref = .ok (p, it') → Reached start it'
  | arrow {it it' : BlockIterator} {p : Bytes × Bytes} : Reached start it →
      it.arrow = .ok (p, it') → Reached start it'

/-! ### Looking -/

theorem entry_of_rest {it : BlockIterator} (hc : it.Coherent) {e : Entry} {es : List Entry}
    (h : it.rest = e :: es) :
  it.entry = .ok (e, { it with cachedValue := some e.pair })
  := by
  have hid : BlockIterator.getCurTrancId { it with cachedValue := some e.pair } = e.trancId :=
    getCurTrancId_of_rest h
  rw [entry, Except.bind_eq_of_ok _ (deref_of_rest hc h)]
  change Except.ok (Entry.mk e.key e.value _, _) = _
  rw [hid]

theorem coherent_updateCurrent {it : BlockIterator} (hc : it.Coherent) : it.updateCurrent.Coherent
  := by
  cases hrest : it.rest with
  | cons e es =>
      rw [updateCurrent_of_rest hc hrest]
      exact hc.fill hrest
  | nil =>
      have hnone : it.block.getEntryAt it.currentIndex = none := by
        rw [Block.getEntryAt, ← List.head?_drop]
        exact congrArg List.head? hrest
      have hsame : it.updateCurrent = it := by
        rw [updateCurrent, hnone]
        split <;> first | rfl | contradiction
      rwa [hsame]

theorem eq_updateCurrent_of_deref {it it' : BlockIterator} {p : Bytes × Bytes}
    (h : it.deref = .ok (p, it')) :
  it' = it.updateCurrent
  := by
  rw [deref] at h
  split at h
  next => cases h
  next =>
    split at h
    next => exact (congrArg Prod.snd (Except.ok.inj h)).symm
    next => cases h

theorem eq_updateCurrent_of_arrow {it it' : BlockIterator} {p : Bytes × Bytes}
    (h : it.arrow = .ok (p, it')) :
  it' = it.updateCurrent
  := by
  rw [arrow] at h
  split at h
  next => exact (congrArg Prod.snd (Except.ok.inj h)).symm
  next => cases h

@[simp]
theorem updateCurrent_block (it : BlockIterator) : it.updateCurrent.block = it.block
  := by
  rw [updateCurrent]
  split
  · rfl
  · rfl

@[simp]
theorem skipByTrancId_block (it : BlockIterator) : it.skipByTrancId.block = it.block
  := by
  rw [skipByTrancId]
  split
  · rfl
  · rfl

@[simp]
theorem next_block (it : BlockIterator) : it.next.block = it.block
  := by
  rw [next]
  split
  · rfl
  · rw [skipByTrancId_block]

/-- What an iterator leads to is coherent, and over the same block. -/
theorem Reached.coherent {start it : BlockIterator} (hstart : start.Coherent)
    (h : Reached start it) :
  it.Coherent ∧ it.block = start.block
  := by
  induction h with
  | start => exact ⟨hstart, rfl⟩
  | next _ ih => exact ⟨coherent_next ih.1, (next_block _).trans ih.2⟩
  | deref _ hderef ih =>
      rw [eq_updateCurrent_of_deref hderef]
      exact ⟨coherent_updateCurrent ih.1, (updateCurrent_block _).trans ih.2⟩
  | arrow _ harrow ih =>
      rw [eq_updateCurrent_of_arrow harrow]
      exact ⟨coherent_updateCurrent ih.1, (updateCurrent_block _).trans ih.2⟩

/-- All ways to look at an iterator that is not at the end see the same version. -/
theorem Reached.sees {start it : BlockIterator} (hstart : start.Coherent) (h : Reached start it)
    (hend : it.isEnd = false) :
  ∃ e ∈ start.block.entries, ∃ it', it.deref = .ok (e.pair, it') ∧
    it.arrow = .ok (e.pair, it') ∧ it.getCurTrancId = e.trancId
  := by
  obtain ⟨hc, hblock⟩ := h.coherent hstart
  cases hrest : it.rest with
  | nil =>
      rw [(isEnd_iff hc).mpr hrest] at hend
      cases hend
  | cons e es =>
      refine ⟨e, ?_, _, deref_of_rest hc hrest, arrow_of_rest hc hrest, getCurTrancId_of_rest hrest⟩
      rw [← hblock]
      apply List.mem_of_mem_drop
      change e ∈ it.rest
      rw [hrest]
      apply List.mem_cons_self

/-! ### Stepping -/

/-- An iterator skips what is not visible. -/
theorem invisible_iff {it : BlockIterator} {trancId : TrancId} (hid : it.trancId = trancId)
    (e : Entry) :
  it.invisible e = true ↔ ¬ e.Visible trancId
  := by
  rw [invisible, hid, Entry.Visible, Bool.and_eq_true, decide_eq_true_iff, decide_eq_true_iff,
    not_or, not_le]

/-- The first visible versions at a visible entry are its own and those left when its key is
dropped. -/
theorem firsts_visibleIn_cons {trancId : TrancId} {e : Entry} {es : List Entry}
    (hvisible : e.Visible trancId) (hsorted : Keyed.Sorted Entry.key (e :: es)) :
  Keyed.firsts Entry.key (visibleIn trancId (e :: es)) =
    e :: Keyed.firsts Entry.key (visibleIn trancId (Keyed.dropKey Entry.key e.key es))
  := by
  rw [visibleIn_cons_of_visible hvisible, Keyed.firsts_cons, visibleIn, visibleIn,
    hsorted.filter_dropKey]

/-- What is shown of versions: the visible ones, or the first of them of each key. -/
def shown (trancId : TrancId) (keepAllVersions : Bool) (es : List Entry) : List Entry :=
  if keepAllVersions then visibleIn trancId es
  else Keyed.firsts Entry.key (visibleIn trancId es)

/-- The iterator is at the end or at a visible version, and has the versions left that are shown of
the rest of the block. -/
structure Shows (trancId : TrancId) (keepAllVersions : Bool) (it : BlockIterator)
    (es : List Entry) : Prop where
  coherent : it.Coherent
  trancId_eq : it.trancId = trancId
  keepAllVersions_eq : it.keepAllVersions = keepAllVersions
  sorted : Keyed.Sorted Entry.key it.rest
  visible : ∀ e ∈ it.rest.head?, e.Visible trancId
  left : es = shown trancId keepAllVersions it.rest

variable {trancId : TrancId} {keepAllVersions : Bool}

/-- The versions shown at a visible one are its own and those shown after the step. -/
theorem shown_cons {e : Entry} {es : List Entry} (hvisible : e.Visible trancId)
    (hsorted : Keyed.Sorted Entry.key (e :: es)) :
  shown trancId keepAllVersions (e :: es) = e :: shown trancId keepAllVersions
    (if keepAllVersions then es else es.dropWhile (fun e' => decide (e'.key = e.key)))
  := by
  cases keepAllVersions with
  | true => apply visibleIn_cons_of_visible hvisible
  | false => apply firsts_visibleIn_cons hvisible hsorted

/-- Skipping what is not visible leaves what is shown. -/
theorem shows_skipByTrancId {it : BlockIterator} (hinside : it.currentIndex ≤ it.block.size)
    (hid : it.trancId = trancId) (hkeep : it.keepAllVersions = keepAllVersions)
    (hsorted : Keyed.Sorted Entry.key it.rest) :
  Shows trancId keepAllVersions it.skipByTrancId (shown trancId keepAllVersions it.rest)
  := by
  have hinvisible := invisible_iff hid
  have hrest := rest_skipByTrancId it
  refine
    { coherent := coherent_skipByTrancId hinside
      trancId_eq := (skipByTrancId_trancId it).trans hid
      keepAllVersions_eq := (skipByTrancId_keepAllVersions it).trans hkeep
      sorted := ?_
      visible := ?_
      left := ?_ }
  · rw [hrest]
    exact hsorted.sublist (List.dropWhile_sublist _)
  · intro e he
    obtain ⟨es, hes⟩ := List.head?_eq_some_iff.mp he
    exact visible_of_dropWhile hinvisible (hrest.symm.trans hes)
  · rw [hrest, shown, shown, visibleIn_dropWhile hinvisible]

/-- An iterator with versions left is at the first of them. -/
theorem Shows.rest_eq {it : BlockIterator} {e : Entry} {es : List Entry}
    (h : Shows trancId keepAllVersions it (e :: es)) :
  ∃ es', it.rest = e :: es' ∧ e.Visible trancId ∧ es = shown trancId keepAllVersions
    (if keepAllVersions then es' else es'.dropWhile (fun e' => decide (e'.key = e.key)))
  := by
  have hleft := h.left
  have hsorted := h.sorted
  have hvisible := h.visible
  cases hrest : it.rest with
  | nil =>
      rw [hrest] at hleft
      cases keepAllVersions <;> cases hleft
  | cons e' es' =>
      rw [hrest] at hleft hsorted hvisible
      have hvisible' := hvisible e' rfl
      rw [shown_cons hvisible' hsorted] at hleft
      obtain ⟨rfl, rfl⟩ := List.cons.inj hleft
      exact ⟨es', rfl, hvisible', rfl⟩

/-- Stepping leaves the other versions that are shown. -/
theorem Shows.next {it : BlockIterator} {e : Entry} {es : List Entry}
    (h : Shows trancId keepAllVersions it (e :: es)) :
  Shows trancId keepAllVersions it.next es
  := by
  obtain ⟨es', hes', -, rfl⟩ := h.rest_eq
  have hinvisible := invisible_iff h.trancId_eq
  have hrest := rest_next hes'
  rw [h.keepAllVersions_eq] at hrest
  have hsorted := h.sorted
  rw [hes'] at hsorted
  refine
    { coherent := coherent_next h.coherent
      trancId_eq := (next_trancId it).trans h.trancId_eq
      keepAllVersions_eq := (next_keepAllVersions it).trans h.keepAllVersions_eq
      sorted := ?_
      visible := ?_
      left := ?_ }
  · rw [hrest]
    have hsub : (if keepAllVersions = true then es'
        else es'.dropWhile (fun e' => decide (e'.key = e.key))).Sublist es' := by
      split
      · apply List.Sublist.refl
      · apply List.dropWhile_sublist
    exact (List.pairwise_cons.mp hsorted).2.sublist ((List.dropWhile_sublist _).trans hsub)
  · intro e' he'
    obtain ⟨es'', hes''⟩ := List.head?_eq_some_iff.mp he'
    exact visible_of_dropWhile hinvisible (hrest.symm.trans hes'')
  · rw [hrest, shown, shown, visibleIn_dropWhile hinvisible]

theorem Shows.fill {it : BlockIterator} {e : Entry} {es : List Entry}
    (h : Shows trancId keepAllVersions it (e :: es)) :
  Shows trancId keepAllVersions { it with cachedValue := some e.pair } (e :: es)
  := by
  obtain ⟨es', hes', -, -⟩ := h.rest_eq
  exact ⟨h.coherent.fill hes', h.trancId_eq, h.keepAllVersions_eq, h.sorted, h.visible, h.left⟩

/-- An iterator delivers the versions it has left. -/
theorem tracks_shows (trancId : TrancId) (keepAllVersions : Bool) :
  cursor.Tracks (Shows trancId keepAllVersions)
  where
  isEnd_nil := by
    intro it h
    apply (isEnd_iff h.coherent).mpr
    cases hrest : it.rest with
    | nil => rfl
    | cons e es =>
        have hleft := h.left
        have hsorted := h.sorted
        have hvisible := h.visible
        rw [hrest] at hleft hsorted hvisible
        rw [shown_cons (hvisible e rfl) hsorted] at hleft
        cases hleft
  isEnd_cons := by
    intro it e es h
    obtain ⟨es', hes', -, -⟩ := h.rest_eq
    change it.isEnd = false
    rw [Bool.eq_false_iff, Ne, isEnd_iff h.coherent, hes']
    apply List.cons_ne_nil
  peek_cons := by
    intro it e es h
    obtain ⟨es', hes', -, -⟩ := h.rest_eq
    exact ⟨_, entry_of_rest h.coherent hes', h.fill⟩
  next_cons := by
    intro it e es h
    exact ⟨it.next, rfl, h.next⟩

/-- The iterator at the start of a block scans what is shown of it. -/
theorem scan_atIndex {b : Block} (h : Keyed.Sorted Entry.key b.entries) (trancId : TrancId)
    (keepAllVersions : Bool) {fuel : ℕ} (hfuel : b.size < fuel) :
  (atIndex b 0 trancId keepAllVersions).scan fuel =
    .ok (shown trancId keepAllVersions b.entries)
  := by
  apply Cursor.drain_of_tracks (tracks_shows trancId keepAllVersions)
  · exact shows_skipByTrancId (Nat.zero_le _) rfl rfl h
  · apply Nat.lt_of_le_of_lt _ hfuel
    rw [shown]
    split
    · apply List.length_filter_le
    · exact ((Keyed.firsts_sublist _).trans List.filter_sublist).length_le

/-- A scan of a block meets the newest visible version of each key, in the order of the keys, or
all visible versions, in the order of the block.  Wherever the iterator is, its operators see the
same version. -/
theorem scan_newest_visible {b : Block} (h : b.Ordered) (trancId : TrancId) :
  (∃ out, NewestVersions (visibleIn trancId b.entries) out ∧
      ∀ fuel, b.size < fuel → (atIndex b 0 trancId false).scan fuel = .ok out) ∧
    (∀ fuel, b.size < fuel →
      (atIndex b 0 trancId true).scan fuel = .ok (visibleIn trancId b.entries)) ∧
    ∀ keepAllVersions it, Reached (atIndex b 0 trancId keepAllVersions) it → it.isEnd = false →
      ∃ e ∈ b.entries, ∃ it', it.deref = .ok (e.pair, it') ∧ it.arrow = .ok (e.pair, it') ∧
        it.getCurTrancId = e.trancId
  := by
  refine ⟨?_, ?_, ?_⟩
  · refine ⟨_, (h.versioned.visibleIn trancId).newestVersions, ?_⟩
    intro fuel hfuel
    exact scan_atIndex h.versioned.sorted trancId false hfuel
  · intro fuel hfuel
    exact scan_atIndex h.versioned.sorted trancId true hfuel
  · intro keepAllVersions it hreached hend
    have hstart : (atIndex b 0 trancId keepAllVersions).Coherent :=
      coherent_atIndex (Nat.zero_le _) trancId keepAllVersions
    have hblock : (atIndex b 0 trancId keepAllVersions).block = b := skipByTrancId_block _
    have hsees := hreached.sees hstart hend
    rwa [hblock] at hsees

/-- The versions of one key that some transactions do not see. -/
theorem scan_newest_visible_versions :
  (∃ out, NewestVersions (visibleIn 2 [⟨[1], [7], 3⟩, ⟨[1], [8], 1⟩, ⟨[2], [9], 3⟩]) out ∧
      ∀ fuel, 3 < fuel →
        (atIndex ⟨[⟨[1], [7], 3⟩, ⟨[1], [8], 1⟩, ⟨[2], [9], 3⟩]⟩ 0 2 false).scan fuel = .ok out)
  := (scan_newest_visible (b := ⟨[⟨[1], [7], 3⟩, ⟨[1], [8], 1⟩, ⟨[2], [9], 3⟩]⟩) (by decide) 2).1

end BlockIterator

end TinyLsm
