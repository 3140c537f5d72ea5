import TinyLsm.Iterator.HeapIterator
import TinyLsm.Iterator.NewestVersions

/-!
# The heap iterator at a snapshot

For a transaction, the heap iterator skips what is not visible and then deletion marks.  While it
skips deletion marks, it drops every key whose newest version is one, visible or not: a key that
has been deleted after the snapshot, and follows one that was deleted before, is lost.
-/

namespace TinyLsm

/-- A deletion mark. -/
def Entry.dead (e : Entry) : Bool := e.value.isEmpty

/-- What a snapshot shows of the newest versions: those that are not deletion marks. -/
def live (es : List Entry) : List Entry := es.filter (fun e => !e.dead)

/-- The newest version of a key, a deletion mark that is not visible, shadows a visible version of
the key that is not one: a lesser key has been deleted, and so have, visibly or not, the keys
between. -/
def Shadowed (trancId : TrancId) (es : List Entry) : Prop :=
  ∃ a b c, NewestIn (visibleIn trancId es) a ∧ a.dead = true ∧
    NewestIn es b ∧ b.dead = true ∧
    NewestIn (visibleIn trancId es) c ∧ c.dead = false ∧ c.key = b.key ∧
    a.key < b.key ∧ ∀ d, NewestIn es d → a.key < d.key → d.key < b.key → d.dead = true

/-! ### What is shown of versions in order -/

/-- The version by which a key is judged, the first of its versions being `e`: the first visible
one, or `e` itself if deletion marks are being skipped and it is one. -/
def judged (trancId : TrancId) (deleting : Bool) (e : Entry) (es : List Entry) : Option Entry :=
  if deleting && e.dead then some e
  else Keyed.firstOf Entry.key e.key (visibleIn trancId (e :: es))

/-- What is shown of versions in order, deletion marks being skipped at first or not. -/
def shown (trancId : TrancId) (deleting : Bool) : List Entry → List Entry
  | [] => []
  | e :: es =>
      live (judged trancId deleting e es).toList ++
        shown trancId ((judged trancId deleting e es).any Entry.dead)
          (Keyed.dropKey Entry.key e.key es)
termination_by es => es.length
decreasing_by
  exact Nat.lt_succ_of_le (Keyed.dropKey_sublist Entry.key e.key es).length_le

/-- The first visible versions that are not deletion marks. -/
def liveFirsts (trancId : TrancId) (es : List Entry) : List Entry :=
  live (Keyed.firsts Entry.key (visibleIn trancId es))

section

variable {trancId : TrancId} {deleting : Bool} {e : Entry} {es : List Entry}

/-- The first version of another key comes after the versions of the first key. -/
theorem firstOf_cons_of_ne {key : Bytes} (h : key ≠ e.key) :
  Keyed.firstOf Entry.key key (e :: es) =
    Keyed.firstOf Entry.key key (Keyed.dropKey Entry.key e.key es)
  := by
  rw [Keyed.firstOf_cons, if_neg (Ne.symm h), Keyed.firstOf_dropKey h]

/-- What is visible after the versions of the first key. -/
theorem visibleIn_dropKey (hsorted : Keyed.Sorted Entry.key (e :: es)) :
  visibleIn trancId (Keyed.dropKey Entry.key e.key es) =
    Keyed.dropKey Entry.key e.key (visibleIn trancId (e :: es))
  := by
  have hdrop : visibleIn trancId (Keyed.dropKey Entry.key e.key es) =
      Keyed.dropKey Entry.key e.key (visibleIn trancId es) := hsorted.filter_dropKey _
  by_cases hvisible : e.Visible trancId
  · rw [hdrop, visibleIn_cons_of_visible hvisible, Keyed.dropKey_cons_of_eq rfl]
  · rw [hdrop, visibleIn_cons_of_not_visible hvisible]

/-- The first visible version of another key comes after the versions of the first key. -/
theorem firstOf_visibleIn_cons_of_ne (hsorted : Keyed.Sorted Entry.key (e :: es)) {key : Bytes}
    (h : key ≠ e.key) :
  Keyed.firstOf Entry.key key (visibleIn trancId (e :: es)) =
    Keyed.firstOf Entry.key key (visibleIn trancId (Keyed.dropKey Entry.key e.key es))
  := by
  rw [visibleIn_dropKey hsorted, Keyed.firstOf_dropKey h]

theorem live_append (es es' : List Entry) : live (es ++ es') = live es ++ live es'
  := List.filter_append ..

/-- The first visible versions are that of the first key, if there is one, and those of the other
keys. -/
theorem liveFirsts_cons (hsorted : Keyed.Sorted Entry.key (e :: es)) :
  liveFirsts trancId (e :: es) =
    live (Keyed.firstOf Entry.key e.key (visibleIn trancId (e :: es))).toList ++
      liveFirsts trancId (Keyed.dropKey Entry.key e.key es)
  := by
  have hle : ∀ e' ∈ visibleIn trancId (e :: es), e.key ≤ e'.key := by
    intro e' he'
    rcases List.mem_cons.mp (mem_visibleIn.mp he').1 with rfl | he'
    · apply le_rfl
    · exact (List.pairwise_cons.mp hsorted).1 e' he'
  have hvisible : Keyed.Sorted Entry.key (visibleIn trancId (e :: es)) :=
    hsorted.sublist List.filter_sublist
  rw [liveFirsts, hvisible.firsts_eq_append hle, live_append, liveFirsts,
    visibleIn_dropKey hsorted]

/-- The versions after those of the first key have greater keys. -/
theorem lt_of_mem_rest (hsorted : Keyed.Sorted Entry.key (e :: es)) :
  ∀ e' ∈ Keyed.dropKey Entry.key e.key es, e.key < e'.key
  := by
  obtain ⟨hle, hes⟩ := List.pairwise_cons.mp hsorted
  exact Keyed.Sorted.lt_of_mem_dropKey hes hle

theorem sorted_rest (hsorted : Keyed.Sorted Entry.key (e :: es)) :
  Keyed.Sorted Entry.key (Keyed.dropKey Entry.key e.key es)
  := (List.pairwise_cons.mp hsorted).2.sublist (Keyed.dropKey_sublist _ _ _)

end

theorem live_singleton (e : Entry) : live [e] = if e.dead = true then [] else [e]
  := by
  rw [live, List.filter_singleton]
  cases e.dead <;> rfl

/-- Nothing is shown that is not a first visible version. -/
theorem shown_sublist (trancId : TrancId) (deleting : Bool) {es : List Entry}
    (hsorted : Keyed.Sorted Entry.key es) :
  (shown trancId deleting es).Sublist (liveFirsts trancId es)
  := by
  induction hn : es.length using Nat.strongRecOn generalizing es deleting with
  | ind n ih =>
      cases es with
      | nil =>
          rw [shown]
          apply List.nil_sublist
      | cons e es =>
          have hlt : (Keyed.dropKey Entry.key e.key es).length < n := by
            have hle := (Keyed.dropKey_sublist Entry.key e.key es).length_le
            rw [← hn, List.length_cons]
            omega
          rw [shown, liveFirsts_cons hsorted]
          apply List.Sublist.append _ (ih _ hlt _ (sorted_rest hsorted) rfl)
          rw [judged]
          split
          next hdead =>
            rw [Option.toList_some, live_singleton, if_pos (Bool.and_eq_true_iff.mp hdead).2]
            apply List.nil_sublist
          next => apply List.Sublist.refl

/-! ### What is lost -/

/-- Deletion marks are being skipped when the versions of a key are reached. -/
def Reaches (trancId : TrancId) (deleting : Bool) (es : List Entry) (key : Bytes) : Prop :=
  (deleting = true ∧ ∀ d, Keyed.firstOf Entry.key d.key es = some d → d.key < key →
      d.dead = true) ∨
    ∃ a, Keyed.firstOf Entry.key a.key (visibleIn trancId es) = some a ∧ a.dead = true ∧
      a.key < key ∧ ∀ d, Keyed.firstOf Entry.key d.key es = some d → a.key < d.key →
        d.key < key → d.dead = true

/-- A visible version is dropped with the deletion mark that is the first version of its key. -/
def Loses (trancId : TrancId) (deleting : Bool) (es : List Entry) : Prop :=
  ∃ b c, Keyed.firstOf Entry.key b.key es = some b ∧ b.dead = true ∧
    Keyed.firstOf Entry.key b.key (visibleIn trancId es) = some c ∧ c.dead = false ∧
    Reaches trancId deleting es b.key

section

variable {trancId : TrancId} {deleting : Bool} {e : Entry} {es : List Entry}

theorem reaches_self_iff (hsorted : Keyed.Sorted Entry.key (e :: es)) :
  Reaches trancId deleting (e :: es) e.key ↔ deleting = true
  := by
  have hle : ∀ d ∈ e :: es, e.key ≤ d.key := by
    intro d hd
    rcases List.mem_cons.mp hd with rfl | hd
    · apply le_rfl
    · exact (List.pairwise_cons.mp hsorted).1 d hd
  constructor
  · rintro (⟨h, -⟩ | ⟨a, ha, -, hlt, -⟩)
    · apply h
    · have hmem := (mem_visibleIn.mp (Keyed.firstOf_eq_some ha).1).1
      exact absurd hlt (not_lt_of_ge (hle a hmem))
  · intro h
    refine .inl ⟨h, ?_⟩
    intro d hd hlt
    exact absurd hlt (not_lt_of_ge (hle d (Keyed.firstOf_eq_some hd).1))

/-- The first versions are the first one of all, and those of the other keys. -/
theorem firstOf_cons_iff (hsorted : Keyed.Sorted Entry.key (e :: es)) {d : Entry} :
  Keyed.firstOf Entry.key d.key (e :: es) = some d ↔
    d = e ∨ Keyed.firstOf Entry.key d.key (Keyed.dropKey Entry.key e.key es) = some d
  := by
  by_cases hkey : d.key = e.key
  · rw [hkey, Keyed.firstOf_self, Option.some.injEq, or_iff_left]
    · exact eq_comm
    · intro hrest
      obtain ⟨hmem, -⟩ := Keyed.firstOf_eq_some hrest
      exact (lt_of_mem_rest hsorted d hmem).ne' hkey
  · rw [firstOf_cons_of_ne hkey, or_iff_right]
    rintro rfl
    exact hkey rfl

/-- The keys after the first one are reached as they are from there on. -/
theorem reaches_cons_iff (hsorted : Keyed.Sorted Entry.key (e :: es)) {key : Bytes}
    (hlt : e.key < key) :
  Reaches trancId deleting (e :: es) key ↔
    Reaches trancId ((judged trancId deleting e es).any Entry.dead)
      (Keyed.dropKey Entry.key e.key es) key
  := by
  have hrest := lt_of_mem_rest hsorted
  constructor
  · rintro (⟨hdeleting, hall⟩ | ⟨a, ha, hdead, halt, hall⟩)
    · have he : e.dead = true := hall e ((firstOf_cons_iff hsorted).mpr (.inl rfl)) hlt
      refine .inl ⟨?_, fun d hd => hall d ((firstOf_cons_iff hsorted).mpr (.inr hd))⟩
      rw [judged, hdeleting, he]
      exact he
    · by_cases hkey : a.key = e.key
      · refine .inl ⟨?_, ?_⟩
        · rw [judged, ← hkey]
          split
          next h => exact (Bool.and_eq_true_iff.mp h).2
          next =>
            rw [ha]
            exact hdead
        · intro d hd hdlt
          have hmem := (Keyed.firstOf_eq_some hd).1
          exact hall d ((firstOf_cons_iff hsorted).mpr (.inr hd)) (hkey ▸ hrest d hmem) hdlt
      · rw [firstOf_visibleIn_cons_of_ne hsorted hkey] at ha
        refine .inr ⟨a, ha, hdead, halt, ?_⟩
        intro d hd
        exact hall d ((firstOf_cons_iff hsorted).mpr (.inr hd))
  · rintro (⟨hjudged, hall⟩ | ⟨a, ha, hdead, halt, hall⟩)
    · rw [judged] at hjudged
      split at hjudged
      next h =>
        obtain ⟨hdeleting, he⟩ := Bool.and_eq_true_iff.mp h
        refine .inl ⟨hdeleting, ?_⟩
        intro d hd hdlt
        rcases (firstOf_cons_iff hsorted).mp hd with rfl | hd
        · apply he
        · exact hall d hd hdlt
      next =>
        obtain ⟨a, ha, hdead⟩ := (Option.any_eq_true ..).mp hjudged
        obtain ⟨-, hkey⟩ := Keyed.firstOf_eq_some ha
        refine .inr ⟨a, hkey ▸ ha, hdead, hkey ▸ hlt, ?_⟩
        intro d hd had hdlt
        rcases (firstOf_cons_iff hsorted).mp hd with rfl | hd
        · exact absurd had (hkey ▸ lt_irrefl d.key)
        · exact hall d hd hdlt
    · have hmem := (mem_visibleIn.mp (Keyed.firstOf_eq_some ha).1).1
      have hea := hrest a hmem
      refine .inr ⟨a, ?_, hdead, halt, ?_⟩
      · rw [firstOf_visibleIn_cons_of_ne hsorted hea.ne']
        apply ha
      · intro d hd had hdlt
        rcases (firstOf_cons_iff hsorted).mp hd with rfl | hd
        · exact absurd had (not_lt_of_gt hea)
        · exact hall d hd had hdlt

/-- A version is lost with the first key or after it. -/
theorem loses_cons_iff (hsorted : Keyed.Sorted Entry.key (e :: es)) :
  Loses trancId deleting (e :: es) ↔
    ((deleting = true ∧ e.dead = true) ∧
        ∃ c, Keyed.firstOf Entry.key e.key (visibleIn trancId (e :: es)) = some c ∧
          c.dead = false) ∨
      Loses trancId ((judged trancId deleting e es).any Entry.dead)
        (Keyed.dropKey Entry.key e.key es)
  := by
  have hrest := lt_of_mem_rest hsorted
  constructor
  · rintro ⟨b, c, hb, hbdead, hc, hcdead, hreaches⟩
    rcases (firstOf_cons_iff hsorted).mp hb with rfl | hb
    · exact .inl ⟨⟨(reaches_self_iff hsorted).mp hreaches, hbdead⟩, c, hc, hcdead⟩
    · have hlt := hrest b (Keyed.firstOf_eq_some hb).1
      rw [firstOf_visibleIn_cons_of_ne hsorted hlt.ne'] at hc
      exact .inr ⟨b, c, hb, hbdead, hc, hcdead, (reaches_cons_iff hsorted hlt).mp hreaches⟩
  · rintro (⟨⟨hdeleting, he⟩, c, hc, hcdead⟩ | ⟨b, c, hb, hbdead, hc, hcdead, hreaches⟩)
    · exact ⟨e, c, Keyed.firstOf_self e es, he, hc, hcdead,
        (reaches_self_iff hsorted).mpr hdeleting⟩
    · have hlt := hrest b (Keyed.firstOf_eq_some hb).1
      refine ⟨b, c, (firstOf_cons_iff hsorted).mpr (.inr hb), hbdead, ?_, hcdead,
        (reaches_cons_iff hsorted hlt).mpr hreaches⟩
      rw [firstOf_visibleIn_cons_of_ne hsorted hlt.ne']
      apply hc

end

/-- What is shown are the first visible versions that are not deletion marks if and only if none
is lost. -/
theorem shown_eq_iff (trancId : TrancId) (deleting : Bool) {es : List Entry}
    (hsorted : Keyed.Sorted Entry.key es) :
  shown trancId deleting es = liveFirsts trancId es ↔ ¬ Loses trancId deleting es
  := by
  induction hn : es.length using Nat.strongRecOn generalizing es deleting with
  | ind n ih =>
      cases es with
      | nil =>
          rw [shown]
          apply iff_of_true rfl
          rintro ⟨b, c, hb, -⟩
          cases hb
      | cons e es =>
          have hlt : (Keyed.dropKey Entry.key e.key es).length < n := by
            have hle := (Keyed.dropKey_sublist Entry.key e.key es).length_le
            rw [← hn, List.length_cons]
            omega
          have hrest := ih _ hlt ((judged trancId deleting e es).any Entry.dead)
            (sorted_rest hsorted) rfl
          have hsub := shown_sublist trancId ((judged trancId deleting e es).any Entry.dead)
            (sorted_rest hsorted)
          rw [loses_cons_iff hsorted, not_or, ← hrest, shown, liveFirsts_cons hsorted]
          by_cases hskips : deleting = true ∧ e.dead = true
          · have hjudged : judged trancId deleting e es = some e :=
              if_pos (Bool.and_eq_true_iff.mpr hskips)
            rw [hjudged] at hsub ⊢
            rw [Option.toList_some, live_singleton, if_pos hskips.2, List.nil_append]
            cases hfirst : Keyed.firstOf Entry.key e.key (visibleIn trancId (e :: es)) with
            | none =>
                rw [and_iff_right]
                · exact Iff.rfl
                · rintro ⟨-, c, hc, -⟩
                  cases hc
            | some c =>
                rw [Option.toList_some, live_singleton]
                by_cases hdead : c.dead = true
                · rw [if_pos hdead, and_iff_right]
                  · exact Iff.rfl
                  · rintro ⟨-, c', hc', hlive⟩
                    obtain rfl := Option.some.inj hc'
                    rw [hdead] at hlive
                    cases hlive
                · -- one more version is to be shown than can be
                  rw [if_neg hdead]
                  apply iff_of_false
                  · intro heq
                    have hle := hsub.length_le
                    rw [heq, List.length_append, List.length_singleton] at hle
                    omega
                  · rintro ⟨hnone, -⟩
                    exact hnone ⟨hskips, c, rfl, Bool.eq_false_iff.mpr hdead⟩
          · have hjudged : judged trancId deleting e es =
                Keyed.firstOf Entry.key e.key (visibleIn trancId (e :: es)) :=
              if_neg (fun h => hskips (Bool.and_eq_true_iff.mp h))
            rw [hjudged, List.append_cancel_left_eq, and_iff_right (fun h => hskips h.1)]

/-- A version is lost from versions in order if and only if one is shadowed. -/
theorem loses_iff {trancId : TrancId} {es : List Entry} (h : Versioned es)
    (hids : DistinctIds es) :
  Loses trancId false es ↔ Shadowed trancId es
  := by
  have hnewest : ∀ e, NewestIn es e ↔ _ := fun e => newest_iff h hids
  have hvisible : ∀ e, NewestIn (visibleIn trancId es) e ↔ _ := fun e =>
    newest_iff (h.visibleIn trancId) (hids.visibleIn trancId)
  simp only [Loses, Reaches, Shadowed, hnewest, hvisible, Bool.false_eq_true, false_and, false_or]
  constructor
  · rintro ⟨b, c, hb, hbdead, hc, hcdead, a, ha, hadead, hlt, hall⟩
    have hkey := (Keyed.firstOf_eq_some hc).2
    exact ⟨a, b, c, ha, hadead, hb, hbdead, hkey.symm ▸ hc, hcdead, hkey, hlt, hall⟩
  · rintro ⟨a, b, c, ha, hadead, hb, hbdead, hc, hcdead, hkey, hlt, hall⟩
    exact ⟨b, c, hb, hbdead, hkey ▸ hc, hcdead, a, ha, hadead, hlt, hall⟩

/-! ### The loops of the iterator -/

section

variable {trancId : TrancId} {e : Entry} {es : List Entry}

theorem shown_true_of_dead (h : e.dead = true) :
  shown trancId true (e :: es) = shown trancId true (Keyed.dropKey Entry.key e.key es)
  := by
  have hjudged : judged trancId true e es = some e := if_pos h
  rw [shown, hjudged, Option.toList_some, live_singleton, if_pos h, List.nil_append,
    Option.any_some, h]

theorem shown_true_of_live (h : e.dead = false) :
  shown trancId true (e :: es) = shown trancId false (e :: es)
  := by
  rw [shown, shown, judged, judged, h]
  rfl

/-- A visible version is judged alike whether deletion marks are being skipped or not. -/
theorem shown_of_visible (h : e.Visible trancId) :
  shown trancId false (e :: es) = shown trancId true (e :: es)
  := by
  cases hdead : e.dead with
  | false => rw [shown_true_of_live hdead]
  | true =>
      rw [shown_true_of_dead hdead, shown, judged, Bool.false_and, if_neg Bool.false_ne_true,
        visibleIn_cons_of_visible h, Keyed.firstOf_self, Option.toList_some, live_singleton,
        if_pos hdead, List.nil_append, Option.any_some, hdead]

/-- A visible version that is not a deletion mark is shown. -/
theorem shown_of_legal (h : e.Visible trancId) (hlive : e.dead = false) :
  shown trancId false (e :: es) =
    e :: shown trancId false (Keyed.dropKey Entry.key e.key es)
  := by
  rw [shown, judged, Bool.false_and, if_neg Bool.false_ne_true, visibleIn_cons_of_visible h,
    Keyed.firstOf_self, Option.toList_some, live_singleton, hlive, if_neg Bool.false_ne_true,
    Option.any_some, hlive]
  rfl

/-- A version that is not visible makes no difference. -/
theorem shown_of_not_visible (hsorted : Keyed.Sorted Entry.key (e :: es))
    (h : ¬ e.Visible trancId) :
  shown trancId false (e :: es) = shown trancId false es
  := by
  rw [shown, judged, Bool.false_and, if_neg Bool.false_ne_true,
    visibleIn_cons_of_not_visible h]
  cases es with
  | nil =>
      have hnil : Keyed.dropKey Entry.key e.key [] = [] := rfl
      rw [hnil, shown, shown]
      rfl
  | cons e' es =>
      by_cases hkey : e'.key = e.key
      · rw [Keyed.dropKey_cons_of_eq hkey, ← hkey, shown, judged, Bool.false_and,
          if_neg Bool.false_ne_true]
      · -- the keys from here on are greater, so that no version of the key is visible
        have hrest := lt_of_mem_rest hsorted
        rw [Keyed.dropKey_cons_of_ne hkey] at hrest ⊢
        have hnone : Keyed.firstOf Entry.key e.key (visibleIn trancId (e' :: es)) = none := by
          apply Keyed.firstOf_eq_none.mpr
          intro d hd
          exact (hrest d (mem_visibleIn.mp hd).1).ne'
        rw [hnone]
        rfl

theorem shown_dropWhile {p : Entry → Bool} (hp : ∀ e, p e = true ↔ ¬ e.Visible trancId) :
  ∀ {es : List Entry}, Keyed.Sorted Entry.key es →
    shown trancId false (es.dropWhile p) = shown trancId true (es.dropWhile p) ∧
      shown trancId false (es.dropWhile p) = shown trancId false es
  | [], _ => by
      rw [List.dropWhile_nil, shown, shown]
      exact ⟨rfl, rfl⟩
  | e :: es, h => by
      by_cases hvisible : e.Visible trancId
      · rw [List.dropWhile_cons_of_neg (fun hinvisible => (hp e).mp hinvisible hvisible)]
        exact ⟨shown_of_visible hvisible, rfl⟩
      · rw [List.dropWhile_cons_of_pos ((hp e).mpr hvisible), shown_of_not_visible h hvisible]
        exact shown_dropWhile hp (List.pairwise_cons.mp h).2

end

namespace HeapIterator

/-- The iterator belongs to a transaction and skips deletion marks and older versions. -/
structure AtSnapshot (trancId : TrancId) (it : HeapIterator) : Prop where
  maxTrancId_eq : it.maxTrancId = trancId
  skipsDeleted : it.skipDelete = true
  firstVersions : it.keepAllVersions = false

/-- The iterator of a snapshot has the items `items` left, with keys that do not decrease. -/
structure HasLeft (trancId : TrancId) (it : HeapIterator) (items : List SearchItem) : Prop
    extends it.AtSnapshot trancId where
  delivers : BinaryHeap.Delivers SearchItem.gt it.items items
  sorted : Keyed.Sorted Entry.key (items.map SearchItem.entry)

variable {trancId : TrancId} {it : HeapIterator} {items : List SearchItem}

theorem HasLeft.size_eq (h : it.HasLeft trancId items) : it.items.size = items.length
  := by
  rw [h.delivers.perm.length_eq, Array.length_toList]

theorem HasLeft.popWhile (h : it.HasLeft trancId items) (p : SearchItem → Bool) :
  (it.popWhile p).HasLeft trancId (items.dropWhile p)
  where
  maxTrancId_eq := h.maxTrancId_eq
  skipsDeleted := h.skipsDeleted
  firstVersions := h.firstVersions
  delivers := delivers_popWhile h.delivers p
  sorted := h.sorted.sublist ((List.dropWhile_sublist p).map SearchItem.entry)

theorem map_entry_dropKey (key : Bytes) (items : List SearchItem) :
  (items.dropWhile (fun item => decide (item.key = key))).map SearchItem.entry =
    Keyed.dropKey Entry.key key (items.map SearchItem.entry)
  := by
  rw [Keyed.dropKey, List.dropWhile_map]
  rfl

/-- Skipping deletion marks leaves what is shown when they are being skipped. -/
theorem HasLeft.skipDeleted :
  ∀ {fuel : ℕ} {it : HeapIterator} {items : List SearchItem}, it.HasLeft trancId items →
    items.length ≤ fuel →
    ∃ items', (it.skipDeleted fuel).HasLeft trancId items' ∧
      shown trancId true (items.map SearchItem.entry) =
        shown trancId false (items'.map SearchItem.entry) ∧
      items'.length ≤ items.length ∧
      ∀ item ∈ items.head?, item.entry.dead = true → items'.length < items.length
  | 0, it, items, h, hfuel => by
      obtain rfl := List.length_eq_zero_iff.mp (Nat.le_zero.mp hfuel)
      refine ⟨[], h, ?_, le_rfl, fun _ hitem => nomatch hitem⟩
      rw [List.map_nil, shown, shown]
  | fuel + 1, it, [], h, _ => by
      have htop : it.top? = none := h.delivers
      rw [HeapIterator.skipDeleted, htop]
      refine ⟨[], h, ?_, le_rfl, fun _ hitem => nomatch hitem⟩
      rw [List.map_nil, shown, shown]
  | fuel + 1, it, item :: items, h, hfuel => by
      have htop : it.top? = some item := h.delivers.1
      rw [HeapIterator.skipDeleted, htop]
      dsimp only
      split
      next hdead =>
        have hdropped : (item :: items).dropWhile (fun other => decide (other.key = item.key)) =
            items.dropWhile (fun other => decide (other.key = item.key)) :=
          List.dropWhile_cons_of_pos (decide_eq_true rfl)
        have hpopped := h.popWhile (fun other => decide (other.key = item.key))
        have hle := (List.dropWhile_sublist (l := items)
          (fun other => decide (other.key = item.key))).length_le
        rw [hdropped] at hpopped
        rw [List.length_cons] at hfuel ⊢
        rw [h.firstVersions, if_neg Bool.false_ne_true]
        have hfits : (items.dropWhile (fun other => decide (other.key = item.key))).length ≤ fuel :=
          by omega
        obtain ⟨items', hleft, hshown, hlength, -⟩ := hpopped.skipDeleted hfits
        refine ⟨items', hleft, ?_, by omega, fun _ _ _ => by omega⟩
        rw [List.map_cons, shown_true_of_dead (e := item.entry) hdead, ← hshown, map_entry_dropKey]
        rfl
      next hlive =>
        refine ⟨item :: items, h, ?_, le_rfl, ?_⟩
        · exact shown_true_of_live (Bool.eq_false_iff.mpr hlive)
        · intro other hother hdead
          obtain rfl := Option.some.inj hother
          exact absurd hdead hlive

/-- The top is legal if it is visible and not a deletion mark. -/
theorem HasLeft.topValueLegal_iff (h : it.HasLeft trancId items) :
  it.topValueLegal = true ↔
    ∀ item ∈ items.head?, item.entry.Visible trancId ∧ item.entry.dead = false
  := by
  cases items with
  | nil =>
      have htop : it.top? = none := h.delivers
      rw [topValueLegal, htop]
      exact iff_of_true rfl (by rintro _ ⟨⟩)
  | cons item items =>
      have htop : it.top? = some item := h.delivers.1
      simp only [topValueLegal, htop, h.maxTrancId_eq, h.skipsDeleted, if_true, List.head?_cons,
        Option.mem_some_iff, forall_eq', Entry.Visible, Entry.dead, SearchItem.entry]
      by_cases hzero : trancId = 0
      · rw [if_pos hzero, Bool.not_eq_true', and_iff_right (.inl hzero)]
      · rw [if_neg hzero, or_iff_right hzero]
        split
        next hle => rw [Bool.not_eq_true', and_iff_right hle]
        next hgt => exact iff_of_false Bool.false_ne_true (fun hlegal => hgt hlegal.1)

/-- Skipping by the id leaves the items from the first visible one on. -/
theorem HasLeft.skipByTrancId (h : it.HasLeft trancId items) :
  it.skipByTrancId.HasLeft trancId
    (items.dropWhile (fun item => decide (¬ item.entry.Visible trancId)))
  := by
  have hvisible : ∀ item : SearchItem, decide (¬ item.entry.Visible trancId) =
      (decide (trancId ≠ 0) && decide (trancId < item.trancId)) := by
    intro item
    rw [← Bool.decide_and, decide_eq_decide, Entry.Visible, not_or, not_le]
    exact Iff.rfl
  simp only [hvisible]
  rw [HeapIterator.skipByTrancId]
  split
  next hzero =>
    rw [h.maxTrancId_eq] at hzero
    have hall : (fun item : SearchItem => decide (trancId ≠ 0) && decide (trancId < item.trancId)) =
        fun _ => false := by
      funext item
      rw [hzero]
      rfl
    rw [hall, List.dropWhile_eq_self_iff.mpr (fun _ hfalse => Bool.false_ne_true hfalse)]
    apply h
  next hne =>
    rw [h.maxTrancId_eq] at hne ⊢
    have hid : (fun item : SearchItem => decide (trancId ≠ 0) && decide (trancId < item.trancId)) =
        fun item => decide (trancId < item.trancId) := by
      funext item
      rw [decide_eq_true hne, Bool.true_and]
    rw [hid]
    apply h.popWhile

/-- Skipping what is not legal leaves what is shown, the top being legal. -/
theorem HasLeft.skipIllegal :
  ∀ {fuel : ℕ} {it : HeapIterator} {items : List SearchItem}, it.HasLeft trancId items →
    items.length ≤ fuel →
    ∃ items', (it.skipIllegal fuel).HasLeft trancId items' ∧
      (it.skipIllegal fuel).topValueLegal = true ∧
      shown trancId false (items.map SearchItem.entry) =
        shown trancId false (items'.map SearchItem.entry)
  | 0, it, items, h, hfuel => by
      obtain rfl := List.length_eq_zero_iff.mp (Nat.le_zero.mp hfuel)
      exact ⟨[], h, h.topValueLegal_iff.mpr (fun _ hitem => nomatch hitem), rfl⟩
  | fuel + 1, it, items, h, hfuel => by
      by_cases hlegal : it.topValueLegal = true
      · rw [HeapIterator.skipIllegal, if_pos hlegal]
        exact ⟨items, h, hlegal, rfl⟩
      · have hvisible := h.skipByTrancId
        obtain ⟨items₁, hleft₁, hshown₁, hlength₁, hshorter⟩ :=
          hvisible.skipDeleted (Nat.le_of_eq hvisible.size_eq.symm)
        have hle := (List.dropWhile_sublist (l := items)
          (fun item => decide (¬ item.entry.Visible trancId))).length_le
        -- an illegal top is skipped, as not visible or as a deletion mark
        have hlt : items₁.length < items.length := by
          rw [h.topValueLegal_iff] at hlegal
          cases items with
          | nil => exact absurd (fun _ hitem => nomatch hitem) hlegal
          | cons item items =>
              by_cases hshows : item.entry.Visible trancId
              · rw [List.dropWhile_cons_of_neg (by simpa using hshows)] at hshorter
                apply hshorter item rfl
                rw [← Bool.not_eq_false]
                intro hlive
                apply hlegal
                intro other hother
                obtain rfl := Option.some.inj hother
                exact ⟨hshows, hlive⟩
              · rw [List.dropWhile_cons, if_pos (decide_eq_true hshows)] at hlength₁
                have hsub := (List.dropWhile_sublist (l := items)
                  (fun item => decide (¬ item.entry.Visible trancId))).length_le
                rw [List.length_cons]
                omega
        have hfits : items₁.length ≤ fuel := by omega
        obtain ⟨items₂, hleft₂, hlegal₂, hshown₂⟩ := hleft₁.skipIllegal hfits
        have hskips := shown_dropWhile (p := fun e => decide (¬ e.Visible trancId))
          (fun e => decide_eq_true_iff (p := ¬ e.Visible trancId)) h.sorted
        rw [List.dropWhile_map] at hskips
        rw [HeapIterator.skipIllegal, if_neg hlegal]
        dsimp only
        rw [hvisible.skipsDeleted, if_pos rfl]
        refine ⟨items₂, hleft₂, hlegal₂, ?_⟩
        rw [← hshown₂, ← hshown₁, ← hskips.2]
        exact hskips.1

/-- The iterator has the pairs of what is shown of the items left, its top being legal. -/
structure YieldsShown (trancId : TrancId) (it : HeapIterator) (ps : List (Bytes × Bytes)) :
    Prop where
  left : ∃ items, it.HasLeft trancId items ∧
    ps = (shown trancId false (items.map SearchItem.entry)).map Entry.pair
  legal : it.topValueLegal = true

theorem HasLeft.skipIllegal_yields (h : it.HasLeft trancId items) :
  (it.skipIllegal it.items.size).YieldsShown trancId
    ((shown trancId false (items.map SearchItem.entry)).map Entry.pair)
  := by
  obtain ⟨items', hleft, hlegal, hshown⟩ := h.skipIllegal (Nat.le_of_eq h.size_eq.symm)
  rw [hshown]
  exact ⟨⟨items', hleft, rfl⟩, hlegal⟩

/-- The pairs left start with that of the top, if there is one. -/
theorem YieldsShown.cases {ps : List (Bytes × Bytes)} (h : it.YieldsShown trancId ps) :
  (it.top? = none ∧ ps = []) ∨
    ∃ item items, it.top? = some item ∧ it.HasLeft trancId (item :: items) ∧
      ps = item.pair :: (shown trancId false
        (Keyed.dropKey Entry.key item.key (items.map SearchItem.entry))).map Entry.pair
  := by
  obtain ⟨items, hleft, rfl⟩ := h.left
  cases items with
  | nil =>
      refine .inl ⟨hleft.delivers, ?_⟩
      rw [List.map_nil, shown]
      rfl
  | cons item items =>
      obtain ⟨hvisible, hlive⟩ := hleft.topValueLegal_iff.mp h.legal item rfl
      refine .inr ⟨item, items, hleft.delivers.1, hleft, ?_⟩
      rw [List.map_cons, shown_of_legal hvisible hlive]
      rfl

/-- Stepping leaves the pairs of the other keys. -/
theorem YieldsShown.next {p : Bytes × Bytes} {ps : List (Bytes × Bytes)}
    (h : it.YieldsShown trancId (p :: ps)) :
  it.next.YieldsShown trancId ps
  := by
  rcases h.cases with ⟨-, hnil⟩ | ⟨item, items, htop, hleft, hcons⟩
  · cases hnil
  · obtain ⟨-, rfl⟩ := List.cons.inj hcons
    have hpop : it.pop.HasLeft trancId items :=
      { maxTrancId_eq := hleft.maxTrancId_eq
        skipsDeleted := hleft.skipsDeleted
        firstVersions := hleft.firstVersions
        delivers := hleft.delivers.2
        sorted := (List.pairwise_cons.mp hleft.sorted).2 }
    rw [HeapIterator.next, htop]
    dsimp only
    rw [hleft.firstVersions, if_neg Bool.false_ne_true, ← map_entry_dropKey]
    apply (hpop.popWhile _).skipIllegal_yields

/-- The iterator of a snapshot delivers the pairs it has left. -/
theorem yields_yieldsShown (trancId : TrancId) :
  BaseIterator.Yields (YieldsShown trancId)
  := by
  have hend : ∀ {it : HeapIterator} {ps : List (Bytes × Bytes)}, it.YieldsShown trancId ps →
      it.isEnd = ps.isEmpty := by
    intro it ps h
    rw [isEnd_eq]
    rcases h.cases with ⟨htop, rfl⟩ | ⟨item, items, htop, -, rfl⟩
    · rw [htop]
      rfl
    · rw [htop]
      rfl
  constructor
  · exact hend
  · exact fun h => congrArg not (hend h)
  · intro it p ps h
    rcases h.cases with ⟨-, hnil⟩ | ⟨item, items, htop, -, hcons⟩
    · cases hnil
    · obtain ⟨rfl, -⟩ := List.cons.inj hcons
      refine ⟨it, ?_, h⟩
      change it.deref.map (·, it) = _
      rw [deref, htop]
      rfl
  · exact fun h => ⟨_, rfl, h.next⟩

end HeapIterator

/-! ### Items of one level -/

/-- The order of versions on items. -/
def SearchItem.VersionLe (a b : SearchItem) : Prop :=
  a.key < b.key ∨ a.key = b.key ∧ b.trancId ≤ a.trancId

instance : Std.Refl SearchItem.VersionLe := ⟨fun _ => .inr ⟨rfl, le_refl _⟩⟩

instance : IsTrans SearchItem SearchItem.VersionLe where
  trans := by
    rintro a b c (hab | ⟨hab, hle⟩) (hbc | ⟨hbc, hle'⟩)
    · exact .inl (lt_trans hab hbc)
    · exact .inl (hbc ▸ hab)
    · exact .inl (hab ▸ hbc)
    · exact .inr ⟨hab.trans hbc, le_trans hle' hle⟩

/-- The comparison of items of one level whose indices agree with their ids. -/
def SearchItem.versionGt (a b : SearchItem) : Bool :=
  if a.key ≠ b.key then b.key < a.key else a.trancId < b.trancId

theorem SearchItem.versionLe_of_versionGt {a b : SearchItem} (h : a.versionGt b = true) :
  b.VersionLe a
  := by
  rw [versionGt] at h
  split at h
  next => exact .inl (of_decide_eq_true h)
  next hkey => exact .inr ⟨(not_not.mp hkey).symm, le_of_lt (of_decide_eq_true h)⟩

theorem SearchItem.versionLe_of_not_versionGt {a b : SearchItem} (h : a.versionGt b = false) :
  a.VersionLe b
  := by
  rw [versionGt] at h
  split at h
  next hkey => exact .inl (lt_of_le_of_ne (le_of_not_gt (of_decide_eq_false h)) hkey)
  next hkey => exact .inr ⟨not_not.mp hkey, le_of_not_gt (of_decide_eq_false h)⟩

/-- Items of one level, of which no two have the same key and id, and of those of a key none
with a greater id has a greater index. -/
structure OneLevel (items : List SearchItem) : Prop where
  distinct : (items.map (fun a => (a.key, a.trancId))).Nodup
  level : ∀ a ∈ items, ∀ b ∈ items, a.level = b.level
  idx : ∀ a ∈ items, ∀ b ∈ items, a.key = b.key → b.trancId < a.trancId → a.idx ≤ b.idx

namespace OneLevel

variable {items : List SearchItem} (h : OneLevel items)

include h

theorem eq_of_key_of_trancId {a b : SearchItem} (ha : a ∈ items) (hb : b ∈ items)
    (hkey : a.key = b.key) (hid : a.trancId = b.trancId) :
  a = b
  := List.inj_on_of_nodup_map h.distinct ha hb (Prod.ext hkey hid)

theorem gt_eq_versionGt (a b : SearchItem) (ha : a ∈ items) (hb : b ∈ items) :
  a.gt b = a.versionGt b
  := by
  rw [SearchItem.gt, SearchItem.versionGt]
  split
  next => rfl
  next hkey =>
    split
    next hlt => exact (decide_eq_true hlt).symm
    next hge =>
      rw [h.level a ha b hb, if_neg (lt_irrefl b.level), decide_eq_false hge,
        decide_eq_false_iff_not, not_lt]
      rcases Nat.lt_or_eq_of_le (Nat.le_of_not_lt hge) with hlt | heq
      · exact h.idx a ha b hb (not_not.mp hkey) hlt
      · rw [h.eq_of_key_of_trancId ha hb (not_not.mp hkey) heq.symm]

theorem distinctIds : DistinctIds (items.map SearchItem.entry)
  := by
  intro e he e' he' hkey hid
  obtain ⟨a, ha, rfl⟩ := List.mem_map.mp he
  obtain ⟨b, hb, rfl⟩ := List.mem_map.mp he'
  rw [h.eq_of_key_of_trancId ha hb hkey hid]

end OneLevel

theorem shadowed_congr {trancId : TrancId} {es es' : List Entry} (h : es.Perm es') :
  Shadowed trancId es ↔ Shadowed trancId es'
  := by
  have hvisible : (visibleIn trancId es).Perm (visibleIn trancId es') := h.filter _
  simp only [Shadowed, newest_congr h, newest_congr hvisible]

namespace HeapIterator

/-- The iterator over items of one level shows what is shown of them in the order of versions. -/
theorem ofItems_yieldsShown {items : List SearchItem} (h : OneLevel items) (trancId : TrancId) :
  ∃ es, es.Perm (items.map SearchItem.entry) ∧ Versioned es ∧
    (ofItems items trancId).YieldsShown trancId ((shown trancId false es).map Entry.pair)
  := by
  obtain ⟨ordered, hdel, hperm, hpairwise⟩ := BinaryHeap.exists_delivers_foldl_push
    (fun _ _ => SearchItem.versionLe_of_versionGt)
    (fun _ _ => SearchItem.versionLe_of_not_versionGt) h.gt_eq_versionGt
  have hversioned : Versioned (ordered.map SearchItem.entry) := List.pairwise_map.mpr hpairwise
  refine ⟨_, hperm.map SearchItem.entry, hversioned, ?_⟩
  rw [ofItems, foldl_emplace]
  apply HasLeft.skipIllegal_yields
  exact
    { maxTrancId_eq := rfl
      skipsDeleted := rfl
      firstVersions := rfl
      delivers := hdel
      sorted := hversioned.sorted }

/-- Iterating shows the newest visible versions that are not deletion marks if and only if no
deletion mark that is not visible shadows one of them. -/
theorem snapshotView_iff {items : List SearchItem} (h : OneLevel items) (trancId : TrancId) :
  ∃ ps, BaseIterator.drainPairs (items.length + 1) (ofItems items trancId) = .ok ps ∧
    ((∃ out, NewestVersions (visibleIn trancId (items.map SearchItem.entry)) out ∧
        ps = (live out).map Entry.pair) ↔
      ¬ Shadowed trancId (items.map SearchItem.entry))
  := by
  obtain ⟨es, hperm, hversioned, hyields⟩ := ofItems_yieldsShown h trancId
  have hids : DistinctIds es := fun e he e' he' =>
    h.distinctIds e (hperm.mem_iff.mp he) e' (hperm.mem_iff.mp he')
  have hsub := shown_sublist trancId false hversioned.sorted
  have hvisible : (visibleIn trancId es).Perm (visibleIn trancId (items.map SearchItem.entry)) :=
    hperm.filter _
  have hnewest := (hversioned.visibleIn trancId).newestVersions
  refine ⟨(shown trancId false es).map Entry.pair, ?_, ?_⟩
  · apply Cursor.drain_of_tracks (yields_yieldsShown trancId).tracks _ hyields
    have hle := (hsub.trans (List.filter_sublist.trans
      ((Keyed.firsts_sublist _).trans List.filter_sublist))).length_le
    rw [hperm.length_eq, List.length_map] at hle
    rw [List.length_map]
    exact Nat.lt_succ_of_le hle
  · rw [← shadowed_congr hperm, ← loses_iff hversioned hids,
      ← shown_eq_iff trancId false hversioned.sorted]
    constructor
    · rintro ⟨out, hout, hps⟩
      have hsame := NewestVersions.unique (hids.visibleIn trancId)
        ((newestVersions_congr hvisible).mpr hout) hnewest
      rw [hsame] at hps
      apply hsub.eq_of_length
      have hlength := congrArg List.length hps
      rw [List.length_map, List.length_map] at hlength
      apply hlength
    · intro hshown
      rw [hshown]
      exact ⟨_, (newestVersions_congr hvisible).mp hnewest, rfl⟩

/-- A key deleted before the snapshot, and one after it that has been deleted since. -/
def deletedSince : List SearchItem :=
  [⟨[1], [], 0, 0, 1⟩, ⟨[2], [7], 0, 0, 1⟩, ⟨[2], [], 0, 0, 3⟩]

theorem oneLevel_deletedSince : OneLevel deletedSince
  where
  distinct := by decide
  level := by decide
  idx := by decide

theorem snapshotView_iff_deletedSince :
  ∃ ps, BaseIterator.drainPairs (deletedSince.length + 1) (ofItems deletedSince 3) = .ok ps ∧
    ((∃ out, NewestVersions (visibleIn 3 (deletedSince.map SearchItem.entry)) out ∧
        ps = (live out).map Entry.pair) ↔
      ¬ Shadowed 3 (deletedSince.map SearchItem.entry))
  := snapshotView_iff oneLevel_deletedSince 3

/-- The version of a key that has been deleted since is not shown after a deleted key. -/
theorem not_snapshotView :
  ¬ ∀ items : List SearchItem, OneLevel items → ∀ trancId, ∃ out,
    NewestVersions (visibleIn trancId (items.map SearchItem.entry)) out ∧
      BaseIterator.drainPairs (items.length + 1) (ofItems items trancId) =
        .ok ((live out).map Entry.pair)
  := by
  intro h
  obtain ⟨out, hout, hdrain⟩ := h deletedSince oneLevel_deletedSince 2
  have hnone : BaseIterator.drainPairs (deletedSince.length + 1) (ofItems deletedSince 2) =
      .ok [] := by decide
  have hdead : live out = [] := List.map_eq_nil_iff.mp (Except.ok.inj (hdrain.symm.trans hnone))
  obtain ⟨e, he, hkey⟩ := hout.complete ⟨[2], [7], 1⟩ (by decide)
  have hvisible := (hout.newest e he).1
  have hvalue : ∀ e' ∈ visibleIn 2 (deletedSince.map SearchItem.entry), e'.key = [2] →
      e'.dead = false := by decide
  have hmem : e ∈ live out := List.mem_filter.mpr ⟨he, by rw [hvalue e hvisible hkey]; rfl⟩
  rw [hdead] at hmem
  cases hmem

end HeapIterator

end TinyLsm
