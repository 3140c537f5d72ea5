import TinyLsm.Basic
import TinyLsm.Library.Firsts

/-!
# Newest versions

The newest versions of the keys among some versions, in the order of the keys.  At a snapshot
they are those of the visible versions.  Of versions ordered by their keys and, from the greatest
on, by their ids, they are the first ones of the keys.
-/

namespace TinyLsm

/-- The visible ones of versions. -/
def visibleIn (trancId : TrancId) (es : List Entry) : List Entry :=
  es.filter (fun e => decide (e.Visible trancId))

/-- No version of the key has a greater id. -/
def NewestIn (es : List Entry) (e : Entry) : Prop :=
  e ∈ es ∧ ∀ e' ∈ es, e'.key = e.key → e'.trancId ≤ e.trancId

/-- The versions `out` are newest ones, one for each key, in the order of the keys. -/
structure NewestVersions (es out : List Entry) : Prop where
  ascending : Keyed.Ascending Entry.key out
  newest : ∀ e ∈ out, NewestIn es e
  complete : ∀ e ∈ es, ∃ e' ∈ out, e'.key = e.key

/-- The keys ascend, and the ids of a key descend. -/
def Versioned (es : List Entry) : Prop :=
  es.Pairwise (fun e e' => e.key < e'.key ∨ e.key = e'.key ∧ e'.trancId ≤ e.trancId)

theorem mem_visibleIn {trancId : TrancId} {es : List Entry} {e : Entry} :
  e ∈ visibleIn trancId es ↔ e ∈ es ∧ e.Visible trancId
  := by
  rw [visibleIn, List.mem_filter, decide_eq_true_iff]

theorem visibleIn_append (trancId : TrancId) (es es' : List Entry) :
  visibleIn trancId (es ++ es') = visibleIn trancId es ++ visibleIn trancId es'
  := List.filter_append ..

theorem visibleIn_cons_of_visible {trancId : TrancId} {e : Entry} (h : e.Visible trancId)
    (es : List Entry) :
  visibleIn trancId (e :: es) = e :: visibleIn trancId es
  := List.filter_cons_of_pos (decide_eq_true h)

theorem visibleIn_cons_of_not_visible {trancId : TrancId} {e : Entry} (h : ¬ e.Visible trancId)
    (es : List Entry) :
  visibleIn trancId (e :: es) = visibleIn trancId es
  := List.filter_cons_of_neg (by simpa using h)

/-- What is skipped up to a visible version is not visible. -/
theorem visibleIn_dropWhile {trancId : TrancId} {p : Entry → Bool}
    (h : ∀ e, p e = true ↔ ¬ e.Visible trancId) :
  ∀ es : List Entry, visibleIn trancId (es.dropWhile p) = visibleIn trancId es
  | [] => rfl
  | e :: es => by
      by_cases hvisible : e.Visible trancId
      · rw [List.dropWhile_cons_of_neg (fun hp => (h e).mp hp hvisible)]
      · rw [List.dropWhile_cons_of_pos ((h e).mpr hvisible), visibleIn_dropWhile h es,
          visibleIn_cons_of_not_visible hvisible]

/-- The version at which skipping stops is visible. -/
theorem visible_of_dropWhile {trancId : TrancId} {p : Entry → Bool}
    (h : ∀ e, p e = true ↔ ¬ e.Visible trancId) {e : Entry} {es es' : List Entry}
    (hdrop : es'.dropWhile p = e :: es) :
  e.Visible trancId
  := by
  have hhead : p e = false := by
    have hnot := List.head_dropWhile_not p (l := es') (by simp [hdrop])
    simpa only [hdrop, List.head_cons] using hnot
  by_contra hvisible
  rw [(h e).mpr hvisible] at hhead
  cases hhead

/-! ### Versions in order -/

namespace Versioned

variable {es : List Entry}

theorem sorted (h : Versioned es) : Keyed.Sorted Entry.key es
  := by
  apply h.imp
  intro e e' hle
  rcases hle with hlt | ⟨heq, -⟩
  · apply hlt.le
  · exact heq.le

theorem visibleIn (h : Versioned es) (trancId : TrancId) : Versioned (visibleIn trancId es)
  := h.sublist List.filter_sublist

/-- The first version of a key is the newest one. -/
theorem newest_of_firstOf (h : Versioned es) {key : Bytes} {e : Entry}
    (hfirst : Keyed.firstOf Entry.key key es = some e) :
  NewestIn es e
  := by
  obtain ⟨hmem, rfl⟩ := Keyed.firstOf_eq_some hfirst
  have hid : es.Pairwise (fun e e' => e.key = e'.key → e'.trancId ≤ e.trancId) := by
    apply h.imp
    rintro e e' (hlt | ⟨-, hle⟩) hkey
    · exact absurd hkey hlt.ne
    · apply hle
  use hmem
  intro e' he' hkey
  rcases Keyed.firstOf_related hid hfirst e' he' hkey with rfl | hle
  · apply le_rfl
  · apply hle

/-- The first versions of the keys are the newest ones. -/
theorem newestVersions (h : Versioned es) :
  NewestVersions es (Keyed.firsts Entry.key es)
  := by
  have hascending := Keyed.Sorted.firsts h.sorted
  have hfirst : ∀ e, e ∈ Keyed.firsts Entry.key es ↔ Keyed.firstOf Entry.key e.key es = some e := by
    intro e
    rw [hascending.mem_iff, Keyed.firstOf_firsts]
  refine ⟨hascending, fun e he => h.newest_of_firstOf ((hfirst e).mp he), ?_⟩
  intro e he
  cases hfirstOf : Keyed.firstOf Entry.key e.key es with
  | none => exact absurd rfl (Keyed.firstOf_eq_none.mp hfirstOf e he)
  | some e' =>
      have hkey := (Keyed.firstOf_eq_some hfirstOf).2
      refine ⟨e', (hfirst e').mpr ?_, hkey⟩
      rw [hkey, hfirstOf]

end Versioned

/-- No two versions of a key have the same id. -/
def DistinctIds (es : List Entry) : Prop :=
  ∀ e ∈ es, ∀ e' ∈ es, e.key = e'.key → e.trancId = e'.trancId → e = e'

/-- In order, the newest version of a key is the first one. -/
theorem newest_iff {es : List Entry} (h : Versioned es) (hids : DistinctIds es) {e : Entry} :
  NewestIn es e ↔ Keyed.firstOf Entry.key e.key es = some e
  := by
  constructor
  · rintro ⟨hmem, hnewest⟩
    cases hfirst : Keyed.firstOf Entry.key e.key es with
    | none => exact absurd rfl (Keyed.firstOf_eq_none.mp hfirst e hmem)
    | some e' =>
        obtain ⟨hmem', hkey⟩ := Keyed.firstOf_eq_some hfirst
        have hle := (h.newest_of_firstOf hfirst).2 e hmem hkey.symm
        rw [hids e' hmem' e hmem hkey (le_antisymm (hnewest e' hmem' hkey) hle)]
  · apply h.newest_of_firstOf

theorem DistinctIds.visibleIn {es : List Entry} (h : DistinctIds es) (trancId : TrancId) :
  DistinctIds (visibleIn trancId es)
  := fun e he e' he' => h e (mem_visibleIn.mp he).1 e' (mem_visibleIn.mp he').1

/-! ### Newest versions -/

/-- The same versions in another order have the same newest ones. -/
theorem newest_congr {es es' : List Entry} (h : es.Perm es') {e : Entry} :
  NewestIn es e ↔ NewestIn es' e
  := by
  simp only [NewestIn, h.mem_iff]

theorem newestVersions_congr {es es' out : List Entry} (h : es.Perm es') :
  NewestVersions es out ↔ NewestVersions es' out
  := by
  constructor
  · rintro ⟨hascending, hnewest, hcomplete⟩
    exact ⟨hascending, fun e he => (newest_congr h).mp (hnewest e he),
      fun e he => hcomplete e (h.mem_iff.mpr he)⟩
  · rintro ⟨hascending, hnewest, hcomplete⟩
    exact ⟨hascending, fun e he => (newest_congr h).mpr (hnewest e he),
      fun e he => hcomplete e (h.mem_iff.mp he)⟩

namespace NewestVersions

variable {es es' out out' : List Entry}

theorem nil : NewestVersions [] []
  where
  ascending := .nil
  newest _ he := nomatch he
  complete _ he := nomatch he

/-- Versions of greater keys come after. -/
theorem append (h : NewestVersions es out) (h' : NewestVersions es' out')
    (hlt : ∀ e ∈ es, ∀ e' ∈ es', e.key < e'.key) :
  NewestVersions (es ++ es') (out ++ out')
  where
  ascending := by
    apply List.pairwise_append.mpr ⟨h.ascending, h'.ascending, _⟩
    intro e he e' he'
    exact hlt e (h.newest e he).1 e' (h'.newest e' he').1
  newest := by
    intro e he
    rcases List.mem_append.mp he with he | he
    · obtain ⟨hmem, hnewest⟩ := h.newest e he
      refine ⟨List.mem_append_left es' hmem, ?_⟩
      intro e' he' hkey
      rcases List.mem_append.mp he' with he' | he'
      · exact hnewest e' he' hkey
      · exact absurd hkey (hlt e hmem e' he').ne'
    · obtain ⟨hmem, hnewest⟩ := h'.newest e he
      refine ⟨List.mem_append_right es hmem, ?_⟩
      intro e' he' hkey
      rcases List.mem_append.mp he' with he' | he'
      · exact absurd hkey (hlt e' he' e hmem).ne
      · exact hnewest e' he' hkey
  complete := by
    intro e he
    rcases List.mem_append.mp he with he | he
    · obtain ⟨e', he', hkey⟩ := h.complete e he
      exact ⟨e', List.mem_append_left out' he', hkey⟩
    · obtain ⟨e', he', hkey⟩ := h'.complete e he
      exact ⟨e', List.mem_append_right out he', hkey⟩

/-- There is one list of newest versions, if no two versions of a key have the same id. -/
theorem unique (hids : DistinctIds es)
    (h : NewestVersions es out) (h' : NewestVersions es out') :
  out = out'
  := by
  have hsub : ∀ {xs ys : List Entry}, NewestVersions es xs → NewestVersions es ys → xs ⊆ ys := by
    intro xs ys hxs hys e he
    obtain ⟨hmem, hnewest⟩ := hxs.newest e he
    obtain ⟨e', he', hkey⟩ := hys.complete e hmem
    obtain ⟨hmem', hnewest'⟩ := hys.newest e' he'
    have hid := le_antisymm (hnewest' e hmem hkey.symm) (hnewest e' hmem' hkey)
    rwa [hids e hmem e' hmem' hkey.symm hid]
  have hnodup : ∀ {xs : List Entry}, NewestVersions es xs → xs.Nodup := fun hxs =>
    hxs.ascending.imp (fun hlt heq => hlt.ne (congrArg Entry.key heq))
  have hperm : out.Perm out' :=
    (List.subperm_of_subset (hnodup h) (hsub h h')).antisymm
      (List.subperm_of_subset (hnodup h') (hsub h' h))
  apply hperm.eq_of_pairwise _ h.ascending h'.ascending
  intro e e' _ _ hlt hlt'
  exact absurd hlt' (lt_asymm hlt)

end NewestVersions

end TinyLsm
