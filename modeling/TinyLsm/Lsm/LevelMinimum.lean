import TinyLsm.Lsm.LevelTables

/-!
# The minimum of the sources

The loop of `get_min_key_idx` takes the empty key for one that it has not found yet.  So a source at
the empty key, which is the key of the marks of commits, is found, but is given up for any source
that is valid after it.

The loop selects the least key, and the first source that is at it where all sources report the
same id, if no source is at the empty key, or if the last valid one is, and no other one where all
report the same id: `selectsLeast_iff`.
-/

namespace TinyLsm

open BaseIterator

/-! ### Reading sources twice -/

/-- An iterator that has been dereferenced gives the same pair again, and is as valid and reports
the same id as before. -/
def BaseIterator.Steady (ι : Type) [BaseIterator ι] : Prop :=
  ∀ {it it' : ι} {raw : Bytes × Bytes}, deref it = .ok (raw, it') →
    deref it' = .ok (raw, it') ∧ isValid it' = isValid it ∧ getTrancId it' = getTrancId it

namespace BlockIterator

theorem updateCurrent_of_cached {it : BlockIterator} {raw : Bytes × Bytes}
    (h : it.cachedValue = some raw) :
  it.updateCurrent = it
  := by
  rw [updateCurrent, h]

/-- Filling the cache changes nothing else. -/
theorem updateCurrent_eq {it : BlockIterator} {raw : Bytes × Bytes}
    (h : it.updateCurrent.cachedValue = some raw) :
  it.updateCurrent = { it with cachedValue := some raw }
  := by
  cases hcached : it.cachedValue with
  | some v =>
      rw [updateCurrent_of_cached hcached] at h ⊢
      rw [← h]
  | none =>
      rw [updateCurrent, hcached] at h ⊢
      split at h
      next e _ he =>
        obtain rfl := Option.some.inj h
        rfl
      next => cases hcached.symm.trans h

theorem deref_eq_ok_iff {it it' : BlockIterator} {raw : Bytes × Bytes} :
  it.deref = .ok (raw, it') ↔
    it.currentIndex < it.block.size ∧ it.updateCurrent.cachedValue = some raw ∧
      it' = it.updateCurrent
  := by
  rw [deref]
  split
  next hle => exact ⟨by rintro ⟨⟩, fun h => absurd h.1 (Nat.not_lt_of_le hle)⟩
  next hlt =>
    rw [and_iff_right (Nat.lt_of_not_le hlt)]
    split
    next v hv =>
      rw [hv]
      constructor
      · intro h
        obtain ⟨rfl, rfl⟩ := Prod.mk.inj (Except.ok.inj h)
        exact ⟨rfl, rfl⟩
      · rintro ⟨hv', rfl⟩
        rw [Option.some.inj hv']
    next hv =>
      rw [hv]
      exact ⟨by rintro ⟨⟩, by rintro ⟨⟨⟩, -⟩⟩

/-- Dereferencing fills the cache, and has done so the next time. -/
theorem deref_again {it it' : BlockIterator} {raw : Bytes × Bytes} (h : it.deref = .ok (raw, it')) :
  it' = { it with cachedValue := some raw } ∧ it'.deref = .ok (raw, it')
  := by
  obtain ⟨hlt, hraw, rfl⟩ := deref_eq_ok_iff.mp h
  have hfilled := updateCurrent_eq hraw
  refine ⟨hfilled, deref_eq_ok_iff.mpr ?_⟩
  rw [updateCurrent_of_cached hraw]
  refine ⟨?_, hraw, rfl⟩
  rw [hfilled]
  apply hlt

end BlockIterator

theorem HeapIterator.steady : Steady HeapIterator
  := by
  intro it it' raw h
  cases hderef : it.deref with
  | error e =>
      change it.deref.map (·, it) = .ok (raw, it') at h
      rw [hderef] at h
      cases h
  | ok raw' =>
      have hsame : it = it' := by
        change it.deref.map (·, it) = .ok (raw, it') at h
        rw [hderef] at h
        exact (Prod.mk.inj (Except.ok.inj h)).2
      subst hsame
      exact ⟨h, rfl, rfl⟩

/-- Dereferencing fills the cache of the iterator over the block. -/
theorem SstIterator.deref_again {it it' : SstIterator} {raw : Bytes × Bytes}
    (h : it.deref = .ok (raw, it')) :
  it'.deref = .ok (raw, it') ∧ it'.isEnd = it.isEnd ∧ it'.isValid = it.isValid ∧
    it'.getTrancId = it.getTrancId
  := by
  rw [deref] at h
  split at h
  next => cases h
  next => cases h
  next blockIt sst hblockIt hsst =>
    obtain ⟨⟨stored, blockIt'⟩, hblock, h⟩ := Except.exists_of_bind_eq_ok h
    obtain ⟨value, hvalue, h⟩ := Except.exists_of_bind_eq_ok h
    obtain ⟨rfl, rfl⟩ := Prod.mk.inj (Except.ok.inj h)
    obtain ⟨rfl, hagain⟩ := BlockIterator.deref_again hblock
    refine ⟨?_, ?_, ?_, ?_⟩
    · rw [deref]
      dsimp only
      rw [hsst]
      dsimp only
      rw [Except.bind_eq_of_ok _ hagain, Except.bind_eq_of_ok _ hvalue]
      rfl
    · rw [isEnd, isEnd, hblockIt]
      rfl
    · rw [isValid, isValid, hblockIt, hsst]
      rfl
    · rw [getTrancId, getTrancId, hblockIt]
      rfl

theorem ConcactIterator.steady : Steady ConcactIterator
  := by
  intro it it' raw h
  obtain ⟨⟨raw', curIter⟩, hderef, h⟩ := Except.exists_of_bind_eq_ok h
  obtain ⟨rfl, rfl⟩ := Prod.mk.inj (Except.ok.inj h)
  obtain ⟨hagain, hend, hvalid, hid⟩ := SstIterator.deref_again hderef
  refine ⟨Except.bind_eq_of_ok _ hagain, ?_, ?_⟩
  · change (!curIter.isEnd && curIter.isValid) = (!it.curIter.isEnd && it.curIter.isValid)
    rw [hend, hvalid]
  · change (if _ then curIter.getTrancId else _) = (if _ then it.curIter.getTrancId else _)
    rw [hid]

theorem LevelSource.steady : Steady LevelSource
  := by
  intro it it' raw h
  cases it with
  | heap it =>
      obtain ⟨⟨raw', source⟩, hderef, h⟩ := Except.exists_of_bind_eq_ok h
      obtain ⟨rfl, rfl⟩ := Prod.mk.inj (Except.ok.inj h)
      obtain ⟨hagain, hvalid, hid⟩ := HeapIterator.steady hderef
      exact ⟨Except.bind_eq_of_ok _ hagain, hvalid, hid⟩
  | concact it =>
      obtain ⟨⟨raw', source⟩, hderef, h⟩ := Except.exists_of_bind_eq_ok h
      obtain ⟨rfl, rfl⟩ := Prod.mk.inj (Except.ok.inj h)
      obtain ⟨hagain, hvalid, hid⟩ := ConcactIterator.steady hderef
      exact ⟨Except.bind_eq_of_ok _ hagain, hvalid, hid⟩

namespace LevelIterator

/-! ### What sources report -/

/-- The key a source is at, and the id it reports. -/
abbrev Reading := Bytes × TrancId

/-- What a source reports, if it is valid. -/
def reading {ι : Type} [BaseIterator ι] (source : ι) : Option Reading :=
  if BaseIterator.isValid source then
    match BaseIterator.deref source with
    | .ok (raw, _) => some (raw.1, BaseIterator.getTrancId source)
    | .error _ => none
  else
    none

/-- The valid sources can be dereferenced. -/
def Readable {ι : Type} [BaseIterator ι] (sources : List ι) : Prop :=
  ∀ source ∈ sources, BaseIterator.isValid source = true →
    ∃ raw source', BaseIterator.deref source = .ok (raw, source')

/-- The source with an index is valid and at a key. -/
def At (readings : List (Option Reading)) (i : ℕ) (key : Bytes) : Prop :=
  ∃ trancId, readings[i]? = some (some (key, trancId))

/-- The valid sources report the same id. -/
def SameIds (readings : List (Option Reading)) : Prop :=
  ∀ r r', some r ∈ readings → some r' ∈ readings → r.2 = r'.2

/-- The index and the key are those of a source that is at the least key, and the index is the least
of such sources if all report the same id. -/
structure Selected (readings : List (Option Reading)) (minIdx : ℕ) (minKey : Bytes) : Prop where
  at_key : At readings minIdx minKey
  least : ∀ i key, At readings i key → minKey ≤ key
  first : SameIds readings → ∀ i, At readings i minKey → minIdx ≤ i

/-- If a source is at the empty key, then the last valid one is, and no other one, if all report the
same id. -/
def EmptyKeyLast (readings : List (Option Reading)) : Prop :=
  (∃ i, At readings i []) → ∃ last, At readings last [] ∧
    (∀ i key, At readings i key → i ≤ last) ∧
    (SameIds readings → ∀ i, At readings i [] → i = last)

variable {readings : List (Option Reading)}

theorem at_concat_none {i : ℕ} {key : Bytes} : At (readings ++ [none]) i key ↔ At readings i key
  := by
  apply exists_congr
  intro trancId
  rw [List.getElem?_append]
  split
  next => exact Iff.rfl
  next hge =>
    rw [List.getElem?_eq_none (Nat.le_of_not_lt hge)]
    cases i - readings.length with
    | zero => exact iff_of_false nofun nofun
    | succ j => exact iff_of_false nofun nofun

theorem at_concat_some {r : Reading} {i : ℕ} {key : Bytes} :
  At (readings ++ [some r]) i key ↔ At readings i key ∨ i = readings.length ∧ key = r.1
  := by
  constructor
  · rintro ⟨trancId, h⟩
    rw [List.getElem?_append] at h
    split at h
    next => exact .inl ⟨trancId, h⟩
    next hge =>
      obtain ⟨hlt, -⟩ := List.getElem?_eq_some_iff.mp h
      obtain hzero : i - readings.length = 0 := Nat.lt_one_iff.mp hlt
      rw [hzero] at h
      obtain rfl := Option.some.inj (Option.some.inj h)
      exact .inr ⟨le_antisymm (Nat.sub_eq_zero_iff_le.mp hzero) (Nat.le_of_not_lt hge), rfl⟩
  · rintro (⟨trancId, h⟩ | ⟨rfl, rfl⟩)
    · obtain ⟨hlt, -⟩ := List.getElem?_eq_some_iff.mp h
      exact ⟨trancId, (List.getElem?_append_left hlt).trans h⟩
    · exact ⟨r.2, List.getElem?_concat_length⟩

theorem nil_le_key (key : Bytes) : [] ≤ key
  := le_of_not_gt (List.not_lt_nil key)

theorem At.lt_length {i : ℕ} {key : Bytes} (h : At readings i key) : i < readings.length
  := by
  obtain ⟨_, h⟩ := h
  exact (List.getElem?_eq_some_iff.mp h).1

theorem SameIds.of_concat {r : Option Reading} (h : SameIds (readings ++ [r])) : SameIds readings
  := fun r₁ r₂ h₁ h₂ => h r₁ r₂ (List.mem_append_left _ h₁) (List.mem_append_left _ h₂)

/-! ### The loop on what the sources report -/

/-- The best source so far, and its key: there is none yet; it is the last valid one so far, and at
the empty key; or it is at another key, the last valid source so far is not at the empty key, and it
is selected if no source so far is at the empty key. -/
inductive Best (readings : List (Option Reading)) : ℕ → Bytes → Prop
  | none (minIdx : ℕ) (h : ∀ i key, ¬ At readings i key) : Best readings minIdx []
  | empty {minIdx : ℕ} (h : At readings minIdx [])
      (hlast : ∀ i key, At readings i key → i ≤ minIdx) : Best readings minIdx []
  | key {minIdx : ℕ} {minKey : Bytes} (hne : minKey ≠ []) (h : At readings minIdx minKey)
      (hlast : ∀ i, At readings i [] → ∃ j key, At readings j key ∧ i < j)
      (hselected : (∀ i, ¬ At readings i []) → Selected readings minIdx minKey) :
      Best readings minIdx minKey

theorem Selected.concat_none {minIdx : ℕ} {minKey : Bytes} (h : Selected readings minIdx minKey) :
  Selected (readings ++ [none]) minIdx minKey
  where
  at_key := at_concat_none.mpr h.at_key
  least i key hi := h.least i key (at_concat_none.mp hi)
  first hsame i hi := h.first hsame.of_concat i (at_concat_none.mp hi)

/-- A source that is not valid is passed over. -/
theorem Best.concat_none {minIdx : ℕ} {minKey : Bytes} (h : Best readings minIdx minKey) :
  Best (readings ++ [.none]) minIdx minKey
  := by
  cases h with
  | none h => exact .none minIdx (fun i key hi => h i key (at_concat_none.mp hi))
  | empty h hlast =>
      exact .empty (at_concat_none.mpr h) (fun i key hi => hlast i key (at_concat_none.mp hi))
  | key hne h hlast hselected =>
      refine .key hne (at_concat_none.mpr h) ?_ ?_
      · intro i hi
        obtain ⟨j, key, hj, hlt⟩ := hlast i (at_concat_none.mp hi)
        exact ⟨j, key, at_concat_none.mpr hj, hlt⟩
      · intro hnone
        exact (hselected (fun i hi => hnone i (at_concat_none.mpr hi))).concat_none

/-- A source whose key is less than those so far, if none of these is empty. -/
theorem Best.concat_less {r : Reading}
    (h : (∀ i, ¬ At readings i []) → ∀ i key, At readings i key → r.1 < key) :
  Best (readings ++ [some r]) readings.length r.1
  := by
  have hnew : At (readings ++ [some r]) readings.length r.1 := at_concat_some.mpr (.inr ⟨rfl, rfl⟩)
  by_cases hne : r.1 = []
  · rw [hne] at hnew ⊢
    refine .empty hnew ?_
    intro i key hi
    have hlt := hi.lt_length
    rw [List.length_append, List.length_singleton] at hlt
    exact Nat.le_of_lt_succ hlt
  · refine .key hne hnew ?_ ?_
    · intro i hi
      rcases at_concat_some.mp hi with hi | ⟨-, hempty⟩
      · exact ⟨readings.length, r.1, hnew, hi.lt_length⟩
      · exact absurd hempty.symm hne
    · intro hnone
      have hless := h (fun i hi => hnone i (at_concat_some.mpr (.inl hi)))
      refine ⟨hnew, ?_, ?_⟩
      · intro i key hi
        rcases at_concat_some.mp hi with hi | ⟨-, rfl⟩
        · exact (hless i key hi).le
        · apply le_rfl
      · intro _ i hi
        rcases at_concat_some.mp hi with hi | ⟨rfl, -⟩
        · exact absurd (hless i r.1 hi) (lt_irrefl r.1)
        · apply le_rfl

/-- A source whose key is not less than the best one. -/
theorem Best.concat_ge {minIdx : ℕ} {minKey : Bytes} (h : Best readings minIdx minKey)
    (hne : minKey ≠ []) {r : Reading} (hle : minKey ≤ r.1) :
  Best (readings ++ [some r]) minIdx minKey
  := by
  cases h with
  | none => exact absurd rfl hne
  | empty => exact absurd rfl hne
  | key _ h hlast hselected =>
      refine .key hne (at_concat_some.mpr (.inl h)) ?_ ?_
      · intro i hi
        rcases at_concat_some.mp hi with hi | ⟨-, hempty⟩
        · obtain ⟨j, key, hj, hlt⟩ := hlast i hi
          exact ⟨j, key, at_concat_some.mpr (.inl hj), hlt⟩
        · rw [← hempty] at hle
          exact absurd (le_antisymm hle (nil_le_key minKey)) hne
      · intro hnone
        have hold := hselected (fun i hi => hnone i (at_concat_some.mpr (.inl hi)))
        refine ⟨at_concat_some.mpr (.inl hold.at_key), ?_, ?_⟩
        · intro i key hi
          rcases at_concat_some.mp hi with hi | ⟨-, rfl⟩
          · exact hold.least i key hi
          · exact hle
        · intro hsame i hi
          rcases at_concat_some.mp hi with hi | ⟨rfl, -⟩
          · exact hold.first hsame.of_concat i hi
          · exact h.lt_length.le

/-- A source that is at the same key as the best one, and reports a greater id. -/
theorem Best.concat_newer {minIdx : ℕ} {minKey : Bytes} (h : Best readings minIdx minKey)
    (hne : minKey ≠ []) {trancId : TrancId}
    (hat : readings[minIdx]? = some (some (minKey, trancId))) {r : Reading}
    (hkey : r.1 = minKey) (hlt : trancId < r.2) :
  Best (readings ++ [some r]) readings.length minKey
  := by
  have hnew : At (readings ++ [some r]) readings.length minKey :=
    at_concat_some.mpr (.inr ⟨rfl, hkey.symm⟩)
  cases h.concat_ge hne (le_of_eq hkey.symm) with
  | none => exact absurd rfl hne
  | empty => exact absurd rfl hne
  | key _ _ hlast hselected =>
      refine .key hne hnew hlast ?_
      intro hnone
      refine ⟨hnew, (hselected hnone).least, ?_⟩
      -- the sources do not all report the same id
      intro hsame
      have hid := hsame (minKey, trancId) r (List.mem_append_left _ (List.mem_of_getElem? hat))
        (List.mem_append_right _ List.mem_cons_self)
      exact absurd hlt (hid ▸ lt_irrefl trancId)

/-- What the loop ends with is selected exactly if the empty key is last. -/
theorem Best.selected_iff {minIdx : ℕ} {minKey : Bytes} (h : Best readings minIdx minKey)
    (hvalid : ∃ i key, At readings i key) :
  Selected readings minIdx minKey ↔ EmptyKeyLast readings
  := by
  cases h with
  | none h =>
      obtain ⟨i, key, hi⟩ := hvalid
      exact absurd hi (h i key)
  | empty h hlast =>
      constructor
      · rintro hselected -
        refine ⟨minIdx, h, hlast, ?_⟩
        intro hsame i hi
        exact le_antisymm (hlast i [] hi) (hselected.first hsame i hi)
      · intro hempty
        obtain ⟨last, hat, hge, hunique⟩ := hempty ⟨minIdx, h⟩
        refine ⟨h, fun _ key _ => nil_le_key key, ?_⟩
        intro hsame i hi
        rw [hunique hsame i hi, hunique hsame minIdx h]
  | key hne h hlast hselected =>
      constructor
      · rintro hsel ⟨i, hi⟩
        exact absurd (le_antisymm (hsel.least i [] hi) (nil_le_key minKey)) hne
      · intro hempty
        apply hselected
        intro i hi
        obtain ⟨last, hat, hge, -⟩ := hempty ⟨i, hi⟩
        obtain ⟨j, key, hj, hlt⟩ := hlast last hat
        exact absurd (hge j key hj) (Nat.not_le_of_lt hlt)

theorem Best.at_of_ne {minIdx : ℕ} {minKey : Bytes} (h : Best readings minIdx minKey)
    (hne : minKey ≠ []) :
  At readings minIdx minKey
  := by
  cases h with
  | none => exact absurd rfl hne
  | empty => exact absurd rfl hne
  | key _ h => exact h

/-- Without a best source, and where the best one is at the empty key, any source is less. -/
theorem Best.concat_of_nil {minIdx : ℕ} (h : Best readings minIdx []) (r : Reading) :
  Best (readings ++ [some r]) readings.length r.1
  := by
  apply Best.concat_less
  intro hnone i key hi
  cases h with
  | none h => exact absurd hi (h i key)
  | empty h => exact absurd h (hnone minIdx)
  | key hne => exact absurd rfl hne

theorem Best.concat_of_lt {minIdx : ℕ} {minKey : Bytes} (h : Best readings minIdx minKey)
    (hne : minKey ≠ []) {r : Reading} (hlt : r.1 < minKey) :
  Best (readings ++ [some r]) readings.length r.1
  := by
  apply Best.concat_less
  intro hnone i key hi
  cases h with
  | none => exact absurd rfl hne
  | empty => exact absurd rfl hne
  | key _ _ _ hselected => exact hlt.trans_le ((hselected hnone).least i key hi)

/-- What a round makes of a best source that is not at the empty key and reports `trancId`, at a
source that reports `r`. -/
def compareReading (maxTrancId : TrancId) (n : ℕ) (r : Reading) (minIdx : ℕ) (minKey : Bytes)
    (trancId : TrancId) : ℕ × Bytes :=
  if r.1 < minKey then
    (n, r.1)
  else if r.1 = minKey ∧ maxTrancId ≠ 0 ∧ trancId < r.2 then
    (n, minKey)
  else
    (minIdx, minKey)

theorem Best.compareReading {minIdx : ℕ} {minKey : Bytes} (h : Best readings minIdx minKey)
    (hne : minKey ≠ []) {trancId : TrancId}
    (hat : readings[minIdx]? = some (some (minKey, trancId))) (maxTrancId : TrancId)
    (r : Reading) :
  let best := compareReading maxTrancId readings.length r minIdx minKey trancId
  Best (readings ++ [some r]) best.1 best.2
  := by
  rw [LevelIterator.compareReading]
  split
  next hless => exact h.concat_of_lt hne hless
  next hge =>
    split
    next hsecond => exact h.concat_newer hne hat hsecond.1 hsecond.2.2
    next => exact h.concat_ge hne (le_of_not_gt hge)

/-! ### The loop on the sources -/

section

variable {ι : Type} [BaseIterator ι]

theorem reading_eq_some {source : ι} {key : Bytes} {trancId : TrancId}
    (h : reading source = some (key, trancId)) :
  BaseIterator.isValid source = true ∧ BaseIterator.getTrancId source = trancId ∧
    ∃ value source', BaseIterator.deref source = .ok ((key, value), source')
  := by
  rw [reading] at h
  split at h
  next hvalid =>
    split at h
    next raw source' hderef =>
      obtain ⟨rfl, rfl⟩ := Prod.mk.inj (Option.some.inj h)
      exact ⟨hvalid, rfl, raw.2, source', hderef⟩
    next => cases h
  next => cases h

theorem reading_of_deref {source source' : ι} {raw : Bytes × Bytes}
    (hvalid : BaseIterator.isValid source = true)
    (h : BaseIterator.deref source = .ok (raw, source')) :
  reading source = some (raw.1, BaseIterator.getTrancId source)
  := by
  rw [reading, if_pos hvalid, h]

theorem reading_of_not_valid {source : ι} (h : ¬ BaseIterator.isValid source = true) :
  reading source = none
  := if_neg h

/-- What the source with an index reports. -/
theorem exists_source_of_reading {iterVec : List ι} {i : ℕ} {r : Option Reading}
    (h : (iterVec.map reading)[i]? = some r) :
  ∃ source, iterVec[i]? = some source ∧ reading source = r
  := by
  rw [List.getElem?_map] at h
  exact Option.map_eq_some_iff.mp h

theorem newerAt_eq (it : LevelIterator ι) {i j : ℕ} {r r' : Reading}
    (hi : (it.iterVec.map reading)[i]? = some (some r))
    (hj : (it.iterVec.map reading)[j]? = some (some r')) :
  it.newerAt i j = decide (r'.2 < r.2)
  := by
  obtain ⟨source, hsource, hr⟩ := exists_source_of_reading hi
  obtain ⟨source', hsource', hr'⟩ := exists_source_of_reading hj
  rw [newerAt, hsource, hsource']
  dsimp only
  rw [(reading_eq_some hr).2.1, (reading_eq_some hr').2.1]

/-- A valid iterator has a source that is at a key. -/
theorem exists_at_of_isValid {it : LevelIterator ι} (hread : Readable it.iterVec)
    (h : it.isValid = true) :
  ∃ i key, At (it.iterVec.map reading) i key
  := by
  rw [isValid, isEnd, Bool.not_eq_true', List.all_eq_false] at h
  obtain ⟨source, hmem, hvalid⟩ := h
  rw [Bool.not_eq_true', Bool.not_eq_false] at hvalid
  obtain ⟨raw, source', hderef⟩ := hread source hmem hvalid
  obtain ⟨i, hi⟩ := List.mem_iff_getElem?.mp hmem
  refine ⟨i, raw.1, BaseIterator.getTrancId source, ?_⟩
  rw [List.getElem?_map, hi, Option.map_some, reading_of_deref hvalid hderef]

variable (hsteady : Steady ι)

include hsteady

/-- Dereferencing a source changes nothing of what the sources report. -/
theorem derefAt_reading (it : LevelIterator ι) (hread : Readable it.iterVec) {i : ℕ} {r : Reading}
    (hi : (it.iterVec.map reading)[i]? = some (some r)) :
  ∃ value iterVec, it.derefAt i = .ok ((r.1, value), { it with iterVec }) ∧ Readable iterVec ∧
    iterVec.map reading = it.iterVec.map reading
  := by
  obtain ⟨source, hsource, hr⟩ := exists_source_of_reading hi
  obtain ⟨-, -, value, source', hderef⟩ := reading_eq_some hr
  obtain ⟨hagain, hvalid, hid⟩ := hsteady hderef
  have hsame : reading source' = some r := by
    rw [← hr, reading, reading, hvalid, hderef, hagain, hid]
  refine ⟨value, it.iterVec.set i source', ?_, ?_, ?_⟩
  · rw [derefAt, hsource]
    dsimp only
    rw [Except.bind_eq_of_ok _ hderef]
    rfl
  · intro other hother hvalid'
    rcases List.mem_or_eq_of_mem_set hother with hother | rfl
    · exact hread other hother hvalid'
    · exact ⟨_, _, hagain⟩
  · rw [List.map_set, hsame]
    obtain ⟨hlt, hget⟩ := List.getElem?_eq_some_iff.mp hi
    rw [← hget, List.set_getElem_self]

/-- A round without a best source, or with one at the empty key. -/
theorem minStep_nil (it : LevelIterator ι) (hread : Readable it.iterVec) {n : ℕ} {r : Reading}
    (hr : (it.iterVec.map reading)[n]? = some (some r)) (minIdx : ℕ) :
  ∃ iterVec, minStep ((minIdx, []), it) n = .ok ((n, r.1), { it with iterVec }) ∧
    Readable iterVec ∧ iterVec.map reading = it.iterVec.map reading
  := by
  obtain ⟨source, hsource, hreading⟩ := exists_source_of_reading hr
  obtain ⟨value, iterVec, hderef, hread', hsame⟩ := derefAt_reading hsteady it hread hr
  refine ⟨iterVec, ?_, hread', hsame⟩
  rw [minStep]
  dsimp only
  rw [hsource]
  dsimp only
  rw [if_pos (reading_eq_some hreading).1, Except.bind_eq_of_ok _ hderef]
  dsimp only
  rw [if_pos rfl]
  rfl

/-- A round that compares a source with the best one. -/
theorem minStep_compare (it : LevelIterator ι) (hread : Readable it.iterVec) {n : ℕ} {r : Reading}
    (hr : (it.iterVec.map reading)[n]? = some (some r)) {minIdx : ℕ} {minKey : Bytes}
    (hne : minKey ≠ []) {trancId : TrancId}
    (hat : (it.iterVec.map reading)[minIdx]? = some (some (minKey, trancId))) :
  ∃ iterVec, minStep ((minIdx, minKey), it) n =
      .ok (compareReading it.maxTrancId n r minIdx minKey trancId, { it with iterVec }) ∧
    Readable iterVec ∧ iterVec.map reading = it.iterVec.map reading
  := by
  obtain ⟨source, hsource, hreading⟩ := exists_source_of_reading hr
  obtain ⟨value, iterVec, hderef, hread', hsame⟩ := derefAt_reading hsteady it hread hr
  rw [← hsame] at hr hat
  obtain ⟨value', iterVec', hderef', hread'', hsame'⟩ :=
    derefAt_reading hsteady { it with iterVec } hread' hat
  dsimp only at hsame'
  rw [← hsame'] at hr hat
  have hnewer : newerAt { it with iterVec := iterVec' } n minIdx = decide (trancId < r.2) :=
    newerAt_eq { it with iterVec := iterVec' } hr hat
  refine ⟨iterVec', ?_, hread'', hsame'.trans hsame⟩
  rw [minStep]
  dsimp only
  rw [hsource]
  dsimp only
  rw [if_pos (reading_eq_some hreading).1, Except.bind_eq_of_ok _ hderef]
  dsimp only
  rw [if_neg hne, Except.bind_eq_of_ok _ hderef']
  dsimp only
  simp only [hnewer, decide_eq_true_iff]
  rw [compareReading]
  split
  next => rfl
  next =>
    split
    next => rfl
    next => rfl

/-- A round of the loop. -/
theorem minStep_best (it : LevelIterator ι) (hread : Readable it.iterVec) {n : ℕ}
    (hn : n < it.iterVec.length) {minIdx : ℕ} {minKey : Bytes}
    (hbest : Best ((it.iterVec.map reading).take n) minIdx minKey) :
  ∃ minIdx' minKey' iterVec,
    minStep ((minIdx, minKey), it) n = .ok ((minIdx', minKey'), { it with iterVec }) ∧
    Readable iterVec ∧ iterVec.map reading = it.iterVec.map reading ∧
    Best ((it.iterVec.map reading).take (n + 1)) minIdx' minKey'
  := by
  have hlen : ((it.iterVec.map reading).take n).length = n := by
    rw [List.length_take, List.length_map, min_eq_left hn.le]
  have hget : it.iterVec[n]? = some it.iterVec[n] := List.getElem?_eq_getElem hn
  have hr : (it.iterVec.map reading)[n]? = some (reading it.iterVec[n]) := by
    rw [List.getElem?_map, hget, Option.map_some]
  rw [List.take_add_one, hr, Option.toList_some]
  by_cases hvalid : BaseIterator.isValid it.iterVec[n] = true
  · obtain ⟨raw, source', hderef⟩ := hread _ (List.getElem_mem hn) hvalid
    rw [reading_of_deref hvalid hderef] at hr ⊢
    by_cases hne : minKey = []
    · subst hne
      obtain ⟨iterVec, hstep, hread', hsame⟩ := minStep_nil hsteady it hread hr minIdx
      have hnew := hbest.concat_of_nil (raw.1, BaseIterator.getTrancId it.iterVec[n])
      rw [hlen] at hnew
      exact ⟨_, _, iterVec, hstep, hread', hsame, hnew⟩
    · obtain ⟨trancId, hat⟩ := hbest.at_of_ne hne
      have hlt : minIdx < n := hlen ▸ At.lt_length ⟨trancId, hat⟩
      obtain ⟨iterVec, hstep, hread', hsame⟩ :=
        minStep_compare hsteady it hread hr hne ((List.getElem?_take_of_lt hlt).symm.trans hat)
      have hnew := hbest.compareReading hne hat it.maxTrancId
        (raw.1, BaseIterator.getTrancId it.iterVec[n])
      rw [hlen] at hnew
      exact ⟨_, _, iterVec, hstep, hread', hsame, hnew⟩
  · refine ⟨minIdx, minKey, it.iterVec, ?_, hread, rfl, ?_⟩
    · rw [minStep]
      dsimp only
      rw [hget]
      exact if_neg hvalid
    · rw [reading_of_not_valid hvalid]
      exact hbest.concat_none

/-- The loop ends with the best of all sources. -/
theorem getMinKeyIdx_best (it : LevelIterator ι) (hread : Readable it.iterVec) :
  ∃ minIdx minKey iterVec, it.getMinKeyIdx = .ok ((minIdx, minKey), { it with iterVec }) ∧
    Best (it.iterVec.map reading) minIdx minKey
  := by
  have hrun : ∀ n ≤ it.iterVec.length, ∃ minIdx minKey iterVec,
      (List.range n).foldlM minStep ((0, []), it) = .ok ((minIdx, minKey), { it with iterVec }) ∧
      Readable iterVec ∧ iterVec.map reading = it.iterVec.map reading ∧
      Best ((it.iterVec.map reading).take n) minIdx minKey := by
    intro n
    induction n with
    | zero =>
        intro _
        exact ⟨0, [], it.iterVec, rfl, hread, rfl, .none 0 (fun _ _ hi => nomatch hi.lt_length)⟩
    | succ n ih =>
        intro hn
        obtain ⟨minIdx, minKey, iterVec, hfold, hread₁, hsame, hbest⟩ := ih (Nat.le_of_succ_le hn)
        have hlength : n < iterVec.length := by
          rwa [← List.length_map (f := reading), hsame, List.length_map]
        rw [← hsame] at hbest
        obtain ⟨minIdx', minKey', iterVec', hstep, hread₂, hsame', hbest'⟩ :=
          minStep_best hsteady { it with iterVec } hread₁ hlength hbest
        refine ⟨minIdx', minKey', iterVec', ?_, hread₂, hsame'.trans hsame, hsame ▸ hbest'⟩
        rw [List.range_succ, List.foldlM_append, Except.bind_eq_of_ok _ hfold,
          List.foldlM_cons, Except.bind_eq_of_ok _ hstep]
        rfl
  obtain ⟨minIdx, minKey, iterVec, hfold, -, -, hbest⟩ := hrun it.iterVec.length le_rfl
  rw [← List.length_map (f := reading), List.take_length] at hbest
  exact ⟨minIdx, minKey, iterVec, hfold, hbest⟩

end

/-- `get_min_key_idx` answers the least key, with a source that is at it, the first one if all
report the same id. -/
def SelectsLeast (it : LevelIterator LevelSource) : Prop :=
  ∃ minIdx minKey it', it.getMinKeyIdx = .ok ((minIdx, minKey), it') ∧
    Selected (it.iterVec.map reading) minIdx minKey

/-- The least key is selected of the sources exactly if none is at the empty key, or the last valid
one is, and no other one where all report the same id. -/
theorem selectsLeast_iff {it : LevelIterator LevelSource} (hread : Readable it.iterVec)
    (hvalid : it.isValid = true) :
  it.SelectsLeast ↔ EmptyKeyLast (it.iterVec.map reading)
  := by
  obtain ⟨minIdx, minKey, iterVec, hmin, hbest⟩ := getMinKeyIdx_best LevelSource.steady it hread
  rw [← hbest.selected_iff (exists_at_of_isValid hread hvalid)]
  constructor
  · rintro ⟨minIdx', minKey', it', hmin', hselected⟩
    obtain ⟨hpair, -⟩ := Prod.mk.inj (Except.ok.inj (hmin.symm.trans hmin'))
    obtain ⟨rfl, rfl⟩ := Prod.mk.inj hpair
    exact hselected
  · exact fun hselected => ⟨minIdx, minKey, _, hmin, hselected⟩

/-- The empty key in the second of two sources. -/
theorem selectsLeast_iff_two :
  SelectsLeast { iterVec := [.heap (HeapIterator.ofItems [⟨[1], [7], 0, 0, 1⟩] 0),
      .heap (HeapIterator.ofItems [⟨[], [8], 0, 0, 2⟩] 0)], maxTrancId := 0, rounds := 8 } ↔
    EmptyKeyLast ([LevelSource.heap (HeapIterator.ofItems [⟨[1], [7], 0, 0, 1⟩] 0),
      .heap (HeapIterator.ofItems [⟨[], [8], 0, 0, 2⟩] 0)].map reading)
  := by
  apply selectsLeast_iff
  · intro source hsource _
    rcases List.mem_pair.mp hsource with rfl | rfl
    · exact ⟨([1], [7]), _, rfl⟩
    · exact ⟨([], [8]), _, rfl⟩
  · rfl

/-- The mark of a commit in a level, and a key in the next one: the key is selected. -/
theorem not_selectsLeast_mark :
  ∃ marks keys : ConcactIterator,
    ConcactIterator.ofSsts [{ sstId := 1, blocks := [⟨[⟨[], [], 1⟩]⟩] }] 0 = .ok marks ∧
    ConcactIterator.ofSsts [{ sstId := 2, blocks := [⟨[⟨[1], [7], 1⟩]⟩] }] 0 = .ok keys ∧
    Readable [LevelSource.concact marks, .concact keys] ∧
    ¬ SelectsLeast { iterVec := [.concact marks, .concact keys], maxTrancId := 0, rounds := 8 }
  := by
  refine ⟨_, _, rfl, rfl, ?_, ?_⟩
  · intro source hsource _
    rcases List.mem_pair.mp hsource with rfl | rfl
    · exact ⟨([], []), _, rfl⟩
    · exact ⟨([1], [7]), _, rfl⟩
  rintro ⟨minIdx, minKey, it', hmin, hselected⟩
  obtain ⟨hpair, -⟩ := Prod.mk.inj (Except.ok.inj hmin)
  obtain ⟨rfl, rfl⟩ := Prod.mk.inj hpair
  have hle := hselected.least 0 [] ⟨0, rfl⟩
  exact absurd hle (by decide)

end LevelIterator

end TinyLsm
