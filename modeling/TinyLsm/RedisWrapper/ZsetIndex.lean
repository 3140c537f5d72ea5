import Mathlib.Data.List.Nodup
import TinyLsm.Library.Index
import TinyLsm.Library.Transition
import TinyLsm.RedisWrapper.Commands

/-!
# The index of a sorted set

The members of a sorted set are listed by an index, whose keys are made of the scores.  ZREM and
ZINCRBY take the old entry of a member out of the index, ZADD does not: an entry becomes stale
if ZADD gives a member another score.  A member has no entry of its own if another member has
the same score.
-/

namespace TinyLsm

namespace RedisWrapper

/-- A sorted set as an index, by the texts of the scores that its keys are made of. -/
def zsetIndex (key : Bytes) (lsm : LSM) : Index Bytes Bytes Bytes where
  score elem := lsm.get (getZsetKeyElem key elem)
  entry formatted := lsm.get (getZsetScorePreffix key ++ formatted)

/-- Each entry of the index names a member that is stored with a score that has this entry. -/
def NoStaleEntry (key : Bytes) (lsm : LSM) : Prop :=
  ∀ x elem, getZsetScorePreffix key <+: x → lsm.get x = some elem →
    ∃ score, lsm.get (getZsetKeyElem key elem) = some score ∧ getZsetKeySocre key score = x

variable {key : Bytes} {lsm : LSM}

theorem noStaleEntry_iff :
  NoStaleEntry key lsm ↔ (zsetIndex key lsm).NoStale formattedScore
  := by
  constructor
  · intro h formatted elem hentry
    obtain ⟨score, hscore, hkey⟩ := h _ elem (List.prefix_append _ formatted) hentry
    exact ⟨score, hscore, List.append_cancel_left hkey⟩
  · rintro h x elem ⟨formatted, rfl⟩ hentry
    obtain ⟨score, hscore, rfl⟩ := h formatted elem hentry
    exact ⟨score, hscore, rfl⟩

/-! ### What changes of the store do to the index -/

theorem getZsetScorePreffix_append_ne_getZsetKeyElem (key formatted elem : Bytes) :
  getZsetScorePreffix key ++ formatted ≠ getZsetKeyElem key elem
  := by
  intro h
  apply not_elemPreffix_of_scorePreffix (List.prefix_append _ formatted)
  rw [h]
  apply elemPreffix_getZsetKeyElem

theorem scorePreffix_append_eq_iff {formatted score : Bytes} :
  getZsetScorePreffix key ++ formatted = getZsetKeySocre key score ↔
    formatted = formattedScore score
  := List.append_right_inj _

/-- The index depends on the keys of the sorted set only. -/
theorem zsetIndex_congr {lsm' : LSM} (h : ∀ x, Under .sortedSet key x → lsm'.get x = lsm.get x) :
  zsetIndex key lsm' = zsetIndex key lsm
  := by
  ext elem : 2
  · exact h _ (under_getZsetKeyElem key elem)
  · exact h _ (under_of_scorePreffix (List.prefix_append _ elem))

theorem zsetIndex_put_pair {score : Bytes} (hscore : score ≠ []) (elem : Bytes) :
  zsetIndex key ((lsm.put (getZsetKeySocre key score) elem).put (getZsetKeyElem key elem) score) =
    (zsetIndex key lsm).assign formattedScore LSM.stored elem score
  := by
  apply Index.ext
  · funext elem'
    rw [Index.score_assign]
    change LSM.get (LSM.put _ _ _) (getZsetKeyElem key elem') = _
    rw [LSM.get_put, LSM.stored_of_ne_nil hscore,
      LSM.get_put_of_ne _ (getZsetKeySocre_ne_getZsetKeyElem key score elem').symm]
    simp only [(getZsetKeyElem_injective key).eq_iff]
    rfl
  · funext formatted
    rw [Index.entry_assign]
    change LSM.get (LSM.put _ _ _) (getZsetScorePreffix key ++ formatted) = _
    rw [LSM.get_put_of_ne _ (getZsetScorePreffix_append_ne_getZsetKeyElem key formatted elem),
      LSM.get_put]
    simp only [scorePreffix_append_eq_iff]
    rfl

theorem zsetIndex_putBatch {pairs : List (Bytes × Bytes)} (hscores : ∀ p ∈ pairs, p.1 ≠ []) :
  zsetIndex key (lsm.putBatch (pairs.flatMap (pairKvs key))) =
    (zsetIndex key lsm).assignAll formattedScore LSM.stored pairs
  := by
  induction pairs generalizing lsm with
  | nil => rfl
  | cons p pairs ih =>
      obtain ⟨hp, hscores⟩ := List.forall_mem_cons.mp hscores
      rw [List.flatMap_cons, LSM.putBatch_append, ih hscores, Index.assignAll, Index.assignAll,
        List.foldl_cons, ← zsetIndex_put_pair hp]
      rfl

theorem zsetIndex_remove {elem score : Bytes} :
  zsetIndex key ((lsm.remove (getZsetKeyElem key elem)).remove (getZsetKeySocre key score)) =
    (zsetIndex key lsm).remove formattedScore elem score
  := by
  apply Index.ext
  · funext elem'
    rw [Index.score_remove]
    change LSM.get (LSM.remove _ _) (getZsetKeyElem key elem') = _
    rw [LSM.get_remove_of_ne _ (getZsetKeySocre_ne_getZsetKeyElem key score elem').symm,
      LSM.get_remove]
    simp only [(getZsetKeyElem_injective key).eq_iff]
    rfl
  · funext formatted
    rw [Index.entry_remove]
    change LSM.get (LSM.remove _ _) (getZsetScorePreffix key ++ formatted) = _
    rw [LSM.get_remove,
      LSM.get_remove_of_ne _ (getZsetScorePreffix_append_ne_getZsetKeyElem key formatted elem)]
    simp only [scorePreffix_append_eq_iff]
    rfl

theorem zsetIndex_remove_score {score : Bytes} :
  zsetIndex key (lsm.remove (getZsetKeySocre key score)) =
    (zsetIndex key lsm).unlist (formattedScore score)
  := by
  apply Index.ext
  · funext elem
    exact LSM.get_remove_of_ne _ (getZsetKeySocre_ne_getZsetKeyElem key score elem).symm
  · funext formatted
    rw [Index.entry_unlist]
    change LSM.get (LSM.remove _ _) (getZsetScorePreffix key ++ formatted) = _
    rw [LSM.get_remove]
    simp only [scorePreffix_append_eq_iff]
    rfl

/-- The entries of a new score are put in any order. -/
theorem put_pair_comm (key score elem : Bytes) (lsm : LSM) :
  (lsm.put (getZsetKeyElem key elem) score).put (getZsetKeySocre key score) elem =
    (lsm.put (getZsetKeySocre key score) elem).put (getZsetKeyElem key elem) score
  := by
  apply LSM.ext_get
  intro x
  simp only [LSM.get_put]
  split
  next heq => rw [if_neg (heq ▸ getZsetKeySocre_ne_getZsetKeyElem key score elem)]
  next => rfl

theorem getExplireKey_ne_of_under {x : Bytes} (h : Under .sortedSet key x) : x ≠ getExplireKey key
  := h.ne_getExplireKey (by decide)

section

variable [Doubles] (hexpire : lsm.get (getExplireKey key) = none)

include hexpire

/-- ZADD assigns the scores that are new. -/
theorem exec_zadd (now : ℤ) {pairs : List (Bytes × Bytes)} (hscores : ∀ p ∈ pairs, p.1 ≠ []) :
  let lsm' := ((Command.zadd key pairs).exec now lsm).2
  lsm'.get (getExplireKey key) = none ∧
    zsetIndex key lsm' =
      (zsetIndex key lsm).assignAll formattedScore LSM.stored (newPairs key lsm pairs)
  := by
  rw [Command.exec, Command.program, run_redisZadd (.inl hexpire)]
  dsimp only
  have hkeyKvs : ∀ x, x ≠ key → (lsm.putBatch (keyKvs key lsm)).get x = lsm.get x := by
    intro x hx
    apply LSM.get_putBatch_of_notMem
    intro kv hkv
    rw [keyKvs] at hkv
    split at hkv
    next => cases hkv
    next =>
      rw [List.mem_singleton.mp hkv]
      apply Ne.symm hx
  constructor
  · rw [LSM.putBatch_append, LSM.get_putBatch_of_notMem, hkeyKvs _ (getExplireKey_ne_key key),
      hexpire]
    intro kv hkv
    obtain ⟨p, -, hp⟩ := List.mem_flatMap.mp hkv
    rcases List.mem_pair.mp hp with rfl | rfl
    · apply getExplireKey_ne_of_under (under_getZsetKeySocre key p.1)
    · apply getExplireKey_ne_of_under (under_getZsetKeyElem key p.2)
  · have hnew : ∀ p ∈ newPairs key lsm pairs, p.1 ≠ [] :=
      fun p hp => hscores p (List.mem_filter.mp hp).1
    rw [LSM.putBatch_append, zsetIndex_putBatch hnew,
      zsetIndex_congr (fun x hx => hkeyKvs x hx.ne_key)]

/-- ZREM takes the members out. -/
theorem exec_zrem (now : ℤ) {elems : List Bytes} (hne : elems ≠ []) :
  let lsm' := ((Command.zrem key elems).exec now lsm).2
  lsm'.get (getExplireKey key) = none ∧
    zsetIndex key lsm' = (zsetIndex key lsm).removeAll formattedScore elems
  := by
  obtain ⟨removedCount, hrun⟩ := run_redisZrem (w := ⟨lsm, now⟩) (.inl hexpire) (bytes "zrem") hne
  rw [Command.exec, Command.program, hrun]
  dsimp only
  clear hrun hne
  induction elems generalizing lsm with
  | nil => exact ⟨hexpire, rfl⟩
  | cons elem elems ih =>
      rw [List.foldl_cons, Index.removeAll, List.foldl_cons, ← Index.removeAll]
      have hscore : (zsetIndex key lsm).score elem = lsm.get (getZsetKeyElem key elem) := rfl
      rw [removeElem, hscore]
      cases lsm.get (getZsetKeyElem key elem) with
      | none => apply ih hexpire
      | some score =>
          rw [Option.elim_some, ← zsetIndex_remove]
          apply ih
          rw [LSM.get_remove_of_ne _
            (getExplireKey_ne_of_under (under_getZsetKeySocre key score)).symm,
            LSM.get_remove_of_ne _
              (getExplireKey_ne_of_under (under_getZsetKeyElem key elem)).symm, hexpire]

/-- ZINCRBY gives a member the score that it computes, or changes nothing. -/
theorem exec_zincrby (now : ℤ) (increment elem : Bytes) :
  let lsm' := ((Command.zincrby key increment elem).exec now lsm).2
  lsm' = lsm ∨ ∃ newScore,
    incrementedScore (lsm.get (getZsetKeyElem key elem)) increment = .ok newScore ∧
      lsm'.get (getExplireKey key) = none ∧
        zsetIndex key lsm' =
          (zsetIndex key lsm).reassign formattedScore LSM.stored elem newScore
  := by
  rw [Command.exec, Command.program]
  cases hscore : incrementedScore (lsm.get (getZsetKeyElem key elem)) increment with
  | error e =>
      rw [run_redisZincrby_of_error (.inl hexpire) hscore]
      exact .inl rfl
  | ok newScore =>
      rw [run_redisZincrby (.inl hexpire) hscore]
      refine .inr ⟨newScore, rfl, ?_, ?_⟩
      · rw [LSM.get_put_of_ne _
          (getExplireKey_ne_of_under (under_getZsetKeySocre key newScore)).symm,
          LSM.get_put_of_ne _ (getExplireKey_ne_of_under (under_getZsetKeyElem key elem)).symm]
        cases lsm.get (getZsetKeyElem key elem) with
        | none => apply hexpire
        | some originalScore =>
            rw [Option.elim_some, LSM.get_remove_of_ne _
              (getExplireKey_ne_of_under (under_getZsetKeySocre key originalScore)).symm, hexpire]
      · have hold : (zsetIndex key lsm).score elem = lsm.get (getZsetKeyElem key elem) := rfl
        rw [put_pair_comm, zsetIndex_put_pair (incrementedScore_ne_nil hscore), Index.reassign,
          hold]
        cases lsm.get (getZsetKeyElem key elem) with
        | none => rfl
        | some originalScore => rw [Option.elim_some, Option.elim_some, zsetIndex_remove_score]

end

/-! ### What is listed -/

theorem mem_indexedElems {elem : Bytes} :
  elem ∈ indexedElems key lsm ↔ ∃ formatted, (zsetIndex key lsm).entry formatted = some elem
  := by
  rw [indexedElems, List.mem_map]
  constructor
  · rintro ⟨p, hp, rfl⟩
    obtain ⟨hget, hpredicate⟩ := LSM.mem_query.mp hp
    obtain ⟨formatted, hformatted⟩ := preffixPredicate_eq_zero.mp hpredicate
    rw [← hformatted] at hget
    exact ⟨formatted, hget⟩
  · rintro ⟨formatted, hentry⟩
    refine ⟨(getZsetScorePreffix key ++ formatted, elem), LSM.mem_query.mpr ⟨hentry, ?_⟩, rfl⟩
    exact preffixPredicate_eq_zero.mpr (List.prefix_append _ formatted)

/-- Without stale entries no member is listed twice. -/
theorem NoStaleEntry.nodup_indexedElems (h : NoStaleEntry key lsm) : (indexedElems key lsm).Nodup
  := by
  rw [indexedElems, List.Nodup, List.pairwise_map]
  apply List.Pairwise.imp_of_mem _ (lsm.query_ascending _)
  intro p q hp hq hlt heq
  obtain ⟨hpget, hpkey⟩ := LSM.mem_query.mp hp
  obtain ⟨hqget, hqkey⟩ := LSM.mem_query.mp hq
  obtain ⟨score, hscore, hkey⟩ := h p.1 p.2 (preffixPredicate_eq_zero.mp hpkey) hpget
  obtain ⟨score', hscore', hkey'⟩ := h q.1 q.2 (preffixPredicate_eq_zero.mp hqkey) hqget
  rw [← heq] at hscore'
  obtain rfl := Option.some.inj (hscore.symm.trans hscore')
  rw [← hkey, ← hkey'] at hlt
  exact lt_irrefl _ hlt

section

variable [Doubles] (hexpire : lsm.get (getExplireKey key) = none)

include hexpire

theorem exec_zscore (elem : Bytes) (now : ℤ) :
  (Command.zscore key elem).exec now lsm =
    (.ok ((lsm.get (getZsetKeyElem key elem)).elim nilReply bulkReply), lsm)
  := by
  rw [Command.exec, Command.program, run_redisZscore (.inl hexpire)]

theorem exec_zrange {start stop : Bytes} {i j : ℤ} (hstart : stoi start = .ok i)
    (hstop : stoi stop = .ok j) (now : ℤ) :
  (Command.zrange key start stop).exec now lsm =
    (if indexedElems key lsm = [] then .ok (arrayReply [])
      else rangeReply (indexedElems key lsm) i j, lsm)
  := by
  rw [Command.exec, Command.program, run_redisZrange (.inl hexpire), hstart, hstop]
  rfl

/-- A member has a score exactly if ZSCORE answers one. -/
theorem isSome_score_iff {elem : Bytes} :
  (lsm.get (getZsetKeyElem key elem)).isSome = true ↔
    ∃ score, ∀ now, ((Command.zscore key elem).exec now lsm).1 = .ok (bulkReply score)
  := by
  simp only [exec_zscore hexpire]
  cases lsm.get (getZsetKeyElem key elem) with
  | none =>
      apply iff_of_false nofun
      rintro ⟨score, h⟩
      exact bulkReply_ne_nilReply score (Except.ok.inj (h 0)).symm
  | some score => exact iff_of_true rfl ⟨score, fun _ => rfl⟩

end

/-! ### Runs without a new score of a member -/

/-- ZADD with scores that are not empty, where neither a member that is there nor one that is
named twice is given another score, or ZREM or ZINCRBY. -/
def ChangesZset (key : Bytes) (lsm : LSM) (request : ℤ × Command) : Prop :=
  match request.2 with
  | .zadd k pairs =>
      k = key ∧ (∀ p ∈ pairs, p.1 ≠ []) ∧
        (∀ p ∈ pairs, ∀ score, lsm.get (getZsetKeyElem key p.2) = some score →
          formattedScore score = formattedScore p.1) ∧
        pairs.Pairwise (fun p q => p.2 = q.2 → formattedScore p.1 = formattedScore q.1)
  | .zrem k elems => k = key ∧ elems ≠ []
  | .zincrby k _ _ => k = key
  | _ => False

theorem stored_eq_some {value value' : Bytes} (h : LSM.stored value = some value') : value' = value
  := by
  rw [LSM.stored] at h
  split at h
  next => cases h
  next => exact (Option.some.inj h).symm

/-- The key has no expiry time, and its index no stale entry. -/
structure StoresZset (key : Bytes) (lsm : LSM) : Prop where
  expire : lsm.get (getExplireKey key) = none
  noStale : (zsetIndex key lsm).NoStale formattedScore

/-- Besides, its index is complete. -/
structure StoresZsetCompletely (key : Bytes) (lsm : LSM) : Prop extends StoresZset key lsm where
  complete : (zsetIndex key lsm).Complete formattedScore

theorem StoresZset.step [Doubles] (h : StoresZset key lsm) {request : ℤ × Command}
    (hchanges : ChangesZset key lsm request) :
  StoresZset key (request.2.exec request.1 lsm).2
  := by
  obtain ⟨now, c⟩ := request
  have hnamed : ∀ elem elem', LSM.stored elem = some elem' → elem' = elem :=
    fun _ _ => stored_eq_some
  cases c with
  | zadd k pairs =>
      obtain ⟨rfl, hscores, hsame, hpairwise⟩ := hchanges
      obtain ⟨hexpire, hindex⟩ := exec_zadd h.expire now hscores
      refine ⟨hexpire, ?_⟩
      rw [hindex]
      apply Index.NoStale.assignAll hnamed h.noStale
      · exact fun p hp => hsame p (List.mem_filter.mp hp).1
      · apply hpairwise.filter
  | zrem k elems =>
      obtain ⟨rfl, hne⟩ := hchanges
      obtain ⟨hexpire, hindex⟩ := exec_zrem h.expire now hne
      refine ⟨hexpire, ?_⟩
      rw [hindex]
      apply Index.NoStale.removeAll elems h.noStale
  | zincrby k increment elem =>
      obtain rfl := hchanges
      rcases exec_zincrby h.expire now increment elem with hsame | ⟨newScore, -, hexpire, hindex⟩
      · rw [hsame]
        apply h
      · refine ⟨hexpire, ?_⟩
        rw [hindex]
        apply h.noStale.reassign hnamed
  | _ => cases hchanges

theorem storesZset_of_reached [Doubles] {start : LSM}
    (hexpire : start.get (getExplireKey key) = none)
    (hempty : ∀ x, Under .sortedSet key x → start.get x = none)
    (h : Transition.Reached step start (ChangesZset key) lsm) :
  StoresZset key lsm
  := by
  apply h.invariant
  · refine ⟨hexpire, ?_⟩
    intro formatted elem hentry
    have hnone := hempty _ (under_of_scorePreffix (List.prefix_append _ formatted))
    cases hnone.symm.trans hentry
  · rintro lsm lsm' request - hstores hchanges hstep
    obtain rfl := Option.some.inj hstep
    apply hstores.step hchanges

/-- A member that is listed has a score. -/
theorem StoresZset.zscore_of_mem [Doubles] (h : StoresZset key lsm) {elem : Bytes}
    (helem : elem ∈ indexedElems key lsm) :
  ∃ score, ∀ now, ((Command.zscore key elem).exec now lsm).1 = .ok (bulkReply score)
  := by
  obtain ⟨formatted, hentry⟩ := mem_indexedElems.mp helem
  obtain ⟨score, hscore, -⟩ := h.noStale formatted elem hentry
  exact (isSome_score_iff h.expire).mp (Option.isSome_iff_exists.mpr ⟨score, hscore⟩)

/-- In every run of ZADD, ZREM and ZINCRBY on a key where no sorted set is stored, in which ZADD
gives no member another score, each entry of the index is that of a member and its score, and
ZRANGE lists no member twice and none that is not there. -/
theorem noStaleEntry_of_reached [Doubles] {start : LSM}
    (hexpire : start.get (getExplireKey key) = none)
    (hempty : ∀ x, Under .sortedSet key x → start.get x = none)
    (h : Transition.Reached step start (ChangesZset key) lsm) :
  NoStaleEntry key lsm ∧ ∃ elems : List Bytes, elems.Nodup ∧
    (∀ elem ∈ elems, ∃ score, ∀ now,
      ((Command.zscore key elem).exec now lsm).1 = .ok (bulkReply score)) ∧
    ∀ now start stop i j, stoi start = .ok i → stoi stop = .ok j →
      ((Command.zrange key start stop).exec now lsm).1 =
        if elems = [] then .ok (arrayReply []) else rangeReply elems i j
  := by
  have hstores := storesZset_of_reached hexpire hempty h
  have hnoStale := noStaleEntry_iff.mpr hstores.noStale
  refine ⟨hnoStale, indexedElems key lsm, hnoStale.nodup_indexedElems, ?_, ?_⟩
  · exact fun elem helem => hstores.zscore_of_mem helem
  · intro now start stop i j hstart hstop
    rw [exec_zrange hstores.expire hstart hstop]

theorem noStaleEntry_of_zadd :
  letI := Doubles.whole
  NoStaleEntry (bytes "k")
    ((Command.zadd (bytes "k") [(bytes "1", bytes "a"), (bytes "1", bytes "b")]).exec 0 .empty).2
  := by
  let _ := Doubles.whole
  have hchanges : ChangesZset (bytes "k") .empty
      (0, .zadd (bytes "k") [(bytes "1", bytes "a"), (bytes "1", bytes "b")]) :=
    ⟨rfl, by decide, nofun, by decide⟩
  exact (noStaleEntry_of_reached rfl (fun _ _ => rfl) (.step .start hchanges rfl)).1

/-- ZADD leaves the entry of the score that a member had before. -/
theorem not_noStaleEntry_of_zadd_zadd :
  letI := Doubles.whole
  ¬ NoStaleEntry (bytes "k")
    ((Command.zadd (bytes "k") [(bytes "2", bytes "a")]).exec 1
      ((Command.zadd (bytes "k") [(bytes "1", bytes "a")]).exec 0 .empty).2).2
  := by
  let _ := Doubles.whole
  intro h
  obtain ⟨score, hscore, hkey⟩ := h (getZsetKeySocre (bytes "k") (bytes "1")) (bytes "a")
    (scorePreffix_getZsetKeySocre _ _) (by decide +kernel)
  have hstored : ((Command.zadd (bytes "k") [(bytes "2", bytes "a")]).exec 1
      ((Command.zadd (bytes "k") [(bytes "1", bytes "a")]).exec 0 .empty).2).2.get
        (getZsetKeyElem (bytes "k") (bytes "a")) = some (bytes "2") := by
    decide +kernel
  obtain rfl := Option.some.inj (hscore.symm.trans hstored)
  exact absurd hkey (by decide)

/-! ### Runs in which the scores differ -/

/-- The change gives a member, which is not the empty one, a score whose entry is none that
another member has. -/
def GivesOwnEntry [Doubles] (key : Bytes) (lsm : LSM) (request : ℤ × Command) : Prop :=
  match request.2 with
  | .zadd _ pairs =>
      (∀ p ∈ pairs, p.2 ≠ []) ∧
        (∀ p ∈ pairs, ∀ elem score, elem ≠ p.2 →
          lsm.get (getZsetKeyElem key elem) = some score →
          formattedScore score ≠ formattedScore p.1) ∧
        pairs.Pairwise (fun p q => p.2 ≠ q.2 → formattedScore p.1 ≠ formattedScore q.1)
  | .zincrby _ increment elem =>
      elem ≠ [] ∧ ∀ newScore,
        incrementedScore (lsm.get (getZsetKeyElem key elem)) increment = .ok newScore →
        ∀ elem' score, elem' ≠ elem → lsm.get (getZsetKeyElem key elem') = some score →
          formattedScore score ≠ formattedScore newScore
  | _ => True

theorem StoresZsetCompletely.step [Doubles] (h : StoresZsetCompletely key lsm)
    {request : ℤ × Command} (hchanges : ChangesZset key lsm request)
    (hown : GivesOwnEntry key lsm request) :
  StoresZsetCompletely key (request.2.exec request.1 lsm).2
  := by
  refine ⟨h.toStoresZset.step hchanges, ?_⟩
  obtain ⟨now, c⟩ := request
  cases c with
  | zadd k pairs =>
      obtain ⟨rfl, hscores, -, -⟩ := hchanges
      obtain ⟨hne, hfree, hpairwise⟩ := hown
      obtain ⟨-, hindex⟩ := exec_zadd h.expire now hscores
      rw [hindex]
      apply Index.Complete.assignAll _ h.complete
      · exact fun p hp => hfree p (List.mem_filter.mp hp).1
      · apply hpairwise.filter
      · exact fun p hp => LSM.stored_of_ne_nil (hne p (List.mem_filter.mp hp).1)
  | zrem k elems =>
      obtain ⟨rfl, hne⟩ := hchanges
      obtain ⟨-, hindex⟩ := exec_zrem h.expire now hne
      rw [hindex]
      apply Index.Complete.removeAll elems h.complete
  | zincrby k increment elem =>
      obtain rfl := hchanges
      obtain ⟨hne, hfree⟩ := hown
      rcases exec_zincrby h.expire now increment elem with hsame | ⟨newScore, hscore, -, hindex⟩
      · rw [hsame]
        apply h.complete
      · rw [hindex]
        apply h.complete.reassign (LSM.stored_of_ne_nil hne) (hfree newScore hscore)
  | _ => cases hchanges

/-- The members with scores are the ones that are listed. -/
theorem StoresZsetCompletely.mem_indexedElems_iff [Doubles] (h : StoresZsetCompletely key lsm)
    {elem : Bytes} :
  elem ∈ indexedElems key lsm ↔
    ∃ score, ∀ now, ((Command.zscore key elem).exec now lsm).1 = .ok (bulkReply score)
  := by
  constructor
  · apply h.zscore_of_mem
  · intro hscore
    obtain ⟨score, hget⟩ := Option.isSome_iff_exists.mp ((isSome_score_iff h.expire).mpr hscore)
    exact mem_indexedElems.mpr ⟨_, h.complete elem score hget⟩

/-- In every run of ZADD, ZREM and ZINCRBY on a key where no sorted set is stored, in which ZADD
gives no member another score and no two members have the same score, ZRANGE lists the members
for which ZSCORE answers a score, and ZCARD answers their number, as long as it fits `int`. -/
theorem zsetAnswers_of_reached [Doubles] {start : LSM}
    (hexpire : start.get (getExplireKey key) = none)
    (hempty : ∀ x, Under .sortedSet key x → start.get x = none)
    (h : Transition.Reached step start
      (fun lsm request => ChangesZset key lsm request ∧ GivesOwnEntry key lsm request) lsm) :
  ∃ elems : List Bytes, elems.Nodup ∧
    (∀ elem, elem ∈ elems ↔ ∃ score, ∀ now,
      ((Command.zscore key elem).exec now lsm).1 = .ok (bulkReply score)) ∧
    (elems.length < 2 ^ 31 → ∀ now,
      ((Command.zrange key (bytes "0") (bytes "-1")).exec now lsm).1 = .ok (arrayReply elems) ∧
        ((Command.zcard key).exec now lsm).1 = .ok (integerReply elems.length))
  := by
  have hstores : StoresZsetCompletely key lsm := by
    apply h.invariant
    · refine ⟨storesZset_of_reached hexpire hempty .start, ?_⟩
      intro elem score hscore
      cases (hempty _ (under_getZsetKeyElem key elem)).symm.trans hscore
    · rintro lsm lsm' request - hstores ⟨hchanges, hown⟩ hstep
      obtain rfl := Option.some.inj hstep
      apply hstores.step hchanges hown
  have hnodup := (noStaleEntry_iff.mpr hstores.noStale).nodup_indexedElems
  refine ⟨indexedElems key lsm, hnodup, fun elem => hstores.mem_indexedElems_iff, ?_⟩
  intro hfits now
  constructor
  · rw [exec_zrange hstores.expire (i := 0) (j := -1) (by decide) (by decide)]
    dsimp only
    split
    next hnil => rw [hnil]
    next hne => rw [rangeReply_all hne hfits]
  · have hcount : checkedSigned 32 (indexedElems key lsm).length =
        .ok ((indexedElems key lsm).length : ℤ) := if_pos ⟨by omega, by omega⟩
    rw [Command.exec, Command.program, run_redisZcard (.inl hstores.expire), hcount]
    rfl

theorem zsetAnswers_of_zadd :
  letI := Doubles.whole
  let lsm :=
    ((Command.zadd (bytes "k") [(bytes "1", bytes "a"), (bytes "2", bytes "b")]).exec 0 .empty).2
  ∃ elems : List Bytes, elems.Nodup ∧
    ∀ elem, elem ∈ elems ↔ ∃ score, ∀ now,
      ((Command.zscore (bytes "k") elem).exec now lsm).1 = .ok (bulkReply score)
  := by
  let _ := Doubles.whole
  have hchanges : ChangesZset (bytes "k") .empty
      (0, .zadd (bytes "k") [(bytes "1", bytes "a"), (bytes "2", bytes "b")]) :=
    ⟨rfl, by decide, nofun, by decide⟩
  have hown : GivesOwnEntry (bytes "k") .empty
      (0, .zadd (bytes "k") [(bytes "1", bytes "a"), (bytes "2", bytes "b")]) :=
    ⟨by decide, nofun, by decide⟩
  obtain ⟨elems, hnodup, hscores, -⟩ :=
    zsetAnswers_of_reached rfl (fun _ _ => rfl) (.step .start ⟨hchanges, hown⟩ rfl)
  exact ⟨elems, hnodup, hscores⟩

/-- Of two members with the same score only one is listed. -/
theorem not_zsetAnswers_of_zadd_same :
  letI := Doubles.whole
  let lsm :=
    ((Command.zadd (bytes "k") [(bytes "1", bytes "a"), (bytes "1", bytes "b")]).exec 0 .empty).2
  ¬ ∃ elems : List Bytes,
    (∀ elem, elem ∈ elems ↔ ∃ score, ∀ now,
      ((Command.zscore (bytes "k") elem).exec now lsm).1 = .ok (bulkReply score)) ∧
    ∀ now, ((Command.zcard (bytes "k")).exec now lsm).1 = .ok (integerReply elems.length)
  := by
  let _ := Doubles.whole
  rintro lsm ⟨elems, hscores, hcount⟩
  have hexpire : lsm.get (getExplireKey (bytes "k")) = none := by decide +kernel
  have ha := (hscores (bytes "a")).mpr ((isSome_score_iff hexpire).mp (by decide +kernel))
  have hb := (hscores (bytes "b")).mpr ((isSome_score_iff hexpire).mp (by decide +kernel))
  have hone := (hcount 0).symm.trans (by decide +kernel : _ = Except.ok (integerReply 1))
  have hlength := Int.natCast_inj.mp (integerReply_injective (Except.ok.inj hone))
  obtain ⟨elem, rfl⟩ := List.length_eq_one_iff.mp hlength
  exact absurd ((List.mem_singleton.mp ha).trans (List.mem_singleton.mp hb).symm) (by decide)

end RedisWrapper

end TinyLsm
