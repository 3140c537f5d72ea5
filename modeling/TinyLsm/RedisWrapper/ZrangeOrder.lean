import TinyLsm.RedisWrapper.ScoreOrder

/-!
# Members in the order of the scores

A sorted set that ZADD builds from members with different scores, and what ZRANGE lists of it.
-/

namespace TinyLsm

namespace RedisWrapper

/-- The arguments of ZADD for members and their scores. -/
def scoreElems (members : List (Bytes × ℤ)) : List (Bytes × Bytes) :=
  members.map (fun p => (decimal p.2, p.1))

/-- Run ZADD after ZADD, each by a clock of its own. -/
def zaddAll [Doubles] (key : Bytes) (lsm : LSM) (batches : List (ℤ × List (Bytes × ℤ))) : LSM :=
  batches.foldl (fun lsm batch => ((Command.zadd key (scoreElems batch.2)).exec batch.1 lsm).2) lsm

/-- The members that the commands name. -/
def added (batches : List (ℤ × List (Bytes × ℤ))) : List (Bytes × ℤ) := batches.flatMap Prod.snd

/-- All members are listed, in ascending order of their scores. -/
def ListsByScore [Doubles] (key : Bytes) (lsm : LSM) (now : ℤ) (members : List (Bytes × ℤ)) :
    Prop :=
  ∃ sorted : List (Bytes × ℤ), sorted.Perm members ∧ sorted.Pairwise (fun p q => p.2 < q.2) ∧
    ((Command.zrange key (bytes "0") (bytes "-1")).exec now lsm).1 =
      .ok (arrayReply (sorted.map Prod.fst))

/-- No two negative scores have equally many digits, no member is the empty one, and the number
of the members fits `int`. -/
structure ScoresInOrder (members : List (Bytes × ℤ)) : Prop where
  widths : members.Pairwise (fun p q => ¬ SameWidth p.2 q.2)
  named : ∀ p ∈ members, p.1 ≠ []
  fits : members.length < 2 ^ 31

variable {key : Bytes} {lsm : LSM} {members : List (Bytes × ℤ)}

/-! ### What the commands store -/

theorem map_snd_scoreElems (members : List (Bytes × ℤ)) :
  (scoreElems members).map Prod.snd = members.map Prod.fst
  := List.map_map

theorem mem_scoreElems {score elem : Bytes} :
  (score, elem) ∈ scoreElems members ↔ ∃ n, (elem, n) ∈ members ∧ decimal n = score
  := by
  rw [scoreElems, List.mem_map]
  constructor
  · rintro ⟨⟨elem, n⟩, hp, heq⟩
    obtain ⟨rfl, rfl⟩ := Prod.mk.inj heq
    exact ⟨n, hp, rfl⟩
  · rintro ⟨n, hp, rfl⟩
    exact ⟨_, hp, rfl⟩

theorem scoreElems_append (members members' : List (Bytes × ℤ)) :
  scoreElems (members ++ members') = scoreElems members ++ scoreElems members'
  := List.map_append

/-- The scores after an assignment to members that had none. -/
theorem score_assignAll_scoreElems (helems : (members.map Prod.fst).Nodup)
    (hnew : ∀ p ∈ members, lsm.get (getZsetKeyElem key p.1) = none) (elem score : Bytes) :
  ((zsetIndex key lsm).assignAll formattedScore LSM.stored (scoreElems members)).score elem =
      some score ↔
    lsm.get (getZsetKeyElem key elem) = some score ∨ (score, elem) ∈ scoreElems members
  := by
  have hsnd : ((scoreElems members).map Prod.snd).Nodup := by
    rw [map_snd_scoreElems]
    exact helems
  apply Index.score_assignAll hsnd
  rintro ⟨score, elem⟩ hp
  obtain ⟨n, hmem, -⟩ := mem_scoreElems.mp hp
  exact hnew _ hmem

/-- Members that are not there are all added. -/
theorem newPairs_scoreElems (hnew : ∀ p ∈ members, lsm.get (getZsetKeyElem key p.1) = none) :
  newPairs key lsm (scoreElems members) = scoreElems members
  := by
  apply List.filter_eq_self.mpr
  rintro ⟨score, elem⟩ hp
  obtain ⟨n, hmem, -⟩ := mem_scoreElems.mp hp
  rw [hnew _ hmem]
  exact decide_eq_true nofun

/-- A run of ZADD with new members assigns all their scores. -/
theorem zsetIndex_zaddAll [Doubles] {batches : List (ℤ × List (Bytes × ℤ))}
    (helems : ((added batches).map Prod.fst).Nodup) :
  ∀ {lsm : LSM}, lsm.get (getExplireKey key) = none →
    (∀ p ∈ added batches, lsm.get (getZsetKeyElem key p.1) = none) →
    (zaddAll key lsm batches).get (getExplireKey key) = none ∧
      zsetIndex key (zaddAll key lsm batches) =
        (zsetIndex key lsm).assignAll formattedScore LSM.stored (scoreElems (added batches))
  := by
  induction batches with
  | nil => exact fun hexpire _ => ⟨hexpire, rfl⟩
  | cons batch batches ih =>
      intro lsm hexpire hnew
      rw [added, List.flatMap_cons, ← added] at helems hnew ⊢
      rw [List.map_append] at helems
      obtain ⟨hbatch, hrest, hdisjoint⟩ := List.nodup_append.mp helems
      have hnewBatch : ∀ p ∈ batch.2, lsm.get (getZsetKeyElem key p.1) = none :=
        fun p hp => hnew p (List.mem_append_left _ hp)
      have hscores : ∀ p ∈ scoreElems batch.2, p.1 ≠ [] := by
        rintro ⟨score, elem⟩ hp
        obtain ⟨n, -, rfl⟩ := mem_scoreElems.mp hp
        apply decimal_ne_nil
      obtain ⟨hexpire', hindex⟩ := exec_zadd hexpire batch.1 hscores
      rw [newPairs_scoreElems hnewBatch] at hindex
      rw [zaddAll, List.foldl_cons, ← zaddAll, scoreElems_append, Index.assignAll_append, ← hindex]
      apply ih hrest hexpire'
      intro p hp
      -- what the first command has stored are members of its own
      rw [Option.eq_none_iff_forall_ne_some]
      intro score hget
      change (zsetIndex key _).score p.1 = some score at hget
      rw [hindex, score_assignAll_scoreElems hbatch hnewBatch] at hget
      rcases hget with hold | hmem
      · cases (hnew p (List.mem_append_right _ hp)).symm.trans hold
      · obtain ⟨n, hmem, -⟩ := mem_scoreElems.mp hmem
        exact hdisjoint p.1 (List.mem_map.mpr ⟨_, hmem, rfl⟩) p.1 (List.mem_map_of_mem hp) rfl

/-- The store has the scores of the members, and its index no entries of others. -/
structure StoresScores (key : Bytes) (lsm : LSM) (members : List (Bytes × ℤ)) : Prop extends
    StoresZset key lsm where
  score_iff : ∀ elem score,
    lsm.get (getZsetKeyElem key elem) = some score ↔ (score, elem) ∈ scoreElems members
  complete : (∀ p ∈ members, p.1 ≠ []) → (zsetIndex key lsm).Complete formattedScore

/-- ZADD stores new members whose scores have different texts after the padding. -/
theorem storesScores_of_pairwise [Doubles] (hexpire : lsm.get (getExplireKey key) = none)
    (hempty : ∀ x, Under .sortedSet key x → lsm.get x = none)
    {batches : List (ℤ × List (Bytes × ℤ))} (helems : ((added batches).map Prod.fst).Nodup)
    (hpadded : (added batches).Pairwise (fun p q =>
      formattedScore (decimal p.2) ≠ formattedScore (decimal q.2))) :
  StoresScores key (zaddAll key lsm batches) (added batches)
  := by
  have hnone : ∀ elem, lsm.get (getZsetKeyElem key elem) = none :=
    fun elem => hempty _ (under_getZsetKeyElem key elem)
  obtain ⟨hexpire', hindex⟩ := zsetIndex_zaddAll helems hexpire (fun p _ => hnone p.1)
  refine ⟨⟨hexpire', ?_⟩, ?_, ?_⟩
  · rw [hindex]
    apply Index.NoStale.assignAll (fun _ _ => stored_eq_some)
    · intro formatted elem hentry
      have hget := hempty _ (under_of_scorePreffix (List.prefix_append _ formatted))
      cases hget.symm.trans hentry
    · intro p _ score hscore
      cases (hnone p.2).symm.trans hscore
    · rw [← map_snd_scoreElems] at helems
      exact (List.pairwise_map.mp helems).imp (fun hne heq => absurd heq hne)
  · intro elem score
    change (zsetIndex key _).score elem = some score ↔ _
    rw [hindex, score_assignAll_scoreElems helems (fun p _ => hnone p.1), hnone elem]
    exact or_iff_right nofun
  · intro hnamed
    rw [hindex]
    apply Index.Complete.assignAll
    · rintro ⟨score, elem⟩ hp
      obtain ⟨n, hmem, -⟩ := mem_scoreElems.mp hp
      exact LSM.stored_of_ne_nil (hnamed _ hmem)
    · intro elem score hscore
      cases (hnone elem).symm.trans hscore
    · intro p _ elem score _ hscore
      cases (hnone elem).symm.trans hscore
    · apply List.pairwise_map.mpr
      apply hpadded.imp
      exact fun hne _ => hne

theorem storesScores_zaddAll [Doubles] (hexpire : lsm.get (getExplireKey key) = none)
    (hempty : ∀ x, Under .sortedSet key x → lsm.get x = none)
    {batches : List (ℤ × List (Bytes × ℤ))} (helems : ((added batches).map Prod.fst).Nodup)
    (hscores : ((added batches).map Prod.snd).Nodup) (hfits : ∀ p ∈ added batches, FitsScore p.2) :
  StoresScores key (zaddAll key lsm batches) (added batches)
  := by
  apply storesScores_of_pairwise hexpire hempty helems
  apply List.Pairwise.imp_of_mem _ (List.pairwise_map.mp hscores)
  exact fun hp hq hne => formattedScore_ne (hfits _ hp) (hfits _ hq) hne

/-! ### What ZRANGE lists -/

/-- The entry of a member in the index. -/
def entryOf (key : Bytes) (p : Bytes × ℤ) : Bytes × Bytes :=
  (getZsetKeySocre key (decimal p.2), p.1)

/-- The keys of two entries are in the order of the padded scores. -/
theorem entryOf_lt_iff {p q : Bytes × ℤ} :
  (entryOf key p).1 < (entryOf key q).1 ↔
    formattedScore (decimal p.2) < formattedScore (decimal q.2)
  := by
  constructor
  · intro h
    rcases lt_trichotomy (formattedScore (decimal p.2)) (formattedScore (decimal q.2)) with
      hlt | heq | hgt
    · exact hlt
    · exact absurd h (by rw [entryOf, entryOf, getZsetKeySocre, heq]; exact lt_irrefl _)
    · exact absurd (List.append_left_lt hgt) (lt_asymm h)
  · exact List.append_left_lt

namespace StoresScores

variable (h : StoresScores key lsm members)

include h

/-- What is listed are entries of members. -/
theorem exists_of_mem_query {q : Bytes × Bytes}
    (hq : q ∈ lsm.query (preffixPredicate (getZsetScorePreffix key))) :
  ∃ p ∈ members, entryOf key p = q
  := by
  obtain ⟨hget, hpredicate⟩ := LSM.mem_query.mp hq
  obtain ⟨formatted, hformatted⟩ := preffixPredicate_eq_zero.mp hpredicate
  rw [← hformatted] at hget
  obtain ⟨score, hscore, hkey⟩ := h.noStale formatted q.2 hget
  obtain ⟨n, hmem, rfl⟩ := mem_scoreElems.mp ((h.score_iff q.2 score).mp hscore)
  refine ⟨_, hmem, Prod.ext ?_ rfl⟩
  rw [← hformatted, ← hkey]
  rfl

/-- If no member is the empty one, all have entries. -/
theorem mem_query (hnamed : ∀ p ∈ members, p.1 ≠ []) {p : Bytes × ℤ} (hp : p ∈ members) :
  entryOf key p ∈ lsm.query (preffixPredicate (getZsetScorePreffix key))
  := by
  have hscore := (h.score_iff p.1 (decimal p.2)).mpr (mem_scoreElems.mpr ⟨p.2, hp, rfl⟩)
  apply LSM.mem_query.mpr
  exact ⟨h.complete hnamed p.1 _ hscore,
    preffixPredicate_eq_zero.mpr (scorePreffix_getZsetKeySocre key _)⟩

theorem length_indexedElems_le : (indexedElems key lsm).length ≤ members.length
  := by
  have hnodup := (noStaleEntry_iff.mpr h.noStale).nodup_indexedElems
  rw [← members.length_map Prod.fst]
  apply (List.subperm_of_subset hnodup _).length_le
  intro elem helem
  obtain ⟨q, hq, rfl⟩ := List.mem_map.mp helem
  obtain ⟨p, hp, rfl⟩ := h.exists_of_mem_query hq
  exact List.mem_map_of_mem hp

/-- Members in the order of the padded scores are the ones that are listed. -/
theorem indexedElems_eq (hnamed : ∀ p ∈ members, p.1 ≠ []) {sorted : List (Bytes × ℤ)}
    (hperm : sorted.Perm members)
    (hsorted : sorted.Pairwise (fun p q =>
      formattedScore (decimal p.2) < formattedScore (decimal q.2))) :
  indexedElems key lsm = sorted.map Prod.fst
  := by
  have hascending : (sorted.map (entryOf key)).Pairwise (fun p q => p.1 < q.1) :=
    List.pairwise_map.mpr (hsorted.imp entryOf_lt_iff.mpr)
  have hquery : lsm.query (preffixPredicate (getZsetScorePreffix key)) =
      sorted.map (entryOf key) := by
    apply (lsm.query_ascending _).eq_of_mem_iff hascending
    intro q
    rw [List.mem_map]
    constructor
    · intro hq
      obtain ⟨p, hp, heq⟩ := h.exists_of_mem_query hq
      exact ⟨p, hperm.mem_iff.mpr hp, heq⟩
    · rintro ⟨p, hp, rfl⟩
      apply h.mem_query hnamed (hperm.mem_iff.mp hp)
  rw [indexedElems, hquery, List.map_map]
  rfl

/-- Members that are listed are in the order of the padded scores. -/
theorem pairwise_of_indexedElems_eq {sorted : List (Bytes × ℤ)} (hperm : sorted.Perm members)
    (hlisted : indexedElems key lsm = sorted.map Prod.fst) :
  sorted.Pairwise (fun p q => formattedScore (decimal p.2) < formattedScore (decimal q.2))
  := by
  let stored (elem : Bytes) : Bytes × Bytes :=
    (getZsetKeySocre key ((lsm.get (getZsetKeyElem key elem)).getD []), elem)
  have hstored : ∀ p ∈ members, stored p.1 = entryOf key p := by
    intro p hp
    have hscore := (h.score_iff p.1 (decimal p.2)).mpr (mem_scoreElems.mpr ⟨p.2, hp, rfl⟩)
    dsimp only [stored]
    rw [hscore]
    rfl
  have hquery : sorted.map (entryOf key) =
      lsm.query (preffixPredicate (getZsetScorePreffix key)) := by
    calc
      sorted.map (entryOf key)
        = sorted.map (stored ∘ Prod.fst) :=
          List.map_congr_left (fun p hp => (hstored p (hperm.mem_iff.mp hp)).symm)
      _ = (indexedElems key lsm).map stored := by rw [hlisted, List.map_map]
      _ = (lsm.query (preffixPredicate (getZsetScorePreffix key))).map (stored ∘ Prod.snd) :=
          List.map_map
      _ = (lsm.query (preffixPredicate (getZsetScorePreffix key))).map id := by
          apply List.map_congr_left
          intro q hq
          obtain ⟨p, hp, rfl⟩ := h.exists_of_mem_query hq
          apply hstored p hp
      _ = lsm.query (preffixPredicate (getZsetScorePreffix key)) := List.map_id _
  have hascending := lsm.query_ascending (preffixPredicate (getZsetScorePreffix key))
  rw [← hquery, List.pairwise_map] at hascending
  exact hascending.imp entryOf_lt_iff.mp

end StoresScores

section

variable [Doubles] (hexpire : lsm.get (getExplireKey key) = none) (now : ℤ)

include hexpire

theorem exec_zrange_all (hfits : (indexedElems key lsm).length < 2 ^ 31) :
  ((Command.zrange key (bytes "0") (bytes "-1")).exec now lsm).1 =
    .ok (arrayReply (indexedElems key lsm))
  := by
  rw [exec_zrange hexpire (i := 0) (j := -1) (by decide) (by decide)]
  dsimp only
  split
  next hnil => rw [hnil]
  next hne => rw [rangeReply_all hne hfits]

/-- ZRANGE does not list more than `int` counts. -/
theorem length_lt_of_exec_zrange_all {elems : List Bytes}
    (h : ((Command.zrange key (bytes "0") (bytes "-1")).exec now lsm).1 = .ok (arrayReply elems)) :
  elems.length < 2 ^ 31
  := by
  rw [exec_zrange hexpire (i := 0) (j := -1) (by decide) (by decide)] at h
  dsimp only at h
  split at h
  next =>
    rw [← arrayReply_injective (Except.ok.inj h)]
    exact Nat.two_pow_pos 31
  next =>
    rw [rangeReply_eq_between (by decide) (by decide)] at h
    split at h
    next => cases h
    next hne =>
      have hlt := heldStop_lt (indexedElems key lsm) (-1)
      rw [← arrayReply_injective (Except.ok.inj h), length_between]
      omega

end

/-! ### Sorted sets that ZADD builds -/

/-- Members with different scores have an order by their scores. -/
theorem exists_sorted (hscores : (members.map Prod.snd).Nodup) :
  ∃ sorted : List (Bytes × ℤ), sorted.Perm members ∧ sorted.Pairwise (fun p q => p.2 < q.2)
  := by
  have hperm := List.perm_insertionSort (fun p q : Bytes × ℤ => p.2 ≤ q.2) members
  have hle := List.pairwise_insertionSort (fun p q : Bytes × ℤ => p.2 ≤ q.2) members
  have hne := (hperm.pairwise_iff Ne.symm).mpr (List.pairwise_map.mp hscores)
  exact ⟨_, hperm, (hle.and hne).imp (fun h => lt_of_le_of_ne h.1 h.2)⟩

namespace StoresScores

variable [Doubles] (h : StoresScores key lsm members) (hfits : ∀ p ∈ members, FitsScore p.2)

include h hfits

theorem scoresInOrder {now : ℤ} (hlists : ListsByScore key lsm now members) :
  ScoresInOrder members
  := by
  obtain ⟨sorted, hperm, hsorted, hreply⟩ := hlists
  have hcount := length_lt_of_exec_zrange_all h.expire now hreply
  rw [List.length_map, hperm.length_eq] at hcount
  rw [exec_zrange_all h.expire now (lt_of_le_of_lt h.length_indexedElems_le hcount)] at hreply
  have hlisted := arrayReply_injective (Except.ok.inj hreply)
  have hpadded := h.pairwise_of_indexedElems_eq hperm hlisted
  refine ⟨?_, ?_, hcount⟩
  · apply (hperm.pairwise_iff (fun hne hsame => hne hsame.symm)).mp
    apply (hsorted.and hpadded).imp_of_mem
    rintro p q hp hq ⟨hlt, hpaddedlt⟩ hsame
    rw [formattedScore_lt_iff (hfits p (hperm.mem_iff.mp hp)) (hfits q (hperm.mem_iff.mp hq)),
      if_pos hsame] at hpaddedlt
    exact absurd hlt (lt_asymm hpaddedlt)
  · intro p hp
    have hmem : p.1 ∈ indexedElems key lsm := by
      rw [hlisted]
      exact List.mem_map_of_mem (hperm.mem_iff.mpr hp)
    obtain ⟨formatted, hentry⟩ := mem_indexedElems.mp hmem
    exact LSM.ne_nil_of_get hentry

theorem listsByScore (hscores : (members.map Prod.snd).Nodup) (horder : ScoresInOrder members)
    (now : ℤ) :
  ListsByScore key lsm now members
  := by
  obtain ⟨sorted, hperm, hsorted⟩ := exists_sorted hscores
  have hwidths := (hperm.pairwise_iff (fun hne hsame => hne hsame.symm)).mpr horder.widths
  have hpadded : sorted.Pairwise (fun p q =>
      formattedScore (decimal p.2) < formattedScore (decimal q.2)) := by
    apply (hsorted.and hwidths).imp_of_mem
    rintro p q hp hq ⟨hlt, hdifferent⟩
    rw [formattedScore_lt_iff (hfits p (hperm.mem_iff.mp hp)) (hfits q (hperm.mem_iff.mp hq)),
      if_neg hdifferent]
    exact hlt
  refine ⟨sorted, hperm, hsorted, ?_⟩
  rw [exec_zrange_all h.expire now (lt_of_le_of_lt h.length_indexedElems_le horder.fits),
    h.indexedElems_eq horder.named hperm hpadded]

end StoresScores

/-- In every run of ZADD on a key where no sorted set is stored, with different members and
different scores of up to eighteen digits, ZRANGE lists the members in the order of the scores if
and only if no two negative scores have equally many digits, no member is the empty one and their
number fits `int`. -/
theorem listsByScore_iff [Doubles] (hexpire : lsm.get (getExplireKey key) = none)
    (hempty : ∀ x, Under .sortedSet key x → lsm.get x = none)
    {batches : List (ℤ × List (Bytes × ℤ))} (helems : ((added batches).map Prod.fst).Nodup)
    (hscores : ((added batches).map Prod.snd).Nodup)
    (hdigits : ∀ p ∈ added batches, p.2.natAbs < 10 ^ 18) (now : ℤ) :
  ListsByScore key (zaddAll key lsm batches) now (added batches) ↔ ScoresInOrder (added batches)
  := by
  have hfits : ∀ p ∈ added batches, FitsScore p.2 := fun p hp => fitsScore_of_lt (hdigits p hp)
  have hstores := storesScores_zaddAll hexpire hempty helems hscores hfits
  exact ⟨hstores.scoresInOrder hfits, fun horder => hstores.listsByScore hfits hscores horder now⟩

theorem listsByScore_iff_two :
  letI := Doubles.whole
  let batches : List (ℤ × List (Bytes × ℤ)) :=
    [(0, [(bytes "a", 10), (bytes "b", -5)]), (1, [(bytes "c", -70)])]
  ListsByScore (bytes "k") (zaddAll (bytes "k") .empty batches) 2 (added batches) ↔
    ScoresInOrder (added batches)
  := by
  let _ := Doubles.whole
  exact listsByScore_iff rfl (fun _ _ => rfl) (by decide) (by decide) (by decide) 2

/-- Of two negative scores with one digit each, the greater one is listed first. -/
theorem not_listsByScore_negative :
  letI := Doubles.whole
  let members : List (Bytes × ℤ) := [(bytes "a", -3), (bytes "b", -5)]
  let lsm := zaddAll (bytes "k") .empty [(0, members)]
  ((Command.zrange (bytes "k") (bytes "0") (bytes "-1")).exec 1 lsm).1 =
      .ok (arrayReply [bytes "a", bytes "b"]) ∧
    ¬ ListsByScore (bytes "k") lsm 1 members
  := by
  let _ := Doubles.whole
  intro members lsm
  have hreply : ((Command.zrange (bytes "k") (bytes "0") (bytes "-1")).exec 1 lsm).1 =
      .ok (arrayReply [bytes "a", bytes "b"]) := by
    decide +kernel
  refine ⟨hreply, ?_⟩
  rintro ⟨sorted, hperm, hsorted, hlisted⟩
  rw [hreply] at hlisted
  have hswap : sorted = [(bytes "b", -5), (bytes "a", -3)] := by
    apply (hperm.trans (List.Perm.swap _ _ _)).eq_of_pairwise _ hsorted (by decide)
    exact fun _ _ _ _ hlt hgt => absurd hlt (lt_asymm hgt)
  rw [hswap] at hlisted
  exact absurd (arrayReply_injective (Except.ok.inj hlisted)) (by decide)

end RedisWrapper

end TinyLsm
