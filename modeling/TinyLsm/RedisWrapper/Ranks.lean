import TinyLsm.RedisWrapper.ZrangeOrder

/-!
# Ranks

ZRANK looks for the entry of a member in the index among all that is stored under the prefix of
its sorted set.  The keys of the members are stored there as well, before the index, and so what
it answers is the place in the index, counted on from the number of the members.
-/

namespace TinyLsm

namespace RedisWrapper

variable {key : Bytes} {lsm : LSM} {members : List (Bytes × ℤ)}

/-! ### What is stored under the prefix -/

/-- Under the prefix of a sorted set nothing is stored but its members and its index. -/
def StoresOnlyZset (key : Bytes) (lsm : LSM) : Prop :=
  ∀ x, Under .sortedSet key x → ¬ getZsetElemPreffix key <+: x → ¬ getZsetScorePreffix key <+: x →
    lsm.get x = none

theorem StoresOnlyZset.zaddAll [Doubles] {batches : List (ℤ × List (Bytes × ℤ))} :
  ∀ {lsm : LSM}, StoresOnlyZset key lsm → lsm.get (getExplireKey key) = none →
    StoresOnlyZset key (zaddAll key lsm batches)
  := by
  induction batches with
  | nil => exact fun h _ => h
  | cons batch batches ih =>
      intro lsm h hexpire
      have hscores : ∀ p ∈ scoreElems batch.2, p.1 ≠ [] := by
        rintro ⟨score, elem⟩ hp
        obtain ⟨n, -, rfl⟩ := mem_scoreElems.mp hp
        apply decimal_ne_nil
      rw [RedisWrapper.zaddAll, List.foldl_cons, ← RedisWrapper.zaddAll]
      apply ih _ (exec_zadd hexpire batch.1 hscores).1
      intro x hx helem hscore
      rw [Command.exec, Command.program, run_redisZadd (.inl hexpire)]
      dsimp only
      rw [LSM.get_putBatch_of_notMem, h x hx helem hscore]
      intro kv hkv
      rcases List.mem_append.mp hkv with hkv | hkv
      · rw [keyKvs] at hkv
        split at hkv
        next => cases hkv
        next =>
          rw [List.mem_singleton.mp hkv]
          exact hx.ne_key.symm
      · obtain ⟨p, -, hp⟩ := List.mem_flatMap.mp hkv
        rcases List.mem_pair.mp hp with rfl | rfl
        · rintro rfl
          exact hscore (scorePreffix_getZsetKeySocre key p.1)
        · rintro rfl
          exact helem (elemPreffix_getZsetKeyElem key p.2)

/-- The keys of the members come before the index. -/
theorem elem_lt_score {x y : Bytes} (hx : getZsetElemPreffix key <+: x)
    (hy : getZsetScorePreffix key <+: y) :
  x < y
  := by
  obtain ⟨rest, rfl⟩ := hx
  obtain ⟨rest', rfl⟩ := hy
  rw [getZsetElemPreffix_eq, getZsetScorePreffix_eq, List.append_assoc, List.append_assoc]
  apply List.append_left_lt
  exact List.cons_lt_cons_iff.mpr (.inl (by decide))

theorem StoresOnlyZset.query_eq (h : StoresOnlyZset key lsm) :
  lsm.query (preffixPredicate (getZsetKeyPreffix key)) =
    lsm.query (preffixPredicate (getZsetElemPreffix key)) ++
      lsm.query (preffixPredicate (getZsetScorePreffix key))
  := by
  have hascending : (lsm.query (preffixPredicate (getZsetElemPreffix key)) ++
      lsm.query (preffixPredicate (getZsetScorePreffix key))).Pairwise
        (fun p q => p.1 < q.1) := by
    apply List.pairwise_append.mpr ⟨lsm.query_ascending _, lsm.query_ascending _, _⟩
    intro p hp q hq
    exact elem_lt_score (preffixPredicate_eq_zero.mp (LSM.mem_query.mp hp).2)
      (preffixPredicate_eq_zero.mp (LSM.mem_query.mp hq).2)
  apply (lsm.query_ascending _).eq_of_mem_iff hascending
  intro p
  rw [List.mem_append, LSM.mem_query, LSM.mem_query, LSM.mem_query, preffixPredicate_eq_zero,
    preffixPredicate_eq_zero, preffixPredicate_eq_zero, ← and_or_left]
  apply and_congr_right
  intro hget
  constructor
  · intro hunder
    by_contra hnone
    rw [not_or] at hnone
    cases hget.symm.trans (h p.1 hunder hnone.1 hnone.2)
  · rintro (helem | hscore)
    · exact under_of_elemPreffix helem
    · exact under_of_scorePreffix hscore

/-! ### The place of a score -/

/-- The place of the entry of a score. -/
def placeOf (key score : Bytes) (entries : List (Bytes × Bytes)) : ℕ :=
  entries.findIdx (fun e => decide (e.1 = getZsetKeySocre key score))

/-- ZRANK of a member. -/
theorem run_redisZrank {w : World} (h : Unexpired key w) {elem score : Bytes}
    (hget : w.lsm.get (getZsetKeyElem key elem) = some score) :
  let entries := w.lsm.query (preffixPredicate (getZsetKeyPreffix key))
  Redis.run (redisZrank key elem) w =
    ((checkedSigned 32 (placeOf key score entries)).map (fun counted =>
      if placeOf key score entries = entries.length then nilReply else integerReply counted), w)
  := by
  rw [redisZrank, Redis.run_lock, expireZsetClean,
    Redis.run_bind_of_ok (run_expireClean_of_unexpired h _)]
  simp only [Bool.false_eq_true, if_false, Redis.run_get, hget, Redis.run_itersMonotonyPredicate]
  rw [LSM.query]
  cases w.lsm.itersMonotonyPredicate (preffixPredicate (getZsetKeyPreffix key)) with
  | none =>
      have hzero : checkedSigned 32 ((0 : ℕ) : ℤ) = .ok 0 := if_pos ⟨by decide, by decide⟩
      have hplace : placeOf key score ((none : Option _).getD []) = 0 := rfl
      dsimp only
      rw [hplace, hzero]
      rfl
  | some entries =>
      dsimp only
      rw [Option.getD_some, ← placeOf]
      cases hcount : checkedSigned 32 (placeOf key score entries) with
      | error e => rw [Redis.run_bind_of_error (by rw [Redis.run_done])]; rfl
      | ok counted =>
          rw [Redis.run_bind_of_ok (by rw [Redis.run_done])]
          split
          next => rfl
          next => rfl

namespace StoresScores

variable (h : StoresScores key lsm members) (helems : (members.map Prod.fst).Nodup)

include h helems

/-- The members have one key each. -/
theorem length_query_elem :
  (lsm.query (preffixPredicate (getZsetElemPreffix key))).length = members.length
  := by
  have hperm : (lsm.query (preffixPredicate (getZsetElemPreffix key))).Perm
      (members.map (fun p => (getZsetKeyElem key p.1, decimal p.2))) := by
    apply (List.perm_ext_iff_of_nodup _ _).mpr
    · rintro ⟨x, score⟩
      rw [LSM.mem_query, preffixPredicate_eq_zero, List.mem_map]
      constructor
      · rintro ⟨hget, elem, rfl⟩
        obtain ⟨n, hmem, rfl⟩ := mem_scoreElems.mp ((h.score_iff elem score).mp hget)
        exact ⟨_, hmem, rfl⟩
      · rintro ⟨p, hp, heq⟩
        obtain ⟨rfl, rfl⟩ := Prod.mk.inj heq
        exact ⟨(h.score_iff p.1 _).mpr (mem_scoreElems.mpr ⟨p.2, hp, rfl⟩),
          elemPreffix_getZsetKeyElem key p.1⟩
    · apply (lsm.query_ascending _).imp
      rintro p q hlt rfl
      exact lt_irrefl _ hlt
    · apply List.pairwise_map.mpr
      apply (List.pairwise_map.mp helems).imp
      intro p q hne heq
      exact hne (getZsetKeyElem_injective key (Prod.mk.inj heq).1)
  rw [hperm.length_eq, List.length_map]

/-- Under the prefix, the entries of the index come after those of the members. -/
theorem placeOf_query (honly : StoresOnlyZset key lsm) (score : Bytes) :
  placeOf key score (lsm.query (preffixPredicate (getZsetKeyPreffix key))) =
    members.length + placeOf key score (lsm.query (preffixPredicate (getZsetScorePreffix key)))
  := by
  have hnone : (lsm.query (preffixPredicate (getZsetElemPreffix key))).findIdx
      (fun e => decide (e.1 = getZsetKeySocre key score)) = members.length := by
    rw [← h.length_query_elem helems]
    apply List.findIdx_eq_length.mpr
    intro e he
    apply decide_eq_false
    intro heq
    have helem := preffixPredicate_eq_zero.mp (LSM.mem_query.mp he).2
    rw [heq] at helem
    exact not_elemPreffix_of_scorePreffix (scorePreffix_getZsetKeySocre key score) helem
  rw [placeOf, honly.query_eq, List.findIdx_append, hnone, h.length_query_elem helems,
    if_neg (lt_irrefl _), Nat.add_comm, ← placeOf]

theorem exec_zrank [Doubles] (honly : StoresOnlyZset key lsm) {p : Bytes × ℤ} (hp : p ∈ members)
    (now : ℤ) :
  ((Command.zrank key p.1).exec now lsm).1 =
    let place := placeOf key (decimal p.2) (lsm.query (preffixPredicate (getZsetScorePreffix key)))
    (checkedSigned 32 (members.length + place : ℕ)).map (fun counted =>
      if place = (indexedElems key lsm).length then nilReply else integerReply counted)
  := by
  have hscore := (h.score_iff p.1 (decimal p.2)).mpr (mem_scoreElems.mpr ⟨p.2, hp, rfl⟩)
  rw [Command.exec, Command.program, run_redisZrank (.inl h.expire) hscore]
  dsimp only
  rw [h.placeOf_query helems honly, honly.query_eq, List.length_append,
    h.length_query_elem helems, indexedElems, List.length_map]
  simp only [Nat.add_left_cancel_iff]

end StoresScores

/-! ### The place in the order of the scores -/

/-- ZRANK answers the place of each member in what ZRANGE lists, and nil for all others. -/
def RanksByPlace [Doubles] (key : Bytes) (lsm : LSM) (now : ℤ) (members : List (Bytes × ℤ)) :
    Prop :=
  ∃ listed : List Bytes,
    ((Command.zrange key (bytes "0") (bytes "-1")).exec now lsm).1 = .ok (arrayReply listed) ∧
      ∀ elem, (elem ∈ members.map Prod.fst → ∃ i : ℕ, listed[i]? = some elem ∧
          ((Command.zrank key elem).exec now lsm).1 = .ok (integerReply i)) ∧
        (((Command.zrank key elem).exec now lsm).1 = .ok nilReply ↔ elem ∉ members.map Prod.fst)

namespace StoresScores

variable [Doubles] (h : StoresScores key lsm members)

include h

/-- ZRANGE lists no more than the members. -/
theorem length_le_of_exec_zrange {now : ℤ} {listed : List Bytes}
    (hreply : ((Command.zrange key (bytes "0") (bytes "-1")).exec now lsm).1 =
      .ok (arrayReply listed)) :
  listed.length ≤ members.length
  := by
  have hle := h.length_indexedElems_le
  rcases lt_or_ge (indexedElems key lsm).length (2 ^ 31) with hfits | hover
  · rw [exec_zrange_all h.expire now hfits] at hreply
    rwa [← arrayReply_injective (Except.ok.inj hreply)]
  · have hlt := length_lt_of_exec_zrange_all h.expire now hreply
    omega

/-- The answer for a member is not less than the number of the members. -/
theorem members_eq_nil (helems : (members.map Prod.fst).Nodup) (honly : StoresOnlyZset key lsm)
    {now : ℤ} (hranks : RanksByPlace key lsm now members) :
  members = []
  := by
  obtain ⟨listed, hlisted, hranks⟩ := hranks
  have hle := h.length_le_of_exec_zrange hlisted
  apply List.eq_nil_iff_forall_not_mem.mpr
  intro p hp
  obtain ⟨hplace, hnil⟩ := hranks p.1
  have hmem : p.1 ∈ members.map Prod.fst := List.mem_map_of_mem hp
  obtain ⟨i, hi, hreply⟩ := hplace hmem
  have hlt := (List.getElem?_eq_some_iff.mp hi).1
  have hrank := h.exec_zrank helems honly hp now
  dsimp only at hrank
  generalize hcount : checkedSigned 32 _ = count at hrank
  cases count with
  | error e => cases hreply.symm.trans hrank
  | ok counted =>
      obtain rfl := eq_of_checkedSigned hcount
      dsimp only [Except.map] at hrank
      split at hrank
      next => exact hnil.mp hrank hmem
      next =>
        have heq := integerReply_injective (Except.ok.inj (hreply.symm.trans hrank))
        omega

theorem ranksByPlace_of_nil (hnil : members = []) (now : ℤ) : RanksByPlace key lsm now members
  := by
  have hle := h.length_indexedElems_le
  rw [hnil, List.length_nil] at hle
  refine ⟨indexedElems key lsm, exec_zrange_all h.expire now (by omega), ?_⟩
  intro elem
  have hnone : lsm.get (getZsetKeyElem key elem) = none := by
    rw [Option.eq_none_iff_forall_ne_some]
    intro score hget
    have hmem := (h.score_iff elem score).mp hget
    rw [hnil] at hmem
    cases hmem
  rw [hnil]
  refine ⟨nofun, ?_⟩
  rw [Command.exec, Command.program, run_redisZrank_of_none (.inl h.expire) hnone]
  exact iff_of_true rfl List.not_mem_nil

end StoresScores

/-- Different numbers that are not negative have different texts after the padding, whatever their
length. -/
theorem formattedScore_ne_of_nonneg {m n : ℤ} (hm : 0 ≤ m) (hn : 0 ≤ n) (hne : m ≠ n) :
  formattedScore (decimal m) ≠ formattedScore (decimal n)
  := by
  intro heq
  rw [decimal_of_nonneg hm, decimal_of_nonneg hn] at heq
  have hnumber := congrArg decimalDigits.number heq
  rw [formattedScore, formattedScore] at hnumber
  change decimalDigits.number (List.leftpad _ decimalDigits.zero _) =
    decimalDigits.number (List.leftpad _ decimalDigits.zero _) at hnumber
  rw [decimalDigits.number_leftpad, decimalDigits.number_leftpad, number_natDecimal,
    number_natDecimal] at hnumber
  omega

/-- In every run of ZADD on a key where no sorted set is stored, with different members and
different scores that are not negative, ZRANK answers the places of the members in what ZRANGE
lists if and only if there are no members. -/
theorem ranksByPlace_iff [Doubles] (hexpire : lsm.get (getExplireKey key) = none)
    (hempty : ∀ x, Under .sortedSet key x → lsm.get x = none)
    {batches : List (ℤ × List (Bytes × ℤ))} (helems : ((added batches).map Prod.fst).Nodup)
    (hscores : ((added batches).map Prod.snd).Nodup) (hnonneg : ∀ p ∈ added batches, 0 ≤ p.2)
    (now : ℤ) :
  RanksByPlace key (zaddAll key lsm batches) now (added batches) ↔ added batches = []
  := by
  have hstores : StoresScores key (zaddAll key lsm batches) (added batches) := by
    apply storesScores_of_pairwise hexpire hempty helems
    apply List.Pairwise.imp_of_mem _ (List.pairwise_map.mp hscores)
    exact fun hp hq hne => formattedScore_ne_of_nonneg (hnonneg _ hp) (hnonneg _ hq) hne
  have honly : StoresOnlyZset key (zaddAll key lsm batches) :=
    StoresOnlyZset.zaddAll (fun x hx _ _ => hempty x hx) hexpire
  exact ⟨hstores.members_eq_nil helems honly, fun hnil => hstores.ranksByPlace_of_nil hnil now⟩

/-- A sorted set without members, beside another one. -/
theorem ranksByPlace_iff_nil :
  letI := Doubles.whole
  let lsm := zaddAll (bytes "j") .empty [(0, [(bytes "a", 10), (bytes "b", 5)])]
  RanksByPlace (bytes "k") (zaddAll (bytes "k") lsm [(1, [])]) 2 (added [(1, [])])
  := by
  let _ := Doubles.whole
  intro lsm
  have hnone : ∀ p ∈ lsm.map.pairs, ¬ Under .sortedSet (bytes "k") p.1 := by
    decide +kernel
  have hempty : ∀ x, Under .sortedSet (bytes "k") x → lsm.get x = none := by
    intro x hx
    rw [Option.eq_none_iff_forall_ne_some]
    intro value hget
    exact hnone (x, value) (OrderedMap.lookup_eq_some_iff.mp hget) hx
  apply (ranksByPlace_iff (by decide +kernel) hempty (by decide) (by decide) (by decide) 2).mpr
  rfl

/-- The first of two members has the rank `2`. -/
theorem not_ranksByPlace :
  letI := Doubles.whole
  let members : List (Bytes × ℤ) := [(bytes "a", 10), (bytes "b", 20)]
  let lsm := zaddAll (bytes "k") .empty [(0, members)]
  ((Command.zrange (bytes "k") (bytes "0") (bytes "-1")).exec 1 lsm).1 =
      .ok (arrayReply [bytes "a", bytes "b"]) ∧
    ((Command.zrank (bytes "k") (bytes "a")).exec 1 lsm).1 = .ok (integerReply 2) ∧
    ¬ RanksByPlace (bytes "k") lsm 1 members
  := by
  let _ := Doubles.whole
  intro members lsm
  have hlisted : ((Command.zrange (bytes "k") (bytes "0") (bytes "-1")).exec 1 lsm).1 =
      .ok (arrayReply [bytes "a", bytes "b"]) := by
    decide +kernel
  have hrank : ((Command.zrank (bytes "k") (bytes "a")).exec 1 lsm).1 = .ok (integerReply 2) := by
    decide +kernel
  refine ⟨hlisted, hrank, ?_⟩
  rintro ⟨listed, hreply, hranks⟩
  obtain rfl := arrayReply_injective (Except.ok.inj (hlisted.symm.trans hreply))
  obtain ⟨i, hi, hplace⟩ := (hranks (bytes "a")).1 (by decide)
  have heq := integerReply_injective (Except.ok.inj (hrank.symm.trans hplace))
  obtain rfl : i = 2 := by omega
  cases hi

end RedisWrapper

end TinyLsm
