import TinyLsm.Server.Returns

/-!
# Commands that return

A command returns unless it reads a number or the fields of a hash where there is none, or computes
a number that does not fit.  What that comes to is a condition on the arguments and on the store
before the command.
-/

namespace TinyLsm

namespace Server

open RedisWrapper TomlConfig

/-! ### Ranges -/

/-- The position after a range, if it is not empty, can be counted. -/
def RangeFits (elements : List Bytes) (start stop : ℤ) : Prop :=
  rangeStart elements start ≤ rangeStop elements stop → rangeStop elements stop ≠ 2 ^ 31 - 1

theorem rangeReply_eq_ok_iff {elements : List Bytes} {start stop : ℤ} :
  (∃ reply, rangeReply elements start stop = .ok reply) ↔ RangeFits elements start stop
  := by
  rw [rangeReply_eq, RangeFits]
  split
  next hlt =>
    apply iff_of_true ⟨_, rfl⟩
    exact fun hle => absurd hlt (not_lt_of_ge hle)
  next hle =>
    split
    next heq =>
      apply iff_of_false
      · rintro ⟨reply, h⟩
        cases h
      · exact fun h => h (not_lt.mp hle) heq
    next hne => exact iff_of_true ⟨_, rfl⟩ (fun _ => hne)

theorem rangeFits_nil (start stop : ℤ) : RangeFits [] start stop
  := by
  intro hle
  have hstart := rangeStart_nonneg [] start
  have hstop : rangeStop [] stop = -1 := by
    rw [rangeStop, List.length_nil, if_pos (Nat.zero_le _)]
    rfl
  omega

/-! ### Commands on lists -/

section

variable {key : Bytes} {w : World}

theorem returns_redisPush_iff (joined : Bytes → Bytes → Bytes) (value : Bytes) :
  Returns (redisPush joined key value) w ↔ ReadableExpiry key w
  := returns_iff_readableExpiry rfl (run_cleanList_eq_ok key) (fun _ => ⟨_, _, rfl⟩)
    (fun _ => ⟨_, _, rfl⟩)

theorem returns_redisPop_iff (taken : List Bytes → Option (Bytes × List Bytes)) :
  Returns (redisPop taken key) w ↔ ReadableExpiry key w
  := by
  apply returns_iff_readableExpiry rfl (run_cleanList_eq_ok key) (fun _ => returns_pure _)
  intro w'
  simp only [Bool.false_eq_true, if_false, returns_unlock, returns_lock, returns_get]
  split
  next => apply returns_pure
  next list _ =>
    split
    next => apply returns_pure
    next value elements _ =>
      split
      · apply returns_pure
      · apply returns_pure

theorem returns_redisLlen_iff : Returns (redisLlen key) w ↔ ReadableExpiry key w
  := by
  apply returns_iff_readableExpiry rfl (run_cleanList_eq_ok key) (fun _ => returns_pure _)
  intro w'
  simp only [Bool.false_eq_true, if_false, returns_get]
  split
  · apply returns_pure
  · apply returns_pure

theorem returns_redisLrange_iff {start stop : ℤ} :
  Returns (redisLrange key start stop) w ↔ ReadableExpiry key w ∧
    (Unexpired key w →
      RangeFits (split ((w.lsm.get key).getD []) getInstance.redisListSeparator) start stop)
  := by
  rw [redisLrange, expireListClean,
    returns_cleaning_iff rfl (run_cleanList_eq_ok key) (fun _ => returns_pure _)]
  apply and_congr_right
  intro _
  apply imp_congr_right
  intro _
  simp only [Bool.false_eq_true, if_false, returns_get]
  cases w.lsm.get key with
  | none => exact iff_of_true (returns_pure _) (rangeFits_nil start stop)
  | some list =>
      simp only [Option.getD_some]
      split
      next hnil =>
        rw [hnil]
        exact iff_of_true (returns_pure _) (rangeFits_nil start stop)
      next => rw [returns_done_iff, rangeReply_eq_ok_iff]

theorem returns_lrange_iff {start stop : Bytes} :
  Returns (RedisWrapper.lrange key start stop) w ↔ ∃ i j, stoi start = .ok i ∧ stoi stop = .ok j ∧
    ReadableExpiry key w ∧ (Unexpired key w →
      RangeFits (split ((w.lsm.get key).getD []) getInstance.redisListSeparator) i j)
  := by
  simp only [RedisWrapper.lrange, returns_done_bind_iff, returns_redisLrange_iff,
    exists_and_left]

end

/-! ### Commands on sorted sets -/

section

variable {key : Bytes} {w : World}

theorem returns_redisZadd_iff (command : Bytes) (pairs : List (Bytes × Bytes)) :
  Returns (redisZadd (command :: key :: pairArgs pairs)) w ↔ ReadableExpiry key w
  := by
  have hpairs : ∀ (w : World) (batch : ZaddBatch) (q : ZaddBatch → Redis Bytes),
      (∀ batch', Returns (q batch') w) →
      Returns (zaddPairs key batch (pairArgs pairs) >>= q) w := by
    intro w batch q hq
    obtain ⟨batch', hrun, -⟩ := run_zaddPairs key w pairs batch
    rw [returns_bind_of_ok hrun]
    apply hq
  have hbody : ∀ w : World, Returns (do
      Redis.lock .exclusive
      let delKeys : List Bytes := []
      let value := getZsetKeyPreffix key
      let present := (← Redis.get value).isSome
      let batch ← zaddPairs key ⟨if present then [] else [(key, value)], [], 0⟩ (pairArgs pairs)
      Redis.removeBatch delKeys
      Redis.putBatch batch.putKvs
      return integerReply batch.addedCount) w := by
    intro w
    simp only [returns_lock, returns_get]
    apply hpairs
    exact fun batch' => ⟨_, _, rfl⟩
  exact returns_iff_readableExpiry rfl (run_cleanZset_eq_ok key) hbody hbody

theorem returns_redisZrem_iff (command elem : Bytes) (elems : List Bytes) :
  Returns (redisZrem (command :: key :: elem :: elems)) w ↔ ReadableExpiry key w
  := by
  apply returns_iff_readableExpiry rfl (run_cleanZset_eq_ok key) (fun _ => returns_pure _)
  intro w'
  obtain ⟨removedCount, hrun⟩ := run_zremElems key (elem :: elems) 0 w'
  simp only [Bool.false_eq_true, if_false, returns_unlock, returns_lock]
  rw [returns_bind_of_ok hrun]
  apply returns_pure

theorem returns_redisZscore_iff {elem : Bytes} :
  Returns (redisZscore key elem) w ↔ ReadableExpiry key w
  := by
  apply returns_iff_readableExpiry rfl (run_cleanZset_eq_ok key) (fun _ => returns_pure _)
  intro w'
  simp only [Bool.false_eq_true, if_false, returns_get]
  split
  · apply returns_pure
  · apply returns_pure

/-- What ZRANGE answers once it has read the index. -/
def zrangeFound (i j : ℤ) : Option (List (Bytes × Bytes)) → Redis Bytes
  | none => return arrayReply []
  | some elems => .done (rangeReply (elems.map Prod.snd) i j)

theorem returns_redisZrange_iff (command : Bytes) {start stop : Bytes} :
  Returns (redisZrange [command, key, start, stop]) w ↔
    ∃ i j, stoi start = .ok i ∧ stoi stop = .ok j ∧ ReadableExpiry key w ∧
      (Unexpired key w → RangeFits (indexedElems key w.lsm) i j)
  := by
  have hargs : redisZrange [command, key, start, stop] =
      .done (stoi start) >>= fun i => .done (stoi stop) >>= fun j =>
        Redis.lock .shared >>= fun _ => expireClean key (cleanZset key) >>= fun isExpired =>
          if isExpired = true then return arrayReply [] else
            Redis.itersMonotonyPredicate (preffixPredicate (getZsetScorePreffix key)) >>=
              zrangeFound i j := rfl
  rw [hargs, returns_done_bind_iff]
  apply exists_congr
  intro i
  rw [returns_done_bind_iff, ← exists_and_left]
  apply exists_congr
  intro j
  apply and_congr_right
  intro _
  apply and_congr_right
  intro _
  rw [returns_cleaning_iff rfl (run_cleanZset_eq_ok key) (fun _ => returns_pure _)]
  apply and_congr_right
  intro _
  apply imp_congr_right
  intro _
  simp only [Bool.false_eq_true, if_false, returns_query]
  rw [indexedElems, LSM.query]
  cases w.lsm.itersMonotonyPredicate (preffixPredicate (getZsetScorePreffix key)) with
  | none => exact iff_of_true (returns_pure _) (rangeFits_nil i j)
  | some elems =>
      rw [zrangeFound, Option.getD_some, returns_done_iff, rangeReply_eq_ok_iff]

theorem checkedSigned_eq_ok_iff {bits : ℕ} {n : ℤ} :
  (∃ m, checkedSigned bits n = .ok m) ↔ FitsSigned bits n
  := by
  rw [checkedSigned]
  split
  next hfits => exact iff_of_true ⟨n, rfl⟩ hfits
  next hnot =>
    apply iff_of_false _ hnot
    rintro ⟨m, h⟩
    cases h

theorem returns_checkedSigned_iff {bits : ℕ} {n : ℤ} {q : ℤ → Redis Bytes}
    (hq : ∀ m, Returns (q m) w) :
  Returns (.done (checkedSigned bits n) >>= q) w ↔ FitsSigned bits n
  := by
  rw [returns_done_bind_iff, ← checkedSigned_eq_ok_iff]
  exact exists_congr fun m => and_iff_left (hq m)

theorem returns_redisZcard_iff :
  Returns (redisZcard key) w ↔ ReadableExpiry key w ∧
    (Unexpired key w → FitsSigned 32 (indexedElems key w.lsm).length)
  := by
  rw [redisZcard, expireZsetClean,
    returns_cleaning_iff rfl (run_cleanZset_eq_ok key) (fun _ => returns_pure _)]
  apply and_congr_right
  intro _
  apply imp_congr_right
  intro _
  simp only [Bool.false_eq_true, if_false, returns_query]
  rw [indexedElems, List.length_map, LSM.query]
  cases w.lsm.itersMonotonyPredicate (preffixPredicate (getZsetScorePreffix key)) with
  | none => exact iff_of_true (returns_pure _) ⟨by decide, by decide⟩
  | some elems =>
      dsimp only [Option.getD_some]
      rw [returns_checkedSigned_iff (fun _ => returns_pure _)]

/-- The place of the index key of a score among the keys of a sorted set. -/
def scorePlace (key : Bytes) (lsm : LSM) (score : Bytes) : ℕ :=
  (lsm.query (preffixPredicate (getZsetKeyPreffix key))).findIdx
    (fun e => decide (e.1 = getZsetKeySocre key score))

theorem returns_redisZrank_iff {elem : Bytes} :
  Returns (redisZrank key elem) w ↔ ReadableExpiry key w ∧
    (Unexpired key w → ∀ score, w.lsm.get (getZsetKeyElem key elem) = some score →
      FitsSigned 32 (scorePlace key w.lsm score))
  := by
  rw [redisZrank, expireZsetClean,
    returns_cleaning_iff rfl (run_cleanZset_eq_ok key) (fun _ => returns_pure _)]
  apply and_congr_right
  intro _
  apply imp_congr_right
  intro _
  simp only [Bool.false_eq_true, if_false, returns_get]
  cases w.lsm.get (getZsetKeyElem key elem) with
  | none => exact iff_of_true (returns_pure _) (by rintro _ ⟨⟩)
  | some score =>
      simp only [returns_query, Option.some.injEq, forall_eq']
      rw [scorePlace, LSM.query]
      cases w.lsm.itersMonotonyPredicate (preffixPredicate (getZsetKeyPreffix key)) with
      | none =>
          rw [Option.getD_none, List.findIdx_nil]
          exact iff_of_true (returns_pure _) ⟨by decide, by decide⟩
      | some elems =>
          dsimp only [Option.getD_some]
          apply returns_checkedSigned_iff
          intro m
          split
          · apply returns_pure
          · apply returns_pure

/-- The sum of a score and an increment can be computed, and is in the range of the scores. -/
def ScoreFits [Doubles] (original : Option Bytes) (increment : Bytes) : Prop :=
  ∃ sum, scoreSum original increment = .ok sum ∧ ∃ score, Doubles.toUInt64 sum = .ok score

theorem incrementedScore_eq_ok_iff [Doubles] {original : Option Bytes} {increment : Bytes} :
  (∃ newScore, incrementedScore original increment = .ok newScore) ↔ ScoreFits original increment
  := by
  constructor
  · rintro ⟨newScore, h⟩
    obtain ⟨sum, hsum, h⟩ := Except.exists_of_bind_eq_ok h
    obtain ⟨score, hscore, -⟩ := Except.exists_of_bind_eq_ok h
    exact ⟨sum, hsum, score, hscore⟩
  · rintro ⟨sum, hsum, score, hscore⟩
    refine ⟨natDecimal score.toNat, ?_⟩
    rw [incrementedScore, Except.bind_eq_of_ok _ hsum, Except.bind_eq_of_ok _ hscore]
    rfl

/-- What ZINCRBY does on a key that it has checked. -/
def zincrbyChecked [Doubles] (key increment elem : Bytes) : Redis Bytes := do
  Redis.lock .exclusive
  let queryElem ← Redis.get (getZsetKeyElem key elem)
  let newScore ← .done (incrementedScore queryElem increment)
  if let some originalScore := queryElem then
    Redis.remove (getZsetKeySocre key originalScore)
  Redis.put (getZsetKeyElem key elem) newScore
  Redis.put (getZsetKeySocre key newScore) elem
  return bytes ":" ++ newScore ++ crlf

theorem returns_redisZincrby_iff [Doubles] {increment elem : Bytes} :
  Returns (redisZincrby key increment elem) w ↔ ReadableExpiry key w ∧
    (Lapsed key w → ScoreFits none increment) ∧
    (Unexpired key w → ScoreFits (w.lsm.get (getZsetKeyElem key elem)) increment)
  := by
  have hbody : ∀ w : World, Returns (zincrbyChecked key increment elem) w ↔
      ScoreFits (w.lsm.get (getZsetKeyElem key elem)) increment := by
    intro w
    rw [zincrbyChecked, returns_lock, returns_get, returns_done_bind_iff,
      ← incrementedScore_eq_ok_iff]
    apply exists_congr
    intro newScore
    apply and_iff_left
    cases w.lsm.get (getZsetKeyElem key elem) with
    | none => exact ⟨_, _, rfl⟩
    | some originalScore => exact ⟨_, _, rfl⟩
  obtain ⟨lsm, hrun, hget⟩ := run_cleanPreffix (getZsetKeyPreffix key) key w
  have hnone : lsm.get (getZsetKeyElem key elem) = none := by
    rw [hget, if_pos (.inr (.inr (under_getZsetKeyElem key elem)))]
  rw [redisZincrby, expireZsetClean, returns_check_iff]
  apply and_congr_right
  intro _
  apply and_congr
  · apply imp_congr_right
    intro _
    constructor
    · rintro ⟨w', hrun', hreturns⟩
      obtain rfl := (Prod.mk.inj (hrun.symm.trans hrun')).2
      have hfits := (hbody _).mp hreturns
      rwa [hnone] at hfits
    · intro hfits
      refine ⟨_, hrun, (hbody _).mpr ?_⟩
      rwa [hnone]
  · apply imp_congr_right
    intro _
    exact hbody w

end

/-! ### Commands on sets -/

section

variable {key : Bytes} {w : World}

/-- The stored size of a set, if there is one, is a number, and can be changed. -/
def SizeFits (change : ℤ) (stored : Option Bytes) : Prop :=
  ∀ value, stored = some value →
    ∃ size, stoi value = .ok size ∧ FitsSigned 32 (toInt change + size)

theorem changedSize_eq_ok_iff {change : ℤ} {stored : Option Bytes} :
  (∃ size, changedSize change stored = .ok size) ↔ SizeFits change stored
  := by
  cases stored with
  | none => exact iff_of_true ⟨_, rfl⟩ nofun
  | some value =>
      constructor
      · rintro ⟨size', h⟩ value' hvalue
        obtain rfl := Option.some.inj hvalue
        obtain ⟨size, hread, h⟩ := Except.exists_of_bind_eq_ok h
        exact ⟨size, hread, checkedSigned_eq_ok_iff.mp ⟨size', h⟩⟩
      · intro h
        obtain ⟨size, hread, hfits⟩ := h value rfl
        refine ⟨toInt change + size, ?_⟩
        rw [changedSize, Except.bind_eq_of_ok _ hread, checkedSigned, if_pos hfits]

theorem returns_redisSadd_iff (command : Bytes) (members : List Bytes) :
  Returns (redisSadd (command :: key :: members)) w ↔ ReadableExpiry key w ∧
    (Unexpired key w → SizeFits (membersOf false key w.lsm members).length (w.lsm.get key))
  := by
  have hbody : ∀ w : World, Returns (do
      Redis.lock .exclusive
      let newKeys ← memberKeys false key members
      let putKvs := newKeys.map (fun memberKey => (memberKey, getSetMemberValue))
      let setSize ← .done (changedSize newKeys.length (← Redis.get key))
      let putKvs := putKvs ++ [(key, decimal setSize)]
      Redis.putBatch putKvs
      return integerReply (putKvs.length - 1)) w ↔
        SizeFits (membersOf false key w.lsm members).length (w.lsm.get key) := by
    intro w
    rw [returns_lock, returns_bind_of_ok (run_memberKeys false key w members)]
    dsimp only
    rw [returns_get, returns_done_bind_iff, List.length_map, ← changedSize_eq_ok_iff]
    apply exists_congr
    intro size
    apply and_iff_left
    exact ⟨_, _, rfl⟩
  obtain ⟨lsm, hrun, hget⟩ := run_cleanPreffix (getSetKeyPreffix key) key w
  have hnone : lsm.get key = none := by rw [hget, if_pos (.inl rfl)]
  have hprogram : redisSadd (command :: key :: members) =
      Redis.lock .shared >>= fun _ => expireClean key (cleanSet key) >>= _ := rfl
  rw [hprogram, returns_check_iff]
  apply and_congr_right
  intro _
  constructor
  · intro h hunexpired
    exact (hbody w).mp (h.2 hunexpired)
  · intro h
    refine ⟨fun _ => ⟨_, hrun, (hbody _).mpr ?_⟩, fun hunexpired => (hbody w).mpr (h hunexpired)⟩
    rw [hnone]
    exact nofun

theorem returns_redisSrem_iff (command : Bytes) (members : List Bytes) :
  Returns (redisSrem (command :: key :: members)) w ↔ ReadableExpiry key w ∧
    (Unexpired key w → SizeFits (-(membersOf true key w.lsm members).length) (w.lsm.get key))
  := by
  have hprogram : redisSrem (command :: key :: members) =
      Redis.lock .shared >>= fun _ => expireClean key (cleanSet key) >>= _ := rfl
  rw [hprogram, returns_cleaning_iff rfl (run_cleanSet_eq_ok key) (fun _ => returns_pure _)]
  apply and_congr_right
  intro _
  apply imp_congr_right
  intro _
  simp only [Bool.false_eq_true, if_false, returns_unlock, returns_lock]
  rw [List.drop_succ_cons, List.drop_succ_cons, List.drop_zero,
    returns_bind_of_ok (run_memberKeys true key w members)]
  rw [returns_get, returns_done_bind_iff, List.length_map, ← changedSize_eq_ok_iff]
  apply exists_congr
  intro size
  apply and_iff_left
  exact ⟨_, _, rfl⟩

theorem returns_redisSismember_iff {member : Bytes} :
  Returns (redisSismember key member) w ↔ ReadableExpiry key w
  := by
  apply returns_iff_readableExpiry rfl (run_cleanSet_eq_ok key) (fun _ => returns_pure _)
  intro w'
  simp only [Bool.false_eq_true, if_false, returns_get]
  split
  · apply returns_pure
  · apply returns_pure

theorem returns_redisScard_iff : Returns (redisScard key) w ↔ ReadableExpiry key w
  := by
  apply returns_iff_readableExpiry rfl (run_cleanSet_eq_ok key) (fun _ => returns_pure _)
  intro w'
  simp only [Bool.false_eq_true, if_false, returns_get]
  split
  · apply returns_pure
  · apply returns_pure

theorem returns_redisSmembers_iff : Returns (redisSmembers key) w ↔ ReadableExpiry key w
  := by
  apply returns_iff_readableExpiry rfl (run_cleanSet_eq_ok key) (fun _ => returns_pure _)
  intro w'
  simp only [Bool.false_eq_true, if_false, returns_query]
  split
  · apply returns_pure
  · apply returns_pure

end

/-! ### Commands on hashes -/

section

variable {key : Bytes} {w : World}

/-- The value of a key, if there is one, is long enough to be taken for that of a hash. -/
def HashReadable (key : Bytes) (w : World) : Prop :=
  ∀ value, w.lsm.get key = some value → getInstance.redisHashValuePreffix.length ≤ value.length

theorem getFiledsFromHashValue_eq_ok_iff :
  (∃ fields, getFiledsFromHashValue (w.lsm.get key) = .ok fields) ↔ HashReadable key w
  := by
  rw [HashReadable]
  cases hget : w.lsm.get key with
  | none => exact iff_of_true ⟨[], rfl⟩ nofun
  | some value =>
      have hne := LSM.ne_nil_of_get hget
      rw [getFiledsFromHashValue, Option.getD_some, if_neg hne, substr]
      simp only [Option.some.injEq, forall_eq']
      split
      next hlt =>
        apply iff_of_false _ (not_le_of_gt hlt)
        rintro ⟨fields, h⟩
        cases h
      next hle => exact iff_of_true ⟨_, rfl⟩ (not_lt.mp hle)

theorem returns_fields_iff {q : List Bytes → Redis Bytes} (hq : ∀ fields, Returns (q fields) w) :
  Returns (.done (getFiledsFromHashValue (w.lsm.get key)) >>= q) w ↔ HashReadable key w
  := by
  rw [returns_done_bind_iff, ← getFiledsFromHashValue_eq_ok_iff]
  exact exists_congr fun fields => and_iff_left (hq fields)

/-- The cleaning of a hash returns if the fields can be read, and leaves no value. -/
theorem run_cleanHash_eq_ok_iff :
  (∃ w', Redis.run (cleanHash key) w = (.ok (), w')) ↔ HashReadable key w
  := by
  rw [← getFiledsFromHashValue_eq_ok_iff]
  constructor
  · rintro ⟨w', hrun⟩
    cases hfields : getFiledsFromHashValue (w.lsm.get key) with
    | ok fields => exact ⟨fields, rfl⟩
    | error e =>
        rw [cleanHash, Redis.run_get, hfields, Redis.run_bind_of_error (Redis.run_done _ _)] at hrun
        cases hrun
  · rintro ⟨fields, hfields⟩
    exact ⟨_, run_cleanHash hfields⟩

theorem get_of_run_cleanHash {w' : World} (h : Redis.run (cleanHash key) w = (.ok (), w')) :
  w'.lsm.get key = none
  := by
  obtain ⟨fields, hfields⟩ :=
    getFiledsFromHashValue_eq_ok_iff.mpr (run_cleanHash_eq_ok_iff.mp ⟨w', h⟩)
  rw [run_cleanHash hfields] at h
  obtain rfl := (Prod.mk.inj h).2
  dsimp only
  rw [LSM.get_remove_of_ne _ (getExplireKey_ne_key key).symm, LSM.get_remove_self]

theorem returns_hash_iff {p : Redis Bytes} {f : Bool → Redis Bytes}
    (hp : p = Redis.lock .shared >>= fun _ => expireClean key (cleanHash key) >>= f)
    (htrue : ∀ w', w'.lsm.get key = none → Returns (f true) w') :
  Returns p w ↔ ReadableExpiry key w ∧ (Lapsed key w → HashReadable key w) ∧
    (Unexpired key w → Returns (f false) w)
  := by
  rw [hp, returns_check_iff]
  apply and_congr_right
  intro _
  apply and_congr_left
  intro _
  apply imp_congr_right
  intro _
  rw [← run_cleanHash_eq_ok_iff]
  constructor
  · rintro ⟨w', hrun, -⟩
    exact ⟨w', hrun⟩
  · rintro ⟨w', hrun⟩
    exact ⟨w', hrun, htrue w' (get_of_run_cleanHash hrun)⟩

/-- A command that reads the fields, whether the key is expired or not. -/
theorem returns_iff_hashReadable {p : Redis Bytes} {f : Bool → Redis Bytes}
    (hp : p = Redis.lock .shared >>= fun _ => expireClean key (cleanHash key) >>= f)
    (htrue : ∀ w', w'.lsm.get key = none → Returns (f true) w')
    (hfalse : Returns (f false) w ↔ HashReadable key w) :
  Returns p w ↔ ReadableExpiry key w ∧ HashReadable key w
  := by
  rw [returns_hash_iff hp htrue, hfalse]
  apply and_congr_right
  intro hreadable
  constructor
  · exact fun h => (readableExpiry_iff.mp hreadable).elim h.1 h.2
  · exact fun h => ⟨fun _ => h, fun _ => h⟩

/-- What HSET does on a key that it has checked. -/
def hsetBatchChecked (key : Bytes) (fieldValuePairs : List (Bytes × Bytes)) : Redis Bytes := do
  Redis.lock .exclusive
  let fieldList ← .done (getFiledsFromHashValue (← Redis.get key))
  let (fieldList, addedCount) ← hsetFields key fieldList 0 fieldValuePairs
  Redis.put key (getHashValueFromFields fieldList)
  return integerReply addedCount

theorem returns_redisHsetBatch_iff {pairs : List (Bytes × Bytes)} :
  Returns (redisHsetBatch key pairs) w ↔ ReadableExpiry key w ∧ HashReadable key w
  := by
  have hbody : ∀ w : World, Returns (hsetBatchChecked key pairs) w ↔ HashReadable key w := by
    intro w
    rw [hsetBatchChecked, returns_lock, returns_get]
    apply returns_fields_iff
    intro fields
    obtain ⟨fieldList, addedCount, w', hrun⟩ := run_hsetFields_eq_ok key pairs fields 0 w
    rw [returns_bind_of_ok hrun]
    exact ⟨_, _, rfl⟩
  apply returns_iff_hashReadable rfl _ (hbody w)
  intro w' hnone
  apply (hbody w').mpr
  rw [HashReadable, hnone]
  rintro _ ⟨⟩

theorem returns_redisHget_iff {field : Bytes} :
  Returns (redisHget key field) w ↔
    ReadableExpiry key w ∧ (Lapsed key w → HashReadable key w)
  := by
  apply (returns_hash_iff rfl (fun _ _ => returns_pure _)).trans
  apply and_congr_right
  intro _
  apply and_iff_left
  intro _
  simp only [Bool.false_eq_true, if_false, returns_get]
  split
  · apply returns_pure
  · apply returns_pure

theorem returns_redisHdel_iff {field : Bytes} :
  Returns (redisHdel key field) w ↔ ReadableExpiry key w ∧ HashReadable key w
  := by
  apply returns_iff_hashReadable rfl (fun _ _ => returns_pure _)
  simp only [Bool.false_eq_true, if_false, returns_unlock, returns_lock, returns_get]
  have hfields : ∀ (w' : World) (reply : Bytes),
      Returns (Redis.get key >>= fun value => .done (getFiledsFromHashValue value) >>= fun fields =>
        if field ∈ fields then
          if fields.erase field = [] then Redis.remove key >>= fun _ => pure reply
          else Redis.put key (getHashValueFromFields (fields.erase field)) >>= fun _ => pure reply
        else pure reply) w' ↔ HashReadable key w' := by
    intro w' reply
    rw [returns_get]
    apply returns_fields_iff
    intro fields
    split
    · split
      · exact ⟨_, _, rfl⟩
      · exact ⟨_, _, rfl⟩
    · exact ⟨_, _, rfl⟩
  split
  · rw [returns_remove]
    refine (hfields _ _).trans ?_
    rw [HashReadable, HashReadable,
      LSM.get_remove_of_ne _ (under_getHashFiledKey key field).ne_key.symm]
  · exact hfields w _

theorem returns_redisHkeys_iff :
  Returns (redisHkeys key) w ↔ ReadableExpiry key w ∧ HashReadable key w
  := by
  apply returns_iff_hashReadable rfl (fun _ _ => returns_pure _)
  simp only [Bool.false_eq_true, if_false, returns_get]
  apply returns_fields_iff
  exact fun _ => returns_pure _

end

/-! ### Commands on any key -/

section

variable {key : Bytes} {w : World}

/-- Before what always returns, the check needs an expiry time that can be read. -/
theorem returns_isExpired_iff {expireStr : Option Bytes} {q : Bool → Redis Bytes}
    (hq : ∀ expired, Returns (q expired) w) :
  Returns (isExpired expireStr >>= q) w ↔
    ∀ text, expireStr = some text → ∃ time, stoll text = .ok time
  := by
  cases expireStr with
  | none => exact iff_of_true (hq false) nofun
  | some text =>
      have hread : Returns (isExpired (some text) >>= q) w ↔
          Returns (.done (stoll text) >>= fun time => q (decide (time < w.now))) w := by
        rw [isExpired]
        cases stoll text with
        | error e => rfl
        | ok time => rfl
      rw [hread, returns_done_bind_iff]
      simp only [Option.some.injEq, forall_eq']
      exact exists_congr fun time => and_iff_left (hq _)

theorem returns_redisGet_iff :
  Returns (redisGet key) w ↔ ∀ value, w.lsm.get key = some value →
    ReadableExpiry key w
  := by
  rw [redisGet, returns_lock, returns_get, returns_get]
  cases w.lsm.get key with
  | none =>
      apply iff_of_true _ (by rintro _ ⟨⟩)
      dsimp only
      split
      · exact ⟨_, _, rfl⟩
      · exact ⟨_, _, rfl⟩
  | some value =>
      simp only [Option.some.injEq, forall_eq']
      apply returns_isExpired_iff
      intro expired
      split
      · exact ⟨_, _, rfl⟩
      · exact ⟨_, _, rfl⟩

theorem returns_redisTtl_iff :
  Returns (redisTtl key) w ↔ ∀ value text, w.lsm.get key = some value →
    w.lsm.get (getExplireKey key) = some text → ∃ time, stoll text = .ok time ∧
      (w.now ≤ time → FitsSigned 64 (time - w.now))
  := by
  rw [redisTtl, returns_lock, returns_get, returns_get]
  cases w.lsm.get key with
  | none => exact iff_of_true (returns_pure _) (by rintro _ _ ⟨⟩)
  | some value =>
      cases w.lsm.get (getExplireKey key) with
      | none => exact iff_of_true (returns_pure _) (by rintro _ _ - ⟨⟩)
      | some text =>
          simp only [Option.some.injEq, forall_eq', forall_apply_eq_imp_iff]
          rw [returns_now, returns_done_bind_iff]
          apply exists_congr
          intro time
          apply and_congr_right
          intro _
          split
          next hlt => exact iff_of_true (returns_pure _) (fun hle => absurd hlt (not_lt_of_ge hle))
          next hle =>
            rw [returns_checkedSigned_iff (fun _ => returns_pure _)]
            exact ⟨fun h _ => h, fun h => h (not_lt.mp hle)⟩

theorem returns_redisAdd_iff {initial : Bytes} {change : ℤ} :
  Returns (redisAdd initial change key) w ↔ ∀ value, w.lsm.get key = some value →
    ∃ n, stoll value = .ok n ∧ FitsSigned 64 (n + change)
  := by
  rw [redisAdd, returns_lock, returns_get]
  cases w.lsm.get key with
  | none => exact iff_of_true ⟨_, _, rfl⟩ nofun
  | some value =>
      simp only [Option.some.injEq, forall_eq']
      rw [returns_done_bind_iff]
      apply exists_congr
      intro n
      apply and_congr_right
      intro _
      apply returns_checkedSigned_iff
      exact fun _ => ⟨_, _, rfl⟩

theorem returns_redisExpire_iff {secondsCount : Bytes} :
  Returns (redisExpire key secondsCount) w ↔
    ∃ n, stoll secondsCount = .ok n ∧ FitsSigned 64 (w.now + n)
  := by
  have htime := run_getExpireTime secondsCount w
  rw [redisExpire, returns_lock]
  cases hread : stoll secondsCount with
  | error e =>
      rw [hread] at htime
      apply iff_of_false (not_returns_bind_of_error htime)
      rintro ⟨n, h, -⟩
      cases h
  | ok n =>
      rw [hread, Except.bind_eq_of_ok _ rfl, checkedSigned] at htime
      by_cases hfits : FitsSigned 64 (w.now + n)
      · rw [if_pos hfits] at htime
        rw [returns_bind_of_ok htime]
        exact iff_of_true ⟨_, _, rfl⟩ ⟨n, rfl, hfits⟩
      · rw [if_neg hfits] at htime
        apply iff_of_false (not_returns_bind_of_error htime)
        rintro ⟨m, h, hfits'⟩
        obtain rfl := Except.ok.inj h
        exact hfits hfits'

end

/-! ### All commands -/

/-- What a command reads can be read, and what it computes fits. -/
def Answerable [Doubles] (w : World) : Command → Prop
  | .set _ _ | .del _ | .flushall | .hset _ [] | .zrem _ [] => True
  | .get key => ∀ value, w.lsm.get key = some value → ReadableExpiry key w
  | .incr key => ∀ value, w.lsm.get key = some value →
      ∃ n, stoll value = .ok n ∧ FitsSigned 64 (n + 1)
  | .decr key => ∀ value, w.lsm.get key = some value →
      ∃ n, stoll value = .ok n ∧ FitsSigned 64 (n + -1)
  | .expire _ secondsCount => ∃ n, stoll secondsCount = .ok n ∧ FitsSigned 64 (w.now + n)
  | .ttl key => ∀ value text, w.lsm.get key = some value →
      w.lsm.get (getExplireKey key) = some text → ∃ time, stoll text = .ok time ∧
        (w.now ≤ time → FitsSigned 64 (time - w.now))
  | .hset key (_ :: _) | .hdel key _ | .hkeys key => ReadableExpiry key w ∧ HashReadable key w
  | .hget key _ => ReadableExpiry key w ∧ (Lapsed key w → HashReadable key w)
  | .lpush key _ | .rpush key _ | .lpop key | .rpop key | .llen key | .zadd key _
  | .zrem key (_ :: _) | .zscore key _ | .sismember key _ | .scard key | .smembers key =>
      ReadableExpiry key w
  | .lrange key start stop => ∃ i j, stoi start = .ok i ∧ stoi stop = .ok j ∧
      ReadableExpiry key w ∧ (Unexpired key w →
        RangeFits (split ((w.lsm.get key).getD []) getInstance.redisListSeparator) i j)
  | .zrange key start stop => ∃ i j, stoi start = .ok i ∧ stoi stop = .ok j ∧
      ReadableExpiry key w ∧ (Unexpired key w → RangeFits (indexedElems key w.lsm) i j)
  | .zcard key => ReadableExpiry key w ∧
      (Unexpired key w → FitsSigned 32 (indexedElems key w.lsm).length)
  | .zincrby key increment elem => ReadableExpiry key w ∧
      (Lapsed key w → ScoreFits none increment) ∧
      (Unexpired key w → ScoreFits (w.lsm.get (getZsetKeyElem key elem)) increment)
  | .zrank key elem => ReadableExpiry key w ∧
      (Unexpired key w → ∀ score, w.lsm.get (getZsetKeyElem key elem) = some score →
        FitsSigned 32 (scorePlace key w.lsm score))
  | .sadd key members => ReadableExpiry key w ∧
      (Unexpired key w → SizeFits (membersOf false key w.lsm members).length (w.lsm.get key))
  | .srem key members => ReadableExpiry key w ∧
      (Unexpired key w → SizeFits (-(membersOf true key w.lsm members).length) (w.lsm.get key))

/-- What goes on with a counter always returns. -/
theorem returns_counter_iff {p : Redis Bytes} {w : World} :
  Returns (p >>= fun res => pure (bytes ":" ++ res ++ crlf)) w ↔ Returns p w
  := by
  constructor
  · rintro ⟨reply, w', hrun⟩
    cases hp : Redis.run p w with
    | mk result w'' =>
        cases result with
        | ok res => exact ⟨res, w'', hp⟩
        | error e =>
            rw [Redis.run_bind_of_error hp] at hrun
            cases hrun
  · rintro ⟨res, w', hrun⟩
    rw [returns_bind_of_ok hrun]
    apply returns_pure

theorem returns_program_iff [Doubles] {c : Command} {w : World} :
  Returns c.program w ↔ Answerable w c
  := by
  cases c with
  | set key value => exact iff_of_true ⟨_, _, run_redisSet key value w⟩ trivial
  | get key => exact returns_redisGet_iff
  | del keys =>
      obtain ⟨delCount, hrun⟩ := run_redisDel (bytes "del") keys w
      exact iff_of_true ⟨_, _, hrun⟩ trivial
  | incr key => exact returns_counter_iff.trans returns_redisAdd_iff
  | decr key => exact returns_counter_iff.trans returns_redisAdd_iff
  | expire key secondsCount => exact returns_redisExpire_iff
  | ttl key => exact returns_redisTtl_iff
  | hset key pairs =>
      cases pairs with
      | nil => exact iff_of_true (returns_pure _) trivial
      | cons p pairs =>
          rw [Command.program, hset_pairArgs _ _ (List.cons_ne_nil p pairs)]
          exact returns_redisHsetBatch_iff
  | hget key field => exact returns_redisHget_iff
  | hdel key field => exact returns_redisHdel_iff
  | hkeys key => exact returns_redisHkeys_iff
  | lpush key value =>
      rw [Command.program, redisLpush]
      exact returns_redisPush_iff _ value
  | rpush key value =>
      rw [Command.program, redisRpush]
      exact returns_redisPush_iff _ value
  | lpop key =>
      rw [Command.program, redisLpop]
      exact returns_redisPop_iff _
  | rpop key =>
      rw [Command.program, redisRpop]
      exact returns_redisPop_iff _
  | llen key => exact returns_redisLlen_iff
  | lrange key start stop => exact returns_lrange_iff
  | zadd key pairs => exact returns_redisZadd_iff (bytes "zadd") pairs
  | zrem key elems =>
      cases elems with
      | nil => exact iff_of_true (returns_pure _) trivial
      | cons elem elems => exact returns_redisZrem_iff (bytes "zrem") elem elems
  | zrange key start stop => exact returns_redisZrange_iff (bytes "zrange")
  | zcard key => exact returns_redisZcard_iff
  | zscore key elem => exact returns_redisZscore_iff
  | zincrby key increment elem => exact returns_redisZincrby_iff
  | zrank key elem => exact returns_redisZrank_iff
  | sadd key members => exact returns_redisSadd_iff (bytes "sadd") members
  | srem key members => exact returns_redisSrem_iff (bytes "srem") members
  | sismember key member => exact returns_redisSismember_iff
  | scard key => exact returns_redisScard_iff
  | smembers key => exact returns_redisSmembers_iff
  | flushall => exact iff_of_true ⟨_, _, rfl⟩ trivial

end Server

end TinyLsm
