import TinyLsm.RedisWrapper.Hashes
import TinyLsm.RedisWrapper.Lists
import TinyLsm.RedisWrapper.Sets

/-!
# Commands on sorted sets

A member of a sorted set has its score stored under a key of its own, and an index, by which
the members are listed in the order of the scores, has the member stored under a key made of
the score.

The score that ZINCRBY computes is a floating point number in between.  Nothing is assumed of
these numbers.
-/

namespace TinyLsm

/-- The floating point numbers of the source, `std::stod`, and the conversions from `long` and
to `uint64_t`. -/
class Doubles where
  Double : Type
  stod : Bytes → Except Fault Double
  ofLong : ℤ → Double
  add : Double → Double → Double
  toUInt64 : Double → Except Fault UInt64

/-- The floating point numbers as they are for whole numbers of a moderate size. -/
@[reducible]
def Doubles.whole : Doubles where
  Double := ℤ
  stod text :=
    match readInteger text with
    | none => .error (.invalidArgument "stod")
    | some n => .ok n
  ofLong n := n
  add := (· + ·)
  toUInt64 n :=
    if 0 ≤ n ∧ n < 2 ^ 64 then .ok (UInt64.ofNat n.toNat) else .error .undefinedBehavior

namespace RedisWrapper

/-- What the loop of ZADD collects. -/
structure ZaddBatch where
  putKvs : List (Bytes × Bytes)
  removeKeys : List Bytes
  addedCount : ℕ

namespace ZaddBatch

/-- Put the entries of a member. -/
def add (batch : ZaddBatch) (key score elem : Bytes) : ZaddBatch :=
  { batch with
    putKvs := batch.putKvs ++ [(getZsetKeySocre key score, elem), (getZsetKeyElem key elem, score)]
    addedCount := batch.addedCount + 1 }

def remove (batch : ZaddBatch) (key originalScore : Bytes) : ZaddBatch :=
  { batch with removeKeys := batch.removeKeys ++ [getZsetKeySocre key originalScore] }

end ZaddBatch

/-- The arguments of ZADD from the third on, a score and a member at a time. -/
def zaddPairs (key : Bytes) : ZaddBatch → List Bytes → Redis ZaddBatch
  | batch, [] => return batch
  | _, [_] => .done (.error .undefinedBehavior)
  | batch, score :: elem :: args => do
      match ← Redis.get (getZsetKeyElem key elem) with
      | some originalScore =>
          if originalScore = score then
            zaddPairs key batch args
          else
            zaddPairs key ((batch.remove key originalScore).add key score elem) args
      | none => zaddPairs key (batch.add key score elem) args

/-- The keys that the loop has collected in order to remove them are not the ones that are
removed after it. -/
def redisZadd (args : List Bytes) : Redis Bytes := do
  let key ← .done (argAt args 1)
  Redis.lock .shared
  let isExpired ← expireZsetClean key
  if !isExpired then
    Redis.unlock
  Redis.lock .exclusive
  let delKeys : List Bytes := []
  let value := getZsetKeyPreffix key
  let present := (← Redis.get value).isSome
  let batch ← zaddPairs key ⟨if present then [] else [(key, value)], [], 0⟩ (args.drop 2)
  Redis.removeBatch delKeys
  Redis.putBatch batch.putKvs
  return integerReply batch.addedCount

def zremElems (key : Bytes) : ℕ → List Bytes → Redis ℕ
  | removedCount, [] => return removedCount
  | removedCount, elem :: elems => do
      match ← Redis.get (getZsetKeyElem key elem) with
      | some score => do
          Redis.remove (getZsetKeyElem key elem)
          Redis.remove (getZsetKeySocre key score)
          zremElems key (removedCount + 1) elems
      | none => zremElems key removedCount elems

def redisZrem (args : List Bytes) : Redis Bytes :=
  match args with
  | _ :: key :: elem :: elems => do
      Redis.lock .shared
      let isExpired ← expireZsetClean key
      if isExpired then
        return integerReply 0
      Redis.unlock
      Redis.lock .exclusive
      let removedCount ← zremElems key 0 (elem :: elems)
      return integerReply removedCount
  | _ => return wrongNumberReply (bytes "zrem")

def redisZrange (args : List Bytes) : Redis Bytes := do
  let key ← .done (argAt args 1)
  let start ← .done (argAt args 2 >>= stoi)
  let stop ← .done (argAt args 3 >>= stoi)
  Redis.lock .shared
  let isExpired ← expireZsetClean key
  if isExpired then
    return arrayReply []
  match ← Redis.itersMonotonyPredicate (preffixPredicate (getZsetScorePreffix key)) with
  | none => return arrayReply []
  | some elems => .done (rangeReply (elems.map Prod.snd) start stop)

def redisZcard (key : Bytes) : Redis Bytes := do
  Redis.lock .shared
  let isExpired ← expireZsetClean key
  if isExpired then
    return integerReply 0
  match ← Redis.itersMonotonyPredicate (preffixPredicate (getZsetScorePreffix key)) with
  | none => return integerReply 0
  | some elems => return integerReply (← .done (checkedSigned 32 elems.length))

def redisZscore (key elem : Bytes) : Redis Bytes := do
  Redis.lock .shared
  let isExpired ← expireZsetClean key
  if isExpired then
    return nilReply
  match ← Redis.get (getZsetKeyElem key elem) with
  | some score => return bulkReply score
  | none => return nilReply

/-- The sum of the old score, if there is one, and an increment. -/
def scoreSum [Doubles] (original : Option Bytes) (increment : Bytes) :
    Except Fault Doubles.Double :=
  match original with
  | some originalScore => do
      let score ← stol originalScore
      let change ← Doubles.stod increment
      return Doubles.add (Doubles.ofLong score) change
  | none => Doubles.stod increment

/-- The score after an increment. -/
def incrementedScore [Doubles] (original : Option Bytes) (increment : Bytes) :
    Except Fault Bytes := do
  let score ← scoreSum original increment
  let newScore ← Doubles.toUInt64 score
  return natDecimal newScore.toNat

theorem incrementedScore_ne_nil [Doubles] {original : Option Bytes} {increment newScore : Bytes}
    (h : incrementedScore original increment = .ok newScore) :
  newScore ≠ []
  := by
  rw [incrementedScore] at h
  cases hsum : scoreSum original increment with
  | error e =>
      rw [hsum] at h
      cases h
  | ok score =>
      rw [hsum] at h
      change Doubles.toUInt64 score >>= _ = _ at h
      cases hconvert : Doubles.toUInt64 score with
      | error e =>
          rw [hconvert] at h
          cases h
      | ok n =>
          rw [hconvert] at h
          obtain rfl := Except.ok.inj h
          apply natDecimal_ne_nil

def redisZincrby [Doubles] (key increment elem : Bytes) : Redis Bytes := do
  Redis.lock .shared
  let isExpired ← expireZsetClean key
  if !isExpired then
    Redis.unlock
  Redis.lock .exclusive
  let queryElem ← Redis.get (getZsetKeyElem key elem)
  let newScore ← .done (incrementedScore queryElem increment)
  if let some originalScore := queryElem then
    Redis.remove (getZsetKeySocre key originalScore)
  Redis.put (getZsetKeyElem key elem) newScore
  Redis.put (getZsetKeySocre key newScore) elem
  return bytes ":" ++ newScore ++ crlf

/-- The place of a member among the keys of its sorted set, where the keys of the members come
before the index. -/
def redisZrank (key elem : Bytes) : Redis Bytes := do
  Redis.lock .shared
  let isExpired ← expireZsetClean key
  if isExpired then
    return nilReply
  match ← Redis.get (getZsetKeyElem key elem) with
  | none => return nilReply
  | some score =>
      match ← Redis.itersMonotonyPredicate (preffixPredicate (getZsetKeyPreffix key)) with
      | none => return nilReply
      | some elems =>
          let rank := elems.findIdx (fun e => decide (e.1 = getZsetKeySocre key score))
          let counted ← .done (checkedSigned 32 rank)
          if rank = elems.length then
            return nilReply
          else
            return integerReply counted

/-! ### What ZADD and ZREM store -/

/-- The pairs of ZADD whose member does not have the score already. -/
def newPairs (key : Bytes) (lsm : LSM) (pairs : List (Bytes × Bytes)) : List (Bytes × Bytes) :=
  pairs.filter (fun p => decide (lsm.get (getZsetKeyElem key p.2) ≠ some p.1))

/-- The entries of a score and a member. -/
def pairKvs (key : Bytes) (p : Bytes × Bytes) : List (Bytes × Bytes) :=
  [(getZsetKeySocre key p.1, p.2), (getZsetKeyElem key p.2, p.1)]

/-- The entry of a key for which nothing is found under its prefix. -/
def keyKvs (key : Bytes) (lsm : LSM) : List (Bytes × Bytes) :=
  if (lsm.get (getZsetKeyPreffix key)).isSome then [] else [(key, getZsetKeyPreffix key)]

/-- The store without a member and its score. -/
def removeElem (key : Bytes) (lsm : LSM) (elem : Bytes) : LSM :=
  match lsm.get (getZsetKeyElem key elem) with
  | some score => (lsm.remove (getZsetKeyElem key elem)).remove (getZsetKeySocre key score)
  | none => lsm

/-- The members that the index names, by its order. -/
def indexedElems (key : Bytes) (lsm : LSM) : List Bytes :=
  (lsm.query (preffixPredicate (getZsetScorePreffix key))).map Prod.snd

theorem run_zaddPairs (key : Bytes) (w : World) :
  ∀ (pairs : List (Bytes × Bytes)) (batch : ZaddBatch),
    ∃ batch', Redis.run (zaddPairs key batch (pairArgs pairs)) w = (.ok batch', w) ∧
      batch'.putKvs = batch.putKvs ++ (newPairs key w.lsm pairs).flatMap (pairKvs key) ∧
      batch'.addedCount = batch.addedCount + (newPairs key w.lsm pairs).length
  | [], batch => ⟨batch, rfl, (List.append_nil _).symm, rfl⟩
  | (score, elem) :: pairs, batch => by
      rw [pairArgs_cons, zaddPairs, Redis.run_get, newPairs, List.filter_cons, ← newPairs]
      have hadd : ∀ batch₁ : ZaddBatch, batch₁.putKvs = batch.putKvs →
          batch₁.addedCount = batch.addedCount → ∃ batch',
          Redis.run (zaddPairs key (batch₁.add key score elem) (pairArgs pairs)) w =
            (.ok batch', w) ∧
          batch'.putKvs = batch.putKvs ++
            ((score, elem) :: newPairs key w.lsm pairs).flatMap (pairKvs key) ∧
          batch'.addedCount =
            batch.addedCount + ((score, elem) :: newPairs key w.lsm pairs).length := by
        intro batch₁ hputKvs hcount
        obtain ⟨batch', hrun, hputKvs', hcount'⟩ :=
          run_zaddPairs key w pairs (batch₁.add key score elem)
        refine ⟨batch', hrun, ?_, ?_⟩
        · rw [hputKvs', ZaddBatch.add, hputKvs, List.append_assoc]
          rfl
        · have hadded : (batch₁.add key score elem).addedCount = batch₁.addedCount + 1 := rfl
          rw [hcount', hadded, hcount, List.length_cons]
          omega
      simp only [decide_eq_true_iff]
      cases hget : w.lsm.get (getZsetKeyElem key elem) with
      | none =>
          rw [if_pos nofun]
          apply hadd batch rfl rfl
      | some originalScore =>
          dsimp only
          by_cases heq : originalScore = score
          · rw [if_pos heq, if_neg (by rw [heq]; exact fun h => h rfl)]
            apply run_zaddPairs key w pairs batch
          · rw [if_neg heq, if_pos (fun h => heq (Option.some.inj h))]
            apply hadd (batch.remove key originalScore) rfl rfl

theorem run_zremElems (key : Bytes) :
  ∀ (elems : List Bytes) (removedCount : ℕ) (w : World),
    ∃ removedCount', Redis.run (zremElems key removedCount elems) w =
      (.ok removedCount', { w with lsm := elems.foldl (removeElem key) w.lsm })
  | [], removedCount, _ => ⟨removedCount, rfl⟩
  | elem :: elems, removedCount, w => by
      rw [zremElems, Redis.run_get, List.foldl_cons, removeElem]
      cases w.lsm.get (getZsetKeyElem key elem) with
      | none => apply run_zremElems key elems removedCount w
      | some score => apply run_zremElems key elems (removedCount + 1) _

/-! ### Commands on a key that is not expired -/

section

variable {key : Bytes} {w : World} (h : Unexpired key w)

include h

theorem run_redisZadd (command : Bytes) (pairs : List (Bytes × Bytes)) :
  Redis.run (redisZadd (command :: key :: pairArgs pairs)) w =
    (.ok (integerReply (newPairs key w.lsm pairs).length), { w with
      lsm := w.lsm.putBatch (keyKvs key w.lsm ++
        (newPairs key w.lsm pairs).flatMap (pairKvs key)) })
  := by
  obtain ⟨batch, hrun, hputKvs, hcount⟩ :=
    run_zaddPairs key w pairs ⟨keyKvs key w.lsm, [], 0⟩
  rw [redisZadd, Redis.run_bind_of_ok (b := key) rfl, Redis.run_lock, expireZsetClean,
    Redis.run_bind_of_ok (run_expireClean_of_unexpired h _)]
  simp only [Bool.not_false, if_true, Redis.run_unlock, Redis.run_lock, Redis.run_get]
  rw [List.drop_succ_cons, List.drop_succ_cons, List.drop_zero, ← keyKvs,
    Redis.run_bind_of_ok hrun, Redis.run_removeBatch, Redis.run_putBatch, Redis.run_pure, hputKvs,
    hcount, Nat.zero_add]
  rfl

theorem run_redisZrem (command : Bytes) {elems : List Bytes} (hne : elems ≠ []) :
  ∃ removedCount : ℕ, Redis.run (redisZrem (command :: key :: elems)) w =
    (.ok (integerReply removedCount), { w with lsm := elems.foldl (removeElem key) w.lsm })
  := by
  cases elems with
  | nil => exact absurd rfl hne
  | cons elem elems =>
      obtain ⟨removedCount, hrun⟩ := run_zremElems key (elem :: elems) 0 w
      refine ⟨removedCount, ?_⟩
      rw [redisZrem, Redis.run_lock, expireZsetClean,
        Redis.run_bind_of_ok (run_expireClean_of_unexpired h _)]
      simp only [Bool.false_eq_true, if_false, Redis.run_unlock, Redis.run_lock]
      rw [Redis.run_bind_of_ok hrun]
      rfl

theorem run_redisZrange (command start stop : Bytes) :
  Redis.run (redisZrange [command, key, start, stop]) w =
    (do
      let i ← stoi start
      let j ← stoi stop
      if indexedElems key w.lsm = [] then .ok (arrayReply [])
      else rangeReply (indexedElems key w.lsm) i j, w)
  := by
  rw [redisZrange, Redis.run_bind_of_ok (b := key) rfl]
  change Redis.run (.done (stoi start) >>= fun i => .done (stoi stop) >>= fun j => _) w = _
  cases stoi start with
  | error e => rfl
  | ok i =>
      rw [Redis.run_bind_of_ok (Redis.run_done _ _)]
      cases stoi stop with
      | error e => rfl
      | ok j =>
          rw [Redis.run_bind_of_ok (Redis.run_done _ _), Redis.run_lock, expireZsetClean,
            Redis.run_bind_of_ok (run_expireClean_of_unexpired h _)]
          simp only [Bool.false_eq_true, if_false, Redis.run_itersMonotonyPredicate]
          rw [indexedElems, LSM.query]
          cases hfound : w.lsm.itersMonotonyPredicate
            (preffixPredicate (getZsetScorePreffix key)) with
          | none => rfl
          | some elems =>
              have hne : ¬ ((some elems).getD []).map Prod.snd = [] := by
                rw [Option.getD_some, List.map_eq_nil_iff]
                apply LSM.ne_nil_of_itersMonotonyPredicate hfound
              simp only [if_neg hne]
              rfl

theorem run_redisZcard :
  Redis.run (redisZcard key) w =
    ((checkedSigned 32 (indexedElems key w.lsm).length).map integerReply, w)
  := by
  rw [indexedElems, List.length_map, LSM.query, redisZcard, Redis.run_lock, expireZsetClean,
    Redis.run_bind_of_ok (run_expireClean_of_unexpired h _)]
  simp only [Bool.false_eq_true, if_false, Redis.run_itersMonotonyPredicate]
  cases w.lsm.itersMonotonyPredicate (preffixPredicate (getZsetScorePreffix key)) with
  | none =>
      have hzero : checkedSigned 32 ((none : Option (List (Bytes × Bytes))).getD []).length =
          .ok 0 := if_pos ⟨by decide, by decide⟩
      rw [hzero]
      rfl
  | some elems =>
      rw [Option.getD_some]
      dsimp only
      cases hcount : checkedSigned 32 elems.length with
      | error e => rw [Redis.run_bind_of_error (by rw [Redis.run_done])]; rfl
      | ok count => rw [Redis.run_bind_of_ok (by rw [Redis.run_done])]; rfl

theorem run_redisZscore (elem : Bytes) :
  Redis.run (redisZscore key elem) w =
    (.ok ((w.lsm.get (getZsetKeyElem key elem)).elim nilReply bulkReply), w)
  := by
  rw [redisZscore, Redis.run_lock, expireZsetClean,
    Redis.run_bind_of_ok (run_expireClean_of_unexpired h _)]
  simp only [Bool.false_eq_true, if_false, Redis.run_get]
  cases w.lsm.get (getZsetKeyElem key elem) with
  | none => rfl
  | some score => rfl

/-- ZRANK of what is not a member. -/
theorem run_redisZrank_of_none {elem : Bytes} (hget : w.lsm.get (getZsetKeyElem key elem) = none) :
  Redis.run (redisZrank key elem) w = (.ok nilReply, w)
  := by
  rw [redisZrank, Redis.run_lock, expireZsetClean,
    Redis.run_bind_of_ok (run_expireClean_of_unexpired h _)]
  simp only [Bool.false_eq_true, if_false, Redis.run_get, hget, Redis.run_pure]

/-- ZINCRBY takes the entry of the old score out of the index and stores the new score. -/
theorem run_redisZincrby [Doubles] {increment elem newScore : Bytes}
    (hscore : incrementedScore (w.lsm.get (getZsetKeyElem key elem)) increment = .ok newScore) :
  Redis.run (redisZincrby key increment elem) w =
    (.ok (bytes ":" ++ newScore ++ crlf), { w with
      lsm := (((w.lsm.get (getZsetKeyElem key elem)).elim w.lsm
          (fun originalScore => w.lsm.remove (getZsetKeySocre key originalScore))).put
        (getZsetKeyElem key elem) newScore).put (getZsetKeySocre key newScore) elem })
  := by
  rw [redisZincrby, Redis.run_lock, expireZsetClean,
    Redis.run_bind_of_ok (run_expireClean_of_unexpired h _)]
  simp only [Bool.not_false, if_true, Redis.run_unlock, Redis.run_lock, Redis.run_get]
  rw [Redis.run_bind_of_ok (by rw [hscore, Redis.run_done])]
  cases w.lsm.get (getZsetKeyElem key elem) with
  | none => rfl
  | some originalScore => rfl

/-- If no new score can be computed, nothing is changed. -/
theorem run_redisZincrby_of_error [Doubles] {increment elem : Bytes} {e : Fault}
    (hscore : incrementedScore (w.lsm.get (getZsetKeyElem key elem)) increment = .error e) :
  Redis.run (redisZincrby key increment elem) w = (.error e, w)
  := by
  rw [redisZincrby, Redis.run_lock, expireZsetClean,
    Redis.run_bind_of_ok (run_expireClean_of_unexpired h _)]
  simp only [Bool.not_false, if_true, Redis.run_unlock, Redis.run_lock, Redis.run_get]
  rw [Redis.run_bind_of_error (by rw [hscore, Redis.run_done])]

end

end RedisWrapper

end TinyLsm
