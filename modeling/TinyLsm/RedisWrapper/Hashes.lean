import TinyLsm.RedisWrapper.ExpireClean

/-!
# Commands on hashes

A hash is stored as the list of its fields under the key, and its values under a key for each
field.
-/

namespace TinyLsm

namespace RedisWrapper

/-- Store the values, and list the fields that are not listed yet. -/
def hsetFields (key : Bytes) : List Bytes → ℕ → List (Bytes × Bytes) → Redis (List Bytes × ℕ)
  | fieldList, addedCount, [] => return (fieldList, addedCount)
  | fieldList, addedCount, (field, value) :: fieldValuePairs => do
      Redis.put (getHashFiledKey key field) value
      if field ∈ fieldList then
        hsetFields key fieldList addedCount fieldValuePairs
      else
        hsetFields key (fieldList ++ [field]) (addedCount + 1) fieldValuePairs

/-- A request has less than `2 ^ 31` arguments, so that the count of the fields fits. -/
def redisHsetBatch (key : Bytes) (fieldValuePairs : List (Bytes × Bytes)) : Redis Bytes := do
  Redis.lock .shared
  let isExpired ← expireHashClean key
  if !isExpired then
    Redis.unlock
  Redis.lock .exclusive
  let fieldList ← .done (getFiledsFromHashValue (← Redis.get key))
  let (fieldList, addedCount) ← hsetFields key fieldList 0 fieldValuePairs
  Redis.put key (getHashValueFromFields fieldList)
  return integerReply addedCount

/-- The arguments from the third on, two at a time. -/
def argPairs : List Bytes → List (Bytes × Bytes)
  | field :: value :: args => (field, value) :: argPairs args
  | _ => []

/-- Two arguments for each pair. -/
def pairArgs (pairs : List (Bytes × Bytes)) : List Bytes := pairs.flatMap (fun p => [p.1, p.2])

def hset (args : List Bytes) : Redis Bytes :=
  match args with
  | _ :: key :: field :: value :: rest =>
      if rest.length % 2 = 0 then redisHsetBatch key (argPairs (field :: value :: rest))
      else return wrongNumberReply (bytes "hset")
  | _ => return wrongNumberReply (bytes "hset")

def redisHget (key field : Bytes) : Redis Bytes := do
  Redis.lock .shared
  let isExpired ← expireHashClean key
  if isExpired then
    return nilReply
  match ← Redis.get (getHashFiledKey key field) with
  | some value => return bulkReply value
  | none => return nilReply

def redisHdel (key field : Bytes) : Redis Bytes := do
  Redis.lock .shared
  let isExpired ← expireHashClean key
  if isExpired then
    return integerReply 0
  Redis.unlock
  Redis.lock .exclusive
  let live := (← Redis.get (getHashFiledKey key field)).isSome
  if live then
    Redis.remove (getHashFiledKey key field)
  let fieldList ← .done (getFiledsFromHashValue (← Redis.get key))
  if field ∈ fieldList then
    let fieldList := fieldList.erase field
    if fieldList = [] then
      Redis.remove key
    else
      Redis.put key (getHashValueFromFields fieldList)
  return integerReply (if live then 1 else 0)

def redisHkeys (key : Bytes) : Redis Bytes := do
  Redis.lock .shared
  let isExpired ← expireHashClean key
  if isExpired then
    return arrayReply []
  let fields ← .done (getFiledsFromHashValue (← Redis.get key))
  return arrayReply fields

theorem pairArgs_cons (p : Bytes × Bytes) (pairs : List (Bytes × Bytes)) :
  pairArgs (p :: pairs) = p.1 :: p.2 :: pairArgs pairs
  := rfl

/-- The arguments are read as the pairs that they are made of. -/
theorem argPairs_pairArgs : ∀ (pairs : List (Bytes × Bytes)), argPairs (pairArgs pairs) = pairs
  | [] => rfl
  | p :: pairs => by rw [pairArgs_cons, argPairs, argPairs_pairArgs pairs]

theorem length_pairArgs (pairs : List (Bytes × Bytes)) :
  (pairArgs pairs).length = 2 * pairs.length
  := by
  induction pairs with
  | nil => rfl
  | cons p pairs ih =>
      rw [pairArgs_cons, List.length_cons, List.length_cons, ih, List.length_cons]
      omega

/-- With at least one pair the number of arguments is right. -/
theorem hset_pairArgs (command key : Bytes) {pairs : List (Bytes × Bytes)} (h : pairs ≠ []) :
  hset (command :: key :: pairArgs pairs) = redisHsetBatch key pairs
  := by
  cases pairs with
  | nil => exact absurd rfl h
  | cons p pairs =>
      rw [pairArgs_cons, hset, length_pairArgs, if_pos (Nat.mul_mod_right 2 _), argPairs,
        argPairs_pairArgs]

/-- The loop of HSET does not fail. -/
theorem run_hsetFields_eq_ok (key : Bytes) :
  ∀ (pairs : List (Bytes × Bytes)) (fieldList : List Bytes) (addedCount : ℕ) (w : World),
    ∃ fieldList' addedCount' w', Redis.run (hsetFields key fieldList addedCount pairs) w =
      (.ok (fieldList', addedCount'), w')
  | [], fieldList, addedCount, w => ⟨fieldList, addedCount, w, rfl⟩
  | (field, value) :: pairs, fieldList, addedCount, w => by
      rw [hsetFields, Redis.run_put]
      split
      · apply run_hsetFields_eq_ok key pairs
      · apply run_hsetFields_eq_ok key pairs

/-! ### Commands on a key that is not expired -/

section

variable {key : Bytes} {w : World} (h : Unexpired key w) {fieldList : List Bytes}

include h

theorem run_redisHsetBatch {pairs : List (Bytes × Bytes)} {fieldList' : List Bytes}
    {addedCount : ℕ} {w' : World}
    (hfields : getFiledsFromHashValue (w.lsm.get key) = .ok fieldList)
    (hrun : Redis.run (hsetFields key fieldList 0 pairs) w = (.ok (fieldList', addedCount), w')) :
  Redis.run (redisHsetBatch key pairs) w =
    (.ok (integerReply addedCount),
      { w' with lsm := w'.lsm.put key (getHashValueFromFields fieldList') })
  := by
  rw [redisHsetBatch, Redis.run_lock, expireHashClean,
    Redis.run_bind_of_ok (run_expireClean_of_unexpired h _)]
  simp only [Bool.not_false, if_true, Redis.run_unlock, Redis.run_lock, Redis.run_get]
  rw [Redis.run_bind_of_ok (by rw [Redis.run_done, hfields]), Redis.run_bind_of_ok hrun]
  rfl

theorem run_redisHget (field : Bytes) :
  Redis.run (redisHget key field) w =
    (.ok ((w.lsm.get (getHashFiledKey key field)).elim nilReply bulkReply), w)
  := by
  rw [redisHget, Redis.run_lock, expireHashClean,
    Redis.run_bind_of_ok (run_expireClean_of_unexpired h _)]
  simp only [Bool.false_eq_true, if_false, Redis.run_get]
  cases w.lsm.get (getHashFiledKey key field) with
  | none => rfl
  | some value => rfl

/-- HDEL removes the value of a field and takes the field from the list. -/
theorem run_redisHdel {field : Bytes}
    (hfields : getFiledsFromHashValue (w.lsm.get key) = .ok fieldList) :
  Redis.run (redisHdel key field) w =
    (.ok (integerReply (if (w.lsm.get (getHashFiledKey key field)).isSome then 1 else 0)),
      { w with
        lsm :=
          let lsm := w.lsm.remove (getHashFiledKey key field)
          if field ∈ fieldList then
            if fieldList.erase field = [] then lsm.remove key
            else lsm.put key (getHashValueFromFields (fieldList.erase field))
          else lsm })
  := by
  rw [redisHdel, Redis.run_lock, expireHashClean,
    Redis.run_bind_of_ok (run_expireClean_of_unexpired h _)]
  simp only [Bool.false_eq_true, if_false, Redis.run_unlock, Redis.run_lock, Redis.run_get]
  cases hget : w.lsm.get (getHashFiledKey key field) with
  | none =>
      rw [LSM.remove_of_get_eq_none hget]
      simp only [Option.isSome_none, Bool.false_eq_true, if_false, Redis.run_get]
      rw [Redis.run_bind_of_ok (by rw [Redis.run_done, hfields])]
      split
      · split
        · rfl
        · rfl
      · rfl
  | some value =>
      simp only [Option.isSome_some, if_true, Redis.run_remove, Redis.run_get]
      rw [LSM.get_remove_of_ne _ (under_getHashFiledKey key field).ne_key.symm,
        Redis.run_bind_of_ok (by rw [Redis.run_done, hfields])]
      split
      · split
        · rfl
        · rfl
      · rfl

theorem run_redisHkeys (hfields : getFiledsFromHashValue (w.lsm.get key) = .ok fieldList) :
  Redis.run (redisHkeys key) w = (.ok (arrayReply fieldList), w)
  := by
  rw [redisHkeys, Redis.run_lock, expireHashClean,
    Redis.run_bind_of_ok (run_expireClean_of_unexpired h _)]
  simp only [Bool.false_eq_true, if_false, Redis.run_get]
  rw [Redis.run_bind_of_ok (by rw [Redis.run_done, hfields])]
  rfl

end

end RedisWrapper

end TinyLsm
