import TinyLsm.RedisWrapper.ExpireClean

/-!
# Commands on any key

Strings, counters, expiry times, and the removal of keys.
-/

namespace TinyLsm

namespace RedisWrapper

open TomlConfig

/-- Add to a number, where a missing one becomes the initial text. -/
def redisAdd (initial : Bytes) (change : ℤ) (key : Bytes) : Redis Bytes := do
  Redis.lock .exclusive
  match ← Redis.get key with
  | none =>
      Redis.put key initial
      return initial
  | some originalValue =>
      let n ← .done (stoll originalValue)
      let newValue := decimal (← .done (checkedSigned 64 (n + change)))
      Redis.put key newValue
      return newValue

def redisIncr (key : Bytes) : Redis Bytes := redisAdd (bytes "1") 1 key

def redisDecr (key : Bytes) : Redis Bytes := redisAdd (bytes "-1") (-1) key

/-- Remove one key, and answer whether it was there. -/
def redisDelKey (curKey : Bytes) : Redis Bool := do
  let curValue ← Redis.get curKey
  if let some value := curValue then
    if isValueHash value then
      let fieldList ← .done (getFiledsFromHashValue curValue)
      forM fieldList (fun field => Redis.remove (getHashFiledKey curKey field))
    Redis.remove curKey
  if (← Redis.get (getExplireKey curKey)).isSome then
    Redis.remove (getExplireKey curKey)
  return curValue.isSome

def redisDelFrom (delCount : ℕ) : List Bytes → Redis ℕ
  | [] => return delCount
  | curKey :: keys => do
      let deleted ← redisDelKey curKey
      redisDelFrom (if deleted then delCount + 1 else delCount) keys

def redisDel (args : List Bytes) : Redis Bytes := do
  Redis.lock .exclusive
  let delCount ← redisDelFrom 0 (args.drop 1)
  return integerReply delCount

def redisExpire (key secondsCount : Bytes) : Redis Bytes := do
  Redis.lock .exclusive
  let expireTimeStr ← getExpireTime secondsCount
  Redis.put (getExplireKey key) expireTimeStr
  return bytes ":1\r\n"

def redisSet (key value : Bytes) : Redis Bytes := do
  Redis.lock .exclusive
  Redis.put key value
  if (← Redis.get (getExplireKey key)).isSome then
    Redis.remove (getExplireKey key)
  return okReply

def redisGet (key : Bytes) : Redis Bytes := do
  Redis.lock .shared
  let keyQuery ← Redis.get key
  let expireQuery ← Redis.get (getExplireKey key)
  match keyQuery with
  | some value =>
      if ← isExpired expireQuery then
        Redis.unlock
        Redis.lock .upgraded
        Redis.remove key
        Redis.remove (getExplireKey key)
        return nilReply
      else
        return bulkReply value
  | none =>
      if expireQuery.isSome then
        Redis.unlock
        Redis.lock .upgraded
        Redis.remove (getExplireKey key)
      return nilReply

def redisTtl (key : Bytes) : Redis Bytes := do
  Redis.lock .shared
  let keyQuery ← Redis.get key
  let expireQuery ← Redis.get (getExplireKey key)
  match keyQuery, expireQuery with
  | some _, some text =>
      -- the check reads the clock once, and the time left is counted from there
      let now ← Redis.now
      let time ← .done (stoll text)
      if time < now then
        return bytes ":-2\r\n"
      else
        return integerReply (← .done (checkedSigned 64 (time - now)))
  | _, _ => return bytes ":-1\r\n"

/-! ### What DEL and SET store -/

/-- The fields that the value of a key lists if it is a hash. -/
def listedFields (key : Bytes) (lsm : LSM) : List Bytes :=
  match lsm.get key with
  | some value =>
      if isValueHash value then
        split (value.drop getInstance.redisHashValuePreffix.length) getInstance.redisFieldSeparator
      else []
  | none => []

/-- The store after a key has been deleted. -/
def deleteKey (key : Bytes) (lsm : LSM) : LSM :=
  ((lsm.removeBatch ((listedFields key lsm).map (getHashFiledKey key))).remove key).remove
    (getExplireKey key)

theorem getFiledsFromHashValue_of_isValueHash {value : Bytes} (h : isValueHash value = true) :
  getFiledsFromHashValue (some value) =
    .ok (split (value.drop getInstance.redisHashValuePreffix.length)
      getInstance.redisFieldSeparator)
  := by
  obtain ⟨rest, rfl⟩ := List.isPrefixOf_iff_prefix.mp h
  rw [getFiledsFromHashValue_preffix, List.drop_left]

theorem get_deleteKey (key : Bytes) (lsm : LSM) (x : Bytes) :
  (deleteKey key lsm).get x =
    if x = key ∨ x = getExplireKey key ∨ x ∈ (listedFields key lsm).map (getHashFiledKey key)
    then none else lsm.get x
  := by
  rw [deleteKey, LSM.get_remove, LSM.get_remove, LSM.get_removeBatch]
  by_cases hexpire : x = getExplireKey key
  · rw [if_pos hexpire, if_pos (.inr (.inl hexpire))]
  · rw [if_neg hexpire]
    by_cases hkey : x = key
    · rw [if_pos hkey, if_pos (.inl hkey)]
    · rw [if_neg hkey]
      by_cases hfield : x ∈ (listedFields key lsm).map (getHashFiledKey key)
      · rw [if_pos hfield, if_pos (.inr (.inr hfield))]
      · rw [if_neg hfield, if_neg (not_or.mpr ⟨hkey, not_or.mpr ⟨hexpire, hfield⟩⟩)]

/-- Removing a key if it is live is removing it. -/
theorem run_remove_if_isSome (x : Bytes) (w : World) {α : Type} (p : Redis α) :
  Redis.run (Redis.get x >>= fun query =>
      if query.isSome then Redis.remove x >>= fun _ => p else p) w =
    Redis.run p { w with lsm := w.lsm.remove x }
  := by
  rw [Redis.run_get]
  cases hget : w.lsm.get x with
  | none => rw [LSM.remove_of_get_eq_none hget, Option.isSome_none, if_neg Bool.false_ne_true]
  | some value => rw [Option.isSome_some, if_pos rfl, Redis.run_remove]

theorem run_redisDelKey (key : Bytes) (w : World) :
  Redis.run (redisDelKey key) w =
    (.ok (w.lsm.get key).isSome, { w with lsm := deleteKey key w.lsm })
  := by
  rw [redisDelKey, Redis.run_get, deleteKey, listedFields]
  cases hget : w.lsm.get key with
  | none =>
      dsimp only
      rw [run_remove_if_isSome]
      rw [List.map_nil, LSM.removeBatch, List.foldl_nil, LSM.remove_of_get_eq_none hget]
      rfl
  | some value =>
      dsimp only
      by_cases hhash : isValueHash value = true
      · rw [if_pos hhash, if_pos hhash, getFiledsFromHashValue_of_isValueHash hhash,
          Redis.run_bind_of_ok (Redis.run_done _ _), Redis.run_bind_of_ok (run_forM_remove _ _ _),
          Redis.run_remove, run_remove_if_isSome]
        rfl
      · rw [if_neg hhash, if_neg hhash, Redis.run_remove, run_remove_if_isSome]
        rfl

/-- The store after keys have been deleted, one after another. -/
theorem run_redisDelFrom :
  ∀ (keys : List Bytes) (delCount : ℕ) (w : World),
    ∃ delCount' : ℕ, Redis.run (redisDelFrom delCount keys) w =
      (.ok delCount', { w with lsm := keys.foldl (fun lsm key => deleteKey key lsm) w.lsm })
  | [], delCount, _ => ⟨delCount, rfl⟩
  | key :: keys, delCount, w => by
      rw [redisDelFrom, Redis.run_bind_of_ok (run_redisDelKey key w), List.foldl_cons]
      apply run_redisDelFrom keys

theorem run_redisDel (command : Bytes) (keys : List Bytes) (w : World) :
  ∃ delCount : ℕ, Redis.run (redisDel (command :: keys)) w =
    (.ok (integerReply delCount),
      { w with lsm := keys.foldl (fun lsm key => deleteKey key lsm) w.lsm })
  := by
  obtain ⟨delCount, hrun⟩ := run_redisDelFrom keys 0 w
  refine ⟨delCount, ?_⟩
  rw [redisDel, Redis.run_lock, List.drop_succ_cons, List.drop_zero, Redis.run_bind_of_ok hrun]
  rfl

theorem run_redisSet (key value : Bytes) (w : World) :
  Redis.run (redisSet key value) w =
    (.ok okReply, { w with lsm := (w.lsm.put key value).remove (getExplireKey key) })
  := by
  rw [redisSet, Redis.run_lock, Redis.run_put, run_remove_if_isSome]
  rfl

/-- GET of a key under which nothing is stored removes its expiry time. -/
theorem run_redisGet_of_none {key : Bytes} {w : World} (h : w.lsm.get key = none) :
  Redis.run (redisGet key) w =
    (.ok nilReply, { w with lsm := w.lsm.remove (getExplireKey key) })
  := by
  rw [redisGet, Redis.run_lock, Redis.run_get, Redis.run_get, h]
  dsimp only
  cases hexpire : w.lsm.get (getExplireKey key) with
  | none =>
      rw [LSM.remove_of_get_eq_none hexpire]
      rfl
  | some text => rfl

theorem run_redisTtl_of_none {key : Bytes} {w : World} (h : w.lsm.get key = none) :
  Redis.run (redisTtl key) w = (.ok (bytes ":-1\r\n"), w)
  := by
  rw [redisTtl, Redis.run_lock, Redis.run_get, Redis.run_get, h]
  rfl

end RedisWrapper

end TinyLsm
