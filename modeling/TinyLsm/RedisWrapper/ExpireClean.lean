import TinyLsm.RedisWrapper.Calls
import TinyLsm.RedisWrapper.Replies

/-!
# Expiry times

An expiry time is kept in seconds under a key of its own.  Nothing happens when it passes: the
next command that comes upon it removes the data.  The four families of commands do so with the
same steps, but each removes what its own type of data is made of.
-/

namespace TinyLsm

namespace RedisWrapper

/-- Whether an expiry time lies in the past. -/
def isExpired (expireStr : Option Bytes) : Redis Bool :=
  match expireStr with
  | none => return false
  | some text => do
      let now ← Redis.now
      let time ← .done (stoll text)
      return decide (time < now)

def getExpireTime (secondsCount : Bytes) : Redis Bytes := do
  let now ← Redis.now
  let timeAdd ← .done (stoll secondsCount)
  let expireTime ← .done (checkedSigned 64 (now + timeAdd))
  return decimal expireTime

/-- The cleaning of an expired key, called with the lock shared: it is released and taken
alone, and what the caller does next is up to the result. -/
def expireClean (key : Bytes) (clean : Redis Unit) : Redis Bool := do
  let expireQuery ← Redis.get (getExplireKey key)
  if ← isExpired expireQuery then
    Redis.unlock
    Redis.lock .upgraded
    clean
    Redis.unlock
    return true
  return false

/-- Remove the keys with a prefix. -/
def removePreffix (preffix : Bytes) : Redis Unit := do
  match ← Redis.itersMonotonyPredicate (preffixPredicate preffix) with
  | some elems => Redis.removeBatch (elems.map Prod.fst)
  | none => return ()

def cleanHash (key : Bytes) : Redis Unit := do
  let fileds ← .done (getFiledsFromHashValue (← Redis.get key))
  forM fileds (fun field => Redis.remove (getHashFiledKey key field))
  Redis.remove key
  Redis.remove (getExplireKey key)

def cleanList (key : Bytes) : Redis Unit := do
  Redis.remove key
  Redis.remove (getExplireKey key)

/-- Remove a key with its expiry time, and then the keys with a prefix. -/
def cleanPreffix (preffix key : Bytes) : Redis Unit := do
  Redis.remove key
  Redis.remove (getExplireKey key)
  removePreffix preffix

def cleanZset (key : Bytes) : Redis Unit := cleanPreffix (getZsetKeyPreffix key) key

def cleanSet (key : Bytes) : Redis Unit := cleanPreffix (getSetKeyPreffix key) key

def expireHashClean (key : Bytes) : Redis Bool := expireClean key (cleanHash key)

def expireListClean (key : Bytes) : Redis Bool := expireClean key (cleanList key)

def expireZsetClean (key : Bytes) : Redis Bool := expireClean key (cleanZset key)

def expireSetClean (key : Bytes) : Redis Bool := expireClean key (cleanSet key)

/-! ### Whether a key is expired -/

/-- The key has an expiry time that lies in the past. -/
def Lapsed (key : Bytes) (w : World) : Prop :=
  ∃ text time, w.lsm.get (getExplireKey key) = some text ∧ stoll text = .ok time ∧ time < w.now

/-- The key has no expiry time, or one that does not lie in the past. -/
def Unexpired (key : Bytes) (w : World) : Prop :=
  w.lsm.get (getExplireKey key) = none ∨
    ∃ text time, w.lsm.get (getExplireKey key) = some text ∧ stoll text = .ok time ∧ w.now ≤ time

theorem Lapsed.not_unexpired {key : Bytes} {w : World} (h : Lapsed key w) : ¬ Unexpired key w
  := by
  obtain ⟨text, time, hget, hread, hlt⟩ := h
  rintro (hnone | ⟨text', time', hget', hread', hle⟩)
  · rw [hget] at hnone
    cases hnone
  · obtain rfl := Option.some.inj (hget.symm.trans hget')
    obtain rfl := Except.ok.inj (hread.symm.trans hread')
    exact not_lt_of_ge hle hlt

theorem run_isExpired_of_lapsed {key : Bytes} {w : World} (h : Lapsed key w) :
  Redis.run (isExpired (w.lsm.get (getExplireKey key))) w = (.ok true, w)
  := by
  obtain ⟨text, time, hget, hread, hlt⟩ := h
  rw [hget, isExpired, Redis.run_now, hread, ← decide_eq_true hlt]
  rfl

theorem run_isExpired_of_unexpired {key : Bytes} {w : World} (h : Unexpired key w) :
  Redis.run (isExpired (w.lsm.get (getExplireKey key))) w = (.ok false, w)
  := by
  rcases h with hnone | ⟨text, time, hget, hread, hle⟩
  · rw [hnone]
    rfl
  · rw [hget, isExpired, Redis.run_now, hread, ← decide_eq_false (not_lt_of_ge hle)]
    rfl

theorem run_getExpireTime (secondsCount : Bytes) (w : World) :
  Redis.run (getExpireTime secondsCount) w =
    (do
      let timeAdd ← stoll secondsCount
      let expireTime ← checkedSigned 64 (w.now + timeAdd)
      return decimal expireTime, w)
  := by
  rw [getExpireTime, Redis.run_now]
  cases stoll secondsCount with
  | error e => rfl
  | ok timeAdd =>
      rw [Redis.run_bind_of_ok (Redis.run_done _ _)]
      change _ = ((checkedSigned 64 (w.now + timeAdd) >>= fun expireTime =>
        return decimal expireTime, w) : Except Fault Bytes × World)
      cases checkedSigned 64 (w.now + timeAdd) with
      | error e => rfl
      | ok expireTime => rfl

/-- The cleaning leaves a key that is not expired. -/
theorem run_expireClean_of_unexpired {key : Bytes} {w : World} (h : Unexpired key w)
    (clean : Redis Unit) :
  Redis.run (expireClean key clean) w = (.ok false, w)
  := by
  rw [expireClean, Redis.run_get, Redis.run_bind_of_ok (run_isExpired_of_unexpired h)]
  rfl

theorem run_expireClean_of_lapsed {key : Bytes} {w w' : World} (h : Lapsed key w)
    {clean : Redis Unit} (hclean : Redis.run clean w = (.ok (), w')) :
  Redis.run (expireClean key clean) w = (.ok true, w')
  := by
  rw [expireClean, Redis.run_get, Redis.run_bind_of_ok (run_isExpired_of_lapsed h), if_pos rfl,
    Redis.run_unlock, Redis.run_lock, Redis.run_bind_of_ok hclean]
  rfl

/-- The check fails on an expiry time that cannot be read. -/
theorem run_expireClean_of_unreadable {key : Bytes} {w : World} (hlapsed : ¬ Lapsed key w)
    (hunexpired : ¬ Unexpired key w) (clean : Redis Unit) :
  ∃ e, Redis.run (expireClean key clean) w = (.error e, w)
  := by
  cases hget : w.lsm.get (getExplireKey key) with
  | none => exact absurd (.inl hget) hunexpired
  | some text =>
      cases hread : stoll text with
      | ok time =>
          by_cases hlt : time < w.now
          · exact absurd ⟨text, time, hget, hread, hlt⟩ hlapsed
          · exact absurd (.inr ⟨text, time, hget, hread, not_lt.mp hlt⟩) hunexpired
      | error e =>
          have hexpired : Redis.run (isExpired (some text)) w = (.error e, w) := by
            rw [isExpired, Redis.run_now, hread]
            rfl
          refine ⟨e, ?_⟩
          rw [expireClean, Redis.run_get, hget, Redis.run_bind_of_error hexpired]

/-! ### What the cleanings do -/

theorem run_forM_remove {α : Type} (storageKey : α → Bytes) :
  ∀ (as : List α) (w : World),
    Redis.run (forM as (fun a => Redis.remove (storageKey a))) w =
      (.ok (), { w with lsm := w.lsm.removeBatch (as.map storageKey) })
  | [], _ => rfl
  | a :: as, w => by
      rw [List.forM_cons, Redis.run_remove, run_forM_remove storageKey as]
      rfl

theorem run_cleanList (key : Bytes) (w : World) :
  Redis.run (cleanList key) w =
    (.ok (), { w with lsm := (w.lsm.remove key).remove (getExplireKey key) })
  := rfl

theorem run_cleanHash {key : Bytes} {w : World} {fields : List Bytes}
    (h : getFiledsFromHashValue (w.lsm.get key) = .ok fields) :
  Redis.run (cleanHash key) w =
    (.ok (), { w with
      lsm := ((w.lsm.removeBatch (fields.map (getHashFiledKey key))).remove key).remove
        (getExplireKey key) })
  := by
  rw [cleanHash, Redis.run_get, Redis.run_bind_of_ok (by rw [Redis.run_done, h]),
    Redis.run_bind_of_ok (run_forM_remove _ _ _)]
  rfl

/-- Removing the keys with a prefix leaves the others. -/
theorem run_removePreffix (preffix : Bytes) (w : World) :
  ∃ lsm, Redis.run (removePreffix preffix) w = (.ok (), { w with lsm := lsm }) ∧
    ∀ x, lsm.get x = if preffix <+: x then none else w.lsm.get x
  := by
  rw [removePreffix, Redis.run_itersMonotonyPredicate]
  cases hfound : w.lsm.itersMonotonyPredicate (preffixPredicate preffix) with
  | none =>
      refine ⟨w.lsm, rfl, ?_⟩
      intro x
      split
      next hpreffix =>
        exact LSM.itersMonotonyPredicate_eq_none.mp hfound x (preffixPredicate_eq_zero.mpr hpreffix)
      next => rfl
  | some found =>
      refine ⟨w.lsm.removeBatch (found.map Prod.fst), rfl, ?_⟩
      obtain ⟨hmem, -⟩ := LSM.itersMonotonyPredicate_spec hfound
      intro x
      rw [LSM.get_removeBatch]
      split
      next hx =>
        obtain ⟨p, hp, rfl⟩ := List.mem_map.mp hx
        rw [if_pos (preffixPredicate_eq_zero.mp ((hmem p).mp hp).2)]
      next hx =>
        split
        next hpreffix =>
          cases hget : w.lsm.get x with
          | none => rfl
          | some value =>
              have hp := (hmem (x, value)).mpr ⟨hget, preffixPredicate_eq_zero.mpr hpreffix⟩
              exact absurd (List.mem_map_of_mem hp) hx
        next => rfl

theorem run_cleanPreffix (preffix key : Bytes) (w : World) :
  ∃ lsm, Redis.run (cleanPreffix preffix key) w = (.ok (), { w with lsm := lsm }) ∧
    ∀ x, lsm.get x = if x = key ∨ x = getExplireKey key ∨ preffix <+: x then none
      else w.lsm.get x
  := by
  obtain ⟨lsm, hrun, hget⟩ := run_removePreffix preffix
    { w with lsm := (w.lsm.remove key).remove (getExplireKey key) }
  refine ⟨lsm, hrun, ?_⟩
  intro x
  rw [hget, LSM.get_remove, LSM.get_remove]
  by_cases hpreffix : preffix <+: x
  · rw [if_pos hpreffix, if_pos (.inr (.inr hpreffix))]
  · rw [if_neg hpreffix]
    by_cases hexpire : x = getExplireKey key
    · rw [if_pos hexpire, if_pos (.inr (.inl hexpire))]
    · rw [if_neg hexpire]
      by_cases hkey : x = key
      · rw [if_pos hkey, if_pos (.inl hkey)]
      · rw [if_neg hkey, if_neg (not_or.mpr ⟨hkey, not_or.mpr ⟨hexpire, hpreffix⟩⟩)]

end RedisWrapper

end TinyLsm
