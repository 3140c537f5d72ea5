import TinyLsm.RedisWrapper.ExpireClean

/-!
# Commands on lists

A list is stored as one value, its elements joined by the separator.  The empty list is not
stored.
-/

namespace TinyLsm

namespace RedisWrapper

open TomlConfig

/-- Push an element, given how a list that is not empty is joined with it. -/
def redisPush (joined : Bytes → Bytes → Bytes) (key value : Bytes) : Redis Bytes := do
  Redis.lock .shared
  let isExpire ← expireListClean key
  if !isExpire then
    Redis.unlock
  Redis.lock .exclusive
  let listOpt ← Redis.get key
  let listValue := listOpt.getD []
  let listValue := if listValue = [] then value else joined value listValue
  Redis.put key listValue
  return integerReply (split listValue getInstance.redisListSeparator).length

def redisLpush (key value : Bytes) : Redis Bytes :=
  redisPush (fun value listValue => value ++ getInstance.redisListSeparator :: listValue) key value

def redisRpush (key value : Bytes) : Redis Bytes :=
  redisPush (fun value listValue => listValue ++ getInstance.redisListSeparator :: value) key value

/-- Pop an element, given how it is taken from the elements. -/
def redisPop (taken : List Bytes → Option (Bytes × List Bytes)) (key : Bytes) : Redis Bytes := do
  Redis.lock .shared
  let isExpire ← expireListClean key
  if isExpire then
    return nilReply
  Redis.unlock
  Redis.lock .exclusive
  match ← Redis.get key with
  | none => return nilReply
  | some list =>
      match taken (split list getInstance.redisListSeparator) with
      | none => return nilReply
      | some (value, elements) =>
          if elements = [] then
            Redis.remove key
          else
            Redis.put key (join elements getInstance.redisListSeparator)
          return bulkReply value

def redisLpop (key : Bytes) : Redis Bytes :=
  redisPop (fun elements => elements.head?.map (fun value => (value, elements.tail))) key

def redisRpop (key : Bytes) : Redis Bytes :=
  redisPop (fun elements => elements.getLast?.map (fun value => (value, elements.dropLast))) key

def redisLlen (key : Bytes) : Redis Bytes := do
  Redis.lock .shared
  let isExpired ← expireListClean key
  if isExpired then
    return integerReply 0
  match ← Redis.get key with
  | none => return integerReply 0
  | some list => return integerReply (split list getInstance.redisListSeparator).length

/-- The elements from one position to another one.  Negative positions count from the end; the
size of the list is converted to `int`, and the position of the end to `size_t` before it is
compared with the size. -/
def rangeReply (elements : List Bytes) (start stop : ℤ) : Except Fault Bytes :=
  let size : ℤ := elements.length
  let start := if start < 0 then toInt (start + size) else start
  let stop := if stop < 0 then toInt (stop + size) else stop
  let start := if start < 0 then 0 else start
  let stop := if elements.length ≤ toSizeT stop then toInt (size - 1) else stop
  if stop < start then .ok (arrayReply [])
  -- the position is counted up to one after the last
  else if stop = 2 ^ 31 - 1 then .error .undefinedBehavior
  else
    let count := stop - start + 1
    .ok (announcedReply count ((elements.drop start.toNat).take count.toNat))

def redisLrange (key : Bytes) (start stop : ℤ) : Redis Bytes := do
  Redis.lock .shared
  let isExpire ← expireListClean key
  if isExpire then
    return arrayReply []
  match ← Redis.get key with
  | none => return arrayReply []
  | some list =>
      let elements := split list getInstance.redisListSeparator
      if elements = [] then
        return arrayReply []
      .done (rangeReply elements start stop)

/-- The position of the start of a range. -/
def rangeStart (elements : List Bytes) (start : ℤ) : ℤ :=
  let start := if start < 0 then toInt (start + elements.length) else start
  if start < 0 then 0 else start

/-- The position of the end of a range. -/
def rangeStop (elements : List Bytes) (stop : ℤ) : ℤ :=
  let stop := if stop < 0 then toInt (stop + elements.length) else stop
  if elements.length ≤ toSizeT stop then toInt (elements.length - 1) else stop

theorem rangeReply_eq (elements : List Bytes) (start stop : ℤ) :
  rangeReply elements start stop =
    if rangeStop elements stop < rangeStart elements start then .ok (arrayReply [])
    else if rangeStop elements stop = 2 ^ 31 - 1 then .error .undefinedBehavior
    else
      let count := rangeStop elements stop - rangeStart elements start + 1
      .ok (announcedReply count
        ((elements.drop (rangeStart elements start).toNat).take count.toNat))
  := rfl

theorem rangeStart_nonneg (elements : List Bytes) (start : ℤ) : 0 ≤ rangeStart elements start
  := by
  rw [rangeStart]
  generalize (if start < 0 then toInt (start + elements.length) else start) = first
  split
  next => exact le_refl 0
  next h => exact not_lt.mp h

/-- The end of a range is a position of an element, unless it is before all of them. -/
theorem rangeStop_lt {elements : List Bytes} {stop : ℤ} (hstop : FitsSigned 32 stop)
    (h : 0 ≤ rangeStop elements stop) :
  rangeStop elements stop < elements.length
  := by
  rw [rangeStop] at h ⊢
  have hfits : (if stop < 0 then toInt (stop + elements.length) else stop) < 2 ^ 31 := by
    split
    · apply toInt_lt
    · exact hstop.2
  generalize (if stop < 0 then toInt (stop + elements.length) else stop) = last at h hfits ⊢
  split at h
  next hsize =>
    rw [if_pos hsize]
    have hle := toInt_le h (by omega)
    omega
  next hsize =>
    rw [if_neg hsize]
    rw [toSizeT_of_nonneg h (by omega)] at hsize
    omega

/-- The range of all elements, if their number fits `int`. -/
theorem rangeReply_all {elements : List Bytes} (hne : elements ≠ [])
    (h : elements.length < 2 ^ 31) :
  rangeReply elements 0 (-1) = .ok (arrayReply elements)
  := by
  have hpos := List.length_pos_iff.mpr hne
  have hstop : toInt (-1 + elements.length) = elements.length - 1 := by
    rw [toInt_of_fits ⟨by omega, by omega⟩]
    omega
  have hsize : toSizeT (elements.length - 1 : ℤ) = elements.length - 1 := by
    rw [toSizeT_of_nonneg (by omega) (by omega)]
    omega
  have hcount : (elements.length - 1 - 0 + 1 : ℤ) = elements.length := by omega
  simp only [rangeReply, lt_irrefl, if_false, Int.reduceNeg, Int.reduceLT, if_true, hstop, hsize]
  rw [if_neg (by omega), if_neg (by omega), if_neg (by omega), hcount, Int.toNat_zero,
    Int.toNat_natCast, List.drop_zero, List.take_length]
  rfl

/-- A number of elements that `int` reads as a negative one leaves nothing in range. -/
theorem rangeReply_all_of_wide {elements : List Bytes} (h : 2 ^ 31 < elements.length)
    (hlt : elements.length < 2 ^ 32) :
  rangeReply elements 0 (-1) = .ok (arrayReply [])
  := by
  have hwrap : ∀ n : ℤ, n = elements.length - 1 → toInt n = elements.length - 1 - 2 ^ 32 := by
    rintro n rfl
    have hbmod : Int.bmod (elements.length - 1 - 2 ^ 32) (2 ^ 32) = elements.length - 1 - 2 ^ 32 :=
      Int.bmod_eq_of_le (by omega) (by omega)
    rw [← hbmod, toInt]
    have hadd := Int.sub_mul_bmod_self_right (elements.length - 1) 1 (2 ^ 32)
    rw [Int.one_mul] at hadd
    apply hadd.symm
  have hsize : elements.length ≤ toSizeT (elements.length - 1 - 2 ^ 32 : ℤ) := by
    rw [toSizeT]
    omega
  simp only [rangeReply, lt_irrefl, if_false, Int.reduceNeg, Int.reduceLT, if_true]
  rw [hwrap (-1 + elements.length) (by omega), hwrap (elements.length - 1) rfl, if_pos hsize,
    if_pos (by omega)]

/-! ### Commands on a key that is not expired -/

section

variable {key : Bytes} {w : World} (h : Unexpired key w)

include h

theorem run_redisPush (joined : Bytes → Bytes → Bytes) (value : Bytes) {listValue : Bytes}
    (hvalue : listValue = if (w.lsm.get key).getD [] = [] then value
      else joined value ((w.lsm.get key).getD [])) :
  Redis.run (redisPush joined key value) w =
    (.ok (integerReply (split listValue getInstance.redisListSeparator).length),
      { w with lsm := w.lsm.put key listValue })
  := by
  subst hvalue
  rw [redisPush, Redis.run_lock, expireListClean,
    Redis.run_bind_of_ok (run_expireClean_of_unexpired h _)]
  rfl

theorem run_redisPop (taken : List Bytes → Option (Bytes × List Bytes)) {list value : Bytes}
    {elements : List Bytes} (hget : w.lsm.get key = some list)
    (htaken : taken (split list getInstance.redisListSeparator) = some (value, elements)) :
  Redis.run (redisPop taken key) w =
    (.ok (bulkReply value), { w with
      lsm := if elements = [] then w.lsm.remove key
        else w.lsm.put key (join elements getInstance.redisListSeparator) })
  := by
  rw [redisPop, Redis.run_lock, expireListClean,
    Redis.run_bind_of_ok (run_expireClean_of_unexpired h _)]
  simp only [Bool.false_eq_true, if_false, Redis.run_unlock, Redis.run_lock, Redis.run_get, hget,
    htaken]
  split
  · rfl
  · rfl

theorem run_redisPop_of_none (taken : List Bytes → Option (Bytes × List Bytes))
    (hget : w.lsm.get key = none) :
  Redis.run (redisPop taken key) w = (.ok nilReply, w)
  := by
  rw [redisPop, Redis.run_lock, expireListClean,
    Redis.run_bind_of_ok (run_expireClean_of_unexpired h _)]
  simp only [Bool.false_eq_true, if_false, Redis.run_unlock, Redis.run_lock, Redis.run_get, hget,
    Redis.run_pure]

theorem run_redisLlen :
  Redis.run (redisLlen key) w =
    (.ok (integerReply (split ((w.lsm.get key).getD []) getInstance.redisListSeparator).length), w)
  := by
  rw [redisLlen, Redis.run_lock, expireListClean,
    Redis.run_bind_of_ok (run_expireClean_of_unexpired h _)]
  simp only [Bool.false_eq_true, if_false, Redis.run_get]
  cases w.lsm.get key with
  | none => rfl
  | some list => rfl

theorem run_redisLrange {elements : List Bytes} (start stop : ℤ)
    (helements : split ((w.lsm.get key).getD []) getInstance.redisListSeparator = elements) :
  Redis.run (redisLrange key start stop) w =
    (if elements = [] then .ok (arrayReply []) else rangeReply elements start stop, w)
  := by
  subst helements
  rw [redisLrange, Redis.run_lock, expireListClean,
    Redis.run_bind_of_ok (run_expireClean_of_unexpired h _)]
  simp only [Bool.false_eq_true, if_false, Redis.run_get]
  cases w.lsm.get key with
  | none => rfl
  | some list =>
      simp only [Option.getD_some]
      split
      · rfl
      · rfl

end

end RedisWrapper

end TinyLsm
