import TinyLsm.RedisWrapper.ExpireClean

/-!
# Commands on sets

A set is stored as a key for each member, and the number of its members under the key itself.
-/

namespace TinyLsm

namespace RedisWrapper

def argAt (args : List Bytes) (i : ℕ) : Except Fault Bytes :=
  match args[i]? with
  | some arg => .ok arg
  | none => .error .undefinedBehavior

/-- The keys of the members that are in the set, or of those that are not. -/
def memberKeys (present : Bool) (key : Bytes) : List Bytes → Redis (List Bytes)
  | [] => return []
  | member :: members => do
      let query ← Redis.get (getSetMemberKey key member)
      let keys ← memberKeys present key members
      return if query.isSome = present then getSetMemberKey key member :: keys else keys

/-- The size of a set after a change. -/
def changedSize (change : ℤ) (keyQuery : Option Bytes) : Except Fault ℤ :=
  match keyQuery with
  | none => .ok (toInt change)
  | some value => do
      let prevSize ← stoi value
      checkedSigned 32 (toInt change + prevSize)

theorem changedSize_none {change : ℤ} (h : FitsSigned 32 change) :
  changedSize change none = .ok change
  := by
  rw [changedSize, toInt_of_fits h]

theorem changedSize_decimal {change size : ℤ} (hchange : FitsSigned 32 change)
    (hsize : FitsSigned 32 size) (h : FitsSigned 32 (change + size)) :
  changedSize change (some (decimal size)) = .ok (change + size)
  := by
  have hstoi : stoi (decimal size) = .ok size := readSigned_decimal hsize "stoi"
  rw [changedSize, hstoi, toInt_of_fits hchange]
  change checkedSigned 32 (change + size) = .ok (change + size)
  rw [checkedSigned, if_pos h]

def redisSadd (args : List Bytes) : Redis Bytes := do
  let key ← .done (argAt args 1)
  Redis.lock .shared
  let isExpired ← expireSetClean key
  if !isExpired then
    Redis.unlock
  Redis.lock .exclusive
  let newKeys ← memberKeys false key (args.drop 2)
  let putKvs := newKeys.map (fun memberKey => (memberKey, getSetMemberValue))
  let setSize ← .done (changedSize newKeys.length (← Redis.get key))
  let putKvs := putKvs ++ [(key, decimal setSize)]
  Redis.putBatch putKvs
  return integerReply (putKvs.length - 1)

def redisSrem (args : List Bytes) : Redis Bytes := do
  let key ← .done (argAt args 1)
  Redis.lock .shared
  let isExpired ← expireSetClean key
  if isExpired then
    return integerReply 0
  Redis.unlock
  Redis.lock .exclusive
  let delKvs ← memberKeys true key (args.drop 2)
  let setSize ← .done (changedSize (-delKvs.length) (← Redis.get key))
  Redis.put key (decimal setSize)
  Redis.removeBatch delKvs
  return integerReply delKvs.length

def redisSismember (key member : Bytes) : Redis Bytes := do
  Redis.lock .shared
  let isExpired ← expireSetClean key
  if isExpired then
    return integerReply 0
  if (← Redis.get (getSetMemberKey key member)).isSome then
    return integerReply 1
  else
    return integerReply 0

def redisScard (key : Bytes) : Redis Bytes := do
  Redis.lock .shared
  let isExpired ← expireSetClean key
  if isExpired then
    return integerReply 0
  match ← Redis.get key with
  | some value => return bytes ":" ++ value ++ crlf
  | none => return integerReply 0

def redisSmembers (key : Bytes) : Redis Bytes := do
  Redis.lock .shared
  let isExpired ← expireSetClean key
  if isExpired then
    return arrayReply []
  match ← Redis.itersMonotonyPredicate (preffixPredicate (getSetMemberPrefix key)) with
  | none => return arrayReply []
  | some elems =>
      return arrayReply (elems.map (fun elem => elem.1.drop (getSetMemberPrefix key).length))

/-- The members of a command that are in the set, or those that are not. -/
def membersOf (present : Bool) (key : Bytes) (lsm : LSM) (members : List Bytes) : List Bytes :=
  members.filter (fun member => decide ((lsm.get (getSetMemberKey key member)).isSome = present))

theorem run_memberKeys (present : Bool) (key : Bytes) (w : World) :
  ∀ (members : List Bytes), Redis.run (memberKeys present key members) w =
    (.ok ((membersOf present key w.lsm members).map (getSetMemberKey key)), w)
  | [] => rfl
  | member :: members => by
      rw [memberKeys, Redis.run_get, Redis.run_bind_of_ok (run_memberKeys present key w members),
        membersOf, membersOf, List.filter_cons]
      simp only [decide_eq_true_iff]
      split
      · rfl
      · rfl

/-- The members whose keys are stored. -/
def setMembers (key : Bytes) (lsm : LSM) : List Bytes :=
  (lsm.query (preffixPredicate (getSetMemberPrefix key))).map
    (fun elem => elem.1.drop (getSetMemberPrefix key).length)

theorem mem_setMembers {key : Bytes} {lsm : LSM} {member : Bytes} :
  member ∈ setMembers key lsm ↔ (lsm.get (getSetMemberKey key member)).isSome = true
  := by
  rw [setMembers, List.mem_map, Option.isSome_iff_exists]
  constructor
  · rintro ⟨⟨x, value⟩, hp, rfl⟩
    obtain ⟨hget, hpredicate⟩ := LSM.mem_query.mp hp
    obtain ⟨rest, rfl⟩ := preffixPredicate_eq_zero.mp hpredicate
    rw [List.drop_left]
    exact ⟨value, hget⟩
  · rintro ⟨value, hget⟩
    refine ⟨(getSetMemberKey key member, value), ?_, List.drop_left⟩
    exact LSM.mem_query.mpr ⟨hget, preffixPredicate_eq_zero.mpr (List.prefix_append _ member)⟩

theorem nodup_setMembers (key : Bytes) (lsm : LSM) : (setMembers key lsm).Nodup
  := by
  rw [setMembers, List.Nodup, List.pairwise_map]
  apply List.Pairwise.imp_of_mem _ (lsm.query_ascending _)
  intro p q hp hq hlt heq
  obtain ⟨rest, hrest⟩ := preffixPredicate_eq_zero.mp (LSM.mem_query.mp hp).2
  obtain ⟨rest', hrest'⟩ := preffixPredicate_eq_zero.mp (LSM.mem_query.mp hq).2
  rw [← hrest, ← hrest', List.drop_left, List.drop_left] at heq
  rw [← hrest, ← hrest', heq] at hlt
  exact lt_irrefl _ hlt

/-! ### Commands on a key that is not expired -/

section

variable {key : Bytes} {w : World} (h : Unexpired key w)

include h

theorem run_redisSadd (command : Bytes) (members : List Bytes) {size : ℤ}
    (hsize : changedSize (membersOf false key w.lsm members).length (w.lsm.get key) = .ok size) :
  Redis.run (redisSadd (command :: key :: members)) w =
    (.ok (integerReply (membersOf false key w.lsm members).length), { w with
      lsm := w.lsm.putBatch (((membersOf false key w.lsm members).map (getSetMemberKey key)).map
        (fun memberKey => (memberKey, getSetMemberValue)) ++ [(key, decimal size)]) })
  := by
  rw [redisSadd, Redis.run_bind_of_ok (b := key) rfl, Redis.run_lock, expireSetClean,
    Redis.run_bind_of_ok (run_expireClean_of_unexpired h _)]
  simp only [Bool.not_false, if_true, Redis.run_unlock, Redis.run_lock]
  rw [List.drop_succ_cons, List.drop_succ_cons, List.drop_zero,
    Redis.run_bind_of_ok (run_memberKeys false key w members), Redis.run_get, List.length_map,
    Redis.run_bind_of_ok (by rw [Redis.run_done, hsize]), Redis.run_putBatch, Redis.run_pure,
    List.length_append, List.length_map, List.length_map, List.length_singleton]
  rw [Int.natCast_add, Int.natCast_one, Int.add_sub_cancel]

theorem run_redisSrem (command : Bytes) (members : List Bytes) {size : ℤ}
    (hsize : changedSize (-(membersOf true key w.lsm members).length) (w.lsm.get key) =
      .ok size) :
  Redis.run (redisSrem (command :: key :: members)) w =
    (.ok (integerReply (membersOf true key w.lsm members).length), { w with
      lsm := (w.lsm.put key (decimal size)).removeBatch
        ((membersOf true key w.lsm members).map (getSetMemberKey key)) })
  := by
  rw [redisSrem, Redis.run_bind_of_ok (b := key) rfl, Redis.run_lock, expireSetClean,
    Redis.run_bind_of_ok (run_expireClean_of_unexpired h _)]
  simp only [Bool.false_eq_true, if_false, Redis.run_unlock, Redis.run_lock]
  rw [List.drop_succ_cons, List.drop_succ_cons, List.drop_zero,
    Redis.run_bind_of_ok (run_memberKeys true key w members), Redis.run_get, List.length_map,
    Redis.run_bind_of_ok (by rw [Redis.run_done, hsize])]
  rfl

theorem run_redisSismember (member : Bytes) :
  Redis.run (redisSismember key member) w =
    (.ok (integerReply (if (w.lsm.get (getSetMemberKey key member)).isSome then 1 else 0)), w)
  := by
  rw [redisSismember, Redis.run_lock, expireSetClean,
    Redis.run_bind_of_ok (run_expireClean_of_unexpired h _)]
  simp only [Bool.false_eq_true, if_false, Redis.run_get]
  split
  · rfl
  · rfl

theorem run_redisScard :
  Redis.run (redisScard key) w =
    (.ok ((w.lsm.get key).elim (integerReply 0) (fun value => bytes ":" ++ value ++ crlf)), w)
  := by
  rw [redisScard, Redis.run_lock, expireSetClean,
    Redis.run_bind_of_ok (run_expireClean_of_unexpired h _)]
  simp only [Bool.false_eq_true, if_false, Redis.run_get]
  cases w.lsm.get key with
  | none => rfl
  | some value => rfl

/-- The members that SMEMBERS lists. -/
theorem run_redisSmembers :
  Redis.run (redisSmembers key) w =
    (.ok (arrayReply (setMembers key w.lsm)), w)
  := by
  rw [setMembers, LSM.query, redisSmembers, Redis.run_lock, expireSetClean,
    Redis.run_bind_of_ok (run_expireClean_of_unexpired h _)]
  simp only [Bool.false_eq_true, if_false, Redis.run_itersMonotonyPredicate]
  cases w.lsm.itersMonotonyPredicate (preffixPredicate (getSetMemberPrefix key)) with
  | none => rfl
  | some elems => rfl

end

end RedisWrapper

end TinyLsm
