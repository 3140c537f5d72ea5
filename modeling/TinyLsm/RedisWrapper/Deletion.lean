import TinyLsm.RedisWrapper.Commands

/-!
# What DEL and SET leave of a key

DEL and SET work on the value of the key itself, and DEL on the fields that it lists if it is the
value of a hash.  The members of a set and of a sorted set stay, and SET leaves the fields of a
hash, too.
-/

namespace TinyLsm

namespace RedisWrapper

/-- The commands that read what is stored for a key besides the value of the key. -/
def Command.readsParts : Command → Bool
  | .hget _ _ | .sismember _ _ | .smembers _ | .zscore _ _ | .zcard _ | .zrange _ _ _ => true
  | _ => false

/-- No fields, members and scores are stored for a key. -/
structure NoParts (key : Bytes) (lsm : LSM) : Prop where
  fields : ∀ field, lsm.get (getHashFiledKey key field) = none
  members : ∀ member, lsm.get (getSetMemberKey key member) = none
  elems : ∀ elem, lsm.get (getZsetKeyElem key elem) = none
  scores : ∀ x, getZsetScorePreffix key <+: x → lsm.get x = none

variable {key : Bytes} {lsm : LSM}

theorem noParts_empty (key : Bytes) : NoParts key .empty
  := ⟨fun _ => rfl, fun _ => rfl, fun _ => rfl, fun _ _ => rfl⟩

theorem setMembers_eq_nil_iff :
  setMembers key lsm = [] ↔ ∀ member, lsm.get (getSetMemberKey key member) = none
  := by
  rw [List.eq_nil_iff_forall_not_mem]
  simp only [mem_setMembers, Bool.not_eq_true, Option.isSome_eq_false_iff, Option.isNone_iff_eq_none]

theorem indexedElems_eq_nil_iff :
  indexedElems key lsm = [] ↔ ∀ x, getZsetScorePreffix key <+: x → lsm.get x = none
  := by
  rw [indexedElems, List.map_eq_nil_iff, List.eq_nil_iff_forall_not_mem]
  simp only [LSM.mem_query, preffixPredicate_eq_zero]
  constructor
  · intro h x hx
    cases hget : lsm.get x with
    | none => rfl
    | some value => exact absurd ⟨hget, hx⟩ (h (x, value))
  · rintro h p ⟨hget, hp⟩
    rw [h p.1 hp] at hget
    cases hget

namespace NoParts

variable (h : NoParts key lsm)

include h

/-- Where there are none, the commands that read them answer as for a key that was never
written. -/
theorem exec [Doubles] {r : Command} (hr : r.readsParts = true) (hkey : r.keys = [key]) {now : ℤ}
    (hunexpired : Unexpired key ⟨lsm, now⟩) (now' : ℤ) :
  (r.exec now lsm).1 = (r.exec now' .empty).1
  := by
  have hempty : Unexpired key ⟨.empty, now'⟩ := .inl rfl
  have hsmembers := setMembers_eq_nil_iff.mpr h.members
  have hsmembers' := setMembers_eq_nil_iff.mpr (noParts_empty key).members
  have hindexed := indexedElems_eq_nil_iff.mpr h.scores
  have hindexed' := indexedElems_eq_nil_iff.mpr (noParts_empty key).scores
  rw [Command.exec, Command.exec]
  cases r with
  | hget k field =>
      obtain rfl := (List.cons.inj hkey).1
      rw [Command.program, run_redisHget hunexpired, run_redisHget hempty, h.fields]
      rfl
  | sismember k member =>
      obtain rfl := (List.cons.inj hkey).1
      rw [Command.program, run_redisSismember hunexpired, run_redisSismember hempty, h.members]
      rfl
  | smembers k =>
      obtain rfl := (List.cons.inj hkey).1
      rw [Command.program, run_redisSmembers hunexpired, run_redisSmembers hempty]
      rw [hsmembers, hsmembers']
  | zscore k elem =>
      obtain rfl := (List.cons.inj hkey).1
      rw [Command.program, run_redisZscore hunexpired, run_redisZscore hempty, h.elems]
      rfl
  | zcard k =>
      obtain rfl := (List.cons.inj hkey).1
      rw [Command.program, run_redisZcard hunexpired, run_redisZcard hempty]
      rw [hindexed, hindexed']
  | zrange k start stop =>
      obtain rfl := (List.cons.inj hkey).1
      rw [Command.program, run_redisZrange hunexpired, run_redisZrange hempty]
      rw [hindexed, hindexed']
  | _ => cases hr

/-- If the key has no value, either, all commands that read it answer so. -/
theorem exec_of_get_eq_none [Doubles] (hvalue : lsm.get key = none) {r : Command}
    (hr : r.isRead = true) (hkey : r.keys = [key]) {now : ℤ}
    (hunexpired : Unexpired key ⟨lsm, now⟩) (now' : ℤ) :
  (r.exec now lsm).1 = (r.exec now' .empty).1
  := by
  have hempty : Unexpired key ⟨.empty, now'⟩ := .inl rfl
  have hfields : getFiledsFromHashValue (lsm.get key) = .ok [] := by
    rw [hvalue]
    rfl
  cases r with
  | hget k field | sismember k member | smembers k | zscore k elem | zcard k | zrange k start stop =>
      exact h.exec rfl hkey hunexpired now'
  | get k =>
      obtain rfl := (List.cons.inj hkey).1
      rw [Command.exec, Command.exec, Command.program, run_redisGet_of_none hvalue,
        run_redisGet_of_none rfl]
  | ttl k =>
      obtain rfl := (List.cons.inj hkey).1
      rw [Command.exec, Command.exec, Command.program, run_redisTtl_of_none hvalue,
        run_redisTtl_of_none rfl]
  | hkeys k =>
      obtain rfl := (List.cons.inj hkey).1
      rw [Command.exec, Command.exec, Command.program, run_redisHkeys hunexpired hfields,
        run_redisHkeys hempty getFiledsFromHashValue_none]
  | llen k =>
      obtain rfl := (List.cons.inj hkey).1
      rw [Command.exec, Command.exec, Command.program, run_redisLlen hunexpired,
        run_redisLlen hempty, hvalue]
      rfl
  | lrange k start stop =>
      obtain rfl := (List.cons.inj hkey).1
      rw [Command.exec, Command.exec, Command.program, run_lrange hunexpired, run_lrange hempty,
        hvalue]
      rfl
  | zrank k elem =>
      obtain rfl := (List.cons.inj hkey).1
      rw [Command.exec, Command.exec, Command.program, run_redisZrank_of_none hunexpired (h.elems _),
        run_redisZrank_of_none hempty rfl]
  | scard k =>
      obtain rfl := (List.cons.inj hkey).1
      rw [Command.exec, Command.exec, Command.program, run_redisScard hunexpired,
        run_redisScard hempty, hvalue]
      rfl
  | _ => cases hr

end NoParts

/-- Where the commands that read fields, members and scores answer as for a key that was never
written, there are none. -/
theorem noParts_of_exec [Doubles] (hexpire : lsm.get (getExplireKey key) = none)
    (h : ∀ r : Command, r.readsParts = true → r.keys = [key] →
      (r.exec 0 lsm).1 = (r.exec 0 .empty).1) :
  NoParts key lsm
  := by
  have hunexpired : Unexpired key ⟨lsm, 0⟩ := .inl hexpire
  have hempty : Unexpired key ⟨.empty, 0⟩ := .inl rfl
  constructor
  · intro field
    have hreply := h (.hget key field) rfl rfl
    rw [Command.exec, Command.exec, Command.program, run_redisHget hunexpired,
      run_redisHget hempty] at hreply
    cases hget : lsm.get (getHashFiledKey key field) with
    | none => rfl
    | some value =>
        rw [hget] at hreply
        exact absurd (Except.ok.inj hreply) (bulkReply_ne_nilReply value)
  · intro member
    have hreply := h (.sismember key member) rfl rfl
    rw [Command.exec, Command.exec, Command.program, run_redisSismember hunexpired,
      run_redisSismember hempty] at hreply
    cases hget : lsm.get (getSetMemberKey key member) with
    | none => rfl
    | some value =>
        rw [hget] at hreply
        cases integerReply_injective (Except.ok.inj hreply)
  · intro elem
    have hreply := h (.zscore key elem) rfl rfl
    rw [Command.exec, Command.exec, Command.program, run_redisZscore hunexpired,
      run_redisZscore hempty] at hreply
    cases hget : lsm.get (getZsetKeyElem key elem) with
    | none => rfl
    | some score =>
        rw [hget] at hreply
        exact absurd (Except.ok.inj hreply) (bulkReply_ne_nilReply score)
  · have hreply := h (.zcard key) rfl rfl
    have hnone := indexedElems_eq_nil_iff.mpr (noParts_empty key).scores
    rw [Command.exec, Command.exec, Command.program, run_redisZcard hunexpired,
      run_redisZcard hempty] at hreply
    have hzero : checkedSigned 32 ([] : List Bytes).length = .ok 0 := by decide
    dsimp only at hreply
    rw [hnone, hzero, checkedSigned] at hreply
    split at hreply
    next =>
      have hcount := integerReply_injective (Except.ok.inj hreply)
      exact indexedElems_eq_nil_iff.mp (List.length_eq_zero_iff.mp (Int.natCast_inj.mp hcount))
    next => cases hreply

/-- The fields of a key that are stored are listed by its value. -/
def ListsFields (key : Bytes) (lsm : LSM) : Prop :=
  ∀ field, field ∉ listedFields key lsm → lsm.get (getHashFiledKey key field) = none

/-- No members and scores are stored for a key. -/
def NoMembers (key : Bytes) (lsm : LSM) : Prop :=
  (∀ member, lsm.get (getSetMemberKey key member) = none) ∧
    (∀ elem, lsm.get (getZsetKeyElem key elem) = none) ∧
    ∀ x, getZsetScorePreffix key <+: x → lsm.get x = none

theorem noParts_iff :
  NoParts key lsm ↔ (∀ field, lsm.get (getHashFiledKey key field) = none) ∧ NoMembers key lsm
  := ⟨fun h => ⟨h.fields, h.members, h.elems, h.scores⟩,
    fun h => ⟨h.1, h.2.1, h.2.2.1, h.2.2.2⟩⟩

/-- A deletion leaves what is not under the key itself and not a listed field. -/
theorem get_deleteKey_of_under {f : Family} {x : Bytes} (hx : Under f key x) (hf : f ≠ .expire)
    (hfield : f ≠ .field) :
  (deleteKey key lsm).get x = lsm.get x
  := by
  rw [get_deleteKey, if_neg]
  rintro (hkey | hexpire | hlisted)
  · exact hx.ne_key hkey
  · exact hx.ne_getExplireKey hf hexpire
  · obtain ⟨field, -, rfl⟩ := List.mem_map.mp hlisted
    exact hfield (hx.family_eq (under_getHashFiledKey key field))

theorem get_deleteKey_getHashFiledKey (field : Bytes) :
  (deleteKey key lsm).get (getHashFiledKey key field) =
    if field ∈ listedFields key lsm then none else lsm.get (getHashFiledKey key field)
  := by
  have hlisted := List.mem_map_of_injective (l := listedFields key lsm) (a := field)
    (getHashFiledKey_injective key)
  rw [get_deleteKey]
  split
  next h =>
    rcases h with hkey | hexpire | hmem
    · exact absurd hkey (under_getHashFiledKey key field).ne_key
    · exact absurd hexpire (getHashFiledKey_ne_getExplireKey key field key)
    · rw [if_pos (hlisted.mp hmem)]
  next h => rw [if_neg (fun hmem => h (.inr (.inr (hlisted.mpr hmem))))]

theorem noParts_deleteKey_iff :
  NoParts key (deleteKey key lsm) ↔ ListsFields key lsm ∧ NoMembers key lsm
  := by
  have hzset : ∀ x, Under .sortedSet key x → (deleteKey key lsm).get x = lsm.get x :=
    fun x hx => get_deleteKey_of_under hx nofun nofun
  rw [noParts_iff]
  apply and_congr
  · apply forall_congr'
    intro field
    rw [get_deleteKey_getHashFiledKey]
    split
    next hmem => exact iff_of_true rfl (fun h => absurd hmem h)
    next hmem => exact (imp_iff_right hmem).symm
  · apply and_congr
    · apply forall_congr'
      intro member
      rw [get_deleteKey_of_under (under_getSetMemberKey key member) nofun nofun]
    · apply and_congr
      · apply forall_congr'
        intro elem
        rw [hzset _ (under_getZsetKeyElem key elem)]
      · apply forall₂_congr
        intro x hx
        rw [hzset x (under_of_scorePreffix hx)]

/-- A new value leaves what is under the key. -/
theorem noParts_set_iff (value : Bytes) :
  NoParts key ((lsm.put key value).remove (getExplireKey key)) ↔ NoParts key lsm
  := by
  have hget : ∀ {f : Family} {x : Bytes}, Under f key x → f ≠ .expire →
      ((lsm.put key value).remove (getExplireKey key)).get x = lsm.get x := by
    intro f x hx hf
    rw [LSM.get_remove_of_ne _ (hx.ne_getExplireKey hf), LSM.get_put_of_ne _ hx.ne_key]
  constructor
  · intro h
    constructor
    · exact fun field => hget (under_getHashFiledKey key field) nofun ▸ h.fields field
    · exact fun member => hget (under_getSetMemberKey key member) nofun ▸ h.members member
    · exact fun elem => hget (under_getZsetKeyElem key elem) nofun ▸ h.elems elem
    · exact fun x hx => hget (under_of_scorePreffix hx) nofun ▸ h.scores x hx
  · intro h
    constructor
    · exact fun field => (hget (under_getHashFiledKey key field) nofun).trans (h.fields field)
    · exact fun member => (hget (under_getSetMemberKey key member) nofun).trans (h.members member)
    · exact fun elem => (hget (under_getZsetKeyElem key elem) nofun).trans (h.elems elem)
    · exact fun x hx => (hget (under_of_scorePreffix hx) nofun).trans (h.scores x hx)

section

variable [Doubles]

theorem exec_del (now : ℤ) : ((Command.del [key]).exec now lsm).2 = deleteKey key lsm
  := by
  obtain ⟨delCount, hrun⟩ := run_redisDel (bytes "del") [key] ⟨lsm, now⟩
  rw [Command.exec, Command.program, hrun]
  rfl

theorem exec_set (value : Bytes) (now : ℤ) :
  ((Command.set key value).exec now lsm).2 = (lsm.put key value).remove (getExplireKey key)
  := by
  rw [Command.exec, Command.program, run_redisSet]

/-- The commands that read a key answer after DEL as for a key that was never written exactly if
the value of the key lists all fields that are stored, and no members and scores are; and those
that read fields, members and scores do so after SET exactly if none of them are stored. -/
theorem reads_after_del_set_iff (key : Bytes) (lsm : LSM) (value : Bytes) :
  ((∀ r : Command, r.isRead = true → r.keys = [key] → ∀ now now',
      (r.exec now' ((Command.del [key]).exec now lsm).2).1 = (r.exec now' .empty).1) ↔
    ListsFields key lsm ∧ NoMembers key lsm) ∧
  ((∀ r : Command, r.readsParts = true → r.keys = [key] → ∀ now now',
      (r.exec now' ((Command.set key value).exec now lsm).2).1 = (r.exec now' .empty).1) ↔
    (∀ field, lsm.get (getHashFiledKey key field) = none) ∧ NoMembers key lsm)
  := by
  constructor
  · have hexpire' : (deleteKey key lsm).get (getExplireKey key) = none := by
      rw [get_deleteKey, if_pos (.inr (.inl rfl))]
    have hvalue : (deleteKey key lsm).get key = none := by
      rw [get_deleteKey, if_pos (.inl rfl)]
    rw [← noParts_deleteKey_iff]
    simp only [exec_del]
    constructor
    · intro h
      apply noParts_of_exec hexpire'
      intro r hr hkey
      apply h r _ hkey 0 0
      cases r with
      | hget _ _ | sismember _ _ | smembers _ | zscore _ _ | zcard _ | zrange _ _ _ => rfl
      | _ => cases hr
    · intro h r hr hkey _ now'
      apply h.exec_of_get_eq_none hvalue hr hkey (.inl hexpire')
  · have hexpire' : ((lsm.put key value).remove (getExplireKey key)).get (getExplireKey key) =
        none := LSM.get_remove_self _ _
    rw [← noParts_iff, ← noParts_set_iff value]
    simp only [exec_set]
    constructor
    · intro h
      apply noParts_of_exec hexpire'
      exact fun r hr hkey => h r hr hkey 0 0
    · intro h r hr hkey _ now'
      apply h.exec hr hkey (.inl hexpire')

end

/-- A member of a set is still one after DEL. -/
theorem sismember_after_del :
  letI := Doubles.whole
  let lsm := ((Command.sadd (bytes "k") [bytes "a"]).exec 0 .empty).2
  lsm.get (getExplireKey (bytes "k")) = none ∧
    ((Command.sismember (bytes "k") (bytes "a")).exec 0
      ((Command.del [bytes "k"]).exec 0 lsm).2).1 ≠
    ((Command.sismember (bytes "k") (bytes "a")).exec 0 .empty).1
  := by
  decide +kernel

end RedisWrapper

end TinyLsm
