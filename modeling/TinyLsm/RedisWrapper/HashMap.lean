import TinyLsm.Library.InsertionOrder
import TinyLsm.Library.Replies
import TinyLsm.RedisWrapper.Commands

/-!
# Hashes as maps

The commands on a hash, with fields that are not empty and do not contain the separator and with
values that are not empty, answer as a map does that lists its fields in the order of their
insertion.
-/

namespace TinyLsm

namespace RedisWrapper

open InsertionOrder Replies TomlConfig

/-- The commands on a hash. -/
inductive HashCommand where
  | hset (fieldValues : List (Bytes × Bytes))
  | hget (field : Bytes)
  | hdel (field : Bytes)
  | hkeys

namespace HashCommand

def command (key : Bytes) : HashCommand → Command
  | hset fieldValues => .hset key fieldValues
  | hget field => .hget key field
  | hdel field => .hdel key field
  | hkeys => .hkeys key

/-- The reply of a map, and the map afterwards.  The fields that are new are the ones by which
the map grows. -/
def perform : HashCommand → List (Bytes × Bytes) → Bytes × List (Bytes × Bytes)
  | hset fieldValues, m =>
      (integerReply ((assignAll m fieldValues).length - m.length), assignAll m fieldValues)
  | hget field, m => ((lookup m field).elim nilReply bulkReply, m)
  | hdel field, m => (integerReply (if (lookup m field).isSome then 1 else 0), erase m field)
  | hkeys, m => (arrayReply (InsertionOrder.keys m), m)

/-- A field that is not empty and does not contain the separator, with a value that is not
empty. -/
def IsFieldValue (p : Bytes × Bytes) : Prop :=
  (p.1 ≠ [] ∧ getInstance.redisFieldSeparator ∉ p.1) ∧ p.2 ≠ []

instance (p : Bytes × Bytes) : Decidable (IsFieldValue p) :=
  inferInstanceAs (Decidable ((_ ∧ _) ∧ _))

/-- At least one value is set, and only such as can be stored. -/
def SetsFieldValues : HashCommand → Prop
  | hset fieldValues => fieldValues ≠ [] ∧ ∀ p ∈ fieldValues, IsFieldValue p
  | hget _ | hdel _ | hkeys => True

instance : DecidablePred SetsFieldValues
  | hset _ => inferInstanceAs (Decidable (_ ∧ ∀ p ∈ _, _))
  | hget _ | hdel _ | hkeys => .isTrue trivial

/-- Execute a command on the key, by a clock. -/
def exec [Doubles] (key : Bytes) (request : ℤ × HashCommand) (lsm : LSM) :
    Except Fault Bytes × LSM :=
  (request.2.command key).exec request.1 lsm

/-- What the map answers instead. -/
def spec (request : ℤ × HashCommand) (m : List (Bytes × Bytes)) :
    Except Fault Bytes × List (Bytes × Bytes) :=
  (.ok (request.2.perform m).1, (request.2.perform m).2)

end HashCommand

/-! ### How a map is stored -/

/-- Each field of the map has its value stored, and the key has no expiry time. -/
structure StoresFields (key : Bytes) (lsm : LSM) (m : List (Bytes × Bytes)) : Prop where
  expire : lsm.get (getExplireKey key) = none
  value : ∀ field, lsm.get (getHashFiledKey key field) = lookup m field
  nodup : (keys m).Nodup
  isFieldValue : ∀ p ∈ m, HashCommand.IsFieldValue p

/-- The fields of the map are listed under the key. -/
structure StoresHash (key : Bytes) (lsm : LSM) (m : List (Bytes × Bytes)) : Prop
    extends StoresFields key lsm m where
  fieldList : lsm.get key = if m = [] then none else some (getHashValueFromFields (keys m))

variable {key : Bytes} {lsm : LSM} {m : List (Bytes × Bytes)}

namespace StoresFields

variable (h : StoresFields key lsm m)

include h

theorem unexpired (now : ℤ) : Unexpired key ⟨lsm, now⟩
  := .inl h.expire

theorem assign {field value : Bytes} (hfield : HashCommand.IsFieldValue (field, value)) :
  StoresFields key (lsm.put (getHashFiledKey key field) value) (assign m field value)
  := by
  constructor
  · rw [LSM.get_put_of_ne _ (getHashFiledKey_ne_getExplireKey key field key).symm, h.expire]
  · intro field'
    rw [LSM.get_put, lookup_assign, LSM.stored_of_ne_nil hfield.2, h.value]
    simp only [(getHashFiledKey_injective key).eq_iff]
  · apply nodup_keys_assign h.nodup
  · intro p hp
    rcases mem_assign hp with rfl | hp
    · apply hfield
    · apply h.isFieldValue p hp

theorem erase (field : Bytes) :
  StoresFields key (lsm.remove (getHashFiledKey key field)) (InsertionOrder.erase m field)
  := by
  constructor
  · rw [LSM.get_remove_of_ne _ (getHashFiledKey_ne_getExplireKey key field key).symm, h.expire]
  · intro field'
    rw [LSM.get_remove, lookup_erase h.nodup, h.value]
    simp only [(getHashFiledKey_injective key).eq_iff]
  · rw [keys_erase]
    apply h.nodup.erase
  · exact fun p hp => h.isFieldValue p (mem_of_mem_erase hp)

/-- Another list of fields leaves the values. -/
theorem put_key (value : Bytes) : StoresFields key (lsm.put key value) m
  := by
  constructor
  · rw [LSM.get_put_of_ne _ (getExplireKey_ne_key key), h.expire]
  · intro field
    rw [LSM.get_put_of_ne _ (under_getHashFiledKey key field).ne_key, h.value]
  · apply h.nodup
  · apply h.isFieldValue

theorem remove_key : StoresFields key (lsm.remove key) m
  := by
  constructor
  · rw [LSM.get_remove_of_ne _ (getExplireKey_ne_key key), h.expire]
  · intro field
    rw [LSM.get_remove_of_ne _ (under_getHashFiledKey key field).ne_key, h.value]
  · apply h.nodup
  · apply h.isFieldValue

/-- The loop of HSET stores the pairs and counts by how much the map grows. -/
theorem run_hsetFields {pairs : List (Bytes × Bytes)}
    (hpairs : ∀ p ∈ pairs, HashCommand.IsFieldValue p) (addedCount : ℕ) (now : ℤ) :
  ∃ lsm' addedCount', Redis.run (hsetFields key (keys m) addedCount pairs) ⟨lsm, now⟩ =
      (.ok (keys (assignAll m pairs), addedCount'), ⟨lsm', now⟩) ∧
    addedCount' + m.length = addedCount + (assignAll m pairs).length ∧
    StoresFields key lsm' (assignAll m pairs)
  := by
  induction pairs generalizing lsm m addedCount with
  | nil => exact ⟨lsm, addedCount, rfl, rfl, h⟩
  | cons p pairs ih =>
      obtain ⟨field, value⟩ := p
      obtain ⟨hp, hpairs⟩ := List.forall_mem_cons.mp hpairs
      rw [hsetFields, Redis.run_put, assignAll, List.foldl_cons, ← assignAll]
      have hkeys := keys_assign m field value
      split
      next hmem =>
        rw [if_pos hmem] at hkeys
        obtain ⟨lsm', addedCount', hrun, hcount, hstores⟩ := ih (h.assign hp) hpairs addedCount
        refine ⟨lsm', addedCount', hkeys ▸ hrun, ?_, hstores⟩
        have hlength := congrArg List.length hkeys
        rw [InsertionOrder.keys, InsertionOrder.keys, List.length_map, List.length_map] at hlength
        rw [hlength] at hcount
        apply hcount
      next hmem =>
        rw [if_neg hmem] at hkeys
        obtain ⟨lsm', addedCount', hrun, hcount, hstores⟩ :=
          ih (h.assign hp) hpairs (addedCount + 1)
        refine ⟨lsm', addedCount', hkeys ▸ hrun, ?_, hstores⟩
        have hlength := congrArg List.length hkeys
        rw [List.length_append, InsertionOrder.keys, InsertionOrder.keys, List.length_map,
          List.length_map, List.length_singleton] at hlength
        rw [hlength] at hcount
        dsimp only
        omega

end StoresFields

namespace StoresHash

theorem getFiledsFromHashValue_get (h : StoresHash key lsm m) :
  getFiledsFromHashValue (lsm.get key) = .ok (keys m)
  := by
  rw [h.fieldList]
  split
  next hnil =>
    rw [hnil]
    rfl
  next =>
    apply getFiledsFromHashValue_getHashValueFromFields
    intro field hfield
    obtain ⟨p, hp, rfl⟩ := List.mem_map.mp hfield
    exact (h.isFieldValue p hp).1

/-- A command answers as the map does, and stores the map it becomes. -/
theorem exec [Doubles] (h : StoresHash key lsm m) {request : ℤ × HashCommand}
    (hsets : request.2.SetsFieldValues) :
  (HashCommand.exec key request lsm).1 = (HashCommand.spec request m).1 ∧
    StoresHash key (HashCommand.exec key request lsm).2 (HashCommand.spec request m).2
  := by
  obtain ⟨now, c⟩ := request
  have hfields := h.getFiledsFromHashValue_get
  cases c with
  | hset fieldValues =>
      obtain ⟨lsm', addedCount, hrun, hcount, hstores⟩ := h.run_hsetFields hsets.2 0 now
      rw [HashCommand.exec, HashCommand.command, Command.exec, Command.program,
        hset_pairArgs _ _ hsets.1, run_redisHsetBatch (h.unexpired now) hfields hrun]
      constructor
      · rw [HashCommand.spec, HashCommand.perform]
        have hgrows : (addedCount : ℤ) = (assignAll m fieldValues).length - m.length := by omega
        rw [hgrows]
      · dsimp only [HashCommand.spec, HashCommand.perform]
        refine ⟨hstores.put_key _, ?_⟩
        rw [LSM.get_put_self, LSM.stored_of_ne_nil (getHashValueFromFields_ne_nil _),
          if_neg (assignAll_ne_nil hsets.1 m)]
  | hget field =>
      rw [HashCommand.exec, HashCommand.command, Command.exec, Command.program,
        run_redisHget (h.unexpired now), h.value]
      exact ⟨rfl, h⟩
  | hdel field =>
      rw [HashCommand.exec, HashCommand.command, Command.exec, Command.program,
        run_redisHdel (h.unexpired now) hfields, h.value, ← keys_erase]
      refine ⟨rfl, ?_⟩
      dsimp only [HashCommand.spec, HashCommand.perform]
      have herase := h.toStoresFields.erase field
      split
      next hmem =>
        split
        next hnil =>
          refine ⟨herase.remove_key, ?_⟩
          rw [LSM.get_remove_self, if_pos (List.map_eq_nil_iff.mp hnil)]
        next hne =>
          refine ⟨herase.put_key _, ?_⟩
          rw [LSM.get_put_self, LSM.stored_of_ne_nil (getHashValueFromFields_ne_nil _),
            if_neg (fun hnil => hne (List.map_eq_nil_iff.mpr hnil))]
      next hmem =>
        refine ⟨herase, ?_⟩
        rw [LSM.get_remove_of_ne _ (under_getHashFiledKey key field).ne_key.symm, h.fieldList,
          erase_of_notMem hmem]
  | hkeys =>
      rw [HashCommand.exec, HashCommand.command, Command.exec, Command.program,
        run_redisHkeys (h.unexpired now) hfields]
      exact ⟨rfl, h⟩

end StoresHash

/-- A run of commands on a key where nothing is stored answers as a map that starts empty. -/
theorem replies_hashCommands [Doubles] {key : Bytes} {lsm : LSM} (hempty : lsm.get key = none)
    (hfields : ∀ field, lsm.get (getHashFiledKey key field) = none)
    (hexpire : lsm.get (getExplireKey key) = none) {requests : List (ℤ × HashCommand)}
    (hsets : ∀ request ∈ requests, request.2.SetsFieldValues) :
  replies (HashCommand.exec key) requests lsm = replies HashCommand.spec requests []
  := by
  have hstores : StoresHash key lsm [] :=
    ⟨⟨hexpire, hfields, List.nodup_nil, List.forall_mem_nil _⟩, hempty⟩
  apply replies_eq_of_simulation (R := StoresHash key)
    (P := fun request _ => request.2.SetsFieldValues)
  · intro request lsm m h hmeets
    apply h.exec hmeets
  · apply hstores
  · apply Along.of_mem
    apply hsets

theorem replies_hashCommands_sets :
  letI := Doubles.whole
  replies (HashCommand.exec (bytes "k"))
      [(0, .hset [(bytes "f", bytes "1"), (bytes "g", bytes "2"), (bytes "f", bytes "3")]),
        (1, .hdel (bytes "f")), (2, .hget (bytes "f")), (3, .hkeys)] .empty =
    replies HashCommand.spec
      [(0, .hset [(bytes "f", bytes "1"), (bytes "g", bytes "2"), (bytes "f", bytes "3")]),
        (1, .hdel (bytes "f")), (2, .hget (bytes "f")), (3, .hkeys)] []
  := by
  let _ := Doubles.whole
  apply replies_hashCommands
  · rfl
  · exact fun _ => rfl
  · rfl
  · decide

end RedisWrapper

end TinyLsm
