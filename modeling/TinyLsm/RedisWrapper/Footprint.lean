import TinyLsm.RedisWrapper.Commands

/-!
# The storage keys that a command touches

A command reads and writes only what is stored for the keys that it names: under the key itself,
its expiry time, and what is under the key in one of the families.  So it leaves what is stored
under other keys, and its reply depends on nothing else.
-/

namespace TinyLsm

namespace RedisWrapper

/-- What is stored under belongs to the key. -/
def Owned (key x : Bytes) : Prop :=
  x = key ∨ x = getExplireKey key ∨ Under .field key x ∨ Under .sortedSet key x ∨ Under .set key x

/-- The call reads and writes only some keys. -/
def Within (S : Bytes → Prop) : Call → Prop
  | .get key | .put key _ | .remove key => S key
  | .putBatch kvs => ∀ kv ∈ kvs, S kv.1
  | .removeBatch keys => ∀ key ∈ keys, S key
  | .itersMonotonyPredicate predicate => ∀ x, predicate x = 0 → S x
  | .clear => False
  | .now => True

/-- A query answers keys that meet its predicate. -/
def Possible : (c : Call) → c.Answer → Prop
  | .itersMonotonyPredicate predicate, some found => ∀ p ∈ found, predicate p.1 = 0
  | .itersMonotonyPredicate _, none => True
  | .get _, _ | .put _ _, _ | .remove _, _ | .putBatch _, _ | .removeBatch _, _ | .clear, _
  | .now, _ => True

theorem possible_answer (c : Call) (w : World) : Possible c (w.answer c).1
  := by
  cases c with
  | itersMonotonyPredicate predicate =>
      change Possible (.itersMonotonyPredicate predicate) (w.lsm.itersMonotonyPredicate predicate)
      cases hfound : w.lsm.itersMonotonyPredicate predicate with
      | none => trivial
      | some found => exact fun p hp => (((LSM.itersMonotonyPredicate_spec hfound).1 p).mp hp).2
  | _ => trivial

/-- Stores that are the same at some keys, by the same clock. -/
structure AgreeOn (S : Bytes → Prop) (w w' : World) : Prop where
  now : w.now = w'.now
  get : ∀ x, S x → w.lsm.get x = w'.lsm.get x

section

variable {S : Bytes → Prop} {c : Call} {w w' : World}

/-- A call leaves the keys that it does not touch. -/
theorem get_answer_of_not (hc : Within S c) {x : Bytes} (hx : ¬ S x) :
  (w.answer c).2.lsm.get x = w.lsm.get x
  := by
  have hne : ∀ {key}, S key → x ≠ key := by
    rintro _ hkey rfl
    exact hx hkey
  cases c with
  | put key value => exact LSM.get_put_of_ne _ (hne hc) value
  | remove key => exact LSM.get_remove_of_ne _ (hne hc)
  | putBatch kvs => exact LSM.get_putBatch_of_notMem (fun kv hkv => (hne (hc kv hkv)).symm)
  | removeBatch keys =>
      exact (LSM.get_removeBatch keys w.lsm).trans (if_neg (fun hmem => hx (hc x hmem)))
  | clear => cases hc
  | get key | itersMonotonyPredicate predicate | now => rfl

/-- A call answers and does the same on stores that are the same at the keys that it touches. -/
theorem answer_congr (hc : Within S c) (h : AgreeOn S w w') :
  (w.answer c).1 = (w'.answer c).1 ∧ AgreeOn S (w.answer c).2 (w'.answer c).2
  := by
  cases c with
  | get key => exact ⟨h.get key hc, h⟩
  | itersMonotonyPredicate predicate =>
      exact ⟨LSM.itersMonotonyPredicate_congr (fun x hx => h.get x (hc x hx)), h⟩
  | now => exact ⟨h.now, h⟩
  | put key value =>
      refine ⟨rfl, h.now, ?_⟩
      intro x hx
      change (w.lsm.put key value).get x = (w'.lsm.put key value).get x
      rw [LSM.get_put, LSM.get_put, h.get x hx]
  | remove key =>
      refine ⟨rfl, h.now, ?_⟩
      intro x hx
      change (w.lsm.remove key).get x = (w'.lsm.remove key).get x
      rw [LSM.get_remove, LSM.get_remove, h.get x hx]
  | putBatch kvs =>
      refine ⟨rfl, h.now, ?_⟩
      intro x hx
      exact LSM.get_putBatch_congr kvs (h.get x hx)
  | removeBatch keys =>
      refine ⟨rfl, h.now, ?_⟩
      intro x hx
      change (w.lsm.removeBatch keys).get x = (w'.lsm.removeBatch keys).get x
      rw [LSM.get_removeBatch, LSM.get_removeBatch, h.get x hx]
  | clear => cases hc

end

/-- A program touches only some keys. -/
structure Touches {α : Type} (S : Bytes → Prop) (p : Redis α) : Prop where
  allCalls : p.AllCalls (Within S) Possible

namespace Touches

variable {α β : Type} {S : Bytes → Prop} {p : Redis α} {w w' : World}

/-- A program leaves the keys that it does not touch. -/
theorem get_run_of_not (hp : Touches S p) {x : Bytes} (hx : ¬ S x) (w : World) :
  (Redis.run p w).2.lsm.get x = w.lsm.get x
  := by
  apply Program.AllCalls.run_keeps possible_answer (I := fun w' => w'.lsm.get x = w.lsm.get x) _
    hp.allCalls
    rfl
  intro c hc w' hw'
  rw [get_answer_of_not hc hx, hw']

/-- A program has the same result on stores that are the same at the keys that it touches. -/
theorem run_congr (hp : Touches S p) (h : AgreeOn S w w') :
  (Redis.run p w).1 = (Redis.run p w').1 ∧ AgreeOn S (Redis.run p w).2 (Redis.run p w').2
  := Program.AllCalls.run_congr possible_answer (fun _ hc _ _ => answer_congr hc) hp.allCalls h

/-! #### Programs made of others -/

theorem pure (a : α) : Touches S (Pure.pure a : Redis α)
  := ⟨trivial⟩

theorem done (result : Except Fault α) : Touches S (.done result : Redis α)
  := ⟨trivial⟩

theorem bind {f : α → Redis β} (hp : Touches S p) (hf : ∀ a, Touches S (f a)) :
  Touches S (p >>= f)
  := ⟨hp.allCalls.bind (fun a => (hf a).allCalls)⟩

theorem bind_of_yields {Q : α → Prop} {f : α → Redis β} (hp : Touches S p)
    (hQ : p.Yields Possible Q) (hf : ∀ a, Q a → Touches S (f a)) :
  Touches S (p >>= f)
  := ⟨hp.allCalls.bind_of_yields hQ (fun a ha => (hf a ha).allCalls)⟩

theorem ite {c : Prop} [Decidable c] {q : Redis α} (hp : Touches S p) (hq : Touches S q) :
  Touches S (if c then p else q)
  := by
  split
  · apply hp
  · apply hq

/-- A program after which the same goes on either way. -/
theorem ite_bind {c : Prop} [Decidable c] {q : Redis β} (hp : Touches S p) (hq : Touches S q) :
  Touches S (if c then p >>= fun _ => q else q)
  := ite (hp.bind (fun _ => hq)) hq

theorem lock (mode : LockMode) : Touches S (Redis.lock mode)
  := ⟨trivial⟩

theorem unlock : Touches S Redis.unlock
  := ⟨trivial⟩

theorem now : Touches S Redis.now
  := ⟨trivial, fun _ _ => trivial⟩

theorem get {key : Bytes} (h : S key) : Touches S (Redis.get key)
  := ⟨h, fun _ _ => trivial⟩

theorem put {key : Bytes} (h : S key) (value : Bytes) : Touches S (Redis.put key value)
  := ⟨h, fun _ _ => trivial⟩

theorem remove {key : Bytes} (h : S key) : Touches S (Redis.remove key)
  := ⟨h, fun _ _ => trivial⟩

theorem putBatch {kvs : List (Bytes × Bytes)} (h : ∀ kv ∈ kvs, S kv.1) :
  Touches S (Redis.putBatch kvs)
  := ⟨h, fun _ _ => trivial⟩

theorem removeBatch {keys : List Bytes} (h : ∀ key ∈ keys, S key) :
  Touches S (Redis.removeBatch keys)
  := ⟨h, fun _ _ => trivial⟩

/-- After a query the keys that it has found are known to meet the predicate. -/
theorem query_bind {predicate : Bytes → ℤ} {f : Option (List (Bytes × Bytes)) → Redis α}
    (h : ∀ x, predicate x = 0 → S x)
    (hf : ∀ found, (∀ ps, found = some ps → ∀ p ∈ ps, S p.1) → Touches S (f found)) :
  Touches S (Redis.itersMonotonyPredicate predicate >>= f)
  := by
  refine ⟨h, fun found hfound => (hf found ?_).allCalls⟩
  rintro ps rfl p hp
  apply h
  apply hfound p hp

theorem forM {f : α → Redis Unit} (h : ∀ a, Touches S (f a)) :
  ∀ (as : List α), Touches S (ForM.forM as f)
  | [] => ⟨trivial⟩
  | a :: as => by
      rw [List.forM_cons]
      exact (h a).bind (fun _ => forM h as)

end Touches

/-! ### Each command -/

section

variable {key : Bytes}

theorem owned_key : Owned key key
  := .inl rfl

theorem owned_getExplireKey : Owned key (getExplireKey key)
  := .inr (.inl rfl)

theorem owned_of_under_field {x : Bytes} (h : Under .field key x) : Owned key x
  := .inr (.inr (.inl h))

theorem owned_of_under_sortedSet {x : Bytes} (h : Under .sortedSet key x) : Owned key x
  := .inr (.inr (.inr (.inl h)))

theorem owned_of_under_set {x : Bytes} (h : Under .set key x) : Owned key x
  := .inr (.inr (.inr (.inr h)))

theorem owned_getHashFiledKey (field : Bytes) : Owned key (getHashFiledKey key field)
  := owned_of_under_field (under_getHashFiledKey key field)

theorem owned_getZsetKeyElem (elem : Bytes) : Owned key (getZsetKeyElem key elem)
  := owned_of_under_sortedSet (under_getZsetKeyElem key elem)

theorem owned_getZsetKeySocre (score : Bytes) : Owned key (getZsetKeySocre key score)
  := owned_of_under_sortedSet (under_getZsetKeySocre key score)

theorem owned_getSetMemberKey (member : Bytes) : Owned key (getSetMemberKey key member)
  := owned_of_under_set (under_getSetMemberKey key member)

theorem owned_of_setPreffix {x : Bytes}
    (h : preffixPredicate (getSetKeyPreffix key) x = 0) : Owned key x
  := owned_of_under_set (preffixPredicate_eq_zero.mp h)

theorem owned_of_zsetPreffix {x : Bytes}
    (h : preffixPredicate (getZsetKeyPreffix key) x = 0) : Owned key x
  := owned_of_under_sortedSet (preffixPredicate_eq_zero.mp h)

theorem owned_of_zsetScorePreffix {x : Bytes}
    (h : preffixPredicate (getZsetScorePreffix key) x = 0) : Owned key x
  := owned_of_under_sortedSet (under_of_scorePreffix (preffixPredicate_eq_zero.mp h))

namespace Touches

variable {S : Bytes → Prop}

theorem isExpired (expireStr : Option Bytes) : Touches S (isExpired expireStr)
  := by
  cases expireStr with
  | none => exact pure false
  | some text => exact now.bind (fun _ => (done _).bind (fun _ => pure _))

theorem expireClean {clean : Redis Unit} (h : Touches (Owned key) clean) :
  Touches (Owned key) (expireClean key clean)
  := by
  apply (get owned_getExplireKey).bind
  intro expireQuery
  apply (isExpired expireQuery).bind
  intro expired
  apply ite
  · exact unlock.bind (fun _ => (lock _).bind (fun _ => h.bind (fun _ => unlock.bind (fun _ =>
      pure true))))
  · apply pure

theorem cleanHash : Touches (Owned key) (cleanHash key)
  := by
  apply (get owned_key).bind
  intro value
  apply (done _).bind
  intro fields
  apply (forM (fun field => remove (owned_getHashFiledKey field)) fields).bind
  intro _
  exact (remove owned_key).bind (fun _ => remove owned_getExplireKey)

theorem cleanList : Touches (Owned key) (cleanList key)
  := (remove owned_key).bind (fun _ => remove owned_getExplireKey)

theorem expireHashClean : Touches (Owned key) (expireHashClean key)
  := expireClean cleanHash

theorem expireListClean : Touches (Owned key) (expireListClean key)
  := expireClean cleanList

theorem cleanPreffix {preffix : Bytes} (h : ∀ x, preffixPredicate preffix x = 0 → Owned key x) :
  Touches (Owned key) (cleanPreffix preffix key)
  := by
  apply (remove owned_key).bind
  intro _
  apply (remove owned_getExplireKey).bind
  intro _
  apply query_bind h
  intro found hfound
  cases found with
  | none => apply pure
  | some elems =>
      apply removeBatch
      intro x hx
      obtain ⟨p, hp, rfl⟩ := List.mem_map.mp hx
      apply hfound elems rfl p hp

theorem expireZsetClean : Touches (Owned key) (expireZsetClean key)
  := expireClean (cleanPreffix (fun _ => owned_of_zsetPreffix))

theorem expireSetClean : Touches (Owned key) (expireSetClean key)
  := expireClean (cleanPreffix (fun _ => owned_of_setPreffix))

/-- What a command does after the check of the expiry time, with the lock shared. -/
theorem read {α : Type} {clean : Redis Bool} (h : Touches (Owned key) clean) {f : Bool → Redis α}
    (hf : ∀ expired, Touches (Owned key) (f expired)) :
  Touches (Owned key) (Redis.lock .shared >>= fun _ => clean >>= f)
  := (lock _).bind (fun _ => h.bind hf)

/-- What a command does with the lock taken alone, after the check of the expiry time. -/
theorem write {α : Type} {clean : Redis Bool} (h : Touches (Owned key) clean) {p : Redis α}
    (hp : Touches (Owned key) p) :
  Touches (Owned key) (Redis.lock .shared >>= fun _ => clean >>= fun expired =>
    if (!expired) = true then Redis.unlock >>= fun _ => p else p)
  := read h (fun _ => ite_bind unlock hp)

/-- Adding to a number touches the value of the key alone. -/
theorem redisAdd (h : S key) (initial : Bytes) (change : ℤ) :
  Touches S (redisAdd initial change key)
  := by
  apply (lock _).bind
  intro _
  apply (get h).bind
  intro value
  cases value with
  | none => exact (put h _).bind (fun _ => pure _)
  | some originalValue =>
      exact (done _).bind (fun _ => (done _).bind (fun _ => (put h _).bind (fun _ => pure _)))

theorem redisDelKey : Touches (Owned key) (redisDelKey key)
  := by
  apply (get owned_key).bind
  intro value
  have hexpire : ∀ deleted : Bool, Touches (Owned key)
      (Redis.get (getExplireKey key) >>= fun expire =>
        if expire.isSome then Redis.remove (getExplireKey key) >>= fun _ => Pure.pure deleted
        else Pure.pure deleted) := by
    intro deleted
    apply (get owned_getExplireKey).bind
    exact fun _ => ite_bind (remove owned_getExplireKey) (pure _)
  cases value with
  | none => apply hexpire
  | some text =>
      have hremove := (remove owned_key).bind (fun _ => hexpire true)
      apply ite _ hremove
      apply (done _).bind
      intro fields
      apply (forM (fun field => remove (owned_getHashFiledKey field)) fields).bind
      exact fun _ => hremove

theorem redisDelFrom {keys : List Bytes} (h : ∀ k ∈ keys, k = key) :
  ∀ (delCount : ℕ), Touches (Owned key) (redisDelFrom delCount keys)
  := by
  induction keys with
  | nil => exact fun _ => pure _
  | cons k keys ih =>
      obtain ⟨rfl, h⟩ := List.forall_mem_cons.mp h
      exact fun delCount => redisDelKey.bind (fun deleted => ih h _)

theorem redisExpire (secondsCount : Bytes) : Touches (Owned key) (redisExpire key secondsCount)
  := by
  apply (lock _).bind
  intro _
  apply (now.bind (fun _ => (done _).bind (fun _ => (done _).bind (fun _ => pure _)))).bind
  exact fun _ => (put owned_getExplireKey _).bind (fun _ => pure _)

theorem redisSet (value : Bytes) : Touches (Owned key) (redisSet key value)
  := by
  apply (lock _).bind
  intro _
  apply (put owned_key value).bind
  intro _
  apply (get owned_getExplireKey).bind
  intro expireQuery
  exact ite ((remove owned_getExplireKey).bind (fun _ => pure _)) (pure _)

theorem redisGet : Touches (Owned key) (redisGet key)
  := by
  apply (lock _).bind
  intro _
  apply (get owned_key).bind
  intro keyQuery
  apply (get owned_getExplireKey).bind
  intro expireQuery
  cases keyQuery with
  | none =>
      apply ite
      · exact unlock.bind (fun _ => (lock _).bind (fun _ =>
          (remove owned_getExplireKey).bind (fun _ => pure _)))
      · apply pure
  | some value =>
      apply (isExpired _).bind
      intro expired
      apply ite
      · exact unlock.bind (fun _ => (lock _).bind (fun _ => (remove owned_key).bind (fun _ =>
          (remove owned_getExplireKey).bind (fun _ => pure _))))
      · apply pure

theorem redisTtl : Touches (Owned key) (redisTtl key)
  := by
  apply (lock _).bind
  intro _
  apply (get owned_key).bind
  intro keyQuery
  apply (get owned_getExplireKey).bind
  intro expireQuery
  cases keyQuery with
  | none => apply pure
  | some value =>
      cases expireQuery with
      | none => apply pure
      | some text =>
          apply now.bind
          intro now
          apply (done _).bind
          intro time
          exact ite (pure _) ((done _).bind (fun _ => pure _))

theorem hsetFields (pairs : List (Bytes × Bytes)) :
  ∀ (fieldList : List Bytes) (addedCount : ℕ),
    Touches (Owned key) (hsetFields key fieldList addedCount pairs)
  := by
  induction pairs with
  | nil => exact fun _ _ => pure _
  | cons p pairs ih =>
      intro fieldList addedCount
      exact (put (owned_getHashFiledKey p.1) _).bind (fun _ => ite (ih _ _) (ih _ _))

theorem redisHsetBatch (pairs : List (Bytes × Bytes)) :
  Touches (Owned key) (redisHsetBatch key pairs)
  := by
  apply write expireHashClean
  apply (lock _).bind
  intro _
  apply (get owned_key).bind
  intro value
  apply (done _).bind
  intro fieldList
  apply (hsetFields pairs fieldList 0).bind
  exact fun _ => (put owned_key _).bind (fun _ => pure _)

theorem hset (command : Bytes) (pairs : List (Bytes × Bytes)) :
  Touches (Owned key) (hset (command :: key :: pairArgs pairs))
  := by
  cases pairs with
  | nil => apply pure
  | cons p pairs =>
      rw [hset_pairArgs _ _ (List.cons_ne_nil p pairs)]
      apply redisHsetBatch

theorem redisHget (field : Bytes) : Touches (Owned key) (redisHget key field)
  := by
  apply read expireHashClean
  intro expired
  apply ite (pure _)
  apply (get (owned_getHashFiledKey field)).bind
  intro value
  cases value with
  | none => apply pure
  | some value => apply pure

theorem redisHdel (field : Bytes) : Touches (Owned key) (redisHdel key field)
  := by
  apply read expireHashClean
  intro expired
  apply ite (pure _)
  apply unlock.bind
  intro _
  apply (lock _).bind
  intro _
  apply (get (owned_getHashFiledKey field)).bind
  intro value
  apply ite_bind (remove (owned_getHashFiledKey field))
  apply (get owned_key).bind
  intro fieldListOpt
  apply (done _).bind
  intro fieldList
  apply ite
  · exact ite ((remove owned_key).bind (fun _ => pure _))
      ((put owned_key _).bind (fun _ => pure _))
  · apply pure

theorem redisHkeys : Touches (Owned key) (redisHkeys key)
  := by
  apply read expireHashClean
  intro expired
  exact ite (pure _) ((get owned_key).bind (fun _ => (done _).bind (fun _ => pure _)))

theorem redisPush (joined : Bytes → Bytes → Bytes) (value : Bytes) :
  Touches (Owned key) (redisPush joined key value)
  := by
  apply write expireListClean
  apply (lock _).bind
  intro _
  apply (get owned_key).bind
  exact fun _ => (put owned_key _).bind (fun _ => pure _)

theorem redisPop (taken : List Bytes → Option (Bytes × List Bytes)) :
  Touches (Owned key) (redisPop taken key)
  := by
  apply read expireListClean
  intro expired
  apply ite (pure _)
  apply unlock.bind
  intro _
  apply (lock _).bind
  intro _
  apply (get owned_key).bind
  intro list
  cases list with
  | none => apply pure
  | some list =>
      dsimp only
      cases taken (split list TomlConfig.getInstance.redisListSeparator) with
      | none => apply pure
      | some popped =>
          apply ite
          · exact (remove owned_key).bind (fun _ => pure _)
          · exact (put owned_key _).bind (fun _ => pure _)

theorem redisLlen : Touches (Owned key) (redisLlen key)
  := by
  apply read expireListClean
  intro expired
  apply ite (pure _)
  apply (get owned_key).bind
  intro list
  cases list with
  | none => apply pure
  | some list => apply pure

theorem redisLrange (start stop : ℤ) : Touches (Owned key) (redisLrange key start stop)
  := by
  apply read expireListClean
  intro expired
  apply ite (pure _)
  apply (get owned_key).bind
  intro list
  cases list with
  | none => apply pure
  | some list => exact ite (pure _) (done _)

theorem lrange (start stop : Bytes) : Touches (Owned key) (lrange key start stop)
  := (done _).bind (fun _ => (done _).bind (fun _ => redisLrange _ _))

/-- The entries that ZADD collects are entries of the key. -/
theorem yields_zaddPairs (pairs : List (Bytes × Bytes)) :
  ∀ {batch : ZaddBatch}, (∀ kv ∈ batch.putKvs, Owned key kv.1) →
    (zaddPairs key batch (pairArgs pairs)).Yields Possible
      (fun batch => ∀ kv ∈ batch.putKvs, Owned key kv.1)
  := by
  induction pairs with
  | nil => exact fun h => h
  | cons p pairs ih =>
      intro batch h
      rw [pairArgs_cons, RedisWrapper.zaddPairs]
      have hadd : ∀ kv ∈ (batch.add key p.1 p.2).putKvs, Owned key kv.1 := by
        intro kv hkv
        rcases List.mem_append.mp hkv with hkv | hkv
        · apply h kv hkv
        · rcases List.mem_pair.mp hkv with rfl | rfl
          · apply owned_getZsetKeySocre
          · apply owned_getZsetKeyElem
      intro queryElem _
      cases queryElem with
      | none => apply ih hadd
      | some originalScore =>
          change Program.Yields _ _ (if originalScore = p.1 then _ else _)
          split
          · apply ih h
          · apply ih
            apply hadd

theorem zaddPairs (pairs : List (Bytes × Bytes)) :
  ∀ (batch : ZaddBatch), Touches (Owned key) (zaddPairs key batch (pairArgs pairs))
  := by
  induction pairs with
  | nil => exact fun _ => pure _
  | cons p pairs ih =>
      intro batch
      apply (get (owned_getZsetKeyElem p.2)).bind
      intro queryElem
      cases queryElem with
      | none => apply ih
      | some originalScore => exact ite (ih _) (ih _)

theorem redisZadd (command : Bytes) (pairs : List (Bytes × Bytes)) :
  Touches (Owned key) (redisZadd (command :: key :: pairArgs pairs))
  := by
  apply write expireZsetClean
  apply (lock _).bind
  intro _
  apply (get (owned_of_under_sortedSet (List.prefix_refl _))).bind
  intro present
  apply (zaddPairs pairs _).bind_of_yields (yields_zaddPairs pairs _)
  · intro batch hbatch
    exact (removeBatch nofun).bind (fun _ => (putBatch hbatch).bind (fun _ => pure _))
  · intro kv hkv
    dsimp only at hkv
    split at hkv
    next => cases hkv
    next =>
      rw [List.mem_singleton.mp hkv]
      apply owned_key

theorem zremElems (elems : List Bytes) :
  ∀ (removedCount : ℕ), Touches (Owned key) (zremElems key removedCount elems)
  := by
  induction elems with
  | nil => exact fun _ => pure _
  | cons elem elems ih =>
      intro removedCount
      apply (get (owned_getZsetKeyElem elem)).bind
      intro queryElem
      cases queryElem with
      | none => apply ih
      | some score =>
          exact (remove (owned_getZsetKeyElem elem)).bind
            (fun _ => (remove (owned_getZsetKeySocre score)).bind (fun _ => ih _))

theorem redisZrem (command : Bytes) (elems : List Bytes) :
  Touches (Owned key) (redisZrem (command :: key :: elems))
  := by
  cases elems with
  | nil => apply pure
  | cons elem elems =>
      apply read expireZsetClean
      intro expired
      apply ite (pure _)
      apply unlock.bind
      intro _
      apply (lock _).bind
      exact fun _ => (zremElems (elem :: elems) 0).bind (fun _ => pure _)

/-- A query by the scores. -/
theorem queryScores {α : Type} {f : Option (List (Bytes × Bytes)) → Redis α}
    (hf : ∀ found, Touches (Owned key) (f found)) :
  Touches (Owned key)
    (Redis.itersMonotonyPredicate (preffixPredicate (getZsetScorePreffix key)) >>= f)
  := query_bind (fun _ => owned_of_zsetScorePreffix) (fun found _ => hf found)

theorem redisZrange (command start stop : Bytes) :
  Touches (Owned key) (redisZrange [command, key, start, stop])
  := by
  apply (done (.ok key)).bind_of_yields (Q := fun k => k = key) rfl
  rintro k rfl
  apply (done _).bind
  intro i
  apply (done _).bind
  intro j
  apply read expireZsetClean
  intro expired
  apply ite (pure _)
  apply queryScores
  intro found
  cases found with
  | none => apply pure
  | some elems => apply done

theorem redisZcard : Touches (Owned key) (redisZcard key)
  := by
  apply read expireZsetClean
  intro expired
  apply ite (pure _)
  apply queryScores
  intro found
  cases found with
  | none => apply pure
  | some elems =>
      exact (done _).bind (fun _ => pure _)

theorem redisZscore (elem : Bytes) : Touches (Owned key) (redisZscore key elem)
  := by
  apply read expireZsetClean
  intro expired
  apply ite (pure _)
  apply (get (owned_getZsetKeyElem elem)).bind
  intro score
  cases score with
  | none => apply pure
  | some score => apply pure

theorem redisZincrby [Doubles] (increment elem : Bytes) :
  Touches (Owned key) (redisZincrby key increment elem)
  := by
  have hput : ∀ newScore, Touches (Owned key)
      (Redis.put (getZsetKeyElem key elem) newScore >>= fun _ =>
        Redis.put (getZsetKeySocre key newScore) elem >>= fun _ =>
        Pure.pure (bytes ":" ++ newScore ++ crlf)) :=
    fun newScore => (put (owned_getZsetKeyElem elem) _).bind
      (fun _ => (put (owned_getZsetKeySocre newScore) _).bind (fun _ => pure _))
  apply write expireZsetClean
  apply (lock _).bind
  intro _
  apply (get (owned_getZsetKeyElem elem)).bind
  intro queryElem
  apply (done _).bind
  intro newScore
  cases queryElem with
  | none => apply hput
  | some originalScore =>
      exact (remove (owned_getZsetKeySocre originalScore)).bind (fun _ => hput newScore)

theorem redisZrank (elem : Bytes) : Touches (Owned key) (redisZrank key elem)
  := by
  apply read expireZsetClean
  intro expired
  apply ite (pure _)
  apply (get (owned_getZsetKeyElem elem)).bind
  intro score
  cases score with
  | none => apply pure
  | some score =>
      apply query_bind (fun _ => owned_of_zsetPreffix)
      intro found _
      cases found with
      | none => apply pure
      | some elems =>
          exact (done _).bind (fun _ => ite (pure _) (pure _))

/-- The keys that SADD and SREM collect are keys of members. -/
theorem yields_memberKeys (present : Bool) (members : List Bytes) :
  (memberKeys present key members).Yields Possible (fun keys => ∀ x ∈ keys, Owned key x)
  := by
  induction members with
  | nil => exact nofun
  | cons member members ih =>
      intro query _
      apply ih.bind
      intro keys hkeys
      change ∀ x ∈ (if query.isSome = present then getSetMemberKey key member :: keys else keys),
        Owned key x
      split
      · exact List.forall_mem_cons.mpr ⟨owned_getSetMemberKey member, hkeys⟩
      · apply hkeys

theorem memberKeys (present : Bool) (members : List Bytes) :
  Touches (Owned key) (memberKeys present key members)
  := by
  induction members with
  | nil => apply pure
  | cons member members ih =>
      exact (get (owned_getSetMemberKey member)).bind (fun _ => ih.bind (fun _ => pure _))

theorem redisSadd (command : Bytes) (members : List Bytes) :
  Touches (Owned key) (redisSadd (command :: key :: members))
  := by
  apply write expireSetClean
  apply (lock _).bind
  intro _
  apply (memberKeys false members).bind_of_yields (yields_memberKeys false members)
  intro newKeys hkeys
  apply (get owned_key).bind
  intro keyQuery
  apply (done _).bind
  intro setSize
  apply (putBatch _).bind (fun _ => pure _)
  intro kv hkv
  rcases List.mem_append.mp hkv with hkv | hkv
  · obtain ⟨x, hx, rfl⟩ := List.mem_map.mp hkv
    apply hkeys x hx
  · rw [List.mem_singleton.mp hkv]
    apply owned_key

theorem redisSrem (command : Bytes) (members : List Bytes) :
  Touches (Owned key) (redisSrem (command :: key :: members))
  := by
  apply (done (.ok key)).bind_of_yields (Q := fun k => k = key) rfl
  rintro k rfl
  apply read expireSetClean
  intro expired
  apply ite (pure _)
  apply unlock.bind
  intro _
  apply (lock _).bind
  intro _
  apply (memberKeys true members).bind_of_yields (yields_memberKeys true members)
  intro delKvs hkeys
  apply (get owned_key).bind
  intro keyQuery
  apply (done _).bind
  intro setSize
  exact (put owned_key _).bind (fun _ => (removeBatch hkeys).bind (fun _ => pure _))

theorem redisSismember (member : Bytes) : Touches (Owned key) (redisSismember key member)
  := by
  apply read expireSetClean
  intro expired
  exact ite (pure _)
    ((get (owned_getSetMemberKey member)).bind (fun _ => ite (pure _) (pure _)))

theorem redisScard : Touches (Owned key) (redisScard key)
  := by
  apply read expireSetClean
  intro expired
  apply ite (pure _)
  apply (get owned_key).bind
  intro size
  cases size with
  | none => apply pure
  | some value => apply pure

theorem redisSmembers : Touches (Owned key) (redisSmembers key)
  := by
  apply read expireSetClean
  intro expired
  apply ite (pure _)
  apply query_bind (fun _ => owned_of_setPreffix)
  intro found _
  cases found with
  | none => apply pure
  | some elems => apply pure

end Touches

/-- A command touches what belongs to the key that it names. -/
theorem Command.touches [Doubles] {c : Command} (hflush : c ≠ .flushall)
    (h : ∀ k ∈ c.keys, k = key) :
  Touches (Owned key) c.program
  := by
  cases c with
  | flushall => exact absurd rfl hflush
  | del keys =>
      apply (Touches.lock _).bind
      exact fun _ => (Touches.redisDelFrom h 0).bind (fun _ => .pure _)
  | set k value =>
      obtain rfl := h k List.mem_cons_self
      apply Touches.redisSet
  | get k =>
      obtain rfl := h k List.mem_cons_self
      apply Touches.redisGet
  | expire k secondsCount =>
      obtain rfl := h k List.mem_cons_self
      apply Touches.redisExpire
  | ttl k =>
      obtain rfl := h k List.mem_cons_self
      apply Touches.redisTtl
  | hset k fieldValues =>
      obtain rfl := h k List.mem_cons_self
      apply Touches.hset
  | hget k field =>
      obtain rfl := h k List.mem_cons_self
      apply Touches.redisHget
  | hdel k field =>
      obtain rfl := h k List.mem_cons_self
      apply Touches.redisHdel
  | hkeys k =>
      obtain rfl := h k List.mem_cons_self
      apply Touches.redisHkeys
  | lpush k value =>
      obtain rfl := h k List.mem_cons_self
      rw [Command.program, redisLpush]
      apply Touches.redisPush
  | rpush k value =>
      obtain rfl := h k List.mem_cons_self
      rw [Command.program, redisRpush]
      apply Touches.redisPush
  | lpop k =>
      obtain rfl := h k List.mem_cons_self
      rw [Command.program, redisLpop]
      apply Touches.redisPop
  | rpop k =>
      obtain rfl := h k List.mem_cons_self
      rw [Command.program, redisRpop]
      apply Touches.redisPop
  | llen k =>
      obtain rfl := h k List.mem_cons_self
      apply Touches.redisLlen
  | lrange k start stop =>
      obtain rfl := h k List.mem_cons_self
      apply Touches.lrange
  | zadd k scoreElems =>
      obtain rfl := h k List.mem_cons_self
      apply Touches.redisZadd
  | zrem k elems =>
      obtain rfl := h k List.mem_cons_self
      apply Touches.redisZrem
  | zrange k start stop =>
      obtain rfl := h k List.mem_cons_self
      apply Touches.redisZrange
  | zcard k =>
      obtain rfl := h k List.mem_cons_self
      apply Touches.redisZcard
  | zscore k elem =>
      obtain rfl := h k List.mem_cons_self
      apply Touches.redisZscore
  | zincrby k increment elem =>
      obtain rfl := h k List.mem_cons_self
      apply Touches.redisZincrby
  | zrank k elem =>
      obtain rfl := h k List.mem_cons_self
      apply Touches.redisZrank
  | sadd k members =>
      obtain rfl := h k List.mem_cons_self
      apply Touches.redisSadd
  | srem k members =>
      obtain rfl := h k List.mem_cons_self
      apply Touches.redisSrem
  | sismember k member =>
      obtain rfl := h k List.mem_cons_self
      apply Touches.redisSismember
  | scard k =>
      obtain rfl := h k List.mem_cons_self
      apply Touches.redisScard
  | smembers k =>
      obtain rfl := h k List.mem_cons_self
      apply Touches.redisSmembers
  | incr k =>
      obtain rfl := h k List.mem_cons_self
      exact (Touches.redisAdd owned_key _ 1).bind (fun _ => .pure _)
  | decr k =>
      obtain rfl := h k List.mem_cons_self
      exact (Touches.redisAdd owned_key _ (-1)).bind (fun _ => .pure _)

end

end RedisWrapper

end TinyLsm
