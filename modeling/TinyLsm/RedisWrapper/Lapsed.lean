import TinyLsm.RedisWrapper.Deletion
import TinyLsm.RedisWrapper.Isolation

/-!
# Commands on an expired key

The first command that comes upon an expired key removes the expiry time along with the data of
its own type.  If that is all that is stored for the key, the command goes on as on a key that
was never written.
-/

namespace TinyLsm

namespace RedisWrapper

/-- Nothing is stored for a key. -/
def Blank (key : Bytes) (lsm : LSM) : Prop := ∀ x, Owned key x → lsm.get x = none

/-- Nothing is stored for a key besides its value, its expiry time and some others. -/
def StoresOnly (key : Bytes) (lsm : LSM) (S : Bytes → Prop) : Prop :=
  ∀ x, Owned key x → x ≠ key → x ≠ getExplireKey key → ¬ S x → lsm.get x = none

/-- The program removes all that is stored for a key. -/
def Empties (key : Bytes) (clean : Redis Unit) (w : World) : Prop :=
  ∃ lsm, Redis.run clean w = (.ok (), { w with lsm := lsm }) ∧ Blank key lsm

variable {key : Bytes} {lsm : LSM} {w : World}

theorem blank_empty (key : Bytes) : Blank key .empty
  := fun _ _ => rfl

namespace Blank

variable (h : Blank key lsm)

include h

theorem unexpired (now : ℤ) : Unexpired key ⟨lsm, now⟩
  := .inl (h _ owned_getExplireKey)

theorem storesOnly (S : Bytes → Prop) : StoresOnly key lsm S
  := fun x hx _ _ _ => h x hx

end Blank

/-- The key remains blank, or expired, in a store with the same entries of the key. -/
theorem Lapsed.congr {now : ℤ} {lsm' : LSM} (h : Lapsed key ⟨lsm, now⟩)
    (hsame : ∀ x, Owned key x → lsm'.get x = lsm.get x) :
  Lapsed key ⟨lsm', now⟩
  := by
  obtain ⟨text, time, hget, hread, hlt⟩ := h
  exact ⟨text, time, (hsame _ owned_getExplireKey).trans hget, hread, hlt⟩

theorem Blank.congr {lsm' : LSM} (h : Blank key lsm)
    (hsame : ∀ x, Owned key x → lsm'.get x = lsm.get x) :
  Blank key lsm'
  := fun x hx => (hsame x hx).trans (h x hx)

/-- An expiry time that has passed has passed later on, too. -/
theorem Lapsed.mono {now now' : ℤ} (h : Lapsed key ⟨lsm, now⟩) (hle : now ≤ now') :
  Lapsed key ⟨lsm, now'⟩
  := by
  obtain ⟨text, time, hget, hread, hlt⟩ := h
  exact ⟨text, time, hget, hread, lt_of_lt_of_le hlt hle⟩

/-! ### The cleanings -/

theorem blank_remove (h : StoresOnly key lsm (fun _ => False)) :
  Blank key ((lsm.remove key).remove (getExplireKey key))
  := by
  intro x hx
  rw [LSM.get_remove, LSM.get_remove]
  split
  next => rfl
  next hexpire =>
    split
    next => rfl
    next hkey => exact h x hx hkey hexpire id

theorem empties_cleanList (h : StoresOnly key w.lsm (fun _ => False)) :
  Empties key (cleanList key) w
  := ⟨_, run_cleanList key w, blank_remove h⟩

theorem empties_cleanHash {fields : List Bytes}
    (hfields : getFiledsFromHashValue (w.lsm.get key) = .ok fields)
    (h : StoresOnly key w.lsm (fun x => x ∈ fields.map (getHashFiledKey key))) :
  Empties key (cleanHash key) w
  := by
  refine ⟨_, run_cleanHash hfields, ?_⟩
  intro x hx
  rw [LSM.get_remove, LSM.get_remove, LSM.get_removeBatch]
  split
  next => rfl
  next hexpire =>
    split
    next => rfl
    next hkey =>
      split
      next => rfl
      next hmem => exact h x hx hkey hexpire hmem

theorem empties_cleanPreffix {preffix : Bytes}
    (h : StoresOnly key w.lsm (fun x => preffix <+: x)) :
  Empties key (cleanPreffix preffix key) w
  := by
  obtain ⟨lsm, hrun, hget⟩ := run_cleanPreffix preffix key w
  refine ⟨lsm, hrun, ?_⟩
  intro x hx
  rw [hget]
  split
  next => rfl
  next hnot =>
    obtain ⟨hkey, hnot⟩ := not_or.mp hnot
    obtain ⟨hexpire, hpreffix⟩ := not_or.mp hnot
    exact h x hx hkey hexpire hpreffix

theorem blank_deleteKey
    (h : StoresOnly key lsm (fun x => x ∈ (listedFields key lsm).map (getHashFiledKey key))) :
  Blank key (deleteKey key lsm)
  := by
  intro x hx
  rw [get_deleteKey]
  split
  next => rfl
  next hnot =>
    obtain ⟨hkey, hnot⟩ := not_or.mp hnot
    obtain ⟨hexpire, hfield⟩ := not_or.mp hnot
    exact h x hx hkey hexpire hfield

/-! ### Commands on an expired key -/

section

variable {clean : Redis Unit} (h : Lapsed key w)

include h

/-- A command on an expired key is done after the cleaning. -/
theorem run_of_lapsed (hclean : Empties key clean w) :
  ∃ lsm, Blank key lsm ∧ ∀ (f : Bool → Redis Bytes),
    Redis.run (Redis.lock .shared >>= fun _ => expireClean key clean >>= f) w =
      Redis.run (f true) { w with lsm := lsm }
  := by
  obtain ⟨lsm, hrun, hblank⟩ := hclean
  refine ⟨lsm, hblank, ?_⟩
  intro f
  rw [Redis.run_lock, Redis.run_bind_of_ok (run_expireClean_of_lapsed h hrun)]

/-- A command on an expired key fails if the cleaning does. -/
theorem run_of_lapsed_of_error {e : Fault} (hclean : Redis.run clean w = (.error e, w))
    (f : Bool → Redis Bytes) :
  Redis.run (Redis.lock .shared >>= fun _ => expireClean key clean >>= f) w = (.error e, w)
  := by
  rw [Redis.run_lock, Redis.run_bind_of_error]
  rw [expireClean, Redis.run_get, Redis.run_bind_of_ok (run_isExpired_of_lapsed h), if_pos rfl,
    Redis.run_unlock, Redis.run_lock, Redis.run_bind_of_error hclean]

/-- A command that writes goes on after the cleaning as on a key for which nothing is stored. -/
theorem run_write_of_lapsed (hclean : Empties key clean w) (p : Redis Bytes) :
  ∃ lsm, Blank key lsm ∧
    Redis.run (Redis.lock .shared >>= fun _ => expireClean key clean >>= fun expired =>
        if (!expired) = true then Redis.unlock >>= fun _ => p else p) w =
      Redis.run (Redis.lock .shared >>= fun _ => expireClean key clean >>= fun expired =>
        if (!expired) = true then Redis.unlock >>= fun _ => p else p) { w with lsm := lsm }
  := by
  obtain ⟨lsm, hblank, hrun⟩ := run_of_lapsed h hclean
  refine ⟨lsm, hblank, ?_⟩
  rw [hrun, Redis.run_lock,
    Redis.run_bind_of_ok (run_expireClean_of_unexpired (hblank.unexpired w.now) _)]
  rfl

end

/-! ### Each command -/

namespace Command

/-- The commands that create a key. -/
def recreates : Command → Bool
  | set _ _ | hset _ (_ :: _) | lpush _ _ | rpush _ _ | sadd _ _ | zadd _ _ | zincrby _ _ _ => true
  | get _ | del _ | incr _ | decr _ | expire _ _ | ttl _ | hset _ [] | hget _ _ | hdel _ _ | hkeys _
  | lpop _ | rpop _ | llen _ | lrange _ _ _ | zrem _ _ | zrange _ _ _ | zcard _ | zscore _ _
  | zrank _ _ | srem _ _ | sismember _ _ | scard _ | smembers _ | flushall => false

/-- The command does not leave behind a part of what is stored for a key when it removes the
expiry time. -/
def LeavesNothing (key : Bytes) (lsm : LSM) : Command → Prop
  | set _ _ | get _ | lpush _ _ | rpush _ _ | lpop _ | rpop _ | llen _ =>
      StoresOnly key lsm (fun _ => False)
  | lrange _ start stop => ∀ i j, stoi start = .ok i → stoi stop = .ok j →
      StoresOnly key lsm (fun _ => False)
  | del _ => StoresOnly key lsm (fun x => x ∈ (listedFields key lsm).map (getHashFiledKey key))
  | hset _ [] => True
  | hset _ (_ :: _) | hdel _ _ => ∀ fields, getFiledsFromHashValue (lsm.get key) = .ok fields →
      StoresOnly key lsm (fun x => x ∈ fields.map (getHashFiledKey key))
  -- the cleaning fails if the value is not that of a hash
  | hget _ _ | hkeys _ => ∃ fields, getFiledsFromHashValue (lsm.get key) = .ok fields ∧
      StoresOnly key lsm (fun x => x ∈ fields.map (getHashFiledKey key))
  | zadd _ _ | zrem _ _ | zcard _ | zscore _ _ | zincrby _ _ _ | zrank _ _ =>
      StoresOnly key lsm (Under .sortedSet key)
  | zrange _ start stop => ∀ i j, stoi start = .ok i → stoi stop = .ok j →
      StoresOnly key lsm (Under .sortedSet key)
  | sadd _ _ | srem _ _ | sismember _ _ | scard _ | smembers _ => StoresOnly key lsm (Under .set key)
  | incr _ | decr _ | expire _ _ | ttl _ | flushall => True

variable [Doubles] {c : Command} {now : ℤ}

/-- The command does for a key the same as on a store where nothing is stored. -/
structure AsOnEmpty (key : Bytes) (now : ℤ) (lsm : LSM) (c : Command) : Prop where
  reply : (c.exec now lsm).1 = (c.exec now .empty).1
  get : ∀ x, Owned key x → (c.exec now lsm).2.get x = (c.exec now .empty).2.get x

theorem exec_of_run {reply : Except Fault Bytes} {w' : World}
    (h : Redis.run c.program ⟨lsm, now⟩ = (reply, w')) :
  c.exec now lsm = (reply, w'.lsm)
  := by
  rw [exec, h]

theorem asOnEmpty_of_blank (hflush : c ≠ .flushall) (hkeys : ∀ k ∈ c.keys, k = key)
    (h : Blank key lsm) (now : ℤ) :
  c.AsOnEmpty key now lsm
  := by
  have hempty : ∀ x, Owned key x → lsm.get x = LSM.empty.get x := fun x hx => h x hx
  obtain ⟨hreply, hget⟩ := exec_congr hflush hkeys hempty now
  exact ⟨hreply, hget⟩

/-- A command that only reads, after the cleaning. -/
theorem asOnEmpty_of_read {clean : Redis Unit} {f : Bool → Redis Bytes} {reply : Bytes}
    (h : Lapsed key ⟨lsm, now⟩) (hclean : Empties key clean ⟨lsm, now⟩)
    (hprogram : c.program = Redis.lock .shared >>= fun _ => expireClean key clean >>= f)
    (hreply : f true = pure reply) (hempty : c.exec now .empty = (.ok reply, .empty)) :
  c.AsOnEmpty key now lsm
  := by
  obtain ⟨lsm', hblank, hrun⟩ := run_of_lapsed h hclean
  have hexec := exec_of_run (c := c) (by rw [hprogram, hrun f, hreply, Redis.run_pure])
  constructor
  · rw [hexec, hempty]
  · intro x hx
    rw [hexec, hempty]
    apply hblank x hx

/-- A command that writes, after the cleaning. -/
theorem asOnEmpty_of_write {clean : Redis Unit} {p : Redis Bytes} (h : Lapsed key ⟨lsm, now⟩)
    (hclean : Empties key clean ⟨lsm, now⟩)
    (hprogram : c.program = Redis.lock .shared >>= fun _ => expireClean key clean >>= fun expired =>
      if (!expired) = true then Redis.unlock >>= fun _ => p else p)
    (hflush : c ≠ .flushall) (hkeys : ∀ k ∈ c.keys, k = key) :
  c.AsOnEmpty key now lsm
  := by
  obtain ⟨lsm', hblank, hrun⟩ := run_write_of_lapsed h hclean p
  have hexec : c.exec now lsm = c.exec now lsm' := by
    rw [exec, exec, hprogram, hrun]
  have hsame := asOnEmpty_of_blank hflush hkeys hblank now
  constructor
  · rw [hexec, hsame.reply]
  · rw [hexec]
    apply hsame.get

/-- A command on hashes fails on an expired key whose value is not that of a hash. -/
theorem exec_of_not_hash {f : Bool → Redis Bytes} {e : Fault} (h : Lapsed key ⟨lsm, now⟩)
    (hfields : getFiledsFromHashValue (lsm.get key) = .error e)
    (hprogram : c.program = Redis.lock .shared >>= fun _ => expireHashClean key >>= f) :
  c.exec now lsm = (.error e, lsm)
  := by
  have hclean : Redis.run (cleanHash key) ⟨lsm, now⟩ = (.error e, ⟨lsm, now⟩) := by
    rw [cleanHash, Redis.run_get, Redis.run_bind_of_error (by rw [Redis.run_done, hfields])]
  rw [exec, hprogram, expireHashClean, run_of_lapsed_of_error h hclean]

/-- GET of an expired key removes its value and its expiry time. -/
theorem asOnEmpty_get (h : Lapsed key ⟨lsm, now⟩) (hstores : StoresOnly key lsm (fun _ => False)) :
  (Command.get key).AsOnEmpty key now lsm
  := by
  have hexec : ∃ lsm', (Command.get key).exec now lsm = (.ok nilReply, lsm') ∧
      ∀ x, Owned key x → lsm'.get x = none := by
    cases hvalue : lsm.get key with
    | none =>
        refine ⟨_, exec_of_run (run_redisGet_of_none hvalue), ?_⟩
        intro x hx
        rw [LSM.get_remove]
        split
        next => rfl
        next hexpire =>
          by_cases hkey : x = key
          · rw [hkey, hvalue]
          · exact hstores x hx hkey hexpire id
    | some value =>
        have hrun : Redis.run (program (.get key)) ⟨lsm, now⟩ =
            (.ok nilReply, ⟨(lsm.remove key).remove (getExplireKey key), now⟩) := by
          rw [program, redisGet, Redis.run_lock, Redis.run_get, Redis.run_get, hvalue]
          dsimp only
          rw [Redis.run_bind_of_ok (run_isExpired_of_lapsed h), if_pos rfl]
          rfl
        exact ⟨_, exec_of_run hrun, blank_remove hstores⟩
  obtain ⟨lsm', hexec, hblank⟩ := hexec
  constructor
  · rw [hexec]
    rfl
  · intro x hx
    rw [hexec, hblank x hx]
    rfl

/-- A range is asked for after its ends have been read. -/
theorem asOnEmpty_of_range {start stop : Bytes} {p : ℤ → ℤ → Redis Bytes}
    (hprogram : c.program =
      .done (stoi start) >>= fun i => .done (stoi stop) >>= fun j => p i j)
    (h : ∀ i j, stoi start = .ok i → stoi stop = .ok j → c.program = p i j →
      c.AsOnEmpty key now lsm) :
  c.AsOnEmpty key now lsm ∨ c.exec now lsm = ((c.exec now .empty).1, lsm)
  := by
  cases hstart : stoi start with
  | error e =>
      right
      rw [exec, exec, hprogram, hstart]
      rfl
  | ok i =>
      cases hstop : stoi stop with
      | error e =>
          right
          rw [exec, exec, hprogram, hstart, hstop]
          rfl
      | ok j =>
          left
          apply h i j hstart hstop
          rw [hprogram, hstart, hstop]
          rfl

/-- A command that reads an expired key and leaves no part of it behind answers as if nothing were
stored. -/
theorem asOnEmpty_of_isRead (hread : c.isRead = true) (httl : c ≠ .ttl key)
    (hkey : c.keys = [key]) (h : Lapsed key ⟨lsm, now⟩) (hleaves : c.LeavesNothing key lsm) :
  c.AsOnEmpty key now lsm ∨ c.exec now lsm = ((c.exec now .empty).1, lsm)
  := by
  cases c with
  | ttl k =>
      obtain rfl := (List.cons.inj hkey).1
      exact absurd rfl httl
  | get k =>
      obtain rfl := (List.cons.inj hkey).1
      exact .inl (asOnEmpty_get h hleaves)
  | hget k field =>
      obtain rfl := (List.cons.inj hkey).1
      obtain ⟨fields, hfields, hstores⟩ := hleaves
      exact .inl (asOnEmpty_of_read h (empties_cleanHash hfields hstores) rfl rfl rfl)
  | hkeys k =>
      obtain rfl := (List.cons.inj hkey).1
      obtain ⟨fields, hfields, hstores⟩ := hleaves
      exact .inl (asOnEmpty_of_read h (empties_cleanHash hfields hstores) rfl rfl rfl)
  | llen k =>
      obtain rfl := (List.cons.inj hkey).1
      exact .inl (asOnEmpty_of_read h (empties_cleanList hleaves) rfl rfl rfl)
  | zcard k | zscore k elem | zrank k elem =>
      obtain rfl := (List.cons.inj hkey).1
      exact .inl (asOnEmpty_of_read h (empties_cleanPreffix hleaves) rfl rfl rfl)
  | sismember k member | scard k | smembers k =>
      obtain rfl := (List.cons.inj hkey).1
      exact .inl (asOnEmpty_of_read h (empties_cleanPreffix hleaves) rfl rfl rfl)
  | lrange k start stop =>
      obtain rfl := (List.cons.inj hkey).1
      apply asOnEmpty_of_range (p := fun i j => redisLrange k i j) rfl
      intro i j hi hj hprogram
      have hempty :
          (Command.lrange k start stop).exec now .empty = (.ok (arrayReply []), .empty) := by
        rw [exec, hprogram]
        rfl
      exact asOnEmpty_of_read h (empties_cleanList (hleaves i j hi hj)) hprogram rfl hempty
  | zrange k start stop =>
      obtain rfl := (List.cons.inj hkey).1
      apply asOnEmpty_of_range rfl
      intro i j hi hj hprogram
      have hempty :
          (Command.zrange k start stop).exec now .empty = (.ok (arrayReply []), .empty) := by
        rw [exec, hprogram]
        rfl
      exact asOnEmpty_of_read h (empties_cleanPreffix (hleaves i j hi hj)) hprogram rfl hempty
  | _ => cases hread

/-- A command that creates an expired key and leaves no part of it behind does so as if nothing
were stored. -/
theorem asOnEmpty_of_recreates (hrecreates : c.recreates = true) (hkey : c.keys = [key])
    (h : Lapsed key ⟨lsm, now⟩) (hleaves : c.LeavesNothing key lsm) :
  c.AsOnEmpty key now lsm ∨ ∃ e, c.exec now lsm = (.error e, lsm)
  := by
  have hkeys : ∀ k ∈ c.keys, k = key := by
    rw [hkey]
    exact fun k hk => List.mem_singleton.mp hk
  have hflush : c ≠ .flushall := by
    rintro rfl
    cases hrecreates
  cases c with
  | set k value =>
      obtain rfl := (List.cons.inj hkey).1
      left
      constructor
      · rw [exec, exec, program, run_redisSet, run_redisSet]
      · intro x hx
        rw [exec, exec, program, run_redisSet, run_redisSet]
        dsimp only
        rw [LSM.get_remove, LSM.get_remove, LSM.get_put, LSM.get_put]
        split
        next => rfl
        next hexpire =>
          split
          next => rfl
          next hne => exact hleaves x hx hne hexpire id
  | hset k pairs =>
      obtain rfl := (List.cons.inj hkey).1
      cases pairs with
      | nil => cases hrecreates
      | cons p pairs =>
          have hprogram := hset_pairArgs (bytes "hset") k (List.cons_ne_nil p pairs)
          cases hfields : getFiledsFromHashValue (lsm.get k) with
          | ok fields =>
              left
              exact asOnEmpty_of_write h (empties_cleanHash hfields (hleaves fields hfields))
                hprogram hflush hkeys
          | error e =>
              exact .inr ⟨e, exec_of_not_hash h hfields hprogram⟩
  | lpush k value | rpush k value =>
      obtain rfl := (List.cons.inj hkey).1
      exact .inl (asOnEmpty_of_write h (empties_cleanList hleaves) rfl hflush hkeys)
  | zadd k scoreElems =>
      obtain rfl := (List.cons.inj hkey).1
      exact .inl (asOnEmpty_of_write h (empties_cleanPreffix hleaves) rfl hflush hkeys)
  | zincrby k increment elem =>
      obtain rfl := (List.cons.inj hkey).1
      exact .inl (asOnEmpty_of_write h (empties_cleanPreffix hleaves) rfl hflush hkeys)
  | sadd k members =>
      obtain rfl := (List.cons.inj hkey).1
      exact .inl (asOnEmpty_of_write h (empties_cleanPreffix hleaves) rfl hflush hkeys)
  | _ => cases hrecreates

/-- A command that removes something, after the cleaning. -/
theorem blank_of_remove {clean : Redis Unit} {f : Bool → Redis Bytes} {reply : Bytes}
    (h : Lapsed key ⟨lsm, now⟩) (hclean : Empties key clean ⟨lsm, now⟩)
    (hprogram : c.program = Redis.lock .shared >>= fun _ => expireClean key clean >>= f)
    (hreply : f true = pure reply) :
  Blank key (c.exec now lsm).2
  := by
  obtain ⟨lsm', hblank, hrun⟩ := run_of_lapsed h hclean
  have hexec := exec_of_run (c := c) (by rw [hprogram, hrun f, hreply, Redis.run_pure])
  rw [hexec]
  apply hblank

/-- The commands that remove elements, fields and members. -/
def removes : Command → Bool
  | hdel _ _ | lpop _ | rpop _ | zrem _ (_ :: _) | srem _ _ => true
  | _ => false

/-- A command that removes a part of an expired key and leaves no part of it behind. -/
theorem blank_of_removes (hremoves : c.removes = true) (hkey : c.keys = [key])
    (h : Lapsed key ⟨lsm, now⟩) (hleaves : c.LeavesNothing key lsm) :
  Blank key (c.exec now lsm).2 ∨ (c.exec now lsm).2 = lsm
  := by
  cases c with
  | hdel k field =>
      obtain rfl := (List.cons.inj hkey).1
      cases hfields : getFiledsFromHashValue (lsm.get k) with
      | ok fields =>
          left
          exact blank_of_remove h (empties_cleanHash hfields (hleaves fields hfields)) rfl rfl
      | error e =>
          right
          have hexec := exec_of_not_hash (c := .hdel k field) h hfields rfl
          rw [hexec]
  | lpop k | rpop k =>
      obtain rfl := (List.cons.inj hkey).1
      exact .inl (blank_of_remove h (empties_cleanList hleaves) rfl rfl)
  | zrem k elems =>
      obtain rfl := (List.cons.inj hkey).1
      cases elems with
      | nil => cases hremoves
      | cons elem elems => exact .inl (blank_of_remove h (empties_cleanPreffix hleaves) rfl rfl)
  | srem k members =>
      obtain rfl := (List.cons.inj hkey).1
      exact .inl (blank_of_remove h (empties_cleanPreffix hleaves) rfl rfl)
  | _ => cases hremoves

/-- Where nothing is stored, the commands that read store nothing, and nor does a command that
fails to create a key. -/
theorem exec_empty_of_isRead (hread : c.isRead = true) (now : ℤ) : (c.exec now .empty).2 = .empty
  := by
  cases c with
  | lrange k start stop => rw [exec, program, run_lrange (.inl rfl)]
  | zrange k start stop => rw [exec, program, run_redisZrange (.inl rfl)]
  | zcard k => rw [exec, program, run_redisZcard (.inl rfl)]
  | get k | ttl k | hget k field | hkeys k | llen k | zscore k elem | zrank k elem
  | sismember k member | scard k | smembers k => rfl
  | _ => cases hread

theorem exec_empty_of_error (hrecreates : c.recreates = true) {e : Fault}
    (he : (c.exec now .empty).1 = .error e) :
  (c.exec now .empty).2 = .empty
  := by
  have hunexpired : ∀ k, Unexpired k ⟨.empty, now⟩ := fun k => .inl rfl
  cases c with
  | set k value =>
      rw [exec, program, run_redisSet] at he
      cases he
  | hset k pairs =>
      cases pairs with
      | nil => cases hrecreates
      | cons p pairs =>
          obtain ⟨fieldList, addedCount, w', hrun⟩ :=
            run_hsetFields_eq_ok k (p :: pairs) [] 0 ⟨.empty, now⟩
          rw [exec, program, hset_pairArgs _ _ (List.cons_ne_nil p pairs),
            run_redisHsetBatch (hunexpired k) getFiledsFromHashValue_none hrun] at he
          cases he
  | lpush k value | rpush k value =>
      cases he
  | zadd k scoreElems =>
      rw [exec, program, run_redisZadd (hunexpired k)] at he
      cases he
  | zincrby k increment elem =>
      rw [exec, program] at he ⊢
      cases hscore : incrementedScore none increment with
      | ok newScore =>
          rw [run_redisZincrby (hunexpired k) hscore] at he
          cases he
      | error e => rw [run_redisZincrby_of_error (hunexpired k) hscore]
  | sadd k members =>
      rw [exec, program, run_redisSadd (hunexpired k) _ members rfl] at he
      cases he
  | _ => cases hrecreates

end Command

end RedisWrapper

end TinyLsm
