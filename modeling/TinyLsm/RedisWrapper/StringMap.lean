import TinyLsm.Library.Replies
import TinyLsm.RedisWrapper.Commands
import TinyLsm.RedisWrapper.Isolation

/-!
# Strings as a map with expiry times

The commands on strings, on keys that are not reserved, answer as a map from keys to values that
may have an expiry time: though the expiry times are stored under keys of their own, as text, and
expired values are removed by GET only.  The map keeps an expired value until then, as INCR, DECR,
DEL and EXPIRE do not ask for the expiry time, and are used on keys that are not expired.
-/

namespace TinyLsm

namespace RedisWrapper

open Replies TomlConfig

/-- The commands on strings. -/
inductive StringCommand where
  | set (key value : Bytes)
  | get (key : Bytes)
  | del (keys : List Bytes)
  | incr (key : Bytes)
  | decr (key : Bytes)
  | expire (key secondsCount : Bytes)
  | ttl (key : Bytes)

/-- The value of a key, with the time at which it expires, if it does. -/
abbrev StringMap := Bytes → Option (Bytes × Option ℤ)

namespace StringMap

def empty : StringMap := fun _ => none

/-- The key has a value that has expired. -/
def Stale (m : StringMap) (now : ℤ) (key : Bytes) : Prop :=
  ∃ time ∈ (m key).bind Prod.snd, time < now

instance (m : StringMap) (now : ℤ) (key : Bytes) : Decidable (m.Stale now key) :=
  inferInstanceAs (Decidable (∃ time ∈ _, _))

/-- The value of a key, unless it has expired. -/
def read (m : StringMap) (now : ℤ) (key : Bytes) : Option Bytes :=
  if m.Stale now key then none else (m key).map Prod.fst

def assign (m : StringMap) (key value : Bytes) (time : Option ℤ) : StringMap :=
  Function.update m key (some (value, time))

def erase (m : StringMap) (key : Bytes) : StringMap := Function.update m key none

/-- Add to the number of a key, which keeps its expiry time. -/
def add (m : StringMap) (now : ℤ) (initial change : ℤ) (key : Bytes) :
    Except Fault Bytes × StringMap :=
  match m.read now key with
  | none => (.ok (integerReply initial), m.assign key (decimal initial) none)
  | some value =>
      match stoll value with
      | .error e => (.error e, m)
      | .ok n =>
          (.ok (integerReply (n + change)),
            m.assign key (decimal (n + change)) ((m key).bind Prod.snd))

/-- Erase keys one after another, and count those that had a value. -/
def eraseAll (now : ℤ) : List Bytes → StringMap → ℕ × StringMap
  | [], m => (0, m)
  | key :: keys, m =>
      let (count, m') := eraseAll now keys (m.erase key)
      (count + if (m.read now key).isSome then 1 else 0, m')

end StringMap

namespace StringCommand

def command : StringCommand → Command
  | set key value => .set key value
  | get key => .get key
  | del keys => .del keys
  | incr key => .incr key
  | decr key => .decr key
  | expire key secondsCount => .expire key secondsCount
  | ttl key => .ttl key

/-- Execute a command, by a clock. -/
def exec [Doubles] (request : ℤ × StringCommand) (lsm : LSM) : Except Fault Bytes × LSM :=
  request.2.command.exec request.1 lsm

/-- The reply of a map, and the map afterwards. -/
def spec : ℤ × StringCommand → StringMap → Except Fault Bytes × StringMap
  | (_, set key value), m => (.ok okReply, m.assign key value none)
  | (now, get key), m =>
      match m.read now key with
      | some value => (.ok (bulkReply value), m)
      | none => (.ok nilReply, m.erase key)
  | (now, del keys), m =>
      (.ok (integerReply (StringMap.eraseAll now keys m).1), (StringMap.eraseAll now keys m).2)
  | (now, incr key), m => m.add now 1 1 key
  | (now, decr key), m => m.add now (-1) (-1) key
  | (now, expire key secondsCount), m =>
      match stoll secondsCount with
      | .error e => (.error e, m)
      | .ok n =>
          (.ok (integerReply 1), Function.update m key
            ((m key).map (fun entry => (entry.1, some (now + n)))))
  | (now, ttl key), m =>
      match (m key).bind Prod.snd with
      | none => (.ok (integerReply (-1)), m)
      | some time =>
          (.ok (integerReply (if time < now then -2 else time - now)), m)

/-- A value that is not taken for a removed one, or for a hash. -/
def IsText (value : Bytes) : Prop := value ≠ [] ∧ isValueHash value = false

instance : DecidablePred IsText :=
  fun _ => inferInstanceAs (Decidable (_ ∧ _))

instance {P : ℤ → Prop} [DecidablePred P] :
    ∀ number : Except Fault ℤ, Decidable (∀ n, number = .ok n → P n)
  | .error _ => .isTrue nofun
  | .ok n => decidable_of_iff (P n) ⟨fun h _ heq => Except.ok.inj heq ▸ h, fun h => h n rfl⟩

/-- A number is changed by an amount such that it still fits. -/
def AddFits (m : StringMap) (now change : ℤ) (key : Bytes) : Prop :=
  ∀ value ∈ m.read now key, ∀ n, stoll value = .ok n → FitsSigned 64 (n + change)

instance (m : StringMap) (now change : ℤ) (key : Bytes) : Decidable (AddFits m now change key) :=
  inferInstanceAs (Decidable (∀ value ∈ m.read now key, ∀ n, stoll value = .ok n → _))

/-- A request on keys that are not reserved.  The values are texts, numbers and times fit, and
only values that have not expired are changed or removed. -/
def Proper : ℤ × StringCommand → StringMap → Prop
  | (_, set key value), _ => ¬ Reserved key ∧ IsText value
  | (_, get key), _ => ¬ Reserved key
  | (now, del keys), m => ∀ key ∈ keys, ¬ Reserved key ∧ ¬ m.Stale now key
  | (now, incr key), m => ¬ Reserved key ∧ ¬ m.Stale now key ∧ AddFits m now 1 key
  | (now, decr key), m => ¬ Reserved key ∧ ¬ m.Stale now key ∧ AddFits m now (-1) key
  | (now, expire key secondsCount), m => ¬ Reserved key ∧ (m.read now key).isSome ∧
      ∀ n, stoll secondsCount = .ok n → FitsSigned 64 (now + n)
  | (now, ttl key), m => ¬ Reserved key ∧
      ∀ time ∈ (m key).bind Prod.snd, now ≤ time → FitsSigned 64 (time - now)

instance : ∀ (request : ℤ × StringCommand) (m : StringMap), Decidable (Proper request m)
  | (_, set _ _), _ => inferInstanceAs (Decidable (_ ∧ _))
  | (_, get _), _ => inferInstanceAs (Decidable (¬ _))
  | (_, del _), _ => inferInstanceAs (Decidable (∀ key ∈ _, _ ∧ _))
  | (_, incr _), _ | (_, decr _), _ => inferInstanceAs (Decidable (_ ∧ _ ∧ _))
  | (_, expire _ secondsCount), _ =>
      inferInstanceAs (Decidable (_ ∧ _ ∧ ∀ n, stoll secondsCount = .ok n → _))
  | (_, ttl _), _ => inferInstanceAs (Decidable (_ ∧ ∀ time ∈ _, _ → _))

end StringCommand

/-! ### How a map is stored -/

/-- Each value of the map is stored, and its expiry time as text. -/
structure StoresStrings (lsm : LSM) (m : StringMap) : Prop where
  value : ∀ key, ¬ Reserved key → lsm.get key = (m key).map Prod.fst
  expire : ∀ key, ¬ Reserved key →
    lsm.get (getExplireKey key) = ((m key).bind Prod.snd).map decimal
  isText : ∀ key, ∀ value ∈ (m key).map Prod.fst, StringCommand.IsText value
  fits : ∀ key, ∀ time ∈ (m key).bind Prod.snd, FitsSigned 64 time

theorem storesStrings_empty : StoresStrings .empty .empty
  := by
  constructor
  · exact fun _ _ => rfl
  · exact fun _ _ => rfl
  · rintro key value ⟨⟩
  · rintro key time ⟨⟩

theorem getExplireKey_injective : Function.Injective getExplireKey
  := fun _ _ => List.append_cancel_left

theorem ne_getExplireKey {key : Bytes} (h : ¬ Reserved key) (key' : Bytes) :
  key ≠ getExplireKey key'
  := by
  rintro rfl
  exact h (reserved_getExplireKey key')

/-- A number does not start as a hash does. -/
theorem isText_decimal (n : ℤ) : StringCommand.IsText (decimal n)
  := by
  refine ⟨decimal_ne_nil n, ?_⟩
  by_contra hhash
  obtain ⟨rest, hrest⟩ := List.isPrefixOf_iff_prefix.mp (eq_true_of_ne_false hhash)
  have hread := readInteger_decimal n
  rw [← hrest] at hread
  cases hread

/-! ### Requests on one key -/

theorem run_redisGet_of_unexpired {key value : Bytes} {w : World}
    (hvalue : w.lsm.get key = some value) (h : Unexpired key w) :
  Redis.run (redisGet key) w = (.ok (bulkReply value), w)
  := by
  rw [redisGet, Redis.run_lock, Redis.run_get, Redis.run_get, hvalue]
  dsimp only
  rw [Redis.run_bind_of_ok (run_isExpired_of_unexpired h)]
  rfl

theorem run_redisGet_of_lapsed {key value : Bytes} {w : World}
    (hvalue : w.lsm.get key = some value) (h : Lapsed key w) :
  Redis.run (redisGet key) w =
    (.ok nilReply, { w with lsm := (w.lsm.remove key).remove (getExplireKey key) })
  := by
  rw [redisGet, Redis.run_lock, Redis.run_get, Redis.run_get, hvalue]
  dsimp only
  rw [Redis.run_bind_of_ok (run_isExpired_of_lapsed h)]
  rfl

theorem run_redisAdd_of_none {key initial : Bytes} {change : ℤ} {w : World}
    (h : w.lsm.get key = none) :
  Redis.run (redisAdd initial change key) w =
    (.ok initial, { w with lsm := w.lsm.put key initial })
  := by
  rw [redisAdd, Redis.run_lock, Redis.run_get, h]
  rfl

theorem run_redisAdd_of_error {key initial value : Bytes} {change : ℤ} {w : World} {e : Fault}
    (hvalue : w.lsm.get key = some value) (h : stoll value = .error e) :
  Redis.run (redisAdd initial change key) w = (.error e, w)
  := by
  rw [redisAdd, Redis.run_lock, Redis.run_get, hvalue]
  dsimp only
  rw [h]
  rfl

theorem run_redisAdd_of_ok {key initial value : Bytes} {change n : ℤ} {w : World}
    (hvalue : w.lsm.get key = some value) (h : stoll value = .ok n)
    (hfits : FitsSigned 64 (n + change)) :
  Redis.run (redisAdd initial change key) w =
    (.ok (decimal (n + change)), { w with lsm := w.lsm.put key (decimal (n + change)) })
  := by
  have hsum : checkedSigned 64 (n + change) = .ok (n + change) := if_pos hfits
  rw [redisAdd, Redis.run_lock, Redis.run_get, hvalue]
  dsimp only
  rw [h, Redis.run_bind_of_ok (Redis.run_done _ _), hsum]
  rfl

/-- INCR and DECR answer the number that an addition results in. -/
theorem run_integer_bind {p : Redis Bytes} {w w' : World} {n : ℤ}
    (h : Redis.run p w = (.ok (decimal n), w')) :
  Redis.run (p >>= fun text => pure (bytes ":" ++ text ++ crlf)) w = (.ok (integerReply n), w')
  := by
  rw [Redis.run_bind_of_ok h]
  rfl

theorem run_redisExpire (key secondsCount : Bytes) (w : World) :
  (∀ e, stoll secondsCount = .error e →
    Redis.run (redisExpire key secondsCount) w = (.error e, w)) ∧
  ∀ n, stoll secondsCount = .ok n → FitsSigned 64 (w.now + n) →
    Redis.run (redisExpire key secondsCount) w =
      (.ok (integerReply 1), { w with
        lsm := w.lsm.put (getExplireKey key) (decimal (w.now + n)) })
  := by
  have htime := run_getExpireTime secondsCount w
  constructor
  · intro e h
    rw [h] at htime
    rw [redisExpire, Redis.run_lock]
    exact Redis.run_bind_of_error htime _
  · intro n h hfits
    have hsum : checkedSigned 64 (w.now + n) = .ok (w.now + n) := if_pos hfits
    rw [h] at htime
    change Redis.run (getExpireTime secondsCount) w =
      (do
        let expireTime ← checkedSigned 64 (w.now + n)
        return decimal expireTime, w) at htime
    rw [hsum] at htime
    rw [redisExpire, Redis.run_lock, Redis.run_bind_of_ok htime, Redis.run_put]
    rfl

theorem run_redisTtl_of_expire {key value : Bytes} {time : ℤ} {w : World}
    (hvalue : w.lsm.get key = some value)
    (hexpire : w.lsm.get (getExplireKey key) = some (decimal time)) (htime : FitsSigned 64 time)
    (hfits : w.now ≤ time → FitsSigned 64 (time - w.now)) :
  Redis.run (redisTtl key) w =
    (.ok (integerReply (if time < w.now then -2 else time - w.now)), w)
  := by
  have hread : stoll (decimal time) = .ok time := readSigned_decimal htime "stoll"
  rw [redisTtl, Redis.run_lock, Redis.run_get, Redis.run_get, hvalue, hexpire]
  dsimp only
  rw [Redis.run_now, hread, Redis.run_bind_of_ok (Redis.run_done _ _)]
  split
  next => rfl
  next hle =>
    have hdiff : checkedSigned 64 (time - w.now) = .ok (time - w.now) :=
      if_pos (hfits (not_lt.mp hle))
    rw [hdiff]
    rfl

theorem run_redisTtl_of_expire_none {key : Bytes} {w : World}
    (hexpire : w.lsm.get (getExplireKey key) = none) :
  Redis.run (redisTtl key) w = (.ok (integerReply (-1)), w)
  := by
  rw [redisTtl, Redis.run_lock, Redis.run_get, Redis.run_get, hexpire]
  cases w.lsm.get key <;> rfl

/-- Keys are deleted one after another, and those that were there are counted. -/
theorem run_redisDelFrom_cons (delCount : ℕ) (key : Bytes) (keys : List Bytes) (w : World) :
  Redis.run (redisDelFrom delCount (key :: keys)) w =
    Redis.run (redisDelFrom (if (w.lsm.get key).isSome then delCount + 1 else delCount) keys)
      { w with lsm := deleteKey key w.lsm }
  := by
  rw [redisDelFrom, Redis.run_bind_of_ok (run_redisDelKey key w)]

/-! ### The simulation -/

variable {lsm : LSM} {m : StringMap} {key : Bytes}

namespace StoresStrings

/-- Another entry of a key, stored under it and under that of its expiry time. -/
theorem update (h : StoresStrings lsm m) (hkey : ¬ Reserved key) {lsm' : LSM}
    {entry : Option (Bytes × Option ℤ)} (hvalue : lsm'.get key = entry.map Prod.fst)
    (hexpire : lsm'.get (getExplireKey key) = (entry.bind Prod.snd).map decimal)
    (hother : ∀ x, x ≠ key → x ≠ getExplireKey key → lsm'.get x = lsm.get x)
    (hisText : ∀ value ∈ entry.map Prod.fst, StringCommand.IsText value)
    (hfits : ∀ time ∈ entry.bind Prod.snd, FitsSigned 64 time) :
  StoresStrings lsm' (Function.update m key entry)
  := by
  constructor
  · intro key' hkey'
    by_cases heq : key' = key
    · rw [heq, Function.update_self, hvalue]
    · rw [Function.update_of_ne heq, hother key' heq (ne_getExplireKey hkey' key),
        h.value key' hkey']
  · intro key' hkey'
    by_cases heq : key' = key
    · rw [heq, Function.update_self, hexpire]
    · rw [Function.update_of_ne heq, hother _ (ne_getExplireKey hkey key').symm
        (fun heq' => heq (getExplireKey_injective heq')), h.expire key' hkey']
  · intro key'
    by_cases heq : key' = key
    · rw [heq, Function.update_self]
      exact hisText
    · rw [Function.update_of_ne heq]
      exact h.isText key'
  · intro key'
    by_cases heq : key' = key
    · rw [heq, Function.update_self]
      exact hfits
    · rw [Function.update_of_ne heq]
      exact h.fits key'

theorem lapsed (h : StoresStrings lsm m) (hkey : ¬ Reserved key) {now : ℤ}
    (hstale : m.Stale now key) :
  Lapsed key ⟨lsm, now⟩
  := by
  obtain ⟨time, htime, hlt⟩ := hstale
  refine ⟨decimal time, time, ?_, readSigned_decimal (h.fits key time htime) "stoll", hlt⟩
  rw [h.expire key hkey, htime]
  rfl

theorem unexpired (h : StoresStrings lsm m) (hkey : ¬ Reserved key) {now : ℤ}
    (hstale : ¬ m.Stale now key) :
  Unexpired key ⟨lsm, now⟩
  := by
  have hexpire := h.expire key hkey
  cases htime : (m key).bind Prod.snd with
  | none =>
      rw [htime] at hexpire
      exact .inl hexpire
  | some time =>
      rw [htime] at hexpire
      refine .inr ⟨decimal time, time, hexpire, readSigned_decimal (h.fits key time htime) "stoll",
        ?_⟩
      exact not_lt.mp (fun hlt => hstale ⟨time, htime, hlt⟩)

theorem read_of_not_stale {now : ℤ} (hstale : ¬ m.Stale now key) :
  m.read now key = (m key).map Prod.fst
  := if_neg hstale

/-- What is stored when a key and its expiry time are removed. -/
theorem erase (h : StoresStrings lsm m) (hkey : ¬ Reserved key) :
  StoresStrings ((lsm.remove key).remove (getExplireKey key)) (m.erase key)
  := by
  apply h.update hkey
  · rw [LSM.get_remove_of_ne _ (ne_getExplireKey hkey key), LSM.get_remove_self]
    rfl
  · rw [LSM.get_remove_self]
    rfl
  · intro x hx hx'
    rw [LSM.get_remove_of_ne _ hx', LSM.get_remove_of_ne _ hx]
  · rintro value ⟨⟩
  · rintro time ⟨⟩

/-- Another value of a key, which keeps its expiry time. -/
theorem put (h : StoresStrings lsm m) (hkey : ¬ Reserved key) {value : Bytes}
    (hvalue : StringCommand.IsText value) :
  StoresStrings (lsm.put key value) (m.assign key value ((m key).bind Prod.snd))
  := by
  apply h.update hkey
  · rw [LSM.get_put_self, LSM.stored_of_ne_nil hvalue.1]
    rfl
  · rw [LSM.get_put_of_ne _ (ne_getExplireKey hkey key).symm, h.expire key hkey]
    rfl
  · intro x hx _
    rw [LSM.get_put_of_ne _ hx]
  · intro value' hvalue'
    rw [← Option.some.inj hvalue']
    exact hvalue
  · exact h.fits key

theorem deleteKey_eq (h : StoresStrings lsm m) (hkey : ¬ Reserved key) :
  deleteKey key lsm = (lsm.remove key).remove (getExplireKey key)
  := by
  have hlisted : listedFields key lsm = [] := by
    rw [listedFields]
    cases hvalue : lsm.get key with
    | none => rfl
    | some value =>
        rw [h.value key hkey] at hvalue
        dsimp only
        rw [if_neg (ne_true_of_eq_false (h.isText key value hvalue).2)]
  rw [deleteKey, hlisted]
  rfl

/-- INCR and DECR. -/
theorem add (h : StoresStrings lsm m) (hkey : ¬ Reserved key) {now change : ℤ}
    (hstale : ¬ m.Stale now key) (hfits : StringCommand.AddFits m now change key) (initial : ℤ) :
  let outcome := Redis.run (redisAdd (decimal initial) change key >>= fun text =>
    pure (bytes ":" ++ text ++ crlf)) ⟨lsm, now⟩
  outcome.1 = (m.add now initial change key).1 ∧
    StoresStrings outcome.2.lsm (m.add now initial change key).2
  := by
  have hget := h.value key hkey
  have hread := read_of_not_stale hstale
  dsimp only
  rw [StringMap.add, hread]
  cases hentry : m key with
  | none =>
      rw [hentry] at hget
      rw [run_integer_bind (run_redisAdd_of_none hget)]
      refine ⟨rfl, ?_⟩
      have hput := h.put hkey (isText_decimal initial)
      rw [hentry] at hput
      exact hput
  | some entry =>
      rw [hentry] at hget hread
      dsimp only [Option.map_some]
      cases hnumber : stoll entry.1 with
      | error e =>
          rw [Redis.run_bind_of_error (run_redisAdd_of_error hget hnumber)]
          exact ⟨rfl, h⟩
      | ok n =>
          rw [run_integer_bind (run_redisAdd_of_ok hget hnumber (hfits _ hread n hnumber))]
          refine ⟨rfl, ?_⟩
          have hput := h.put hkey (isText_decimal (n + change))
          rw [hentry] at hput
          exact hput

/-- DEL. -/
theorem run_redisDelFrom {now : ℤ} :
  ∀ {keys : List Bytes} {lsm : LSM} {m : StringMap} (delCount : ℕ), StoresStrings lsm m →
    (∀ key ∈ keys, ¬ Reserved key ∧ ¬ m.Stale now key) →
    ∃ lsm', Redis.run (redisDelFrom delCount keys) ⟨lsm, now⟩ =
        (.ok (delCount + (StringMap.eraseAll now keys m).1), ⟨lsm', now⟩) ∧
      StoresStrings lsm' (StringMap.eraseAll now keys m).2
  | [], lsm, m, delCount, h, _ => ⟨lsm, rfl, h⟩
  | key :: keys, lsm, m, delCount, h, hkeys => by
      obtain ⟨⟨hkey, hstale⟩, hkeys⟩ := List.forall_mem_cons.mp hkeys
      have hrest : ∀ k ∈ keys, ¬ Reserved k ∧ ¬ (m.erase key).Stale now k := by
        intro k hk
        refine ⟨(hkeys k hk).1, ?_⟩
        rintro ⟨time, htime, hlt⟩
        by_cases heq : k = key
        · rw [StringMap.erase, heq, Function.update_self] at htime
          cases htime
        · rw [StringMap.erase, Function.update_of_ne heq] at htime
          exact (hkeys k hk).2 ⟨time, htime, hlt⟩
      rw [run_redisDelFrom_cons, h.deleteKey_eq hkey, StringMap.eraseAll]
      obtain ⟨lsm', hrun, hstores⟩ := run_redisDelFrom
        (if (lsm.get key).isSome then delCount + 1 else delCount) (h.erase hkey) hrest
      refine ⟨lsm', hrun.trans ?_, hstores⟩
      have hsame : (m.read now key).isSome = (lsm.get key).isSome := by
        rw [h.value key hkey, read_of_not_stale hstale]
      dsimp only
      rw [hsame]
      congr 2
      split <;> omega

variable [Doubles]

/-- A request answers as the map does, and stores the map it becomes. -/
theorem exec (h : StoresStrings lsm m) {request : ℤ × StringCommand}
    (hproper : StringCommand.Proper request m) :
  (StringCommand.exec request lsm).1 = (StringCommand.spec request m).1 ∧
    StoresStrings (StringCommand.exec request lsm).2 (StringCommand.spec request m).2
  := by
  obtain ⟨now, c⟩ := request
  cases c with
  | set key value =>
      obtain ⟨hkey, hvalue⟩ := hproper
      rw [StringCommand.exec, StringCommand.command, Command.exec, Command.program,
        run_redisSet]
      refine ⟨rfl, ?_⟩
      apply h.update hkey
      · rw [LSM.get_remove_of_ne _ (ne_getExplireKey hkey key), LSM.get_put_self,
          LSM.stored_of_ne_nil hvalue.1]
        rfl
      · rw [LSM.get_remove_self]
        rfl
      · intro x hx hx'
        rw [LSM.get_remove_of_ne _ hx', LSM.get_put_of_ne _ hx]
      · intro value' hvalue'
        rw [← Option.some.inj hvalue']
        exact hvalue
      · rintro time ⟨⟩
  | get key =>
      have hkey : ¬ Reserved key := hproper
      have hget := h.value key hkey
      rw [StringCommand.exec, StringCommand.command, Command.exec, Command.program,
        StringCommand.spec]
      cases hentry : m key with
      | none =>
          rw [hentry] at hget
          have hexpire := h.expire key hkey
          rw [hentry] at hexpire
          have hread : m.read now key = none := by
            rw [StringMap.read, hentry, Option.map_none, ite_self]
          have herase := h.erase hkey
          rw [LSM.remove_of_get_eq_none hget] at herase
          rw [run_redisGet_of_none hget, hread]
          exact ⟨rfl, herase⟩
      | some entry =>
          rw [hentry] at hget
          by_cases hstale : m.Stale now key
          · have hread : m.read now key = none := if_pos hstale
            rw [run_redisGet_of_lapsed hget (h.lapsed hkey hstale), hread]
            exact ⟨rfl, h.erase hkey⟩
          · have hread : m.read now key = some entry.1 := by
              rw [read_of_not_stale hstale, hentry]
              rfl
            rw [run_redisGet_of_unexpired hget (h.unexpired hkey hstale), hread]
            exact ⟨rfl, h⟩
  | del keys =>
      obtain ⟨lsm', hrun, hstores⟩ := h.run_redisDelFrom 0 hproper
      rw [StringCommand.exec, StringCommand.command, Command.exec, Command.program, redisDel,
        Redis.run_lock, List.drop_succ_cons, List.drop_zero, Redis.run_bind_of_ok hrun,
        Nat.zero_add]
      exact ⟨rfl, hstores⟩
  | incr key =>
      obtain ⟨hkey, hstale, hfits⟩ := hproper
      exact h.add hkey hstale hfits 1
  | decr key =>
      obtain ⟨hkey, hstale, hfits⟩ := hproper
      exact h.add hkey hstale hfits (-1)
  | expire key secondsCount =>
      obtain ⟨hkey, hlive, hfits⟩ := hproper
      obtain ⟨herror, hok⟩ := run_redisExpire key secondsCount ⟨lsm, now⟩
      rw [StringCommand.exec, StringCommand.command, Command.exec, Command.program,
        StringCommand.spec]
      cases hnumber : stoll secondsCount with
      | error e =>
          rw [herror e hnumber]
          exact ⟨rfl, h⟩
      | ok n =>
          rw [hok n hnumber (hfits n hnumber)]
          refine ⟨rfl, ?_⟩
          cases hentry : m key with
          | none =>
              rw [StringMap.read, hentry, Option.map_none, ite_self] at hlive
              cases hlive
          | some entry =>
              have hget := h.value key hkey
              have htext := h.isText key
              rw [hentry] at hget htext
              apply h.update hkey
              · rw [LSM.get_put_of_ne _ (ne_getExplireKey hkey key), hget]
                rfl
              · rw [LSM.get_put_self, LSM.stored_of_ne_nil (decimal_ne_nil _)]
                rfl
              · intro x _ hx'
                rw [LSM.get_put_of_ne _ hx']
              · exact htext
              · intro time htime
                rw [← Option.some.inj htime]
                exact hfits n hnumber
  | ttl key =>
      obtain ⟨hkey, hfits⟩ := hproper
      have hget := h.value key hkey
      have hexpire := h.expire key hkey
      rw [StringCommand.exec, StringCommand.command, Command.exec, Command.program,
        StringCommand.spec]
      cases htime : (m key).bind Prod.snd with
      | none =>
          rw [htime] at hexpire
          rw [run_redisTtl_of_expire_none hexpire]
          exact ⟨rfl, h⟩
      | some time =>
          rw [htime] at hexpire
          obtain ⟨entry, hentry, -⟩ := Option.bind_eq_some_iff.mp htime
          rw [hentry] at hget
          rw [run_redisTtl_of_expire hget hexpire (h.fits key time htime) (hfits time htime)]
          exact ⟨rfl, h⟩

end StoresStrings

/-- A run of requests, by whatever clock, answers as the map does. -/
theorem replies_stringCommands [Doubles] (h : StoresStrings lsm m)
    {requests : List (ℤ × StringCommand)}
    (hproper : Along StringCommand.spec StringCommand.Proper requests m) :
  replies StringCommand.exec requests lsm = replies StringCommand.spec requests m
  := by
  apply replies_eq_of_simulation (R := StoresStrings) (P := StringCommand.Proper)
  · intro request lsm m h hmeets
    apply h.exec hmeets
  · apply h
  · apply hproper

/-- A counter expires, and the key is used again. -/
theorem replies_stringCommands_expired :
  letI := Doubles.whole
  let k := bytes "k"
  let requests : List (ℤ × StringCommand) :=
    [(0, .set k (bytes "7")), (1, .incr k), (2, .expire k (bytes "5")), (3, .ttl k), (8, .get k),
      (9, .incr k), (10, .del [k, k])]
  replies StringCommand.exec requests .empty = replies StringCommand.spec requests .empty
  := by
  let _ := Doubles.whole
  apply replies_stringCommands storesStrings_empty
  decide

end RedisWrapper

end TinyLsm
