import TinyLsm.Library.Replies
import TinyLsm.Library.Transition
import TinyLsm.RedisWrapper.Lapsed

/-!
# Expired data

Once the expiry time of a key has passed, the key is gone until a command creates it again.  Data
of an expired key comes back if a command removes the expiry time and not all of the data, or if
the expiry time is replaced.
-/

namespace TinyLsm

namespace RedisWrapper

open Transition (Reached reached_of_run)

variable {key : Bytes} {lsm : LSM}

instance (key : Bytes) (w : World) : Decidable (Lapsed key w) :=
  match hget : w.lsm.get (getExplireKey key) with
  | none => .isFalse (fun ⟨_, _, h, _⟩ => by rw [hget] at h; cases h)
  | some text =>
      match hread : stoll text with
      | .error _ => .isFalse (fun ⟨_, _, h, hok, _⟩ => by
          rw [hget] at h
          rw [← Option.some.inj h, hread] at hok
          cases hok)
      | .ok time =>
          if hlt : time < w.now then .isTrue ⟨text, time, hget, hread, hlt⟩
          else .isFalse (fun ⟨_, _, h, hok, hlt'⟩ => by
            rw [hget] at h
            rw [← Option.some.inj h, hread] at hok
            exact hlt (Except.ok.inj hok ▸ hlt'))

/-- The store and the clock, and whether the key has expired and has not been created since. -/
structure Life where
  lsm : LSM
  now : ℤ
  gone : Bool

namespace Life

/-- The key has expired, by the time of a request. -/
def Gone (key : Bytes) (s : Life) (now : ℤ) : Prop := s.gone = true ∨ Lapsed key ⟨s.lsm, now⟩

instance (key : Bytes) (s : Life) (now : ℤ) : Decidable (s.Gone key now) :=
  inferInstanceAs (Decidable (_ ∨ _))

variable [Doubles]

/-- The request creates the key. -/
def Creates (key : Bytes) (s : Life) (request : ℤ × Command) : Prop :=
  request.2.recreates = true ∧ request.2.keys = [key] ∧
    (request.2.exec request.1 s.lsm).1.isOk = true

instance (key : Bytes) (s : Life) (request : ℤ × Command) : Decidable (s.Creates key request) :=
  inferInstanceAs (Decidable (_ ∧ _ ∧ _))

/-- The step of a request, by a clock that does not go back. -/
def step (key : Bytes) (s : Life) (request : ℤ × Command) : Option Life :=
  if request.1 < s.now then none
  else some {
    lsm := (request.2.exec request.1 s.lsm).2
    now := request.1
    gone := decide (s.Gone key request.1 ∧ ¬ s.Creates key request) }

end Life

namespace Command

/-- The command brings nothing back of a key that is gone. -/
def BringsNothingBack (key : Bytes) (lsm : LSM) (now : ℤ) (c : Command) : Prop :=
  (Lapsed key ⟨lsm, now⟩ → c.LeavesNothing key lsm) ∧
    match c with
    -- without an expiry time that has passed these store a new value
    | incr _ | decr _ | srem _ _ => Lapsed key ⟨lsm, now⟩
    | expire _ secondsCount => ∀ n, stoll secondsCount = .ok n → n < 0
    | _ => True

end Command

/-- While the key is gone, a request brings nothing back of it, and names no other key that shares
storage with it. -/
def KeepsGone (key : Bytes) (s : Life) (request : ℤ × Command) : Prop :=
  s.Gone key request.1 →
    (∀ k ∈ request.2.keys, k = key ∨ SharesNothing key k) ∧
      (key ∈ request.2.keys → request.2.BringsNothingBack key s.lsm request.1)

/-! ### Commands on a key that is gone -/

/-- The key is expired, or nothing is stored for it. -/
def LapsedOrBlank (key : Bytes) (w : World) : Prop := Lapsed key w ∨ Blank key w.lsm

theorem LapsedOrBlank.congr {now : ℤ} {lsm' : LSM} (h : LapsedOrBlank key ⟨lsm, now⟩)
    (hsame : ∀ x, Owned key x → lsm'.get x = lsm.get x) :
  LapsedOrBlank key ⟨lsm', now⟩
  := h.imp (fun h => h.congr hsame) (fun h => h.congr hsame)

theorem get_deleteKey_of_sharesNothing {key' : Bytes} (h : SharesNothing key key') {x : Bytes}
    (hx : Owned key x) :
  (deleteKey key' lsm).get x = lsm.get x
  := by
  rw [get_deleteKey, if_neg]
  rintro (rfl | rfl | hfield)
  · exact h _ owned_key hx
  · exact h _ owned_getExplireKey hx
  · obtain ⟨field, -, rfl⟩ := List.mem_map.mp hfield
    exact h _ (owned_getHashFiledKey field) hx

theorem get_deleteKey_of_none {key' x : Bytes} (h : lsm.get x = none) :
  (deleteKey key' lsm).get x = none
  := by
  rw [get_deleteKey, h, ite_self]

/-- Deleting keys removes all that is stored for one of them, and leaves one that shares nothing
with them. -/
theorem blank_or_same_foldl_deleteKey {keys : List Bytes} {lsm₀ : LSM}
    (hkeys : ∀ k ∈ keys, k = key ∨ SharesNothing key k)
    (hstores : key ∈ keys →
      StoresOnly key lsm₀ (fun x => x ∈ (listedFields key lsm₀).map (getHashFiledKey key))) :
  ∀ {lsm : LSM}, (Blank key lsm ∨ ∀ x, Owned key x → lsm.get x = lsm₀.get x) →
    (Blank key (keys.foldl (fun lsm key => deleteKey key lsm) lsm) ∨
      ∀ x, Owned key x → (keys.foldl (fun lsm key => deleteKey key lsm) lsm).get x = lsm₀.get x)
  := by
  induction keys with
  | nil => exact fun h => h
  | cons k keys ih =>
      intro lsm h
      apply ih (fun k' hk' => hkeys k' (List.mem_cons_of_mem k hk'))
        (fun hmem => hstores (List.mem_cons_of_mem k hmem))
      rcases h with hblank | hsame
      · exact .inl (fun x hx => get_deleteKey_of_none (hblank x hx))
      · rcases hkeys k List.mem_cons_self with rfl | hshares
        · left
          have hlisted : listedFields k lsm = listedFields k lsm₀ := by
            rw [listedFields, listedFields, hsame k owned_key]
          apply blank_deleteKey
          intro x hx hkey hexpire hfield
          rw [hlisted] at hfield
          rw [hsame x hx]
          exact hstores List.mem_cons_self x hx hkey hexpire hfield
        · right
          exact fun x hx => (get_deleteKey_of_sharesNothing hshares hx).trans (hsame x hx)

variable [Doubles] {c : Command} {now : ℤ}

theorem Command.exec_ttl (key : Bytes) (now : ℤ) (lsm : LSM) :
  ((Command.ttl key).exec now lsm).2 = lsm
  := by
  rw [exec, program, redisTtl, Redis.run_lock, Redis.run_get, Redis.run_get]
  cases lsm.get key with
  | none => rfl
  | some value =>
      dsimp only
      cases lsm.get (getExplireKey key) with
      | none => rfl
      | some text =>
          dsimp only
          rw [Redis.run_now]
          cases stoll text with
          | error e => rfl
          | ok time =>
              rw [Redis.run_bind_of_ok (Redis.run_done _ _)]
              split
              · rfl
              · cases checkedSigned 64 (time - now) with
                | error e => rfl
                | ok left => rfl

/-- A counter leaves all but the value of the key. -/
theorem Command.exec_add_get (hadd : c = .incr key ∨ c = .decr key) {x : Bytes} (hx : x ≠ key) :
  (c.exec now lsm).2.get x = lsm.get x
  := by
  have htouches : Touches (fun y => y = key) c.program := by
    rcases hadd with rfl | rfl
    · exact (Touches.redisAdd (S := fun y => y = key) rfl _ 1).bind (fun _ => .pure _)
    · exact (Touches.redisAdd (S := fun y => y = key) rfl _ (-1)).bind (fun _ => .pure _)
  apply htouches.get_run_of_not hx ⟨lsm, now⟩

/-- An expiry time before the clock has passed. -/
theorem Command.exec_expire {secondsCount : Bytes}
    (hnegative : ∀ n, stoll secondsCount = .ok n → n < 0) :
  Lapsed key ⟨((Command.expire key secondsCount).exec now lsm).2, now⟩ ∨
    ((Command.expire key secondsCount).exec now lsm).2 = lsm
  := by
  rw [exec, program, redisExpire, Redis.run_lock]
  have hrun := run_getExpireTime secondsCount ⟨lsm, now⟩
  cases hread : stoll secondsCount with
  | error e =>
      right
      rw [hread] at hrun
      rw [Redis.run_bind_of_error hrun]
  | ok n =>
      rw [hread] at hrun
      by_cases hfits : FitsSigned 64 (now + n)
      · left
        have htime : checkedSigned 64 (now + n) = .ok (now + n) := if_pos hfits
        refine ⟨decimal (now + n), now + n, ?_, readSigned_decimal hfits "stoll", ?_⟩
        · change Redis.run _ _ = ((checkedSigned 64 (now + n) >>= fun expireTime =>
            return decimal expireTime, ⟨lsm, now⟩) : Except Fault Bytes × World) at hrun
          rw [htime] at hrun
          rw [Redis.run_bind_of_ok hrun, Redis.run_put]
          exact (LSM.get_put_self _ _ _).trans (LSM.stored_of_ne_nil (decimal_ne_nil _))
        · have hlt := hnegative n hread
          exact (by omega : now + n < now)
      · right
        have htime : checkedSigned 64 (now + n) = .error .undefinedBehavior := if_neg hfits
        change Redis.run _ _ = ((checkedSigned 64 (now + n) >>= fun expireTime =>
          return decimal expireTime, ⟨lsm, now⟩) : Except Fault Bytes × World) at hrun
        rw [htime] at hrun
        rw [Redis.run_bind_of_error hrun]

/-! ### The step -/

/-- The kinds of commands on one key. -/
theorem Command.kinds (hkey : c.keys = [key]) (hdel : ∀ keys, c ≠ .del keys) :
  c.isRead = true ∨ c.recreates = true ∨ c.removes = true ∨ (c = .incr key ∨ c = .decr key) ∨
    (∃ secondsCount, c = .expire key secondsCount) ∨ ∀ now lsm, (c.exec now lsm).2 = lsm
  := by
  cases c with
  | flushall => cases hkey
  | del keys => exact absurd rfl (hdel keys)
  | get k | ttl k | hget k field | hkeys k | llen k | lrange k start stop | zscore k elem
  | zcard k | zrange k start stop | zrank k elem | sismember k member | scard k | smembers k =>
      exact .inl rfl
  | set k value | lpush k value | rpush k value | sadd k members | zadd k pairs
  | zincrby k increment elem =>
      exact .inr (.inl rfl)
  | hdel k field | lpop k | rpop k | srem k members => exact .inr (.inr (.inl rfl))
  | incr k =>
      obtain rfl := (List.cons.inj hkey).1
      exact .inr (.inr (.inr (.inl (.inl rfl))))
  | decr k =>
      obtain rfl := (List.cons.inj hkey).1
      exact .inr (.inr (.inr (.inl (.inr rfl))))
  | expire k secondsCount =>
      obtain rfl := (List.cons.inj hkey).1
      exact .inr (.inr (.inr (.inr (.inl ⟨secondsCount, rfl⟩))))
  | hset k pairs =>
      cases pairs with
      | nil => exact .inr (.inr (.inr (.inr (.inr (fun _ _ => rfl)))))
      | cons p pairs => exact .inr (.inl rfl)
  | zrem k elems =>
      cases elems with
      | nil => exact .inr (.inr (.inr (.inr (.inr (fun _ _ => rfl)))))
      | cons elem elems => exact .inr (.inr (.inl rfl))

/-- Where nothing is stored, the commands that remove something change nothing. -/
theorem Command.exec_empty_of_removes (hremoves : c.removes = true)
    (hsrem : ∀ k members, c ≠ .srem k members) (now : ℤ) :
  (c.exec now .empty).2 = .empty
  := by
  cases c with
  | srem k members => exact absurd rfl (hsrem k members)
  | hdel k field | lpop k | rpop k => rfl
  | zrem k elems =>
      have hnone : ∀ elems : List Bytes, elems.foldl (removeElem k) .empty = .empty := by
        intro elems
        induction elems with
        | nil => rfl
        | cons elem elems ih => exact ih
      cases elems with
      | nil => cases hremoves
      | cons elem elems =>
          have hunexpired : Unexpired k ⟨.empty, now⟩ := .inl rfl
          obtain ⟨removedCount, hrun⟩ :=
            run_redisZrem hunexpired (bytes "zrem") (List.cons_ne_nil elem elems)
          rw [exec, program, hrun, hnone]
  | _ => cases hremoves

/-- A command on a key that has expired and has not been removed. -/
theorem lapsedOrBlank_exec_of_lapsed (hkey : c.keys = [key]) (hdel : ∀ keys, c ≠ .del keys)
    (h : Lapsed key ⟨lsm, now⟩) (hnothing : c.BringsNothingBack key lsm now) :
  LapsedOrBlank key ⟨(c.exec now lsm).2, now⟩ ∨
    c.recreates = true ∧ (c.exec now lsm).1.isOk = true
  := by
  have hleaves := hnothing.1 h
  have hsame : (c.exec now lsm).2 = lsm → LapsedOrBlank key ⟨(c.exec now lsm).2, now⟩ := by
    intro heq
    rw [heq]
    exact .inl h
  rcases c.kinds hkey hdel with hread | hrecreates | hremoves | hadd | ⟨secondsCount, rfl⟩ | hnone
  · left
    by_cases httl : c = .ttl key
    · subst httl
      exact hsame (Command.exec_ttl key now lsm)
    · rcases Command.asOnEmpty_of_isRead hread httl hkey h hleaves with hfresh | hexec
      · right
        intro x hx
        rw [hfresh.get x hx, Command.exec_empty_of_isRead hread, LSM.get_empty]
      · exact hsame (congrArg Prod.snd hexec)
  · rcases Command.asOnEmpty_of_recreates hrecreates hkey h hleaves with hfresh | ⟨e, hexec⟩
    · cases hreply : (c.exec now lsm).1 with
      | ok reply => exact .inr ⟨hrecreates, rfl⟩
      | error e =>
          left
          right
          intro x hx
          have hempty := Command.exec_empty_of_error hrecreates (hfresh.reply.symm.trans hreply)
          rw [hfresh.get x hx, hempty, LSM.get_empty]
    · exact .inl (hsame (congrArg Prod.snd hexec))
  · left
    rcases Command.blank_of_removes hremoves hkey h hleaves with hblank | heq
    · exact .inr hblank
    · exact hsame heq
  · left
    left
    obtain ⟨text, time, hget, hread, hlt⟩ := h
    refine ⟨text, time, ?_, hread, hlt⟩
    rw [Command.exec_add_get hadd (getExplireKey_ne_key key), hget]
  · left
    rcases Command.exec_expire hnothing.2 with hlapsed | heq
    · exact .inl hlapsed
    · exact hsame heq
  · exact .inl (hsame (hnone now lsm))

/-- A command on a key of which nothing is stored. -/
theorem lapsedOrBlank_exec_of_blank (hkey : c.keys = [key]) (hdel : ∀ keys, c ≠ .del keys)
    (h : Blank key lsm) (hnothing : c.BringsNothingBack key lsm now) :
  LapsedOrBlank key ⟨(c.exec now lsm).2, now⟩ ∨
    c.recreates = true ∧ (c.exec now lsm).1.isOk = true
  := by
  have hflush : c ≠ .flushall := by
    rintro rfl
    cases hkey
  have hkeys : ∀ k ∈ c.keys, k = key := by
    rw [hkey]
    exact fun k hk => List.mem_singleton.mp hk
  have hunexpired : ¬ Lapsed key ⟨lsm, now⟩ := by
    rintro ⟨text, -, hget, -⟩
    rw [h _ owned_getExplireKey] at hget
    cases hget
  have hfresh := Command.asOnEmpty_of_blank hflush hkeys h now
  have hblank : (c.exec now .empty).2 = .empty →
      LapsedOrBlank key ⟨(c.exec now lsm).2, now⟩ := by
    intro hempty
    right
    intro x hx
    rw [hfresh.get x hx, hempty, LSM.get_empty]
  rcases c.kinds hkey hdel with hread | hrecreates | hremoves | hadd | ⟨secondsCount, rfl⟩ | hnone
  · exact .inl (hblank (Command.exec_empty_of_isRead hread now))
  · cases hreply : (c.exec now lsm).1 with
    | ok reply => exact .inr ⟨hrecreates, rfl⟩
    | error e =>
        exact .inl (hblank (Command.exec_empty_of_error hrecreates
          (hfresh.reply.symm.trans hreply)))
  · left
    apply hblank
    apply Command.exec_empty_of_removes hremoves
    rintro k members rfl
    exact hunexpired hnothing.2
  · rcases hadd with rfl | rfl
    · exact absurd hnothing.2 hunexpired
    · exact absurd hnothing.2 hunexpired
  · left
    rcases Command.exec_expire hnothing.2 with hlapsed | heq
    · exact .inl hlapsed
    · rw [heq]
      exact .inr h
  · exact .inl (hblank (hnone now .empty))

/-- Whatever the command is, the key remains gone unless the command creates it. -/
theorem LapsedOrBlank.exec (h : LapsedOrBlank key ⟨lsm, now⟩)
    (hkeys : ∀ k ∈ c.keys, k = key ∨ SharesNothing key k)
    (hnothing : key ∈ c.keys → c.BringsNothingBack key lsm now) :
  LapsedOrBlank key ⟨(c.exec now lsm).2, now⟩ ∨
    c.recreates = true ∧ c.keys = [key] ∧ (c.exec now lsm).1.isOk = true
  := by
  by_cases hflush : c = .flushall
  · subst hflush
    exact .inl (.inr (blank_empty key))
  by_cases hdel : ∃ keys, c = .del keys
  · left
    obtain ⟨keys, rfl⟩ := hdel
    obtain ⟨delCount, hrun⟩ := run_redisDel (bytes "del") keys ⟨lsm, now⟩
    have hexec := Command.exec_of_run (c := .del keys) hrun
    rw [hexec]
    rcases h with hlapsed | hblank
    · rcases blank_or_same_foldl_deleteKey hkeys (fun hmem => (hnothing hmem).1 hlapsed)
        (.inr (fun _ _ => rfl)) with hblank | hsame
      · exact .inr hblank
      · exact .inl (hlapsed.congr hsame)
    · rcases blank_or_same_foldl_deleteKey hkeys (fun _ => hblank.storesOnly _)
        (.inl hblank) with hblank | hsame
      · exact .inr hblank
      · exact .inr (hblank.congr hsame)
  have hdel' : ∀ keys, c ≠ .del keys := fun keys heq => hdel ⟨keys, heq⟩
  obtain ⟨k, hkey⟩ := Command.keys_eq_singleton hflush hdel'
  rw [hkey] at hkeys hnothing
  rcases hkeys k List.mem_cons_self with rfl | hshares
  · have hbrings := hnothing List.mem_cons_self
    have hexec := h.elim (fun hlapsed => lapsedOrBlank_exec_of_lapsed hkey hdel' hlapsed hbrings)
      (fun hblank => lapsedOrBlank_exec_of_blank hkey hdel' hblank hbrings)
    rcases hexec with hgone | ⟨hrecreates, hok⟩
    · exact .inl hgone
    · exact .inr ⟨hrecreates, hkey, hok⟩
  · left
    apply h.congr
    intro x hx
    apply Command.exec_get_of_not_owned hflush
    · rw [hkey]
      exact fun k' hk' => List.mem_singleton.mp hk'
    · exact fun hx' => hshares x hx' hx

/-! ### Runs -/

/-- A key that is gone is expired or has nothing stored for it. -/
def Life.GoneIsClean (key : Bytes) (s : Life) : Prop :=
  s.gone = true → LapsedOrBlank key ⟨s.lsm, s.now⟩

omit [Doubles] in
theorem Life.GoneIsClean.lapsedOrBlank {s : Life} (h : s.GoneIsClean key) (hnow : s.now ≤ now)
    (hgone : s.Gone key now) :
  LapsedOrBlank key ⟨s.lsm, now⟩
  := by
  rcases hgone with hgone | hlapsed
  · exact (h hgone).imp (fun hlapsed => hlapsed.mono hnow) id
  · exact .inl hlapsed

theorem Life.GoneIsClean.step {s s' : Life} {request : ℤ × Command} (h : s.GoneIsClean key)
    (hkeeps : KeepsGone key s request) (hstep : s.step key request = some s') :
  s'.GoneIsClean key
  := by
  rw [Life.step] at hstep
  split at hstep
  next => cases hstep
  next hnow =>
    obtain rfl := Option.some.inj hstep
    intro hgone
    obtain ⟨hgone, hcreates⟩ := of_decide_eq_true hgone
    obtain ⟨hkeys, hnothing⟩ := hkeeps hgone
    rcases (h.lapsedOrBlank (not_lt.mp hnow) hgone).exec hkeys hnothing with hclean | hcreated
    · exact hclean
    · exact absurd hcreated hcreates

/-- As long as the key has not expired, any command may follow. -/
theorem reached_step_of_not_gone {start : Life} {lsm : LSM}
    (h : Reached (Life.step key) start (KeepsGone key) ⟨lsm, now, false⟩) {now' : ℤ}
    (hnow : now ≤ now') (hgone : ¬ Life.Gone key ⟨lsm, now, false⟩ now') (c : Command) :
  Reached (Life.step key) start (KeepsGone key) ⟨(c.exec now' lsm).2, now', false⟩
  := by
  apply h.step (a := (now', c)) (fun h => absurd h hgone)
  rw [Life.step, if_neg (not_lt.mpr hnow), decide_eq_false (fun h => hgone h.1)]

theorem goneIsClean_of_reached {s : Life}
    (h : Reached (Life.step key) ⟨lsm, now, false⟩ (KeepsGone key) s) :
  s.GoneIsClean key
  := by
  apply h.invariant
  · exact nofun
  · exact fun _ hs hkeeps hstep => hs.step hkeeps hstep

/-- Stores that are the same for a key answer commands on the key in the same way, in any run. -/
theorem replies_eq_of_same {lsm lsm' : LSM} (hsame : ∀ x, Owned key x → lsm.get x = lsm'.get x)
    {requests : List (ℤ × Command)} (hkeys : ∀ request ∈ requests, request.2.keys = [key]) :
  Replies.replies (fun request lsm => request.2.exec request.1 lsm) requests lsm =
    Replies.replies (fun request lsm => request.2.exec request.1 lsm) requests lsm'
  := by
  apply Replies.replies_eq_of_simulation
    (R := fun lsm lsm' => ∀ x, Owned key x → lsm.get x = lsm'.get x)
    (P := fun request _ => request.2.keys = [key]) _ hsame (.of_mem hkeys)
  intro request lsm lsm' hsame hkey
  apply Command.exec_congr _ _ hsame
  · intro hflush
    rw [hflush] at hkey
    cases hkey
  · rw [hkey]
    exact fun k hk => List.mem_singleton.mp hk

/-- Take a run by a clock that does not go back, in which the requests bring nothing back of a
key while it is gone.  While the key is gone the commands that read it answer as if nothing were
stored.  Once it is created, all commands on it answer as if it had been created in an empty
store. -/
theorem goneKey_of_reached {s : Life}
    (h : Reached (Life.step key) ⟨lsm, now, false⟩ (KeepsGone key) s) {now' : ℤ}
    (hnow : s.now ≤ now') (hgone : s.Gone key now') (hkeeps : KeepsGone key s (now', c))
    (hkey : c.keys = [key]) :
  (c.isRead = true → c ≠ .ttl key → (c.exec now' s.lsm).1 = (c.exec now' .empty).1) ∧
    (s.Creates key (now', c) → ∀ requests : List (ℤ × Command),
      (∀ request ∈ requests, request.2.keys = [key]) →
      Replies.replies (fun request lsm => request.2.exec request.1 lsm) requests
          (c.exec now' s.lsm).2 =
        Replies.replies (fun request lsm => request.2.exec request.1 lsm) requests
          (c.exec now' .empty).2)
  := by
  have hclean := (goneIsClean_of_reached h).lapsedOrBlank hnow hgone
  have hmem : key ∈ c.keys := by
    rw [hkey]
    apply List.mem_singleton_self
  have hbrings := (hkeeps hgone).2 hmem
  have hfresh : Blank key s.lsm → c.AsOnEmpty key now' s.lsm := by
    intro hblank
    apply Command.asOnEmpty_of_blank _ _ hblank
    · intro hflush
      rw [hflush] at hkey
      cases hkey
    · rw [hkey]
      exact fun k hk => List.mem_singleton.mp hk
  constructor
  · intro hread httl
    rcases hclean with hlapsed | hblank
    · rcases Command.asOnEmpty_of_isRead hread httl hkey hlapsed (hbrings.1 hlapsed) with
        hsame | hexec
      · exact hsame.reply
      · rw [hexec]
    · exact (hfresh hblank).reply
  · rintro ⟨hrecreates, -, hok⟩ requests hkeys
    rcases hclean with hlapsed | hblank
    · rcases Command.asOnEmpty_of_recreates hrecreates hkey hlapsed (hbrings.1 hlapsed) with
        hsame | ⟨e, hexec⟩
      · exact replies_eq_of_same hsame.get hkeys
      · rw [hexec] at hok
        cases hok
    · exact replies_eq_of_same (hfresh hblank).get hkeys

omit [Doubles] in
/-- A set whose expiry time has passed. -/
theorem goneKey_of_sismember :
  letI := Doubles.whole
  let lsm := ((Command.expire (bytes "k") (bytes "10")).exec 0
    ((Command.sadd (bytes "k") [bytes "a"]).exec 0 .empty).2).2
  ((Command.sismember (bytes "k") (bytes "a")).exec 100 lsm).1 =
    ((Command.sismember (bytes "k") (bytes "a")).exec 100 .empty).1
  := by
  let _ := Doubles.whole
  intro lsm
  have hsadd : ¬ Life.Gone (bytes "k") ⟨.empty, 0, false⟩ 0 := by decide +kernel
  have hexpire : ¬ Life.Gone (bytes "k")
      ⟨((Command.sadd (bytes "k") [bytes "a"]).exec 0 .empty).2, 0, false⟩ 0 := by decide +kernel
  have hgone : Life.Gone (bytes "k") ⟨lsm, 0, false⟩ 100 := by decide +kernel
  have hreached : Reached (Life.step (bytes "k")) ⟨.empty, 0, false⟩ (KeepsGone (bytes "k"))
      ⟨lsm, 0, false⟩ :=
    reached_step_of_not_gone (reached_step_of_not_gone .start le_rfl hsadd _) le_rfl hexpire _
  have hpairs : ∀ p ∈ lsm.map.pairs, p.1 = bytes "k" ∨ p.1 = getExplireKey (bytes "k") ∨
      Under .set (bytes "k") p.1 := by
    decide +kernel
  have hstores : StoresOnly (bytes "k") lsm (Under .set (bytes "k")) := by
    intro x _ hkey hexpire hset
    cases hget : lsm.get x with
    | none => rfl
    | some value =>
        rcases hpairs (x, value) (LSM.mem_pairs_iff.mpr hget) with h | h | h
        · exact absurd h hkey
        · exact absurd h hexpire
        · exact absurd h hset
  have hkeeps : KeepsGone (bytes "k") ⟨lsm, 0, false⟩ (100, .sismember (bytes "k") (bytes "a")) :=
    fun _ => ⟨fun k hk => .inl (List.mem_singleton.mp hk), fun _ => ⟨fun _ => hstores, trivial⟩⟩
  exact (goneKey_of_reached hreached (by decide) hgone hkeeps rfl).1 rfl nofun

omit [Doubles] in
/-- GET removes the expiry time of a set and leaves its members, which are found again. -/
theorem not_goneKey_of_get :
  letI := Doubles.whole
  ∃ s, Reached (Life.step (bytes "k")) ⟨.empty, 0, false⟩ (fun _ _ => True) s ∧
    s.Gone (bytes "k") s.now ∧
    ((Command.sismember (bytes "k") (bytes "a")).exec s.now s.lsm).1 ≠
      ((Command.sismember (bytes "k") (bytes "a")).exec s.now .empty).1
  := by
  let _ := Doubles.whole
  have hrun : ∃ s, Transition.run (Life.step (bytes "k")) (fun _ _ => True) ⟨.empty, 0, false⟩
      [(0, .sadd (bytes "k") [bytes "a"]), (0, .expire (bytes "k") (bytes "10")),
        (100, .get (bytes "k"))] = some s ∧ s.Gone (bytes "k") s.now ∧
      ((Command.sismember (bytes "k") (bytes "a")).exec s.now s.lsm).1 ≠
        ((Command.sismember (bytes "k") (bytes "a")).exec s.now .empty).1 := by
    decide +kernel
  obtain ⟨s, hrun, hgone, hreply⟩ := hrun
  exact ⟨s, reached_of_run hrun, hgone, hreply⟩

end RedisWrapper

end TinyLsm
