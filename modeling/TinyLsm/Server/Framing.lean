import TinyLsm.Server.Handler

/-!
# The form of the replies

A reply is one value of the protocol, unless it repeats what is not: the name of an unknown command
with the end of a line in it, or, as the size of a set, a stored value that is not a number.
-/

namespace TinyLsm

namespace Server

open RedisWrapper Resp TomlConfig

/-- An array of a range announces as many elements as it has. -/
theorem isValue_of_rangeReply {elements : List Bytes} {start stop : ℤ} (hstop : FitsSigned 32 stop)
    {reply : Bytes} (h : rangeReply elements start stop = .ok reply) :
  IsValue reply
  := by
  rw [rangeReply_eq] at h
  have hstart := rangeStart_nonneg elements start
  split at h
  next =>
    obtain rfl := Except.ok.inj h
    apply isValue_arrayReply
  next hle =>
    split at h
    next => cases h
    next =>
      have hlt := rangeStop_lt hstop (hstart.trans (not_lt.mp hle))
      obtain rfl := Except.ok.inj h
      have hcount : rangeStop elements stop - rangeStart elements start + 1 =
          ((elements.drop (rangeStart elements start).toNat).take
            (rangeStop elements stop - rangeStart elements start + 1).toNat).length := by
        rw [List.length_take, List.length_drop]
        omega
      nth_rewrite 1 [hcount]
      apply isValue_arrayReply

/-! ### Programs -/

/-- Whatever its calls answer, the results of a program are of a kind. -/
def Results {α : Type} (Q : α → Prop) (p : Redis α) : Prop := p.Yields (fun _ _ => True) Q

namespace Results

variable {α β : Type} {Q : α → Prop} {p q : Redis α}

theorem pure {a : α} (h : Q a) : Results Q (Pure.pure a : Redis α)
  := h

theorem done {result : Except Fault α} (h : ∀ a, result = .ok a → Q a) :
  Results Q (.done result : Redis α)
  := by
  cases result with
  | error e => trivial
  | ok a => exact h a rfl

theorem after {p : Redis β} {f : β → Redis α} (h : ∀ b, Results Q (f b)) : Results Q (p >>= f)
  := Program.Yields.after h

theorem bind {R : β → Prop} {p : Redis β} {f : β → Redis α} (hp : Results R p)
    (hf : ∀ b, R b → Results Q (f b)) :
  Results Q (p >>= f)
  := Program.Yields.bind hp hf

theorem ite {c : Prop} [Decidable c] (hp : Results Q p) (hq : Results Q q) :
  Results Q (if c then p else q)
  := by
  split
  · apply hp
  · apply hq

theorem run (hp : Results Q p) {w : World} {a : α} (h : (Redis.run p w).1 = .ok a) : Q a
  := Program.Yields.run (fun _ _ => trivial) hp h

/-- What a command answers after the check of the expiry time, with the lock shared. -/
theorem read {p : Redis Bool} {r : α} {q : Redis α} (hr : Q r) (hq : Results Q q) :
  Results Q (Redis.lock .shared >>= fun _ => p >>= fun expired =>
    if expired = true then return r else q)
  := after fun _ => after fun _ => ite (pure hr) hq

/-- What a command answers with the lock taken alone, after the check of the expiry time. -/
theorem write {p : Redis Bool} {q : Redis α} (hq : Results Q q) :
  Results Q (Redis.lock .shared >>= fun _ => p >>= fun expired =>
    if (!expired) = true then Redis.unlock >>= fun _ => q else q)
  := after fun _ => after fun _ => ite (after fun _ => hq) hq

/-! ### Commands on any key -/

theorem redisSet (key value : Bytes) : Results IsValue (redisSet key value)
  := after fun _ => after fun _ => after fun _ =>
    ite (after fun _ => pure isValue_okReply) (pure isValue_okReply)

theorem redisGet (key : Bytes) : Results IsValue (redisGet key)
  := by
  apply after
  intro _
  apply after
  intro keyQuery
  apply after
  intro expireQuery
  cases keyQuery with
  | none => exact ite (after fun _ => after fun _ => after fun _ => pure .nil) (pure .nil)
  | some value =>
      apply after
      intro expired
      exact ite (after fun _ => after fun _ => after fun _ => after fun _ => pure .nil)
        (pure (.bulkString value))

theorem redisDel (args : List Bytes) : Results IsValue (redisDel args)
  := after fun _ => after fun delCount => pure (isValue_integerReply delCount)

/-- A counter is a number after it has been changed. -/
theorem redisAdd {initial : Bytes} (h : IsNumber initial) (change : ℤ) (key : Bytes) :
  Results IsNumber (redisAdd initial change key)
  := by
  apply after
  intro _
  apply after
  intro value
  cases value with
  | none => exact after fun _ => pure h
  | some originalValue =>
      exact after fun _ => after fun n => after fun _ => pure (isNumber_decimal n)

theorem incrHandler (key : Bytes) : Results IsValue (RedisWrapper.incrHandler key)
  := bind (redisAdd (by decide) 1 key) fun _ h => pure (.integer h)

theorem decrHandler (key : Bytes) : Results IsValue (RedisWrapper.decrHandler key)
  := bind (redisAdd (by decide) (-1) key) fun _ h => pure (.integer h)

theorem redisExpire (key secondsCount : Bytes) : Results IsValue (redisExpire key secondsCount)
  := after fun _ => after fun _ => after fun _ =>
    pure (.integer (by decide : IsNumber (bytes "1")))

theorem redisTtl (key : Bytes) : Results IsValue (redisTtl key)
  := by
  apply after
  intro _
  apply after
  intro keyQuery
  apply after
  intro expireQuery
  have hnone : IsValue (bytes ":-1\r\n") := .integer (by decide : IsNumber (bytes "-1"))
  cases keyQuery with
  | none => exact pure hnone
  | some value =>
      cases expireQuery with
      | none => exact pure hnone
      | some text =>
          exact after fun _ => after fun _ =>
            ite (pure (.integer (by decide : IsNumber (bytes "-2"))))
              (after fun left => pure (isValue_integerReply left))

theorem flushallHandler : Results IsValue flushallHandler
  := after fun _ => pure isValue_okReply

/-! ### Commands on hashes -/

theorem hset : ∀ args, Results IsValue (RedisWrapper.hset args)
  | [] | [_] | [_, _] | [_, _, _] => pure (isValue_wrongNumberReply (by decide))
  | _ :: _ :: _ :: _ :: _ => by
      refine ite (write ?_) (pure (isValue_wrongNumberReply (by decide)))
      exact after fun _ => after fun _ => after fun _ => after fun _ => after fun _ =>
        pure (isValue_integerReply _)

theorem redisHget (key field : Bytes) : Results IsValue (redisHget key field)
  := by
  apply read .nil
  apply after
  intro value
  cases value with
  | none => exact pure .nil
  | some value => exact pure (.bulkString value)

theorem redisHdel (key field : Bytes) : Results IsValue (redisHdel key field)
  := by
  apply read (isValue_integerReply 0)
  apply after
  intro _
  apply after
  intro _
  apply after
  intro value
  have hfields : Results IsValue (do
      let fieldList ← .done (getFiledsFromHashValue (← Redis.get key))
      if field ∈ fieldList then
        let fieldList := fieldList.erase field
        if fieldList = [] then
          Redis.remove key
        else
          Redis.put key (getHashValueFromFields fieldList)
      return integerReply (if value.isSome then 1 else 0)) := by
    apply after
    intro _
    apply after
    intro _
    exact ite (ite (after fun _ => pure (isValue_integerReply _))
      (after fun _ => pure (isValue_integerReply _))) (pure (isValue_integerReply _))
  exact ite (after fun _ => hfields) hfields

theorem redisHkeys (key : Bytes) : Results IsValue (redisHkeys key)
  := read (isValue_arrayReply []) (after fun _ => after fun fields =>
    pure (isValue_arrayReply fields))

/-! ### Commands on lists -/

theorem redisPush (joined : Bytes → Bytes → Bytes) (key value : Bytes) :
  Results IsValue (redisPush joined key value)
  := write (after fun _ => after fun _ => after fun _ => pure (isValue_integerReply _))

theorem redisPop (taken : List Bytes → Option (Bytes × List Bytes)) (key : Bytes) :
  Results IsValue (redisPop taken key)
  := by
  apply read .nil
  apply after
  intro _
  apply after
  intro _
  apply after
  intro list
  cases list with
  | none => exact pure .nil
  | some list =>
      dsimp only
      split
      next => exact pure .nil
      next value elements _ =>
        exact ite (after fun _ => pure (.bulkString value)) (after fun _ => pure (.bulkString value))

theorem redisLlen (key : Bytes) : Results IsValue (redisLlen key)
  := by
  apply read (isValue_integerReply 0)
  apply after
  intro list
  cases list with
  | none => exact pure (isValue_integerReply 0)
  | some list => exact pure (isValue_integerReply _)

theorem redisLrange (key : Bytes) (start : ℤ) {stop : ℤ} (h : FitsSigned 32 stop) :
  Results IsValue (redisLrange key start stop)
  := by
  apply read (isValue_arrayReply [])
  apply after
  intro list
  cases list with
  | none => exact pure (isValue_arrayReply [])
  | some list =>
      exact ite (pure (isValue_arrayReply []))
        (done fun _ hreply => isValue_of_rangeReply h hreply)

theorem lrange (key start stop : Bytes) : Results IsValue (RedisWrapper.lrange key start stop)
  := after fun i => bind (done fun _ => fits_of_readSigned) fun _ hj => redisLrange key i hj

/-! ### Commands on sorted sets -/

theorem redisZadd (args : List Bytes) : Results IsValue (redisZadd args)
  := after fun _ => write (after fun _ => after fun _ => after fun _ => after fun _ =>
    after fun _ => pure (isValue_integerReply _))

theorem redisZrem : ∀ args, Results IsValue (redisZrem args)
  | [] | [_] | [_, _] => pure (isValue_wrongNumberReply (by decide))
  | _ :: _ :: _ :: _ => read (isValue_integerReply 0) (after fun _ => after fun _ =>
      after fun removedCount => pure (isValue_integerReply removedCount))

theorem redisZrange (args : List Bytes) : Results IsValue (redisZrange args)
  := by
  apply after
  intro key
  apply after
  intro start
  have hstop : Results (FitsSigned 32) (.done (argAt args 3 >>= stoi)) := by
    apply done
    intro stop hread
    obtain ⟨text, -, hread⟩ := Except.exists_of_bind_eq_ok hread
    exact fits_of_readSigned hread
  apply bind hstop
  intro stop hfits
  apply read (isValue_arrayReply [])
  apply after
  intro elems
  cases elems with
  | none => exact pure (isValue_arrayReply [])
  | some elems => exact done fun _ hreply => isValue_of_rangeReply hfits hreply

theorem redisZcard (key : Bytes) : Results IsValue (redisZcard key)
  := by
  apply read (isValue_integerReply 0)
  apply after
  intro elems
  cases elems with
  | none => exact pure (isValue_integerReply 0)
  | some elems =>
      dsimp only
      generalize checkedSigned 32 elems.length = size
      exact after fun n => pure (isValue_integerReply n)

theorem redisZscore (key elem : Bytes) : Results IsValue (redisZscore key elem)
  := by
  apply read .nil
  apply after
  intro score
  cases score with
  | none => exact pure .nil
  | some score => exact pure (.bulkString score)

theorem redisZincrby [Doubles] (key increment elem : Bytes) :
  Results IsValue (redisZincrby key increment elem)
  := by
  apply write
  apply after
  intro _
  apply after
  intro original
  have hscore : Results IsNumber (.done (incrementedScore original increment)) := by
    apply done
    intro newScore hscore
    obtain ⟨score, -, hscore⟩ := Except.exists_of_bind_eq_ok hscore
    obtain ⟨n, -, hscore⟩ := Except.exists_of_bind_eq_ok hscore
    obtain rfl := Except.ok.inj hscore
    apply isNumber_natDecimal
  apply bind hscore
  intro newScore hnumber
  cases original with
  | none => exact after fun _ => after fun _ => pure (.integer hnumber)
  | some originalScore =>
      exact after fun _ => after fun _ => after fun _ => pure (.integer hnumber)

theorem redisZrank (key elem : Bytes) : Results IsValue (redisZrank key elem)
  := by
  apply read .nil
  apply after
  intro score
  cases score with
  | none => exact pure .nil
  | some score =>
      apply after
      intro elems
      cases elems with
      | none => exact pure .nil
      | some elems =>
          dsimp only
          generalize checkedSigned 32 _ = counted
          exact after fun rank => ite (pure .nil) (pure (isValue_integerReply rank))

/-! ### Commands on sets -/

theorem redisSadd (args : List Bytes) : Results IsValue (redisSadd args)
  := after fun _ => write (after fun _ => after fun _ => after fun _ => after fun _ =>
    after fun _ => pure (isValue_integerReply _))

theorem redisSrem (args : List Bytes) : Results IsValue (redisSrem args)
  := after fun _ => read (isValue_integerReply 0) (after fun _ => after fun _ => after fun _ =>
    after fun _ => after fun _ => after fun _ => after fun _ => pure (isValue_integerReply _))

theorem redisSismember (key member : Bytes) : Results IsValue (redisSismember key member)
  := read (isValue_integerReply 0) (after fun _ =>
    ite (pure (isValue_integerReply 1)) (pure (isValue_integerReply 0)))

theorem redisSmembers (key : Bytes) : Results IsValue (redisSmembers key)
  := by
  apply read (isValue_arrayReply [])
  apply after
  intro elems
  cases elems with
  | none => exact pure (isValue_arrayReply [])
  | some elems => exact pure (isValue_arrayReply _)

end Results

/-! ### The operations -/

section

variable {name : String} (h : OneLine (bytes name))

include h

theorem results_keyHandler {run : Bytes → Redis Bytes} (hrun : ∀ key, Results IsValue (run key)) :
  ∀ args, Results IsValue (keyHandler name run args)
  | [_, key] => hrun key
  | [] | [_] | _ :: _ :: _ :: _ => .pure (isValue_wrongNumberReply h)

theorem results_pairHandler {run : Bytes → Bytes → Redis Bytes}
    (hrun : ∀ key arg, Results IsValue (run key arg)) :
  ∀ args, Results IsValue (pairHandler name run args)
  | [_, key, arg] => hrun key arg
  | [] | [_] | [_, _] | _ :: _ :: _ :: _ :: _ => .pure (isValue_wrongNumberReply h)

theorem results_tripleHandler {run : Bytes → Bytes → Bytes → Redis Bytes}
    (hrun : ∀ key arg arg', Results IsValue (run key arg arg')) :
  ∀ args, Results IsValue (tripleHandler name run args)
  | [_, key, arg, arg'] => hrun key arg arg'
  | [] | [_] | [_, _] | [_, _, _] | _ :: _ :: _ :: _ :: _ :: _ =>
      .pure (isValue_wrongNumberReply h)

theorem results_elemsHandler {run : List Bytes → Redis Bytes}
    (hrun : ∀ args, Results IsValue (run args)) (args : List Bytes) :
  Results IsValue (elemsHandler name run args)
  := .ite (.pure (isValue_wrongNumberReply h)) (hrun args)

end

/-- The operations but two answer with values. -/
theorem results_run [Doubles] {ops : OPS} (hscard : ops ≠ .scard) (hunknown : ops ≠ .unknown)
    (args : List Bytes) :
  Results IsValue (ops.run args)
  := by
  cases ops with
  | scard => exact absurd rfl hscard
  | unknown => exact absurd rfl hunknown
  | ping => exact .pure (.simpleString (by decide : OneLine (bytes "PONG")))
  | save => exact .pure isValue_okReply
  | flushall => exact .flushallHandler
  | set => exact results_pairHandler (by decide) .redisSet args
  | get => exact results_keyHandler (by decide) .redisGet args
  | del => exact .ite (.pure (isValue_wrongNumberReply (by decide))) (.redisDel args)
  | incr => exact results_keyHandler (by decide) .incrHandler args
  | decr => exact results_keyHandler (by decide) .decrHandler args
  | expire => exact results_pairHandler (by decide) .redisExpire args
  | ttl => exact results_keyHandler (by decide) .redisTtl args
  | hset => exact .ite (.pure (isValue_wrongNumberReply (by decide))) (.hset args)
  | hget => exact results_pairHandler (by decide) .redisHget args
  | hdel => exact results_pairHandler (by decide) .redisHdel args
  | hkeys => exact results_keyHandler (by decide) .redisHkeys args
  | lpush => exact results_pairHandler (by decide) (.redisPush _) args
  | rpush => exact results_pairHandler (by decide) (.redisPush _) args
  | lpop => exact results_keyHandler (by decide) (.redisPop _) args
  | rpop => exact results_keyHandler (by decide) (.redisPop _) args
  | llen => exact results_pairHandler (by decide) (fun key _ => .redisLlen key) args
  | lrange => exact results_tripleHandler (by decide) .lrange args
  | zadd => exact .ite (.pure (isValue_wrongNumberReply (by decide))) (.redisZadd args)
  | zrem => exact results_elemsHandler (by decide) .redisZrem args
  | zrange => exact .ite (.pure (isValue_wrongNumberReply (by decide))) (.redisZrange args)
  | zcard => exact results_keyHandler (by decide) .redisZcard args
  | zscore => exact results_pairHandler (by decide) .redisZscore args
  | zincrby => exact results_tripleHandler (by decide) .redisZincrby args
  | zrank => exact results_pairHandler (by decide) .redisZrank args
  | sadd => exact results_elemsHandler (by decide) .redisSadd args
  | srem => exact results_elemsHandler (by decide) .redisSrem args
  | sismember => exact results_pairHandler (by decide) .redisSismember args
  | smembers => exact results_keyHandler (by decide) .redisSmembers args

/-- SCARD answers with a value if what it repeats is a number. -/
theorem isValue_redisScard_iff {key reply : Bytes} {w : World}
    (h : (Redis.run (redisScard key) w).1 = .ok reply) :
  IsValue reply ↔
    (Unexpired key w → ∀ value, w.lsm.get key = some value → IsNumber value)
  := by
  by_cases hunexpired : Unexpired key w
  · rw [run_redisScard hunexpired] at h
    obtain rfl := Except.ok.inj h
    cases hget : w.lsm.get key with
    | none =>
        apply iff_of_true (isValue_integerReply 0)
        intro _ value hvalue
        cases hvalue
    | some value =>
        rw [Option.elim_some, isValue_integer_iff]
        constructor
        · intro hnumber _ value' hvalue
          exact Option.some.inj hvalue ▸ hnumber
        · exact fun hnumber => hnumber hunexpired value rfl
  · apply iff_of_true _ (fun hunexpired' => absurd hunexpired' hunexpired)
    by_cases hlapsed : Lapsed key w
    · obtain ⟨lsm, hclean, -⟩ := run_cleanPreffix (getSetKeyPreffix key) key w
      rw [← cleanSet] at hclean
      rw [redisScard, Redis.run_lock, expireSetClean,
        Redis.run_bind_of_ok (run_expireClean_of_lapsed hlapsed hclean)] at h
      obtain rfl := Except.ok.inj h
      apply isValue_integerReply
    · obtain ⟨e, hclean⟩ := run_expireClean_of_unreadable hlapsed hunexpired (cleanSet key)
      rw [redisScard, Redis.run_lock, expireSetClean, Redis.run_bind_of_error hclean] at h
      cases h

theorem isValue_unknownReply_iff {command : Bytes} :
  IsValue (unknownReply command) ↔ OneLine command
  := by
  have hreply : unknownReply command =
      bytes "-" ++ (bytes "ERR unknown command '" ++ command ++ bytes "'") ++ crlf := by
    simp only [unknownReply, List.append_assoc]
    rfl
  rw [hreply, isValue_error_iff]
  constructor
  · exact fun h => h.of_append_left.of_append_right
  · exact fun h => ((by decide : OneLine _).append h).append (by decide)

end Server

/-! ### Requests -/

namespace RedisSession

open RedisWrapper Resp Server

theorem isValue_protocolError {what : String} (h : OneLine (bytes what)) :
  IsValue (protocolError what)
  := by
  have hreply : protocolError what =
      bytes "-" ++ (bytes "ERR Protocol error: " ++ bytes what) ++ crlf := by
    simp only [protocolError, List.append_assoc]
    rfl
  rw [hreply]
  exact .error ((by decide : OneLine _).append h)

theorem isValue_of_readArg {request reply : Bytes} {pos : ℕ}
    (h : readArg request pos = .ok (.error reply)) :
  IsValue reply
  := by
  rw [readArg] at h
  split at h
  next =>
    obtain rfl := Except.error.inj (Except.ok.inj h)
    exact isValue_protocolError (by decide)
  next =>
    split at h
    next =>
      obtain rfl := Except.error.inj (Except.ok.inj h)
      exact isValue_protocolError (by decide)
    next len _ =>
      obtain ⟨start, -, h⟩ := Except.exists_of_bind_eq_ok h
      split at h
      next =>
        obtain rfl := Except.error.inj (Except.ok.inj h)
        exact isValue_protocolError (by decide)
      next =>
        obtain ⟨arg, -, h⟩ := Except.exists_of_bind_eq_ok h
        obtain ⟨pos', -, h⟩ := Except.exists_of_bind_eq_ok h
        cases h

theorem isValue_of_readArgs {request reply : Bytes} :
  ∀ {rounds pos : ℕ}, readArgs request rounds pos = .ok (.error reply) → IsValue reply
  | 0, _, h => by cases h
  | rounds + 1, pos, h => by
      rw [readArgs] at h
      obtain ⟨result, hread, h⟩ := Except.exists_of_bind_eq_ok h
      cases result with
      | error reply' =>
          obtain rfl := Except.error.inj (Except.ok.inj h)
          exact isValue_of_readArg hread
      | ok found =>
          obtain ⟨result, hrest, h⟩ := Except.exists_of_bind_eq_ok h
          cases result with
          | error reply' =>
              obtain rfl := Except.error.inj (Except.ok.inj h)
              exact isValue_of_readArgs hrest
          | ok args => cases h

/-- A request that is rejected is answered with an error. -/
theorem isValue_of_parse {request reply : Bytes} (h : parse request = .ok (.error reply)) :
  IsValue reply
  := by
  rw [parse] at h
  split at h
  next =>
    obtain rfl := Except.error.inj (Except.ok.inj h)
    exact isValue_protocolError (by decide)
  next => exact isValue_of_readArgs h

/-- What the reply to a request repeats is on one line, or a number. -/
def RepeatsValues (request : Bytes) (w : World) : Prop :=
  ∀ command rest, parse request = .ok (.ok (command :: rest)) →
    (string2Ops command = .unknown → OneLine command) ∧
      (string2Ops command = .scard → ∀ key, rest = [key] → Unexpired key w →
        ∀ value, w.lsm.get key = some value → IsNumber value)

theorem isValue_execute_iff [Doubles] {command reply : Bytes} {rest : List Bytes} {w : World}
    (h : (Redis.run (execute (command :: rest)) w).1 = .ok reply) :
  IsValue reply ↔ (string2Ops command = .unknown → OneLine command) ∧
    (string2Ops command = .scard → ∀ key, rest = [key] → Unexpired key w →
      ∀ value, w.lsm.get key = some value → IsNumber value)
  := by
  change (Redis.run ((string2Ops command).run (command :: rest)) w).1 = .ok reply at h
  by_cases hunknown : string2Ops command = .unknown
  · rw [hunknown] at h ⊢
    obtain rfl := Except.ok.inj h
    rw [isValue_unknownReply_iff]
    exact ⟨fun hline => ⟨fun _ => hline, nofun⟩, fun hrepeats => hrepeats.1 rfl⟩
  · by_cases hscard : string2Ops command = .scard
    · rw [hscard] at h ⊢
      match rest with
      | [key] =>
          rw [isValue_redisScard_iff h]
          constructor
          · intro hnumber
            refine ⟨nofun, ?_⟩
            intro _ key' hkey
            obtain rfl := (List.cons.inj hkey).1
            exact hnumber
          · exact fun hrepeats => hrepeats.2 rfl key rfl
      | [] | _ :: _ :: _ =>
          obtain rfl := Except.ok.inj h
          apply iff_of_true (isValue_wrongNumberReply (by decide))
          exact ⟨nofun, fun _ _ hkey => nomatch hkey⟩
    · apply iff_of_true ((results_run hscard hunknown _).run h)
      exact ⟨fun heq => absurd heq hunknown, fun heq => absurd heq hscard⟩

/-- The reply to a request, if there is one, is one value of the protocol if and only if the name
of the command, if it is unknown, is on one line, and the size that SCARD finds is a number. -/
theorem isValue_handleRequest_iff [Doubles] {request reply : Bytes} {w : World}
    (h : (Redis.run (handleRequest request) w).1 = .ok reply) :
  IsValue reply ↔ RepeatsValues request w
  := by
  have hrejected : ∀ r, parse request = .ok (.error r) → RepeatsValues request w := by
    intro r hparse command rest hargs
    rw [hparse] at hargs
    cases hargs
  rw [handleRequest] at h
  split at h
  next hempty =>
    obtain rfl := Except.ok.inj h
    apply iff_of_true (isValue_protocolError (by decide)) (hrejected invalidCount _)
    rw [hempty]
    rfl
  next =>
    split at h
    next hping =>
      obtain rfl := Except.ok.inj h
      apply iff_of_true (.simpleString (by decide : OneLine (bytes "PONG")))
        (hrejected invalidCount _)
      rw [hping]
      rfl
    next =>
      cases hparse : parse request with
      | error e =>
          rw [hparse] at h
          cases h
      | ok result =>
          rw [hparse, Redis.run_bind_of_ok (Redis.run_done _ _)] at h
          cases result with
          | error r =>
              obtain rfl := Except.ok.inj h
              exact iff_of_true (isValue_of_parse hparse) (hrejected _ hparse)
          | ok args =>
              cases args with
              | nil => cases h
              | cons command rest =>
                  rw [isValue_execute_iff h, RepeatsValues, hparse]
                  constructor
                  · rintro hrepeats _ _ ⟨rfl, rfl⟩
                    exact hrepeats
                  · exact fun hrepeats => hrepeats command rest rfl

/-- The name of an unknown command is repeated with all lines that it has. -/
theorem not_isValue_unknown :
  ¬ IsValue (unknownReply (bytes "a\r\n+OK"))
  := by
  let _ := Doubles.whole
  have hparse : parse (arrayReply [bytes "a\r\n+OK"]) = .ok (.ok [bytes "a\r\n+OK"]) := by decide
  have hreply : (Redis.run (handleRequest (arrayReply [bytes "a\r\n+OK"])) ⟨.empty, 0⟩).1 =
      .ok (unknownReply (bytes "a\r\n+OK")) := by
    decide +kernel
  intro hvalue
  have hrepeats := (isValue_handleRequest_iff hreply).mp hvalue _ _ hparse
  exact absurd (hrepeats.1 rfl) (by decide)

/-- SCARD of a string repeats it, with all lines that it has. -/
theorem not_isValue_handleRequest :
  letI := Doubles.whole
  ¬ ∀ (request reply : Bytes) (now : ℤ) (lsm : LSM), Served lsm →
      (Redis.run (handleRequest request) ⟨lsm, now⟩).1 = .ok reply → IsValue reply
  := by
  let _ := Doubles.whole
  intro h
  have hserved : Served (Redis.run (handleRequest (arrayReply
      [bytes "SET", bytes "k", bytes "1\r\n+OK"])) ⟨.empty, 0⟩).2.lsm :=
    .step (a := (0, _)) .start trivial rfl
  have hreply : (Redis.run (handleRequest (arrayReply [bytes "SCARD", bytes "k"]))
      ⟨(Redis.run (handleRequest (arrayReply [bytes "SET", bytes "k", bytes "1\r\n+OK"]))
        ⟨.empty, 0⟩).2.lsm, 0⟩).1 = .ok (bytes ":" ++ bytes "1\r\n+OK" ++ crlf) := by
    decide +kernel
  exact absurd (isValue_integer_iff.mp (h _ _ _ _ hserved hreply)) (by decide)

end RedisSession

end TinyLsm
