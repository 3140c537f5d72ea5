import TinyLsm.Library.Transition
import TinyLsm.RedisWrapper.Commands
import TinyLsm.Server.Parser
import TinyLsm.Server.Resp

/-!
# Handling requests

A request that is parsed runs the handler of the operation that its first argument names, if the
number of arguments is right: it runs the program of a command then, and else answers with one line.
-/

namespace TinyLsm

namespace Server

open RedisWrapper Resp

/-! ### The operations -/

inductive OPS where
  | ping
  | flushall
  | save
  | get
  | set
  | del
  | incr
  | decr
  | expire
  | ttl
  | hset
  | hget
  | hdel
  | hkeys
  | lpush
  | rpush
  | lpop
  | rpop
  | llen
  | lrange
  | zadd
  | zrem
  | zrange
  | zcard
  | zscore
  | zincrby
  | zrank
  | sadd
  | srem
  | sismember
  | scard
  | smembers
  | unknown
deriving DecidableEq

/-- `std::tolower` of each byte, in the locale of C. -/
def toLower (str : Bytes) : Bytes := str.map (fun c => if 65 ≤ c ∧ c ≤ 90 then c + 32 else c)

def opsMap : List (Bytes × OPS) :=
  [(bytes "ping", .ping), (bytes "flushall", .flushall), (bytes "save", .save),
    (bytes "get", .get), (bytes "set", .set), (bytes "del", .del), (bytes "incr", .incr),
    (bytes "decr", .decr), (bytes "expire", .expire), (bytes "ttl", .ttl), (bytes "hset", .hset),
    (bytes "hget", .hget), (bytes "hdel", .hdel), (bytes "hkeys", .hkeys),
    (bytes "rpush", .rpush), (bytes "lpush", .lpush), (bytes "rpop", .rpop),
    (bytes "lpop", .lpop), (bytes "llen", .llen), (bytes "lrange", .lrange),
    (bytes "zadd", .zadd), (bytes "zcard", .zcard), (bytes "zincrby", .zincrby),
    (bytes "zrange", .zrange), (bytes "zrank", .zrank), (bytes "zrem", .zrem),
    (bytes "zscore", .zscore), (bytes "sadd", .sadd), (bytes "scard", .scard),
    (bytes "smembers", .smembers), (bytes "srem", .srem), (bytes "sismember", .sismember)]

def string2Ops (opStr : Bytes) : OPS := (opsMap.lookup (toLower opStr)).getD .unknown

/-! ### The handlers -/

/-- A handler of requests with a key. -/
def keyHandler (name : String) (run : Bytes → Redis Bytes) : List Bytes → Redis Bytes
  | [_, key] => run key
  | _ => return wrongNumberReply (bytes name)

/-- A handler of requests with a key and another argument. -/
def pairHandler (name : String) (run : Bytes → Bytes → Redis Bytes) : List Bytes → Redis Bytes
  | [_, key, arg] => run key arg
  | _ => return wrongNumberReply (bytes name)

/-- A handler of requests with a key and two more arguments. -/
def tripleHandler (name : String) (run : Bytes → Bytes → Bytes → Redis Bytes) :
    List Bytes → Redis Bytes
  | [_, key, arg, arg'] => run key arg arg'
  | _ => return wrongNumberReply (bytes name)

/-- A handler of requests with a key and at least one more argument. -/
def elemsHandler (name : String) (run : List Bytes → Redis Bytes) (args : List Bytes) :
    Redis Bytes :=
  if args.length < 3 then return wrongNumberReply (bytes name) else run args

def setHandler : List Bytes → Redis Bytes := pairHandler "SET" redisSet

def getHandler : List Bytes → Redis Bytes := keyHandler "GET" redisGet

def delHandler (args : List Bytes) : Redis Bytes :=
  if args.length < 2 then return wrongNumberReply (bytes "DEL") else redisDel args

def incrHandler : List Bytes → Redis Bytes := keyHandler "INCR" RedisWrapper.incrHandler

def decrHandler : List Bytes → Redis Bytes := keyHandler "DECR" RedisWrapper.decrHandler

def expireHandler : List Bytes → Redis Bytes := pairHandler "EXPIRE" redisExpire

def ttlHandler : List Bytes → Redis Bytes := keyHandler "TTL" redisTtl

def hsetHandler (args : List Bytes) : Redis Bytes :=
  if args.length < 4 then return wrongNumberReply (bytes "HSET") else RedisWrapper.hset args

def hgetHandler : List Bytes → Redis Bytes := pairHandler "HGET" redisHget

def hdelHandler : List Bytes → Redis Bytes := pairHandler "HDEL" redisHdel

def hkeysHandler : List Bytes → Redis Bytes := keyHandler "HKEYS" redisHkeys

def lpushHandler : List Bytes → Redis Bytes := pairHandler "LPUSH" redisLpush

def rpushHandler : List Bytes → Redis Bytes := pairHandler "RPUSH" redisRpush

def lpopHandler : List Bytes → Redis Bytes := keyHandler "LPOP" redisLpop

def rpopHandler : List Bytes → Redis Bytes := keyHandler "RPOP" redisRpop

/-- The third argument is not used. -/
def llenHandler : List Bytes → Redis Bytes := pairHandler "LLEN" (fun key _ => redisLlen key)

def lrangeHandler : List Bytes → Redis Bytes := tripleHandler "LRANGE" RedisWrapper.lrange

def zaddHandler (args : List Bytes) : Redis Bytes :=
  if args.length < 4 ∨ (args.length - 2) % 2 ≠ 0 then return wrongNumberReply (bytes "zadd")
  else redisZadd args

def zremHandler : List Bytes → Redis Bytes := elemsHandler "zrem" redisZrem

/-- Arguments after the fourth are not used. -/
def zrangeHandler (args : List Bytes) : Redis Bytes :=
  if args.length < 4 then return wrongNumberReply (bytes "zrange") else redisZrange args

def zcardHandler : List Bytes → Redis Bytes := keyHandler "zcard" redisZcard

def zscoreHandler : List Bytes → Redis Bytes := pairHandler "zscore" redisZscore

def zincrbyHandler [Doubles] : List Bytes → Redis Bytes := tripleHandler "zincrby" redisZincrby

def zrankHandler : List Bytes → Redis Bytes := pairHandler "zrank" redisZrank

def saddHandler : List Bytes → Redis Bytes := elemsHandler "sadd" redisSadd

def sremHandler : List Bytes → Redis Bytes := elemsHandler "srem" redisSrem

def sismemberHandler : List Bytes → Redis Bytes := pairHandler "sismember" redisSismember

def scardHandler : List Bytes → Redis Bytes := keyHandler "scard" redisScard

def smembersHandler : List Bytes → Redis Bytes := keyHandler "smembers" redisSmembers

/-- The memtables are written to disk, which leaves the live keys and their values. -/
def saveHandler : Redis Bytes := return okReply

def pongReply : Bytes := bytes "+PONG\r\n"

def unknownReply (command : Bytes) : Bytes := bytes "-ERR unknown command '" ++ command ++ bytes "'\r\n"

/-- Run the handler of an operation. -/
def OPS.run [Doubles] : OPS → List Bytes → Redis Bytes
  | ping, _ => return pongReply
  | flushall, _ => flushallHandler
  | save, _ => saveHandler
  | set, args => setHandler args
  | get, args => getHandler args
  | del, args => delHandler args
  | incr, args => incrHandler args
  | decr, args => decrHandler args
  | expire, args => expireHandler args
  | ttl, args => ttlHandler args
  | hset, args => hsetHandler args
  | hget, args => hgetHandler args
  | hdel, args => hdelHandler args
  | hkeys, args => hkeysHandler args
  | llen, args => llenHandler args
  | lpush, args => lpushHandler args
  | rpush, args => rpushHandler args
  | lpop, args => lpopHandler args
  | rpop, args => rpopHandler args
  | lrange, args => lrangeHandler args
  | zadd, args => zaddHandler args
  | zcard, args => zcardHandler args
  | zincrby, args => zincrbyHandler args
  | zrange, args => zrangeHandler args
  | zrank, args => zrankHandler args
  | zscore, args => zscoreHandler args
  | zrem, args => zremHandler args
  | sadd, args => saddHandler args
  | smembers, args => smembersHandler args
  | scard, args => scardHandler args
  | sismember, args => sismemberHandler args
  | srem, args => sremHandler args
  | unknown, args => do return unknownReply (← .done (argAt args 0))

/-- Run what the arguments of a request name. -/
def execute [Doubles] (args : List Bytes) : Redis Bytes := do
  let command ← .done (argAt args 0)
  (string2Ops command).run args

/-! ### The commands of the requests -/

def onKey (c : Bytes → Command) : List Bytes → Option Command
  | [_, key] => some (c key)
  | _ => none

def onPair (c : Bytes → Bytes → Command) : List Bytes → Option Command
  | [_, key, arg] => some (c key arg)
  | _ => none

def onTriple (c : Bytes → Bytes → Bytes → Command) : List Bytes → Option Command
  | [_, key, arg, arg'] => some (c key arg arg')
  | _ => none

def onElems (c : Bytes → List Bytes → Command) : List Bytes → Option Command
  | _ :: key :: elem :: elems => some (c key (elem :: elems))
  | _ => none

/-- The arguments after the key are pairs. -/
def onPairs (c : Bytes → List (Bytes × Bytes) → Command) : List Bytes → Option Command
  | _ :: key :: first :: second :: args =>
      if args.length % 2 = 0 then some (c key (argPairs (first :: second :: args))) else none
  | _ => none

/-- The command of a request that has a right number of arguments. -/
def OPS.command : OPS → List Bytes → Option Command
  | ping | save | unknown => fun _ => none
  | flushall => fun _ => some .flushall
  | set => onPair .set
  | get => onKey .get
  | del => fun
      | _ :: key :: keys => some (.del (key :: keys))
      | _ => none
  | incr => onKey .incr
  | decr => onKey .decr
  | expire => onPair .expire
  | ttl => onKey .ttl
  | hset => onPairs .hset
  | hget => onPair .hget
  | hdel => onPair .hdel
  | hkeys => onKey .hkeys
  | lpush => onPair .lpush
  | rpush => onPair .rpush
  | lpop => onKey .lpop
  | rpop => onKey .rpop
  | llen => onPair (fun key _ => .llen key)
  | lrange => onTriple .lrange
  | zadd => onPairs .zadd
  | zrem => onElems .zrem
  | zrange => fun
      | _ :: key :: start :: stop :: _ => some (.zrange key start stop)
      | _ => none
  | zcard => onKey .zcard
  | zscore => onPair .zscore
  | zincrby => onTriple .zincrby
  | zrank => onPair .zrank
  | sadd => onElems .sadd
  | srem => onElems .srem
  | sismember => onPair .sismember
  | scard => onKey .scard
  | smembers => onKey .smembers

/-- A program is that of a command, or, without one, answers with a value of the protocol. -/
def Answers [Doubles] (p : Redis Bytes) : Option Command → Prop
  | some c => p = c.program
  | none => ∃ reply, IsValue reply ∧ p = pure reply

theorem isValue_wrongNumber {name : String} (h : OneLine (bytes name)) :
  ∃ reply, IsValue reply ∧
    (return wrongNumberReply (bytes name) : Redis Bytes) = pure reply
  := ⟨_, isValue_wrongNumberReply h, rfl⟩

section

variable [Doubles] {name : String} (h : OneLine (bytes name))

include h

theorem keyHandler_answers {run : Bytes → Redis Bytes} {c : Bytes → Command}
    (hc : ∀ key, (c key).program = run key) :
  ∀ args, Answers (keyHandler name run args) (onKey c args)
  | [_, key] => (hc key).symm
  | [] | [_] | _ :: _ :: _ :: _ => isValue_wrongNumber h

theorem pairHandler_answers {run : Bytes → Bytes → Redis Bytes} {c : Bytes → Bytes → Command}
    (hc : ∀ key arg, (c key arg).program = run key arg) :
  ∀ args, Answers (pairHandler name run args) (onPair c args)
  | [_, key, arg] => (hc key arg).symm
  | [] | [_] | [_, _] | _ :: _ :: _ :: _ :: _ => isValue_wrongNumber h

theorem tripleHandler_answers {run : Bytes → Bytes → Bytes → Redis Bytes}
    {c : Bytes → Bytes → Bytes → Command}
    (hc : ∀ key arg arg', (c key arg arg').program = run key arg arg') :
  ∀ args, Answers (tripleHandler name run args) (onTriple c args)
  | [_, key, arg, arg'] => (hc key arg arg').symm
  | [] | [_] | [_, _] | [_, _, _] | _ :: _ :: _ :: _ :: _ :: _ => isValue_wrongNumber h

theorem elemsHandler_answers {run : List Bytes → Redis Bytes} {c : Bytes → List Bytes → Command}
    (hc : ∀ command key elem elems,
      (c key (elem :: elems)).program = run (command :: key :: elem :: elems)) :
  ∀ args, Answers (elemsHandler name run args) (onElems c args)
  | [] | [_] | [_, _] => isValue_wrongNumber h
  | command :: key :: elem :: elems => by
      rw [elemsHandler, if_neg (by simp)]
      exact (hc command key elem elems).symm

end

theorem pairArgs_argPairs : ∀ {args : List Bytes}, args.length % 2 = 0 →
    pairArgs (argPairs args) = args
  | [], _ => rfl
  | [_], h => absurd h (by simp)
  | field :: value :: args, h => by
      have heven : args.length % 2 = 0 := by
        rw [List.length_cons, List.length_cons] at h
        omega
      rw [argPairs, pairArgs_cons, pairArgs_argPairs heven]

theorem hsetHandler_answers [Doubles] :
  ∀ args, Answers (hsetHandler args) (onPairs .hset args)
  | [] | [_] | [_, _] | [_, _, _] => isValue_wrongNumber (by decide)
  | command :: key :: field :: value :: args => by
      rw [hsetHandler, if_neg (by simp), RedisWrapper.hset, onPairs]
      split
      next heven =>
        have hne : argPairs (field :: value :: args) ≠ [] := List.cons_ne_nil _ _
        rw [Answers, Command.program, hset_pairArgs _ _ hne]
      next => exact isValue_wrongNumber (by decide)

theorem zaddHandler_answers [Doubles] :
  ∀ args, Answers (zaddHandler args) (onPairs .zadd args)
  | [] | [_] | [_, _] | [_, _, _] => isValue_wrongNumber (by decide)
  | command :: key :: score :: elem :: args => by
      have hlength : (command :: key :: score :: elem :: args).length = args.length + 4 := rfl
      rw [zaddHandler, hlength, onPairs]
      by_cases heven : args.length % 2 = 0
      · have hargs : (score :: elem :: args).length % 2 = 0 := by
          rw [List.length_cons, List.length_cons]
          omega
        rw [if_pos heven, if_neg (by omega), Answers, Command.program, pairArgs_argPairs hargs]
        rfl
      · rw [if_neg heven, if_pos (by omega)]
        exact isValue_wrongNumber (by decide)

/-- Without the unknown ones, the operations run their commands. -/
theorem OPS.run_answers [Doubles] {ops : OPS} (h : ops ≠ .unknown) (args : List Bytes) :
  Answers (ops.run args) (ops.command args)
  := by
  cases ops with
  | ping => exact ⟨pongReply, .simpleString (by decide : OneLine (bytes "PONG")), rfl⟩
  | save => exact ⟨okReply, isValue_okReply, rfl⟩
  | unknown => exact absurd rfl h
  | flushall => rfl
  | set => exact pairHandler_answers (by decide) (fun _ _ => rfl) args
  | get => exact keyHandler_answers (by decide) (fun _ => rfl) args
  | del =>
      match args with
      | [] | [_] => exact isValue_wrongNumber (by decide)
      | _ :: key :: keys => rfl
  | incr => exact keyHandler_answers (by decide) (fun _ => rfl) args
  | decr => exact keyHandler_answers (by decide) (fun _ => rfl) args
  | expire => exact pairHandler_answers (by decide) (fun _ _ => rfl) args
  | ttl => exact keyHandler_answers (by decide) (fun _ => rfl) args
  | hset => exact hsetHandler_answers args
  | hget => exact pairHandler_answers (by decide) (fun _ _ => rfl) args
  | hdel => exact pairHandler_answers (by decide) (fun _ _ => rfl) args
  | hkeys => exact keyHandler_answers (by decide) (fun _ => rfl) args
  | lpush => exact pairHandler_answers (by decide) (fun _ _ => rfl) args
  | rpush => exact pairHandler_answers (by decide) (fun _ _ => rfl) args
  | lpop => exact keyHandler_answers (by decide) (fun _ => rfl) args
  | rpop => exact keyHandler_answers (by decide) (fun _ => rfl) args
  | llen => exact pairHandler_answers (by decide) (fun _ _ => rfl) args
  | lrange => exact tripleHandler_answers (by decide) (fun _ _ _ => rfl) args
  | zadd => exact zaddHandler_answers args
  | zrem => exact elemsHandler_answers (by decide) (fun _ _ _ _ => rfl) args
  | zrange =>
      match args with
      | [] | [_] | [_, _] | [_, _, _] => exact isValue_wrongNumber (by decide)
      | _ :: key :: start :: stop :: _ => rfl
  | zcard => exact keyHandler_answers (by decide) (fun _ => rfl) args
  | zscore => exact pairHandler_answers (by decide) (fun _ _ => rfl) args
  | zincrby => exact tripleHandler_answers (by decide) (fun _ _ _ => rfl) args
  | zrank => exact pairHandler_answers (by decide) (fun _ _ => rfl) args
  | sadd => exact elemsHandler_answers (by decide) (fun _ _ _ _ => rfl) args
  | srem => exact elemsHandler_answers (by decide) (fun _ _ _ _ => rfl) args
  | sismember => exact pairHandler_answers (by decide) (fun _ _ => rfl) args
  | scard => exact keyHandler_answers (by decide) (fun _ => rfl) args
  | smembers => exact keyHandler_answers (by decide) (fun _ => rfl) args

end Server

/-! ### Requests -/

namespace RedisSession

open RedisWrapper Server

def handleRequest [Doubles] (request : Bytes) : Redis Bytes :=
  if request = [] then return expectedArray
  else if request = bytes "PING\r\n" then return pongReply
  else do
    match ← .done (parse request) with
    | .error reply => return reply
    | .ok args => execute args

/-- The store after a request by a clock. -/
def serve [Doubles] (lsm : LSM) (request : ℤ × Bytes) : Option LSM :=
  some (Redis.run (handleRequest request.2) ⟨lsm, request.1⟩).2.lsm

/-- The stores that requests lead to, from the empty one. -/
abbrev Served [Doubles] : LSM → Prop := Transition.Reached serve .empty (fun _ _ => True)

end RedisSession

end TinyLsm
