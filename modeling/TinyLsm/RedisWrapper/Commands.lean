import TinyLsm.RedisWrapper.Hashes
import TinyLsm.RedisWrapper.SortedSets
import TinyLsm.RedisWrapper.Strings

/-!
# The commands

A command is a request with a right number of arguments.  A run executes one command after
another, each by a clock of its own.
-/

namespace TinyLsm

namespace RedisWrapper

inductive Command where
  | set (key value : Bytes)
  | get (key : Bytes)
  | del (keys : List Bytes)
  | incr (key : Bytes)
  | decr (key : Bytes)
  | expire (key secondsCount : Bytes)
  | ttl (key : Bytes)
  | hset (key : Bytes) (fieldValues : List (Bytes × Bytes))
  | hget (key field : Bytes)
  | hdel (key field : Bytes)
  | hkeys (key : Bytes)
  | lpush (key value : Bytes)
  | rpush (key value : Bytes)
  | lpop (key : Bytes)
  | rpop (key : Bytes)
  | llen (key : Bytes)
  | lrange (key start stop : Bytes)
  | zadd (key : Bytes) (scoreElems : List (Bytes × Bytes))
  | zrem (key : Bytes) (elems : List Bytes)
  | zrange (key start stop : Bytes)
  | zcard (key : Bytes)
  | zscore (key elem : Bytes)
  | zincrby (key increment elem : Bytes)
  | zrank (key elem : Bytes)
  | sadd (key : Bytes) (members : List Bytes)
  | srem (key : Bytes) (members : List Bytes)
  | sismember (key member : Bytes)
  | scard (key : Bytes)
  | smembers (key : Bytes)
  | flushall
deriving DecidableEq

def lrange (key start stop : Bytes) : Redis Bytes := do
  let start ← .done (stoi start)
  let stop ← .done (stoi stop)
  redisLrange key start stop

def incrHandler (key : Bytes) : Redis Bytes := do
  return bytes ":" ++ (← redisIncr key) ++ crlf

def decrHandler (key : Bytes) : Redis Bytes := do
  return bytes ":" ++ (← redisDecr key) ++ crlf

/-- FLUSHALL takes no lock. -/
def flushallHandler : Redis Bytes := do
  Redis.clear
  return okReply

namespace Command

/-- What a request runs. -/
def program [Doubles] : Command → Redis Bytes
  | set key value => redisSet key value
  | get key => redisGet key
  | del keys => redisDel (bytes "del" :: keys)
  | incr key => incrHandler key
  | decr key => decrHandler key
  | expire key secondsCount => redisExpire key secondsCount
  | ttl key => redisTtl key
  | hset key fieldValues => RedisWrapper.hset (bytes "hset" :: key :: pairArgs fieldValues)
  | hget key field => redisHget key field
  | hdel key field => redisHdel key field
  | hkeys key => redisHkeys key
  | lpush key value => redisLpush key value
  | rpush key value => redisRpush key value
  | lpop key => redisLpop key
  | rpop key => redisRpop key
  | llen key => redisLlen key
  | lrange key start stop => RedisWrapper.lrange key start stop
  | zadd key scoreElems => redisZadd (bytes "zadd" :: key :: pairArgs scoreElems)
  | zrem key elems => redisZrem (bytes "zrem" :: key :: elems)
  | zrange key start stop => redisZrange [bytes "zrange", key, start, stop]
  | zcard key => redisZcard key
  | zscore key elem => redisZscore key elem
  | zincrby key increment elem => redisZincrby key increment elem
  | zrank key elem => redisZrank key elem
  | sadd key members => redisSadd (bytes "sadd" :: key :: members)
  | srem key members => redisSrem (bytes "srem" :: key :: members)
  | sismember key member => redisSismember key member
  | scard key => redisScard key
  | smembers key => redisSmembers key
  | flushall => flushallHandler

/-- The keys that a command names. -/
def keys : Command → List Bytes
  | set key _ | get key | incr key | decr key | expire key _ | ttl key | hset key _ | hget key _
  | hdel key _ | hkeys key | lpush key _ | rpush key _ | lpop key | rpop key | llen key
  | lrange key _ _ | zadd key _ | zrem key _ | zrange key _ _ | zcard key | zscore key _
  | zincrby key _ _ | zrank key _ | sadd key _ | srem key _ | sismember key _ | scard key
  | smembers key => [key]
  | del keys => keys
  | flushall => []

theorem keys_eq_singleton {c : Command} (hflush : c ≠ .flushall) (hdel : ∀ keys, c ≠ .del keys) :
  ∃ key, c.keys = [key]
  := by
  cases c with
  | flushall => exact absurd rfl hflush
  | del keys => exact absurd rfl (hdel keys)
  | _ => exact ⟨_, rfl⟩

/-- The commands that only answer. -/
def isRead : Command → Bool
  | get _ | ttl _ | hget _ _ | hkeys _ | llen _ | lrange _ _ _ | zrange _ _ _ | zcard _ | zscore _ _
  | zrank _ _ | sismember _ _ | scard _ | smembers _ => true
  | set _ _ | del _ | incr _ | decr _ | expire _ _ | hset _ _ | hdel _ _ | lpush _ _ | rpush _ _
  | lpop _ | rpop _ | zadd _ _ | zrem _ _ | zincrby _ _ _ | sadd _ _ | srem _ _ | flushall => false

/-- Execute a command on its own, by a clock. -/
def exec [Doubles] (c : Command) (now : ℤ) (lsm : LSM) : Except Fault Bytes × LSM :=
  let outcome := Redis.run c.program ⟨lsm, now⟩
  (outcome.1, outcome.2.lsm)

end Command

theorem run_lrange {key : Bytes} {w : World} (h : Unexpired key w) (start stop : Bytes) :
  Redis.run (lrange key start stop) w =
    (do
      let i ← stoi start
      let j ← stoi stop
      let elements := split ((w.lsm.get key).getD []) TomlConfig.getInstance.redisListSeparator
      if elements = [] then .ok (arrayReply []) else rangeReply elements i j, w)
  := by
  rw [lrange]
  cases stoi start with
  | error e => rfl
  | ok i =>
      rw [Redis.run_bind_of_ok (Redis.run_done _ _)]
      cases stoi stop with
      | error e => rfl
      | ok j =>
          rw [Redis.run_bind_of_ok (Redis.run_done _ _), run_redisLrange h i j rfl]
          rfl

/-- The step of a run. -/
def step [Doubles] (lsm : LSM) (request : ℤ × Command) : Option LSM :=
  some (request.2.exec request.1 lsm).2

end RedisWrapper

end TinyLsm
