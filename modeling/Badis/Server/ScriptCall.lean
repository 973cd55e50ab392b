import Badis.Server.Requests
import Badis.Store.Lua

/-!
# The two ways to a command

A client sends a request, and its handler decides which arguments become the key, the arguments and
the expiry of the command; a script calls `redis.call`, and one rule does so for every name. This is
what each of them makes of the store, and for which arguments of a write the two agree.
-/

namespace Badis

open Lib

/-- The writes that a client and a script can both name, SET apart. -/
def Verb.isWrite : Verb → Bool
  | .del | .unlink | .mset | .setex | .expire | .persist | .flushdb => true
  | .append | .getset | .incr | .decr | .incrby | .decrby => true
  | .hset | .hsetnx | .hdel => true
  | .lpush | .rpush | .lpushx | .rpushx | .lpop | .rpop | .ltrim | .lrem => true
  | .sadd | .srem | .spop => true
  | _ => false

section Stores

variable (vm : LuaVM) (c : Codec) (fuel : Nat) (env : Env) (db : DB)

/-- The store after a request whose command was applied, or that was rejected. -/
def requestStore (srv : Server) (views : Nat → ReadView) (conn : Conn) (args : List Bytes) : DB :=
  match serveRESP srv views conn args with
  | .ok (.apply cmd _) => (fsmApply vm c fuel (fun _ => env) cmd db).2
  | _ => db

/-- The store after a call of a script. -/
def redisCallStore (args : List Bytes) : DB :=
  ((luaRedisCall vm env.clock.now (applyCmdInTxn vm c fuel fun _ => env) args).run db).2

end Stores

/-- `strconv.ParseInt` succeeds. -/
def isInteger (s : Bytes) : Bool := (parseInt s).2

/-- `strconv.ParseInt` succeeds with a number that is not negative. -/
def isCount (s : Bytes) : Bool := isInteger s && decide (0 ≤ (parseInt s).1)

/-- `strconv.ParseInt` succeeds with a positive number. -/
def isPositive (s : Bytes) : Bool := isInteger s && decide (0 < (parseInt s).1)

/-- The arguments of a write for which a call does to the store what a request does. -/
def Verb.agrees (upper : Bytes → Bytes) (args : List Bytes) : Verb → Bool
  | .del =>
    match args with
    | [] => true
    | key :: rest => key ∈ rest
  | .unlink => args = []
  | .mset => args.length ≤ 1
  | .setex =>
    match args with
    | [_, secs, _] => !isPositive secs
    | _ => true
  | .expire =>
    match args with
    | [_, secs] => isInteger secs && decide ((parseInt secs).1 * 1000 * 1000000 = 0)
    | _ => false
  | .flushdb =>
    match args with
    | [] => true
    | [mode] => toUpper upper mode = ascii "SYNC" || toUpper upper mode = ascii "ASYNC"
    | _ => false
  | .persist | .incr | .decr => args.length = 1
  | .append | .getset => args.length ≤ 2
  | .incrby | .decrby =>
    match args with
    | _ :: delta :: _ :: _ => !isInteger delta
    | _ => true
  | .hset | .hdel | .lpush | .rpush | .lpushx | .rpushx | .sadd | .srem => 2 ≤ args.length
  | .hsetnx => args.length = 3 || (2 ≤ args.length && args.length % 2 = 0)
  | .lpop | .rpop =>
    match args with
    | [] => false
    | _ :: count :: _ :: _ => !isCount count
    | _ => true
  | .ltrim =>
    match args with
    | [_, start, stop] => isInteger start && isInteger stop
    | args => args.length ≤ 2
  | .lrem =>
    match args with
    | [_, limit, _] => isInteger limit
    | args => args.length ≤ 2
  | .spop =>
    match args with
    | [_] => true
    | [_, count] => isCount count
    | _ => false
  | _ => true

end Badis
