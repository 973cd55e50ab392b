import Badis.Server.Requests

/-!
# The FSM calls behind a request

A handler that accepts its arguments calls the FSM: it has a command applied, or it calls a read
method and answers from what that returns. The read methods of the commands on one key are listed
here once more, as calls (`Verb.readCalls`), for statements about what the FSM returned where a
reply only shows its text.
-/

namespace Badis

open Lib

/-- The type of value that a command on one key works on. The commands that work on any type have
none. -/
def Verb.ownType : Verb → Option Bytes
  | get | strlen | append | getset | incr | decr | incrby | decrby | setex => some typeString
  | hset | hsetnx | hget | hgetall | hdel | hexists | hlen | hkeys | hvals | hmget => some typeHash
  | lpush | rpush | lpushx | rpushx | lpop | rpop | lrange | llen | lindex | ltrim | lrem =>
    some typeList
  | sadd | smembers | sismember | scard | srem | spop | srandmember | smismember => some typeSet
  | _ => none

/-- A transaction without its result. -/
def outcome {α : Type} (m : Tx α) : Tx Unit := do
  let _ ← m
  return ()

section Calls

variable (srv : Server) (order : RangeOrder) (args : List Bytes)

/-- The call of `handleKeyRead`. -/
def keyCall {α : Type} (m : Bytes → Nat → Tx α) : List (Nat → Tx Unit) :=
  match args with
  | [_, key] => [fun t => outcome (m key t)]
  | _ => []

/-- The call of `handleFieldRead`. -/
def fieldCall {α : Type} (m : Bytes → Bytes → Nat → Tx α) : List (Nat → Tx Unit) :=
  match args with
  | [_, key, field] => [fun t => outcome (m key field t)]
  | _ => []

/-- The read methods that the handler of a command with a type of its own calls, in order; none if
it refuses the arguments, or has a command applied. SMISMEMBER makes one call for each member. -/
def Verb.readCalls : Verb → List (Nat → Tx Unit)
  | get => keyCall args fun key t => getString t key
  | strlen => keyCall args fun key t => strLen t key
  | hget => fieldCall args fun key field t => hGet srv.codec t key field
  | hgetall => keyCall args fun key t => hGetAll srv.codec t key
  | hexists => fieldCall args fun key field t => hExists srv.codec t key field
  | hlen => keyCall args fun key t => hLen srv.codec t key
  | hkeys => keyCall args fun key t => hKeys srv.codec t key order
  | hvals => keyCall args fun key t => hVals srv.codec t key order
  | hmget =>
    match args with
    | _ :: key :: field :: fields => [fun t => outcome (hMGet srv.codec t key (field :: fields))]
    | _ => []
  | lrange =>
    match args with
    | [_, key, start, stop] =>
      if (parseInt start).2 = false ∨ (parseInt stop).2 = false then []
      else [fun t => outcome
        (lRange srv.codec t key (parseInt start).1.toInt (parseInt stop).1.toInt)]
    | _ => []
  | llen => keyCall args fun key t => lLen srv.codec t key
  | lindex =>
    match args with
    | [_, key, index] =>
      if (parseInt index).2 = false then []
      else [fun t => outcome (lIndex srv.codec t key (parseInt index).1.toInt)]
    | _ => []
  | smembers => keyCall args fun key t => sMembers srv.codec t key
  | sismember => fieldCall args fun key member t => sIsMember srv.codec t key member
  | scard => keyCall args fun key t => sCard srv.codec t key
  | srandmember =>
    match args with
    | [_, key, count] =>
      if (parseInt count).2 = false then []
      else [fun t => outcome (sRandMember srv.codec t key (some (parseInt count).1))]
    | args => keyCall args fun key t => sRandMember srv.codec t key none
  | smismember =>
    match args with
    | _ :: key :: members => members.map fun member t => outcome (sIsMember srv.codec t key member)
    | _ => []
  | _ => []

end Calls

/-- A call of the FSM. -/
inductive FsmCall where
  | apply (cmd : Command)
  | read (m : Nat → Tx Unit)

/-- What a call returns, and the database after it. -/
def FsmCall.run (c : Codec) (env : Env) (db : DB) : FsmCall → Except Err Unit × DB
  | .apply cmd => ((applyCmd c env cmd db).1.map fun _ => (), (applyCmd c env cmd db).2)
  | .read m => (m env.clock.now).run db

/-- The calls that a request makes of the FSM. -/
def Verb.fsmCalls (srv : Server) (views : Nat → ReadView) (conn : Conn) (args : List Bytes)
    (verb : Verb) : List FsmCall :=
  match requestCommand (verb.handler srv views conn args) with
  | some cmd => [.apply cmd]
  | none => (verb.readCalls srv (views 0).order args).map .read

end Badis
