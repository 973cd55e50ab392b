import Badis.Server.Cluster

/-!
# Requests that raft may fail

`applyCommand` and `handleSet` hand a command to `raft.Apply` and wait for the future. The future
reports what `FSM.Apply` returned, or it fails; a future that fails, by a timeout or with a leader
that loses its lead, does not say whether the entry is applied. The client sees an error then, as it
does when a handler refuses the request or `FSM.Apply` returns an error. A handler or an `FSM.Apply`
that panics, or exhausts the stack, ends the process and with it the run.
-/

namespace Badis

open Lib

/-- What becomes of a command that is handed to raft: the result of `FSM.Apply` is reported; or the
future fails, and the entry is not applied, or is applied all the same. -/
inductive Fate where
  | reported
  | lost (text : Bytes)
  | unreported (text : Bytes)
deriving DecidableEq

/-- A request with what it meets. -/
structure Attempt where
  args : List Bytes
  conn : Conn
  envs : List Nat → Env
  now : Nat
  order : RangeOrder
  fate : Fate

section Run

variable (vm : LuaVM) (fuel : Nat) (srv : Server)

/-- `FSM.Apply`: the result and the store afterwards, or `none` if the process ends. -/
def Attempt.apply (a : Attempt) (cmd : Command) (db : DB) : Option (Except Err Result × DB) :=
  match fsmApply vm srv.codec fuel a.envs cmd db with
  | (.error .panic, _) => none
  | (.error .stackOverflow, _) => none
  | res => some res

/-- A request that a node serves: what is written to the client, and the store afterwards; or `none`
if the process ends. -/
def Attempt.serve (a : Attempt) (db : DB) : Option (List Write × DB) :=
  match serveRESP srv (fun _ => ⟨db, a.now, a.order⟩) a.conn a.args with
  | .error _ => none
  | .ok (.write ws) => some (ws, db)
  | .ok (.client ws _) => some (ws, db)
  | .ok (.apply cmd reply) =>
    match a.fate with
    | .reported => (a.apply vm fuel srv cmd db).map fun res => (reply (.applied res.1), res.2)
    | .lost text => some (reply (.raftError text), db)
    | .unreported text =>
      (a.apply vm fuel srv cmd db).map fun res => (reply (.raftError text), res.2)

/-- Requests served one after the other, until the process ends: the replies and the store. -/
def serveAttempts : List Attempt → DB → List (List Write) × DB
  | [], db => ([], db)
  | a :: rest, db =>
    match a.serve vm fuel srv db with
    | none => ([], db)
    | some (reply, db) =>
      let (replies, db) := serveAttempts rest db
      (reply :: replies, db)

end Run

/-- `WriteError`. -/
def Write.isError : Write → Bool
  | .error _ => true
  | _ => false

/-- The client is told of an error, and raft has not applied the command behind its back. -/
def Attempt.traceless (a : Attempt) (reply : List Write) : Bool :=
  reply.any Write.isError && match a.fate with
    | .unreported _ => false
    | _ => true

/-- The commands that overwrite: SET, also with a condition, and the commands of hashes and sets
without SPOP. An operation that the switch does not have fails. -/
def Op.repeatable : Op → Bool
  | .set | .getset | .mset | .del | .flushdb | .persist | .hset | .hsetnx | .hdel | .sadd | .srem |
    .other _ => true
  | _ => false

end Badis
