import Badis.Server.Requests
import Badis.Store.Reachable

/-!
# A request among concurrent applies

While a request is served, the node goes on applying commands. The states between its start and its
end are those that the applies commit one after the other, and each `db.View` of the request sees
one of them, at one clock reading; later views do not see earlier states. A request that reads
several elements should answer as it would in a single one of these states.
-/

namespace Badis

open Lib

/-- One `FSM.Apply`: the stack there is, what the execution sees, and the command. -/
structure ApplyStep where
  fuel : Nat
  envs : List Nat → Env
  cmd : Command

/-- The state that an apply commits. -/
def ApplyStep.commit (vm : LuaVM) (c : Codec) (db : DB) (s : ApplyStep) : DB :=
  (fsmApply vm c s.fuel s.envs s.cmd db).2

section Interleaving

variable (vm : LuaVM) (srv : Server) (db : DB) (steps : List ApplyStep) (views : Nat → ReadView)

/-- The states from the start of a request to its end, which `steps` commit from `db` on. -/
def committedStates : List DB := steps.scanl (ApplyStep.commit vm srv.codec) db

/-- The views of a request that is served while `steps` are applied. -/
structure Interleaves : Prop where
  states : ∃ pos : Nat → Nat, (∀ i, pos i ≤ pos (i + 1)) ∧
    ∀ i, (committedStates vm srv db steps)[pos i]? = some (views i).db
  clock : ∀ i, (views i).now ≤ (views (i + 1)).now

/-- The reply is that of the request in a single committed state, at an instant between its first
view and a later one. -/
def OneState (conn : Conn) (verb : Verb) (args : List Bytes) : Prop :=
  ∃ state ∈ committedStates vm srv db steps, ∃ now order, (views 0).now ≤ now ∧
    (∃ i, now ≤ (views i).now) ∧
    verb.handler srv views conn args = verb.handler srv (fun _ => ⟨state, now, order⟩) conn args

end Interleaving

/-- The commands that read several elements. -/
def Verb.readsSeveral : Verb → Bool
  | .mget | .existsKeys | .hmget | .hgetall | .lrange | .smembers | .smismember => true
  | _ => false

end Badis
