import Mathlib.Logic.Function.Basic
import Badis.Server.Handlers
import Badis.Store.Log

/-!
# A shard

The nodes of a shard share one committed log, of which each has applied a prefix. A SET is sent to
the leader, whose `raft.Apply` appends it to the log; the client gets its answer when the leader has
applied the entry. A GET is answered by the node that receives it, from its own database
(`handleGet`): nothing in it asks the leader, or waits.

Raft itself is not modelled beyond this: one log, prefixes that grow in any order, and a leader that
may change at any time.
-/

namespace Badis

open Lib

/-- A node: its database, and what `FSM.Apply` returned for the entries it has applied. -/
structure Replica where
  db : DB
  replies : List (Except Err Result)

/-- The length of the prefix of the log that a node has applied. -/
def Replica.applied (r : Replica) : Nat := r.replies.length

/-- A shard with the nodes `ι`: the committed log, the leader, the nodes, and the positions of the
log whose SET was acknowledged to its client. -/
structure Shard (ι : Type) where
  log : List Command
  leader : ι
  replica : ι → Replica
  acked : List Nat

/-- What happens in a shard: a client's `SET key val`, handled at `t`, is committed, a node applies
its next entry, the leader answers the SET at a position of the log, or a node is elected. -/
inductive ShardEvent (ι : Type) where
  | set (t : Nat) (key val : Bytes)
  | apply (node : ι) (env : Env)
  | ack (pos : Nat)
  | elect (node : ι)

section Steps

variable {ι : Type} [DecidableEq ι] (c : Codec) (upper : Bytes → Bytes) (codecText : Bytes)

/-- A node applies a command. -/
def Replica.apply (env : Env) (cmd : Command) (r : Replica) : Replica :=
  ⟨(applyCmd c env cmd r.db).2, r.replies ++ [(applyCmd c env cmd r.db).1]⟩

/-- One event, if it can happen. -/
def Shard.step (s : Shard ι) : ShardEvent ι → Option (Shard ι)
  | .set t key val =>
    match handleSetCommand upper t [ascii "SET", key, val] with
    | .ok cmd => some { s with log := s.log ++ [cmd] }
    | .error _ => none
  | .apply node env =>
    (s.log[(s.replica node).applied]?).map fun cmd =>
      { s with replica := Function.update s.replica node ((s.replica node).apply c env cmd) }
  | .ack pos =>
    match s.log[pos]?, (s.replica s.leader).replies[pos]? with
    | some cmd, some res =>
      if handleSetReply codecText cmd res = [.string (ascii "OK")] then
        some { s with acked := pos :: s.acked }
      else none
    | _, _ => none
  | .elect node => some { s with leader := node }

/-- The events of a run in order. -/
def Shard.run (s : Shard ι) (events : List (ShardEvent ι)) : Option (Shard ι) :=
  events.foldlM (Shard.step c upper codecText) s

end Steps

/-- A shard that has not committed anything. -/
def Shard.start {ι : Type} (leader : ι) : Shard ι := ⟨[], leader, fun _ => ⟨OrdMap.empty, []⟩, []⟩

/-- The entry of a `SET key val`. -/
def setCommand (key val : Bytes) : Command := { op := .set, key := key, args := [val] }

/-- The value of a key after the SETs of a log: that of the last one. -/
def lastSet (key : Bytes) (log : List Command) : Option Bytes :=
  log.foldl (fun val cmd => if cmd.key = key then cmd.args.head? else val) none

end Badis
