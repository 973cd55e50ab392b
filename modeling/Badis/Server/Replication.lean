import Mathlib.Logic.Function.Basic
import Badis.Server.Shard
import Badis.Store.Keyspace
import Badis.Store.Replay

/-!
# A shard that commits any commands

The nodes of a shard share one committed log, of which each has applied a prefix. A client that
sends a command is answered by the node whose `raft.Apply` took it (`applyCommand`), when this node
has applied the entry; a read is answered by the node that receives it, from what it has applied.
Nodes apply entries at their own clock readings and with their own map orders.

Nothing is assumed about who leads, or whom a client asks: any node may answer for an entry that it
has applied.
-/

namespace Badis

open Lib

/-- The committed log, the nodes, and the replies that clients got: the node that answered, the
position of the entry, and what `FSM.Apply` returned. -/
structure Replication (ι : Type) where
  log : List Command
  replica : ι → Replica
  answers : List (ι × Nat × Except Err Result)

/-- A command is committed, a node applies its next entry, or a node answers the client of an
entry. -/
inductive ReplicationEvent (ι : Type) where
  | commit (cmd : Command)
  | apply (node : ι) (env : Env)
  | answer (node : ι) (pos : Nat)

namespace Replication

variable {ι : Type} [DecidableEq ι] (c : Codec)

/-- One event, if it can happen. -/
def step (s : Replication ι) : ReplicationEvent ι → Option (Replication ι)
  | .commit cmd => some { s with log := s.log ++ [cmd] }
  | .apply node env =>
    (s.log[(s.replica node).applied]?).map fun cmd =>
      { s with replica := Function.update s.replica node ((s.replica node).apply c env cmd) }
  | .answer node pos =>
    ((s.replica node).replies[pos]?).map fun r => { s with answers := (node, pos, r) :: s.answers }

/-- The events of a run in order. -/
def run (s : Replication ι) (events : List (ReplicationEvent ι)) : Option (Replication ι) :=
  events.foldlM (step c) s

/-- A shard that has not committed anything. -/
def start : Replication ι := ⟨[], fun _ => ⟨OrdMap.empty, []⟩, []⟩

end Replication

/-- A command whose effect and reply are the same on every node: no script, no expiry, and no choice
between the members of a set. -/
def Command.settled (cmd : Command) : Bool := cmd.plain && cmd.op ≠ .spop

/-- The keyspace without any keys. -/
def Keyspace.empty : Keyspace := fun _ => none

end Badis
