import Badis.Store.Log
import Badis.Store.Proofs.ViewProofs

/-!
# Nodes that stop and start again

The FSM keeps no applied index: its data is durable in the same database as the log, no snapshot is
ever listed, and on start raft applies the whole committed log again on top of the data that is
already there. The node model is that: a database, a committed log, and the two events that change
them.

The second half says which logs can be replayed on their own result, key by key. It is a syntactic
condition on the commands that touch the key (`replaySafe`).
-/

namespace Badis

open Lib

/-! ## The node -/

/-- A node: the durable database, and the committed log it has applied. -/
structure Node where
  db : DB
  log : List Command

/-- What happens to a node: a command is committed and applied, or the node stops, starts again and
applies its log once more; `envs i` is what the execution of entry `i` sees. -/
inductive Event where
  | commit (env : Env) (cmd : Command)
  | restart (envs : Nat → Env)

/-- The steps of applying a log. -/
def logSteps (envs : Nat → Env) (log : List Command) : List Step :=
  log.mapIdx fun i cmd => (envs i, cmd)

def Node.step (c : Codec) (n : Node) : Event → Node
  | .commit env cmd => ⟨(applyCmd c env cmd n.db).2, n.log ++ [cmd]⟩
  | .restart envs => ⟨(applyLog c (logSteps envs n.log) n.db).2, n.log⟩

def Node.run (c : Codec) (n : Node) (events : List Event) : Node := events.foldl (Node.step c) n

/-- A node that has not committed anything. -/
def Node.fresh : Node := ⟨OrdMap.empty, []⟩

/-- A data command without an expiry option. -/
def Command.plain (cmd : Command) : Bool :=
  !cmd.op.script && cmd.op ≠ .expire && !decide (0 < cmd.ttlMs)

/-- Every committed command of a run is plain. -/
def Event.plain : Event → Bool
  | .commit _ cmd => cmd.plain
  | .restart _ => true

/-! ## The run of one key -/

/-- What a key that holds `x` holds after one step. -/
def viewStep (k : Bytes) (x : View) (s : Step) : View := (keyAct s.1 s.2 k x).onView s.1.clock x

/-- What a key that holds `x` holds after a run. -/
def viewRun (k : Bytes) (steps : List Step) (x : View) : View := steps.foldl (viewStep k) x

/-! ## Logs that can be replayed -/

/-- Whether a command works on `k`. -/
def Command.touches (cmd : Command) (k : Bytes) : Bool :=
  match cmd.op with
  | .mset => cmd.args.length % 2 = 0 && (msetValue k cmd.args).isSome
  | .del => k ∈ cmd.args || cmd.args = [] && cmd.key ≠ [] && cmd.key = k
  | .flushdb => true
  | _ => cmd.key = k

/-- MSET, DEL and FLUSHDB leave `k` in a state that does not depend on what it held. -/
def Command.resets (cmd : Command) (k : Bytes) : Bool := cmd.op.multi && cmd.touches k

/-- SPOP on `k` chooses members by the iteration order of a map. -/
def Command.popsFrom (cmd : Command) (k : Bytes) : Bool := cmd.op = .spop && cmd.key = k

/-- Whether what `k` holds is known after `cmd`, if before it was known or not (`known`). -/
def Command.known (k : Bytes) (known : Bool) (cmd : Command) : Bool :=
  cmd.resets k || known && !cmd.popsFrom k

/-- The log resets `k`, and pops nothing from it after the last reset. -/
def resetSafe (k : Bytes) (log : List Command) : Bool := log.foldl (Command.known k) false

/-- Only these operations of the log work on `k`. -/
def onlyOps (k : Bytes) (allowed : Command → Bool) (log : List Command) : Bool :=
  log.all fun cmd => !cmd.touches k || cmd.op = .persist || allowed cmd

def Command.hashOp (cmd : Command) : Bool := cmd.op = .hset || cmd.op = .hsetnx || cmd.op = .hdel

def Command.setOp (cmd : Command) : Bool := cmd.op = .sadd || cmd.op = .srem

def Command.stringOp (cmd : Command) : Bool :=
  match cmd.op with
  | .set | .getset | .append | .incr | .decr | .incrby | .decrby => true
  | _ => false

/-- SET and GETSET that write whatever the key holds, or only if it holds nothing. -/
def Command.registerOp (cmd : Command) : Bool :=
  (cmd.op = .set || cmd.op = .getset) && cmd.condition ≠ .xx

/-- A SET or GETSET of `k` that writes whatever the key holds. -/
def Command.assigns (cmd : Command) (k : Bytes) : Bool :=
  (cmd.op = .set || cmd.op = .getset) && cmd.condition = .always && cmd.args ≠ [] && cmd.key = k

/-- The log can be replayed on its own result as far as `k` is concerned. Either it resets `k`; or
it uses `k` as a hash or a set, without SPOP; or as a string, and then either there is an
unconditional SET of it, or nothing but SET, SET NX and GETSET. -/
def replaySafe (k : Bytes) (log : List Command) : Bool :=
  resetSafe k log || onlyOps k Command.hashOp log || onlyOps k Command.setOp log ||
    onlyOps k Command.registerOp log ||
    (onlyOps k Command.stringOp log && log.any fun cmd => cmd.assigns k)

end Badis
