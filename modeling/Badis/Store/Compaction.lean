import Badis.Store.Registry
import Badis.Store.Snapshot

/-!
# Compaction

Badger drops entries that have expired when it compacts its tables, at any time and as many of them
as it likes; the rest of the model keeps them until they are overwritten. A node goes through a list
of events: what is written to its database, restores of a snapshot, and compactions in between.
-/

namespace Badis

open Lib

/-- A compaction at the clock reading `t`: of the entries that have expired, those that `keep` names
stay. -/
def DB.compact (t : Nat) (keep : Bytes → Bool) (db : DB) : DB :=
  db.filter fun e => e.2.live t || keep e.1

/-- What FLUSHDB deletes at the clock reading `t`, in one transaction: the visible entries of the
keys, and those of their types. -/
def flushDeletions (t : Nat) (db : DB) : List (Bytes × Option Bytes) :=
  (db.scanPrefix t [75] ++ db.scanPrefix t [84]).map fun e => (e.1, none)

/-- What happens to the database of a node. -/
inductive NodeEvent where
  | step (s : StoreStep)
  | restore (stream : List (Bytes × Entry))
  | compact (t : Nat) (keep : Bytes → Bool)

/-- Whether an event is something else than a compaction. -/
def NodeEvent.visible : NodeEvent → Bool
  | .compact _ _ => false
  | _ => true

section Run

variable (vm : LuaVM) (c : Codec) (lc : LogCodec)

/-- The database after an event. -/
def NodeEvent.run : NodeEvent → DB → DB
  | .step s, db => s.run vm c lc db
  | .restore stream, db => Badis.restore stream db
  | .compact t keep, db => db.compact t keep

/-- What `FSM.Apply` returns, if the event is a command. -/
def NodeEvent.reply : NodeEvent → DB → List (Except Err Result)
  | .step (.apply fuel envs cmd), db => [(fsmApply vm c fuel envs cmd db).1]
  | _, _ => []

/-- The database after a list of events. -/
def nodeRun (events : List NodeEvent) (db : DB) : DB :=
  events.foldl (fun db e => e.run vm c lc db) db

/-- What the commands among the events return, in order. -/
def nodeReplies : List NodeEvent → DB → List (Except Err Result)
  | [], _ => []
  | e :: rest, db => e.reply vm c db ++ nodeReplies rest (e.run vm c lc db)

end Run

/-- No clock reading of the event is before `t`. -/
def NodeEvent.notBefore (t : Nat) : NodeEvent → Prop
  | .step (.apply _ envs _) => ∀ path, t ≤ (envs path).clock.now
  | .compact t' _ => t ≤ t'
  | _ => True

/-- The instant of the last compaction, which was `t` before the event. -/
def NodeEvent.lastCompaction (t : Nat) : NodeEvent → Nat
  | .compact t' _ => t'
  | _ => t

/-- The instant of the last compaction of a run, `t` if it has none. -/
def lastCompaction (t : Nat) (events : List NodeEvent) : Nat :=
  events.foldl NodeEvent.lastCompaction t

/-- After a compaction the clock is not read at an earlier instant. -/
def InOrder (t : Nat) : List NodeEvent → Prop
  | [] => True
  | e :: rest => e.notBefore t ∧ InOrder (e.lastCompaction t) rest

end Badis
