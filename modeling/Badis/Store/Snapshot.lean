import Badis.Store.Log
import Badis.Store.Lua
import Badis.Store.Plan

/-!
# Snapshots

`FSM.Snapshot` hands out the database itself, not a copy of it: what `Persist` writes is the
database as it is when `Persist` runs, under the index at which `Snapshot` was called. `Restore`
loads the stream over what the target already holds.
-/

namespace Badis

open Lib

/-- `fsmSnapshot.Persist` at the clock reading `t`. -/
def persist (t : Nat) (db : DB) : List (Bytes × Entry) := db.backup t

/-- `FSM.Restore`. -/
def restore (stream : List (Bytes × Entry)) (db : DB) : DB := db.load stream

/-- A snapshot as raft keeps it: the index it is labelled with, and the stream. -/
structure SnapshotFile where
  index : Nat
  stream : List (Bytes × Entry)

/-- The snapshot of a node that applies `steps`, with `Snapshot` called after `i` of them and
`Persist` run at `t` after `j` of them. -/
def takeSnapshot (c : Codec) (steps : List Step) (i j t : Nat) : SnapshotFile :=
  ⟨i, persist t (applyLog c (steps.take j) OrdMap.empty).2⟩

/-- What a key holds: the entry, and the type it is read under. -/
def DB.item (t : Nat) (db : DB) (k : Bytes) : Option (Entry × Bytes) :=
  (db.getLive t (userKey k)).map fun e => (e, (Slot.of db k).typ t)

/-- The script registered under a SHA. -/
def DB.registered (t : Nat) (db : DB) (sha : Bytes) : Option Entry :=
  db.getLive t (getScriptKey sha)

end Badis
