import Mathlib.Logic.Function.Basic
import Badis.Store.Compaction
import Badis.Store.LogStore

/-!
# Both stores of raft in one database

Raft keeps its log and its term and vote in the database that also holds the user's data, and badger
compacts it. The calls of all of them come in any order (`RaftOp`). The log is meant to be the
finite map of `LogStore`, and the stable store a map from names to what was set last.
-/

namespace Badis

open Lib

/-- What a name was set to: by `FSM.Set` or by `FSM.SetUint64`. -/
inductive StableValue where
  | bytes (b : Bytes)
  | uint64 (n : UInt64)
deriving DecidableEq

namespace StableValue

/-- The bytes that `FSM.Get` gives back. -/
def stored : StableValue → Bytes
  | bytes b => b
  | uint64 n => bigEndian 8 n.toNat

/-- The number that `FSM.GetUint64` gives back. -/
def number : StableValue → Except RaftErr UInt64
  | bytes b => if b.length = 0 then .ok 0 else readUint64 b
  | uint64 n => .ok n

end StableValue

/-- The calls that write to the database. -/
inductive RaftOp where
  /-- A call of the log store, or a command. -/
  | log (op : LogOp)
  | set (name val : Bytes)
  | setUint64 (name : Bytes) (n : UInt64)
  | compact (t : Nat) (keep : Bytes → Bool)

namespace RaftOp

/-- Raft sets its own three names. -/
def Valid : RaftOp → Prop
  | log op => op.Valid
  | set name _ => name ∈ stableKeys
  | setUint64 name _ => name ∈ stableKeys
  | compact _ _ => True

/-- The call on the database: what it returns, and the database afterwards. -/
def run (lim : TxnLimit) (vm : LuaVM) (c : Codec) (lc : LogCodec) :
    RaftOp → DB → Except RaftErr Unit × DB
  | log op, db => op.run lim vm c lc db
  | set name val, db => (.ok (), raftSet name val db)
  | setUint64 name n, db => (.ok (), raftSetUint64 name n db)
  | compact t keep, db => (.ok (), db.compact t keep)

/-- What the call returns. -/
def outcome (lim : TxnLimit) (lc : LogCodec) : RaftOp → Except RaftErr Unit
  | log op => op.outcome lim lc
  | _ => .ok ()

/-- The call of the log store, if it is one. -/
def logOp : RaftOp → Option LogOp
  | log op => some op
  | _ => none

/-- What the call sets, if it sets a name. -/
def assignment : RaftOp → Option (Bytes × StableValue)
  | set name val => some (name, .bytes val)
  | setUint64 name n => some (name, .uint64 n)
  | _ => none

end RaftOp

/-- A sequence of calls: what they return, and the database afterwards. -/
def runRaftOps (lim : TxnLimit) (vm : LuaVM) (c : Codec) (lc : LogCodec) :
    List RaftOp → DB → List (Except RaftErr Unit) × DB
  | [], db => ([], db)
  | op :: rest, db =>
    let (r, db) := op.run lim vm c lc db
    let (rs, db) := runRaftOps lim vm c lc rest db
    (r :: rs, db)

/-- The map from names to what was set last. -/
abbrev StableMap := Bytes → Option StableValue

/-- The map after assignments. -/
def StableMap.assignAll (l : List (Bytes × StableValue)) (s : StableMap) : StableMap :=
  l.foldl (fun s a => Function.update s a.1 (some a.2)) s

/-- The stable store of `db` answers as the map says for raft's names, at every instant; a name that
was never set is nil, or zero. -/
structure StableAnswersAs (db : DB) (s : StableMap) : Prop where
  get : ∀ t, ∀ name ∈ stableKeys, raftGet t name db = (s name).map StableValue.stored
  getUint64 : ∀ t, ∀ name ∈ stableKeys, raftGetUint64 t name db =
    match s name with
    | none => .ok 0
    | some v => v.number

end Badis
