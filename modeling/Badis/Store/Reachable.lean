import Badis.Store.Lua
import Badis.Store.RaftStore
import Badis.Store.Snapshot

/-!
# The states of a store

Everything that changes the database of a node: the commands raft applies, raft's own writes to its
log and stable store, and the restore of a snapshot of another node.
-/

namespace Badis

open Lib

/-- The databases a node can hold, whatever the limits of badger's transactions are. -/
inductive Reachable (vm : LuaVM) (c : Codec) (lc : LogCodec) : DB → Prop where
  | empty : Reachable vm c lc OrdMap.empty
  | apply {db : DB} (h : Reachable vm c lc db) (fuel : Nat) (envs : List Nat → Env)
      (cmd : Command) :
      Reachable vm c lc (fsmApply vm c fuel envs cmd db).2
  | storeLogs {db : DB} (h : Reachable vm c lc db) (lim : TxnLimit) (logs : List RaftLog) :
      Reachable vm c lc (storeLogs lim lc logs db).2
  | deleteRange {db : DB} (h : Reachable vm c lc db) (lim : TxnLimit) (min max : UInt64) :
      Reachable vm c lc (deleteRange lim min max db).2
  | set {db : DB} (h : Reachable vm c lc db) (name val : Bytes) (hname : name ∈ stableKeys) :
      Reachable vm c lc (raftSet name val db)
  | restore {src db : DB} (hsrc : Reachable vm c lc src) (h : Reachable vm c lc db) (t : Nat) :
      Reachable vm c lc (restore (persist t src) db)

end Badis
