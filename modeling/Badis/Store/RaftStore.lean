import Badis.Store.Badger

/-!
# `store/raft_store.go`: the log and the stable store of raft

The FSM is also raft's `LogStore` and `StableStore`: log entries lie under `'L'` and eight bytes of
index, term and votes under `'S'` and their name, in the same database as the user data.
-/

namespace Badis

open Lib

/-- `raft.Log`. -/
structure RaftLog where
  index : UInt64
  term : UInt64
  type : UInt8
  data : Bytes
  extensions : Bytes
  appendedAt : Int
deriving DecidableEq

/-- The msgpack codec for `raft.Log`. -/
structure LogCodec where
  encode : RaftLog → Option Bytes
  decode : Bytes → Option RaftLog

/-- The errors of the raft store. -/
inductive RaftErr where
  /-- `raft.ErrLogNotFound`. -/
  | logNotFound
  /-- A msgpack error. -/
  | codec
  /-- `badger.ErrTxnTooBig`. -/
  | txnTooBig
  /-- A Go panic: a key or value that is too short for a `uint64`. -/
  | panic
deriving DecidableEq

/-- `logKey`. -/
def logKey (index : UInt64) : Bytes := 76 :: bigEndian 8 index.toNat

/-- `stableKey`. -/
def stableKey (key : Bytes) : Bytes := 83 :: key

/-- The keys under which raft keeps its term and vote. -/
def stableKeys : List Bytes := [ascii "CurrentTerm", ascii "LastVoteTerm", ascii "LastVoteCand"]

/-- `binary.BigEndian.Uint64`. -/
def readUint64 (b : Bytes) : Except RaftErr UInt64 :=
  if 8 ≤ b.length then .ok (UInt64.ofNat (fromBigEndian (b.take 8))) else .error .panic

/-! ## The log store -/

/-- The index in the key of the item an iterator stands on, `0` if it is not a log key. -/
def indexAt (item : Option (Bytes × Entry)) : Except RaftErr UInt64 :=
  match item with
  | some (key, _) => if ([76] : Bytes).isPrefixOf key then readUint64 (key.drop 1) else .ok 0
  | none => .ok 0

/-- `FSM.FirstIndex`. -/
def firstIndex (t : Nat) (db : DB) : Except RaftErr UInt64 := indexAt (db.seek t [76])

/-- `FSM.LastIndex`. -/
def lastIndex (t : Nat) (db : DB) : Except RaftErr UInt64 := indexAt (db.seekReverse t [77])

/-- `FSM.GetLog`. -/
def getLog (lc : LogCodec) (t : Nat) (index : UInt64) (db : DB) : Except RaftErr RaftLog :=
  match db.getLive t (logKey index) with
  | none => .error .logNotFound
  | some item =>
    match lc.decode item.value with
    | none => .error .codec
    | some log => .ok log

/-- The first loop of `FSM.StoreLogs`. -/
def encodeLogs (lc : LogCodec) : List RaftLog → Except RaftErr (List (Bytes × Bytes))
  | [] => .ok []
  | log :: rest =>
    match lc.encode log with
    | none => .error .codec
    | some val => do
      let data ← encodeLogs lc rest
      return (logKey log.index, val) :: data

/-- `FSM.StoreLogs`: nothing is stored if an entry cannot be encoded or badger refuses one of
them. -/
def storeLogs (lim : TxnLimit) (lc : LogCodec) (logs : List RaftLog) (db : DB) :
    Except RaftErr Unit × DB :=
  match encodeLogs lc logs with
  | .error e => (.error e, db)
  | .ok data =>
    match lim.update (data.map fun d => (d.1, some d.2)) db with
    | none => (.error .txnTooBig, db)
    | some db => (.ok (), db)

/-- The loop of `FSM.DeleteRange` from index `i` on, in a transaction that takes `count` more writes
and fewer than `size` more bytes. The counter wraps. -/
def deleteLoop (lim : TxnLimit) : Nat → Nat → UInt64 → UInt64 → DB → Except RaftErr DB
  | 0, _, i, max, db => if i ≤ max then .error .txnTooBig else .ok db
  | count + 1, size, i, max, db =>
    if i ≤ max then
      if lim.cost (logKey i) [] < size then
        deleteLoop lim count (size - lim.cost (logKey i) []) (i + 1) max (db.erase (logKey i))
      else .error .txnTooBig
    else .ok db

/-- `FSM.DeleteRange`: nothing is deleted if badger refuses one of the deletions. -/
def deleteRange (lim : TxnLimit) (min max : UInt64) (db : DB) : Except RaftErr Unit × DB :=
  match deleteLoop lim lim.writes lim.bytes min max db with
  | .error e => (.error e, db)
  | .ok db => (.ok (), db)

/-! ## The stable store -/

/-- `FSM.Set`. -/
def raftSet (key val : Bytes) (db : DB) : DB := db.insert (stableKey key) (newEntry val)

/-- `FSM.Get`: the nil slice for a missing key. -/
def raftGet (t : Nat) (key : Bytes) (db : DB) : Option Bytes :=
  match db.getLive t (stableKey key) with
  | none => none
  | some item => item.valueCopy

/-- `FSM.SetUint64`. -/
def raftSetUint64 (key : Bytes) (val : UInt64) (db : DB) : DB :=
  raftSet key (bigEndian 8 val.toNat) db

/-- `FSM.GetUint64`: zero for a missing key and for an empty value. -/
def raftGetUint64 (t : Nat) (key : Bytes) (db : DB) : Except RaftErr UInt64 :=
  let val := (raftGet t key db).getD []
  if val.length = 0 then .ok 0 else readUint64 val

end Badis
