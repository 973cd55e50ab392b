import Mathlib.Order.Bounds.Defs
import Badis.Store.Lua
import Badis.Store.RaftStore

/-!
# The log store as a finite map

What raft's `LogStore` is for: a finite map from indices to log entries. `LogOp.run` executes a call
on the database, where the commands of the FSM are applied as well; `LogOp.outcome` says what the
call returns and `LogOp.store` what it means for the map.
-/

namespace Badis

open Lib

/-- Decoding gives back the log entry that was encoded. -/
def LogCodec.Lawful (lc : LogCodec) : Prop :=
  ∀ log b, lc.encode log = some b → lc.decode b = some log

/-- The calls that write to the database of the log store. -/
inductive LogOp where
  | storeLog (log : RaftLog)
  | storeLogs (logs : List RaftLog)
  | deleteRange (min max : UInt64)
  /-- `FSM.Apply`, for scripts with the Go stack it has. -/
  | apply (depth : Nat) (envs : List Nat → Env) (cmd : Command)

/-- Indices start at 1. -/
def LogOp.Valid : LogOp → Prop
  | .storeLog log => log.index ≠ 0
  | .storeLogs logs => ∀ log ∈ logs, log.index ≠ 0
  | .deleteRange _ _ => True
  | .apply _ _ _ => True

section Run

variable (lim : TxnLimit) (vm : LuaVM) (c : Codec) (lc : LogCodec)

/-- The call on the database: what it returns, and the database afterwards. The result of
`FSM.Apply` is left out. -/
def LogOp.run : LogOp → DB → Except RaftErr Unit × DB
  | .storeLog log, db => Badis.storeLogs lim lc [log] db
  | .storeLogs logs, db => Badis.storeLogs lim lc logs db
  | .deleteRange min max, db => Badis.deleteRange lim min max db
  | .apply depth envs cmd, db => (.ok (), (fsmApply vm c depth envs cmd db).2)

/-- A sequence of calls: what they return, and the database afterwards. -/
def runLogOps : List LogOp → DB → List (Except RaftErr Unit) × DB
  | [], db => ([], db)
  | op :: rest, db =>
    let (r, db) := op.run lim vm c lc db
    let (rs, db) := runLogOps rest db
    (r :: rs, db)

end Run

/-- The finite map from indices to entries. -/
abbrev LogMap := OrdMap UInt64 RaftLog

section Map

variable (lim : TxnLimit) (lc : LogCodec)

/-- What `StoreLogs` returns: all entries have to be encoded and to fit into one transaction. -/
def storeOutcome (logs : List RaftLog) : Except RaftErr Unit :=
  match encodeLogs lc logs with
  | .error e => .error e
  | .ok data => if lim.fits (data.map fun d => (d.1, some d.2)) then .ok () else .error .txnTooBig

/-- The deletions of a range fit into one transaction. The loop does not come to the end of a range
that ends with the greatest index. -/
def rangeFits (min max : UInt64) : Bool :=
  max < min || max ≠ 18446744073709551615 && max.toNat + 1 - min.toNat ≤ lim.writes &&
    (max.toNat + 1 - min.toNat) * lim.cost (logKey 0) [] < lim.bytes

/-- What a call returns. -/
def LogOp.outcome : LogOp → Except RaftErr Unit
  | .storeLog log => storeOutcome lim lc [log]
  | .storeLogs logs => storeOutcome lim lc logs
  | .deleteRange min max => if rangeFits lim min max then .ok () else .error .txnTooBig
  | .apply _ _ _ => .ok ()

/-- What a call that succeeds makes of the map. -/
def LogOp.effect : LogOp → LogMap → LogMap
  | .storeLog log, m => m.insert log.index log
  | .storeLogs logs, m => logs.foldl (fun m log => m.insert log.index log) m
  | .deleteRange min max, m => m.filter fun e => ¬ (min ≤ e.1 ∧ e.1 ≤ max)
  | .apply _ _ _, m => m

/-- The map after a call: one that fails changes nothing. -/
def LogOp.store (op : LogOp) (m : LogMap) : LogMap :=
  match op.outcome lim lc with
  | .ok () => op.effect m
  | .error _ => m

/-- The map after a sequence of calls: under each index the entry stored last, unless it was deleted
since. -/
def LogMap.after (ops : List LogOp) : LogMap :=
  ops.foldl (fun m op => op.store lim lc m) OrdMap.empty

end Map

/-- The indices in the map. -/
def LogMap.stored (m : LogMap) : Set UInt64 := {i | m.contains i}

/-- The log store of `db` answers as the map `m` says, at every instant. -/
structure AnswersAs (lc : LogCodec) (db : DB) (m : LogMap) : Prop where
  getLog : ∀ t i, getLog lc t i db =
    match m.get? i with
    | some log => .ok log
    | none => .error .logNotFound
  indices : ∀ t, ∃ first last, firstIndex t db = .ok first ∧ lastIndex t db = .ok last ∧
    (m.stored.Nonempty → IsLeast m.stored first ∧ IsGreatest m.stored last) ∧
    (first = 0 ↔ m.stored = ∅) ∧ (last = 0 ↔ m.stored = ∅)

end Badis
