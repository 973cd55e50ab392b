import Badis.Store.Lua
import Badis.Store.RaftStore

/-!
# The history of the script registry

What the registry should hold is said by its history: the scripts that were loaded since the last
flush. Scripts may load and flush in turn, so the history of a command follows the calls of its
script. A flush is noted with the database it found, since what it deletes depends on the keys
around the scripts.
-/

namespace Badis

open Lib

/-- A change of the registry: a script is loaded, or all are to be deleted, at the clock reading `t`
in the database `db`. -/
inductive RegistryEvent where
  | load (script : Bytes)
  | flush (t : Nat) (db : DB)

/-- The scripts that were loaded since the last flush, the last one first. -/
def loadedSince (loaded : List Bytes) (events : List RegistryEvent) : List Bytes :=
  events.foldl (fun loaded event =>
    match event with
    | .load script => script :: loaded
    | .flush _ _ => []) loaded

section Events

variable (vm : LuaVM)

/-- The events of a call of a script, given those of a command. -/
def callEvents (events : Command → DB → List RegistryEvent) (args : List Bytes) (db : DB) :
    List RegistryEvent :=
  match args with
  | [] => []
  | name :: rest =>
    let op := vm.toUpper name
    if op = ascii "GET" ∨ op = ascii "EXISTS" ∨ op = ascii "TYPE" then []
    else
      match parseCommandForLua vm op rest with
      | .error _ => []
      | .ok cmd => events cmd db

/-- The events of a script from call number `n` on. -/
def progEvents (times : Nat → Nat) (apply : Nat → Command → Tx Result)
    (events : Nat → Command → DB → List RegistryEvent) : LuaProg → Nat → DB → List RegistryEvent
  | .done _ _, _, _ => []
  | .fail _, _, _ => []
  | .call args next, n, db =>
    let res := (luaRedisCall vm (times n) (apply n) args).run db
    callEvents vm (events n) args db ++
      if res.1 = .error .stackOverflow then []
      else progEvents times apply events (next res.1) (n + 1) res.2

/-- The events of `runLua`. -/
def scriptEvents (times : Nat → Nat) (apply : Nat → Command → Tx Result)
    (events : Nat → Command → DB → List RegistryEvent) (script : Bytes) (evalArgs : List Bytes)
    (db : DB) :
    List RegistryEvent :=
  match evalArgs with
  | [] => []
  | numKeysStr :: rest =>
    match parseInt numKeysStr with
    | (_, false) => []
    | (numKeys, true) =>
      if numKeys < 0 ∨ (rest.length : Int) < numKeys.toInt then []
      else
        let n := numKeys.toInt.toNat
        progEvents vm times apply events (vm.run script (rest.take n) (rest.drop n)) 0 db

variable (c : Codec)

/-- The events of a command inside its transaction. -/
def commandEvents : Nat → (List Nat → Env) → Command → DB → List RegistryEvent
  | 0, _, _, _ => []
  | fuel + 1, envs, cmd, db =>
    let run := scriptEvents vm (fun n => (envs [n]).clock.now)
      (fun n => applyCmdInTxn vm c fuel fun path => envs (n :: path))
      fun n => commandEvents fuel fun path => envs (n :: path)
    match cmd.op, cmd.args with
    | .scriptLoad, [script] => [.load script]
    | .scriptFlush, _ => [.flush (envs []).clock.now db]
    | .evalsha, sha :: arg :: rest =>
      match db.getLive (envs []).clock.now (getScriptKey sha) with
      | none => []
      | some item => run item.value (arg :: rest) db
    | .eval, script :: arg :: rest => run script (arg :: rest) db
    | _, _ => []

/-- What is written to the database of a node: by the commands that are committed, and by raft. -/
inductive StoreStep where
  | apply (fuel : Nat) (envs : List Nat → Env) (cmd : Command)
  | storeLogs (lim : TxnLimit) (logs : List RaftLog)
  | deleteRange (lim : TxnLimit) (min max : UInt64)
  | set (name : { name // name ∈ stableKeys }) (val : Bytes)

variable (lc : LogCodec)

/-- The database after a step. -/
def StoreStep.run : StoreStep → DB → DB
  | .apply fuel envs cmd, db => (fsmApply vm c fuel envs cmd db).2
  | .storeLogs lim logs, db => (Badis.storeLogs lim lc logs db).2
  | .deleteRange lim min max, db => (Badis.deleteRange lim min max db).2
  | .set name val, db => raftSet name val db

/-- The events of a step: a command that fails has none, since its writes are discarded. -/
def StoreStep.events : StoreStep → DB → List RegistryEvent
  | .apply fuel envs cmd, db =>
    match (fsmApply vm c fuel envs cmd db).1 with
    | .ok _ => commandEvents vm c fuel envs cmd db
    | .error _ => []
  | _, _ => []

/-- The database after a run. -/
def runSteps (steps : List StoreStep) (db : DB) : DB :=
  steps.foldl (fun db step => step.run vm c lc db) db

/-- The events of a run. -/
def runEvents : List StoreStep → DB → List RegistryEvent
  | [], _ => []
  | step :: rest, db => step.events vm c db ++ runEvents rest (step.run vm c lc db)

end Events

/-- SCRIPT_FLUSH at `t` finds at most two scripts, and no visible key of at most 48 bytes two places
after one of them. -/
def flushClears (t : Nat) (db : DB) : Bool :=
  let keys := (db.liveEntries t).map Prod.fst |>.dropWhile fun k => k < scriptPrefix
  let n := (keys.takeWhile fun k => scriptPrefix.isPrefixOf k).length
  decide (n ≤ 2) && (List.range n).all fun i => (keys[i + 2]?).all fun key => 48 < key.length

/-- The registry holds the scripts `loaded` and answers accordingly: SCRIPT_EXISTS says which SHAs
are those of a loaded script, EVALSHA of such a SHA is EVAL of the script, and EVALSHA of another
fails. -/
structure RegistryExact (vm : LuaVM) (c : Codec) (loaded : List Bytes) (db : DB) : Prop where
  exists_iff : ∀ fuel envs shas,
    fsmApply vm c (fuel + 1) envs { op := .scriptExists, args := shas } db =
      (.ok (.int64s (shas.map fun sha => if ∃ script ∈ loaded, scriptSHA script =
        sha then 1 else 0)), db)
  evalsha : ∀ script ∈ loaded, ∀ fuel envs arg rest,
    fsmApply vm c (fuel + 1) envs { op := .evalsha, args := scriptSHA script :: arg :: rest } db =
      fsmApply vm c (fuel + 1) envs { op := .eval, args := script :: arg :: rest } db
  noScript : ∀ sha, (∀ script ∈ loaded, scriptSHA script ≠ sha) → ∀ fuel envs arg rest,
    fsmApply vm c (fuel + 1) envs { op := .evalsha, args := sha :: arg :: rest } db =
      (.error .noScript, db)

end Badis
