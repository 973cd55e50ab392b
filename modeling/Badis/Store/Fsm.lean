import Badis.Store.Command

/-!
# `store/fsm.go`: applying a command inside a transaction

`applyData` is the switch of `applyCmdInTxn` without the Lua cases; each family of cases has a
definition of its own, in the order of the source. `FSM.Apply` runs the switch in one transaction
and rolls back on an error.
-/

namespace Badis

open Lib

/-- A transaction on the store. -/
abbrev Tx := Txn DB Err

/-! ## Keys and types -/

/-- `userKey`: the entry that holds a key's value. -/
def userKey (key : Bytes) : Bytes := 75 :: key

/-- `typeKey`: the entry that holds a key's type. -/
def typeKey (key : Bytes) : Bytes := 84 :: key

def typeString : Bytes := ascii "string"
def typeList : Bytes := ascii "list"
def typeHash : Bytes := ascii "hash"
def typeSet : Bytes := ascii "set"

/-- `entry.WithTTL(time.Duration(ttlMs) * time.Millisecond)` when `ttlMs > 0`; the product wraps. -/
def withTTLMs (t : Nat) (ttlMs : Int64) (e : Entry) : Entry :=
  if 0 < ttlMs then e.withTTL t (ttlMs * 1000000) else e

/-- `setValue`. Its error returns are those of the two calls of `txn.SetEntry`, which succeed here
as they do in `Badger.lean`: the writes of one command are assumed to fit into a transaction. -/
def setValue (env : Env) (key val typ : Bytes) (ttlMs : Int64) : Tx Unit := do
  setEntry (userKey key) (withTTLMs env.clock.ttl ttlMs (newEntry val))
  setEntry (typeKey key) (withTTLMs env.clock.ttlType ttlMs (newEntry typ))

/-- `time.Until(time.Unix(int64(expiresAt), 0))` in nanoseconds; `Time.Sub` saturates at the bounds
of a duration. -/
def timeUntil (t : Nat) (expiresAt : UInt64) : Int :=
  max (-2 ^ 63) (min (2 ^ 63 - 1) (expiresAt.toInt64.toInt * 1000000000 - t))

/-- `remainingTTLMs` of an item with this expiry. -/
def remainingTTLMs (env : Env) (expiresAt : UInt64) : Int64 :=
  if expiresAt = 0 then 0
  else
    let ttl := (timeUntil env.clock.remaining expiresAt).tdiv 1000000
    if ttl < 1 then 1 else Int64.ofInt ttl

/-- `getExistingType`: a missing type entry means a string. -/
def getExistingType (t : Nat) (key : Bytes) : Tx Bytes := do
  match ← txnGet t (typeKey key) with
  | none => return typeString
  | some item => return item.value

/-- `ensureExistingType`. -/
def ensureExistingType (t : Nat) (key want : Bytes) : Tx Unit := do
  let typ ← getExistingType t key
  if typ = want then pure () else Txn.throw .wrongType

/-- The reading part that the aggregate cases share: if the key exists, its type is checked, its
remaining time taken and its value decoded; a missing key gives `none`. -/
def readTyped {α : Type} (env : Env) (key want : Bytes) (decode : Bytes → Option α) :
    Tx (Option (α × Int64)) := do
  match ← txnGet env.clock.now (userKey key) with
  | none => return none
  | some item =>
    ensureExistingType env.clock.now key want
    match decode item.value with
    | none => Txn.throw .decode
    | some a => return some (a, remainingTTLMs env item.expiresAt)

/-- Deleting a key that became empty. -/
def deleteKey (key : Bytes) : Tx Unit := do
  txnDelete (userKey key)
  txnDelete (typeKey key)

/-- `cmd.Args[i]`, which panics when out of range. -/
def Command.arg (cmd : Command) (i : Nat) : Except Err Bytes :=
  match cmd.args[i]? with
  | some a => .ok a
  | none => .error .panic

/-! ## Strings -/

/-- `oldVal` in case `"SET", "GETSET", "APPEND"`, which only the commands that need it read. -/
def setOldVal (cmd : Command) (item : Option Entry) : Option Bytes :=
  match item with
  | some item =>
    if cmd.returnOld || cmd.op = .getset || cmd.op = .append then item.valueCopy else none
  | none => none

/-- `setKey` in case `"SET", "GETSET", "APPEND"`. -/
def setKey (cmd : Command) (present : Bool) : Bool :=
  !(cmd.condition = .nx && present) && !(cmd.condition = .xx && !present)

/-- `newVal` in case `"SET", "GETSET", "APPEND"`. -/
def setNewVal (cmd : Command) (arg : Bytes) (item : Option Entry) : Bytes :=
  if cmd.op = .append then (setOldVal cmd item).getD [] ++ arg else arg

/-- `ttlMs` in case `"SET", "GETSET", "APPEND"`. -/
def setTTLMs (env : Env) (cmd : Command) (item : Option Entry) : Int64 :=
  let oldTTLMs : Int64 := match item with
    | some item => remainingTTLMs env item.expiresAt
    | none => 0
  if cmd.ttlMs = 0 && cmd.op = .append then oldTTLMs else cmd.ttlMs

/-- The reply of case `"SET", "GETSET", "APPEND"`. -/
def setReply (cmd : Command) (arg : Bytes) (item : Option Entry) : Result :=
  if cmd.op = .append then .int (setNewVal cmd arg item).length
  else if cmd.returnOld || cmd.op = .getset then
    if item.isSome then .bytes (setOldVal cmd item) else .nil
  else if !setKey cmd item.isSome then .nil
  else .str (ascii "OK")

/-- Case `"SET", "GETSET", "APPEND"` from the line on where the existing item has been read and its
type checked. -/
def setString (env : Env) (cmd : Command) (arg : Bytes) (item : Option Entry) : Tx Result := do
  if setKey cmd item.isSome then
    setValue env cmd.key (setNewVal cmd arg item) typeString (setTTLMs env cmd item)
  else pure ()
  return setReply cmd arg item

/-- Case `"SET", "GETSET", "APPEND"`. -/
def applySet (env : Env) (cmd : Command) : Tx Result := do
  match cmd.args with
  | [] => Txn.throw (.missingArgs cmd.op)
  | arg :: _ =>
    match ← txnGet env.clock.now (userKey cmd.key) with
    | none => setString env cmd arg none
    | some item =>
      ensureExistingType env.clock.now cmd.key typeString
      setString env cmd arg (some item)

/-- The loop of case `"MSET"`. -/
def msetLoop (env : Env) : List Bytes → Tx Unit
  | k :: v :: rest => do
    setValue env k v typeString 0
    msetLoop env rest
  | _ => pure ()

/-- Case `"MSET"`. -/
def applyMSet (env : Env) (cmd : Command) : Tx Result := do
  if cmd.args.length % 2 ≠ 0 then Txn.throw (.invalidArgs cmd.op)
  else
    msetLoop env cmd.args
    return .str (ascii "OK")

/-- The loop of case `"DEL"` over `cmd.Args`. -/
def delLoop (env : Env) : List Bytes → Nat → Tx Nat
  | [], count => pure count
  | k :: rest, count => do
    match ← txnGet env.clock.now (userKey k) with
    | none => delLoop env rest count
    | some _ =>
      deleteKey k
      delLoop env rest (count + 1)

/-- Case `"DEL"`. Without arguments the key itself is deleted, but not its type entry. -/
def applyDel (env : Env) (cmd : Command) : Tx Result := do
  let count ← delLoop env cmd.args 0
  if cmd.args = [] ∧ cmd.key ≠ [] then
    match ← txnGet env.clock.now (userKey cmd.key) with
    | none => return .int count
    | some _ =>
      txnDelete (userKey cmd.key)
      return .int (count + 1)
  else return .int count

/-- One pass of case `"FLUSHDB"`: every visible key with the prefix is deleted. -/
def flushPrefix (env : Env) (p : Bytes) : Tx Unit :=
  Txn.modify fun db => (db.scanPrefix env.clock.now p).foldl (fun db e => db.erase e.1) db

/-- Case `"FLUSHDB"`. -/
def applyFlushDB (env : Env) : Tx Result := do
  flushPrefix env [75]
  flushPrefix env [84]
  return .str (ascii "OK")

/-- `strconv.ParseInt(s, 10, 64)` with the error the callers give. -/
def parseInteger (s : Bytes) : Except Err Int64 :=
  match parseInt s with
  | (n, true) => .ok n
  | (_, false) => .error .notInteger

/-- The `delta` of case `"INCR", "DECR", "INCRBY", "DECRBY"`. -/
def incrDelta (cmd : Command) : Except Err Int64 :=
  if cmd.op = .incrby ∨ cmd.op = .decrby then cmd.arg 0 >>= parseInteger else .ok 1

/-- Case `"INCR", "DECR", "INCRBY", "DECRBY"`. -/
def applyIncr (env : Env) (cmd : Command) : Tx Result := do
  let item ← txnGet env.clock.now (userKey cmd.key)
  let (val, oldTTLMs) ← match item with
    | none => pure ((0, 0) : Int64 × Int64)
    | some item => do
      ensureExistingType env.clock.now cmd.key typeString
      let parsed ← parseInteger item.value
      pure (parsed, remainingTTLMs env item.expiresAt)
  let delta ← incrDelta cmd
  let val := if cmd.op = .incr ∨ cmd.op = .incrby then val + delta else val - delta
  setValue env cmd.key (formatInt val) typeString oldTTLMs
  return .int64 val

/-! ## Expiry -/

/-- Case `"EXPIRE"`: the user entry is rewritten with the new expiry, the type entry is not. -/
def applyExpire (env : Env) (cmd : Command) : Tx Result := do
  match ← txnGet env.clock.now (userKey cmd.key) with
  | none => return .int 0
  | some item =>
    setEntry (userKey cmd.key) ((newEntry item.value).withTTL env.clock.ttl (cmd.ttlMs * 1000000))
    return .int 1

/-- Case `"PERSIST"`. -/
def applyPersist (env : Env) (cmd : Command) : Tx Result := do
  match ← txnGet env.clock.now (userKey cmd.key) with
  | none => return .int 0
  | some item =>
    if item.expiresAt = 0 then return .int 0
    else
      let typ ← getExistingType env.clock.now cmd.key
      setValue env cmd.key item.value typ 0
      return .int 1

/-! ## Hashes -/

/-- The loop of case `"HSET", "HSETNX"`. -/
def hsetLoop (nx : Bool) : List Bytes → GoMap → Nat → GoMap × Nat
  | field :: val :: rest, hash, count =>
    let ok := hash.contains field
    if nx && ok then hsetLoop nx rest hash count
    else hsetLoop nx rest (hash.insert field val) (if ok then count else count + 1)
  | _, hash, count => (hash, count)

/-- `encodeMsgpack` of a hash. -/
def encodeHash (c : Codec) (env : Env) (hash : GoMap) : Bytes :=
  c.encodeMap (rangeMap env.encode hash)

/-- Case `"HSET", "HSETNX"`. -/
def applyHSet (c : Codec) (env : Env) (cmd : Command) : Tx Result := do
  if cmd.args.length % 2 ≠ 0 then Txn.throw (.invalidArgs cmd.op)
  else
    let old ← readTyped env cmd.key typeHash c.decodeMap
    let (hash, oldTTLMs) := old.getD (OrdMap.empty, 0)
    let (hash, count) := hsetLoop (cmd.op = .hsetnx) cmd.args hash 0
    setValue env cmd.key (encodeHash c env hash) typeHash oldTTLMs
    return .int count

/-- The loop of case `"HDEL"`. -/
def hdelLoop : List Bytes → GoMap → Nat → GoMap × Nat
  | [], hash, count => (hash, count)
  | field :: rest, hash, count =>
    if hash.contains field then hdelLoop rest (hash.erase field) (count + 1)
    else hdelLoop rest hash count

/-- Case `"HDEL"`. -/
def applyHDel (c : Codec) (env : Env) (cmd : Command) : Tx Result := do
  match ← readTyped env cmd.key typeHash c.decodeMap with
  | none => return .int 0
  | some (hash, oldTTLMs) =>
    let (hash, count) := hdelLoop cmd.args hash 0
    if hash.entries = [] then deleteKey cmd.key
    else setValue env cmd.key (encodeHash c env hash) typeHash oldTTLMs
    return .int count

/-! ## Lists -/

/-- The reading part of the list cases: a missing key reads as the empty list. -/
def readList (c : Codec) (env : Env) (key : Bytes) : Tx (List Bytes × Int64) := do
  let old ← readTyped env key typeList c.decodeStrings
  return old.getD ([], 0)

/-- The writing part of the list cases that delete an emptied key. -/
def writeList (c : Codec) (env : Env) (key : Bytes) (list : List Bytes) (ttlMs : Int64) : Tx Unit :=
  if list = [] then deleteKey key else setValue env key (c.encodeStrings list) typeList ttlMs

/-- The loop of case `"LPUSH", "RPUSH", "LPUSHX", "RPUSHX"`. -/
def pushLoop (left : Bool) (args list : List Bytes) : List Bytes :=
  args.foldl (fun list arg => if left then arg :: list else list ++ [arg]) list

/-- Case `"LPUSH", "RPUSH", "LPUSHX", "RPUSHX"`. -/
def applyPush (c : Codec) (env : Env) (cmd : Command) : Tx Result := do
  let old ← readTyped env cmd.key typeList c.decodeStrings
  if old = none ∧ (cmd.op = .lpushx ∨ cmd.op = .rpushx) then return .int 0
  else
    let (list, oldTTLMs) := old.getD ([], 0)
    let list := pushLoop (cmd.op = .lpush ∨ cmd.op = .lpushx) cmd.args list
    setValue env cmd.key (c.encodeStrings list) typeList oldTTLMs
    return .int list.length

/-- The number of elements `LPOP` and `RPOP` ask for. -/
def popCount (cmd : Command) : Except Err Nat :=
  match cmd.args with
  | [] => .ok 1
  | arg :: _ => do
    let parsed ← parseInteger arg
    if parsed < 0 then .error .notInteger else .ok parsed.toInt.toNat

/-- The popped elements and the rest of a list that has at least `count` elements. -/
def popList (op : Op) (count : Nat) (list : List Bytes) : List Bytes × List Bytes :=
  if op = .lpop then (list.take count, list.drop count)
  else (list.reverse.take count, list.take (list.length - count))

/-- The reply of `LPOP` and `RPOP` with these elements popped. -/
def popReply (cmd : Command) (popped : List Bytes) : Result :=
  match cmd.args with
  | _ :: _ => .strs popped
  | [] => .bytes (some (popped.headD []))

/-- Case `"LPOP", "RPOP"`. -/
def applyPop (c : Codec) (env : Env) (cmd : Command) : Tx Result := do
  let (list, oldTTLMs) ← readList c env cmd.key
  if list = [] then return .nil
  else
    let count ← popCount cmd
    let (popped, list) := popList cmd.op (min count list.length) list
    writeList c env cmd.key list oldTTLMs
    return popReply cmd popped

/-- `sliceList`. -/
def sliceList (list : List Bytes) (start stop : Int) : List Bytes :=
  if list = [] then []
  else
    let n : Int := list.length
    let start := if start < 0 then n + start else start
    let stop := if stop < 0 then n + stop else stop
    let start := if start < 0 then 0 else start
    let stop := if stop ≥ n then n - 1 else stop
    if start > stop ∨ start ≥ n then []
    else (list.take (stop + 1).toNat).drop start.toNat

/-- Case `"LTRIM"`. -/
def applyLTrim (c : Codec) (env : Env) (cmd : Command) : Tx Result := do
  let (list, oldTTLMs) ← readList c env cmd.key
  let start ← cmd.arg 0
  let stop ← cmd.arg 1
  writeList c env cmd.key (sliceList list (parseInt start).1.toInt (parseInt stop).1.toInt) oldTTLMs
  return .str (ascii "OK")

/-- The loops of case `"LREM"`: forward with `limit >= 0`, backward otherwise. -/
def lremLoop (limit : Int64) (needle : Bytes) (list : List Bytes) : List Bytes × Nat :=
  if 0 ≤ limit then
    list.foldl (fun (kept, count) v =>
      if v = needle ∧ (limit = 0 ∨ (count : Int) < limit.toInt) then (kept, count + 1)
      else (kept ++ [v], count)) ([], 0)
  else
    list.reverse.foldl (fun (kept, count) v =>
      if v = needle ∧ (count : Int) < (-limit).toInt then (kept, count + 1)
      else (v :: kept, count)) ([], 0)

/-- Case `"LREM"`. -/
def applyLRem (c : Codec) (env : Env) (cmd : Command) : Tx Result := do
  let (list, oldTTLMs) ← readList c env cmd.key
  let limit ← cmd.arg 0
  let needle ← cmd.arg 1
  let (kept, count) := lremLoop (parseInt limit).1 needle list
  writeList c env cmd.key kept oldTTLMs
  return .int count

/-! ## Sets -/

/-- `encodeMsgpack` of the members of a set, in the order the rebuilding loop visits them. -/
def encodeSet (c : Codec) (env : Env) (set : GoSet) : Bytes :=
  c.encodeStrings (env.members.visit set.keys)

/-- The reading part of the set cases: the stored members as a Go map. -/
def decodeSet (c : Codec) (val : Bytes) : Option GoSet := (c.decodeStrings val).map toSet

/-- The loop of case `"SADD"`. -/
def saddLoop : List Bytes → GoSet → Nat → GoSet × Nat
  | [], set, count => (set, count)
  | arg :: rest, set, count =>
    if set.contains arg then saddLoop rest set count
    else saddLoop rest (set.insert arg ()) (count + 1)

/-- Case `"SADD"`. -/
def applySAdd (c : Codec) (env : Env) (cmd : Command) : Tx Result := do
  let old ← readTyped env cmd.key typeSet (decodeSet c)
  let (set, oldTTLMs) := old.getD (OrdMap.empty, 0)
  let (set, count) := saddLoop cmd.args set 0
  setValue env cmd.key (encodeSet c env set) typeSet oldTTLMs
  return .int count

/-- The SREM loop of case `"SREM", "SPOP"`. -/
def sremLoop : List Bytes → GoSet → Nat → GoSet × Nat
  | [], set, count => (set, count)
  | arg :: rest, set, count =>
    if set.contains arg then sremLoop rest (set.erase arg) (count + 1)
    else sremLoop rest set count

/-- The SPOP loop of case `"SREM", "SPOP"`: members are popped in iteration order until there are
`count` of them. -/
def spopLoop (count : Int) : List Bytes → GoSet → List Bytes → GoSet × List Bytes
  | [], set, popped => (set, popped)
  | m :: rest, set, popped =>
    if (popped.length : Int) ≥ count then (set, popped)
    else spopLoop count rest (set.erase m) (popped ++ [m])

/-- The number of members `SPOP` asks for. -/
def spopCount (cmd : Command) : Int :=
  match cmd.args with
  | [] => 1
  | arg :: _ => (parseInt arg).1.toInt

/-- The reply of `SPOP` with these members popped. -/
def spopReply (cmd : Command) (popped : List Bytes) : Result :=
  match cmd.args, popped with
  | _ :: _, popped => .strs popped
  | [], [] => .nil
  | [], m :: _ => .bytes (some m)

/-- Case `"SREM", "SPOP"`. -/
def applySRem (c : Codec) (env : Env) (cmd : Command) : Tx Result := do
  match ← readTyped env cmd.key typeSet (decodeSet c) with
  | none => return if cmd.op = .spop then spopReply cmd [] else .int 0
  | some (set, oldTTLMs) =>
    let (set, result) : GoSet × Result :=
      if cmd.op = .srem then
        let (set, count) := sremLoop cmd.args set 0
        (set, .int count)
      else
        let (set, popped) := spopLoop (spopCount cmd) (env.pop.visit set.keys) set []
        (set, spopReply cmd popped)
    if set.entries = [] then deleteKey cmd.key
    else setValue env cmd.key (encodeSet c env set) typeSet oldTTLMs
    return result

/-! ## The switch -/

/-- `applyCmdInTxn` without the Lua cases. -/
def applyData (c : Codec) (env : Env) (cmd : Command) : Tx Result :=
  match cmd.op with
  | .set | .getset | .append => applySet env cmd
  | .mset => applyMSet env cmd
  | .del => applyDel env cmd
  | .flushdb => applyFlushDB env
  | .incr | .decr | .incrby | .decrby => applyIncr env cmd
  | .expire => applyExpire env cmd
  | .persist => applyPersist env cmd
  | .hset | .hsetnx => applyHSet c env cmd
  | .hdel => applyHDel c env cmd
  | .lpush | .rpush | .lpushx | .rpushx => applyPush c env cmd
  | .lpop | .rpop => applyPop c env cmd
  | .ltrim => applyLTrim c env cmd
  | .lrem => applyLRem c env cmd
  | .sadd => applySAdd c env cmd
  | .srem | .spop => applySRem c env cmd
  | op => Txn.throw (.unknownOp op)

/-- `FSM.Apply` of a command without script: one transaction, rolled back on an error. -/
def applyCmd (c : Codec) (env : Env) (cmd : Command) (db : DB) : Except Err Result × DB :=
  Txn.atomically (applyData c env cmd) db

end Badis
