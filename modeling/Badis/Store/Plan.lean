import Badis.Store.Fsm

/-!
# What a command means for the key it names

The abstract side of the store: a key holds a typed value and an expiry (`View`), and a command that
works on its key alone is a function from the view to a reply and one action on the key (`plan`).
Bytes, the type entry and the database appear only in `Slot`, the two entries a key has in the
database: its view is read off them, and an action rewrites them. `keyAct` extends this to the
commands that name several keys or none: it is what any command does to any one key.
-/

namespace Badis

open Lib

/-- A stored value as its type reads it. Bytes that do not decode under their type, or whose type is
none of the four, stay as they are (`raw`). -/
inductive Value where
  | string (b : Bytes)
  | list (l : List Bytes)
  | hash (h : GoMap)
  | set (s : GoSet)
  | raw (typ bytes : Bytes)
deriving DecidableEq

namespace Value

/-- The type a value is stored under. -/
def typ : Value → Bytes
  | string _ => typeString
  | list _ => typeList
  | hash _ => typeHash
  | set _ => typeSet
  | raw typ _ => typ

/-- The value that `bytes` are under the type `typ`. -/
def decode (c : Codec) (typ bytes : Bytes) : Value :=
  if typ = typeString then .string bytes
  else if typ = typeList then
    match c.decodeStrings bytes with
    | some l => .list l
    | none => .raw typ bytes
  else if typ = typeHash then
    match c.decodeMap bytes with
    | some h => .hash h
    | none => .raw typ bytes
  else if typ = typeSet then
    match decodeSet c bytes with
    | some s => .set s
    | none => .raw typ bytes
  else .raw typ bytes

/-- The bytes a value is stored as. -/
def encode (c : Codec) (env : Env) : Value → Bytes
  | string b => b
  | list l => c.encodeStrings l
  | hash h => encodeHash c env h
  | set s => encodeSet c env s
  | raw _ bytes => bytes

/-- The error of a command that expects the type `want`. -/
def typeError (want : Bytes) (v : Value) : Err := if v.typ = want then .decode else .wrongType

def asList : Value → Except Err (List Bytes)
  | list l => .ok l
  | v => .error (typeError typeList v)

def asHash : Value → Except Err GoMap
  | hash h => .ok h
  | v => .error (typeError typeHash v)

def asSet : Value → Except Err GoSet
  | set s => .ok s
  | v => .error (typeError typeSet v)

end Value

/-- What a key holds: nothing, or a value with its expiry second. -/
abbrev View := Option (Value × UInt64)

/-- A key that holds a hash, or nothing. -/
def ofHash (y : Option GoMap) : View := y.map fun h => (.hash h, 0)

/-- A key that holds a set, or nothing. -/
def ofSet (y : Option GoSet) : View := y.map fun s => (.set s, 0)

/-- A key that holds a string, or nothing. -/
def ofString (y : Option Bytes) : View := y.map fun b => (.string b, 0)

/-- What a command does to its key. -/
inductive KeyAct where
  /-- The key stays as it is. -/
  | keep
  /-- A value is written, with this remaining time in milliseconds (none if not positive). -/
  | put (v : Value) (ttlMs : Int64)
  /-- The user entry gets a new expiry. -/
  | expire (ttlMs : Int64)
  /-- The expiry is removed. -/
  | persist
  /-- The key is deleted. -/
  | drop
  /-- The user entry is deleted, the type entry stays. -/
  | unset
  /-- Whatever of the two entries is visible is deleted. -/
  | flush
deriving DecidableEq

/-- The reply of a command and its action, or its error. -/
abbrev Plan := Except Err (Result × KeyAct)

/-! ## Reading the view -/

/-- The remaining time that a mutation writes back. -/
def oldTTLMs (env : Env) : View → Int64
  | none => 0
  | some (_, exp) => remainingTTLMs env exp

/-- The view read by a command that expects one type. -/
def readView {α : Type} (env : Env) (as : Value → Except Err α) :
    View → Except Err (Option (α × Int64))
  | none => .ok none
  | some (v, exp) =>
    match as v with
    | .error e => .error e
    | .ok a => .ok (some (a, remainingTTLMs env exp))

/-! ## The commands -/

/-- SET, GETSET and APPEND on a key that holds a string, or nothing. -/
def setPlan (env : Env) (cmd : Command) (arg : Bytes) (item : Option Entry) : Result × KeyAct :=
  (setReply cmd arg item,
    if setKey cmd item.isSome then .put (.string (setNewVal cmd arg item)) (setTTLMs env cmd item)
    else .keep)

def planSet (env : Env) (cmd : Command) (x : View) : Plan :=
  match cmd.args, x with
  | [], _ => .error (.missingArgs cmd.op)
  | arg :: _, none => .ok (setPlan env cmd arg none)
  | arg :: _, some (.string b, exp) => .ok (setPlan env cmd arg (some ⟨b, exp⟩))
  | _ :: _, some _ => .error .wrongType

/-- The number an INCR finds. -/
def counterOf : View → Except Err Int64
  | none => .ok 0
  | some (.string b, _) => parseInteger b
  | some _ => .error .wrongType

def planIncr (env : Env) (cmd : Command) (x : View) : Plan := do
  let val ← counterOf x
  let delta ← incrDelta cmd
  let val := if cmd.op = .incr ∨ cmd.op = .incrby then val + delta else val - delta
  return (.int64 val, .put (.string (formatInt val)) (oldTTLMs env x))

def planExpire (cmd : Command) (x : View) : Plan :=
  match x with
  | none => .ok (.int 0, .keep)
  | some _ => .ok (.int 1, .expire cmd.ttlMs)

def planPersist (x : View) : Plan :=
  match x with
  | none => .ok (.int 0, .keep)
  | some (_, exp) => if exp = 0 then .ok (.int 0, .keep) else .ok (.int 1, .persist)

def planHSet (env : Env) (cmd : Command) (x : View) : Plan := do
  if cmd.args.length % 2 ≠ 0 then .error (.invalidArgs cmd.op)
  else
    let old ← readView env Value.asHash x
    let (hash, ttlMs) := old.getD (OrdMap.empty, 0)
    let (hash, count) := hsetLoop (cmd.op = .hsetnx) cmd.args hash 0
    return (.int count, .put (.hash hash) ttlMs)

def planHDel (env : Env) (cmd : Command) (x : View) : Plan := do
  match ← readView env Value.asHash x with
  | none => return (.int 0, .keep)
  | some (hash, ttlMs) =>
    let (hash, count) := hdelLoop cmd.args hash 0
    return (.int count, if hash.entries = [] then .drop else .put (.hash hash) ttlMs)

/-- A list is written back, or the emptied key deleted. -/
def putList (list : List Bytes) (ttlMs : Int64) : KeyAct :=
  if list = [] then .drop else .put (.list list) ttlMs

def planPush (env : Env) (cmd : Command) (x : View) : Plan := do
  let old ← readView env Value.asList x
  if old = none ∧ (cmd.op = .lpushx ∨ cmd.op = .rpushx) then return (.int 0, .keep)
  else
    let (list, ttlMs) := old.getD ([], 0)
    let list := pushLoop (cmd.op = .lpush ∨ cmd.op = .lpushx) cmd.args list
    return (.int list.length, .put (.list list) ttlMs)

def planPop (env : Env) (cmd : Command) (x : View) : Plan := do
  let old ← readView env Value.asList x
  let (list, ttlMs) := old.getD ([], 0)
  if list = [] then return (.nil, .keep)
  else
    let count ← popCount cmd
    let (popped, list) := popList cmd.op (min count list.length) list
    return (popReply cmd popped, putList list ttlMs)

def planLTrim (env : Env) (cmd : Command) (x : View) : Plan := do
  let old ← readView env Value.asList x
  let (list, ttlMs) := old.getD ([], 0)
  let start ← cmd.arg 0
  let stop ← cmd.arg 1
  return (.str (ascii "OK"),
    putList (sliceList list (parseInt start).1.toInt (parseInt stop).1.toInt) ttlMs)

def planLRem (env : Env) (cmd : Command) (x : View) : Plan := do
  let old ← readView env Value.asList x
  let (list, ttlMs) := old.getD ([], 0)
  let limit ← cmd.arg 0
  let needle ← cmd.arg 1
  let (kept, count) := lremLoop (parseInt limit).1 needle list
  return (.int count, putList kept ttlMs)

/-- A set is written back, or the emptied key deleted. -/
def putSet (set : GoSet) (ttlMs : Int64) : KeyAct :=
  if set.entries = [] then .drop else .put (.set set) ttlMs

def planSAdd (env : Env) (cmd : Command) (x : View) : Plan := do
  let old ← readView env Value.asSet x
  let (set, ttlMs) := old.getD (OrdMap.empty, 0)
  let (set, count) := saddLoop cmd.args set 0
  return (.int count, .put (.set set) ttlMs)

def planSRem (env : Env) (cmd : Command) (x : View) : Plan := do
  match ← readView env Value.asSet x with
  | none => return (if cmd.op = .spop then spopReply cmd [] else .int 0, .keep)
  | some (set, ttlMs) =>
    if cmd.op = .srem then
      let (set, count) := sremLoop cmd.args set 0
      return (.int count, putSet set ttlMs)
    else
      let (set, popped) := spopLoop (spopCount cmd) (env.pop.visit set.keys) set []
      return (spopReply cmd popped, putSet set ttlMs)

/-- The operations that name their keys in the arguments, or work on all keys. -/
def Op.multi : Op → Bool
  | .mset | .del | .flushdb => true
  | _ => false

/-- What a command on one key means, by the view of that key. -/
def plan (env : Env) (cmd : Command) (x : View) : Plan :=
  match cmd.op with
  | .set | .getset | .append => planSet env cmd x
  | .incr | .decr | .incrby | .decrby => planIncr env cmd x
  | .expire => planExpire cmd x
  | .persist => planPersist x
  | .hset | .hsetnx => planHSet env cmd x
  | .hdel => planHDel env cmd x
  | .lpush | .rpush | .lpushx | .rpushx => planPush env cmd x
  | .lpop | .rpop => planPop env cmd x
  | .ltrim => planLTrim env cmd x
  | .lrem => planLRem env cmd x
  | .sadd => planSAdd env cmd x
  | .srem | .spop => planSRem env cmd x
  | op => .error (.unknownOp op)

/-- The keys of the pairs of an `MSET`. -/
def msetKeys : List Bytes → List Bytes
  | k :: _ :: rest => k :: msetKeys rest
  | _ => []

/-- The value an `MSET` with these arguments leaves under `k`: that of the last pair for `k`. -/
def msetValue (k : Bytes) : List Bytes → Option Bytes
  | k' :: v :: rest => msetValue k rest <|> if k' = k then some v else none
  | _ => none

/-- What a command does to the key `k`, by the view of `k`. -/
def keyAct (env : Env) (cmd : Command) (k : Bytes) (x : View) : KeyAct :=
  match cmd.op with
  | .mset =>
    if cmd.args.length % 2 ≠ 0 then .keep
    else
      match msetValue k cmd.args with
      | none => .keep
      | some v => .put (.string v) 0
  | .del =>
    if x.isNone then .keep
    else if k ∈ cmd.args then .drop
    else if cmd.args = [] ∧ cmd.key ≠ [] ∧ cmd.key = k then .unset
    else .keep
  | .flushdb => .flush
  | _ =>
    if cmd.key = k then
      match plan env cmd x with
      | .error _ => .keep
      | .ok (_, act) => act
    else .keep

/-- The number of keys a `DEL` with these arguments finds; a key named twice is found once. -/
def delCount (present : Bytes → Bool) : List Bytes → Nat
  | [] => 0
  | k :: rest =>
    if present k then delCount (fun k' => k' ≠ k && present k') rest + 1 else delCount present rest

/-- The reply of a command, by the views of all keys. -/
def reply (env : Env) (cmd : Command) (views : Bytes → View) : Except Err Result :=
  match cmd.op with
  | .mset =>
    if cmd.args.length % 2 ≠ 0 then .error (.invalidArgs cmd.op) else .ok (.str (ascii "OK"))
  | .del =>
    let count := delCount (fun k => (views k).isSome) cmd.args
    if cmd.args = [] ∧ cmd.key ≠ [] ∧ (views cmd.key).isSome then .ok (.int (count + 1))
    else .ok (.int count)
  | .flushdb => .ok (.str (ascii "OK"))
  | _ => (plan env cmd (views cmd.key)).map Prod.fst

/-- The type under which a command writes the value of `k`, if it writes one. -/
def typeWritten (cmd : Command) (k : Bytes) : Option Bytes :=
  let typ : Option Bytes :=
    match cmd.op with
    | .set | .getset | .append | .incr | .decr | .incrby | .decrby => some typeString
    | .hset | .hsetnx | .hdel => some typeHash
    | .lpush | .rpush | .lpushx | .rpushx | .lpop | .rpop | .ltrim | .lrem => some typeList
    | .sadd | .srem | .spop => some typeSet
    | _ => none
  match cmd.op with
  | .mset => if (msetValue k cmd.args).isSome then some typeString else none
  | _ => if cmd.key = k then typ else none

/-- The time to live with which a command writes the value of a key that holds `x`. -/
def ttlWritten (env : Env) (cmd : Command) (x : View) : Int64 :=
  match cmd.op with
  | .set | .getset => cmd.ttlMs
  | .append => if cmd.ttlMs = 0 then oldTTLMs env x else cmd.ttlMs
  | .mset => 0
  | _ => oldTTLMs env x

/-! ## The two entries of a key -/

/-- The raw user entry and type entry of a key. -/
structure Slot where
  user : Option Entry
  type : Option Entry
deriving DecidableEq

namespace Slot

/-- The slot of `key` in the database. -/
def of (db : DB) (key : Bytes) : Slot := ⟨db.get? (userKey key), db.get? (typeKey key)⟩

/-- The type of the key at the clock reading `t`: a missing or expired type entry means a string. -/
def typ (t : Nat) (s : Slot) : Bytes :=
  match s.type.filter (Entry.live t) with
  | none => typeString
  | some item => item.value

/-- What the key holds at the clock reading `t`. -/
def view (c : Codec) (t : Nat) (s : Slot) : View :=
  (s.user.filter (Entry.live t)).map fun e => (Value.decode c (s.typ t) e.value, e.expiresAt)

end Slot

/-- The effect of an action on the two entries of its key. -/
def KeyAct.onSlot (c : Codec) (env : Env) (act : KeyAct) (s : Slot) : Slot :=
  match act with
  | .keep => s
  | .put v ttlMs =>
    ⟨some (withTTLMs env.clock.ttl ttlMs (newEntry (v.encode c env))),
      some (withTTLMs env.clock.ttlType ttlMs (newEntry v.typ))⟩
  | .expire ttlMs =>
    ⟨s.user.map fun e => (newEntry e.value).withTTL env.clock.ttl (ttlMs * 1000000), s.type⟩
  | .persist => ⟨s.user.map fun e => newEntry e.value, some (newEntry (s.typ env.clock.now))⟩
  | .drop => ⟨none, none⟩
  | .unset => ⟨none, s.type⟩
  | .flush =>
    ⟨s.user.filter fun e => !e.live env.clock.now, s.type.filter fun e => !e.live env.clock.now⟩

namespace DB

/-- Binding a key, or removing its binding. -/
def alter (db : DB) (key : Bytes) : Option Entry → DB
  | none => db.erase key
  | some e => db.insert key e

/-- The view of a key in the database. -/
def view (c : Codec) (t : Nat) (db : DB) (key : Bytes) : View := (Slot.of db key).view c t

/-- Whether the user entry of `k` is visible. -/
def present (t : Nat) (db : DB) (k : Bytes) : Bool := (db.getLive t (userKey k)).isSome

/-- Writing both entries of a key. -/
def setSlot (db : DB) (key : Bytes) (s : Slot) : DB :=
  DB.alter (DB.alter db (userKey key) s.user) (typeKey key) s.type

end DB

/-- A plan carried out on the database: an error changes nothing. -/
def Plan.run (c : Codec) (env : Env) (key : Bytes) (p : Plan) (db : DB) : Except Err Result × DB :=
  match p with
  | .error e => (.error e, db)
  | .ok (r, act) => (.ok r, DB.setSlot db key (act.onSlot c env (Slot.of db key)))

end Badis
