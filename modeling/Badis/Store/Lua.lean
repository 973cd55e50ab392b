import Badis.Lib.Sha1
import Badis.Store.Fsm

/-!
# `store/lua.go`: scripts

The script registry, and scripts that call commands inside the transaction of the command that runs
them. The Lua interpreter is not modelled: it is a parameter that turns a script and its arguments
into a `LuaProg`, the tree of the calls the script makes, by what it is told of the outcome of each.
A script may call EVAL in turn; the depth of that recursion, and of the conversion of a returned
table, is bounded by the Go stack (`fuel`).
-/

namespace Badis

open Lib

/-! ## Values -/

/-- A Lua number (a float64): `m * 2 ^ e`, or an infinity or NaN. -/
inductive LuaNumber where
  | finite (m e : Int)
  | special
deriving DecidableEq

/-- `lua.LNumber(n)` of an integer: rounded to 53 significant bits, ties to even. -/
def LuaNumber.ofInt (n : Int) : LuaNumber :=
  let unit := 2 ^ (n.natAbs.log2 + 1 - 53)
  let q := n.natAbs / unit
  let r := n.natAbs % unit
  let q := if unit < 2 * r ∨ 2 * r = unit ∧ q % 2 = 1 then q + 1 else q
  .finite (n.sign * (q * unit)) 0

/-- `int64(f)`: the fraction is cut off; what does not fit becomes the least integer (on amd64). -/
def LuaNumber.toInt64 : LuaNumber → Int64
  | .finite m e =>
    let v := if 0 ≤ e then m * 2 ^ e.toNat else m.tdiv (2 ^ (-e).toNat)
    if -2 ^ 63 ≤ v ∧ v < 2 ^ 63 then Int64.ofInt v else Int64.minValue
  | .special => Int64.minValue

/-- A Lua value; a table is an address in the heap, and `other` a function, userdata or thread with
its text. -/
inductive LuaValue where
  | nil
  | bool (b : Bool)
  | number (n : LuaNumber)
  | str (s : Bytes)
  | table (addr : Nat)
  | other (text : Bytes)
deriving DecidableEq

/-- The tables: under each address the values in the order `ForEach` visits them. -/
abbrev LuaHeap := List (List LuaValue)

/-- What a script gets from `redis.call`: a table only of strings. -/
inductive LuaReply where
  | nil
  | false
  | number (n : LuaNumber)
  | str (s : Bytes)
  | strs (l : List Bytes)
deriving DecidableEq

/-- The texts between brackets, separated by blanks. -/
def bracketed (texts : List Bytes) : Bytes := 91 :: ([32] : Bytes).intercalate texts ++ [93]

mutual

/-- `fmt.Sprintf("%v", v)`. -/
def sprint : Result → Bytes
  | .nil => ascii "<nil>"
  | .str s => s
  | .bytes b => bracketed ((b.getD []).map fun d => formatInt (Int64.ofNat d.toNat))
  | .int n => formatInt (Int64.ofNat n)
  | .int64 n => formatInt n
  | .strs l => bracketed l
  | .int64s l => bracketed (l.map formatInt)
  | .array l => bracketed (sprintAll l)

def sprintAll : List Result → List Bytes
  | [] => []
  | r :: rest => sprint r :: sprintAll rest

end

/-- `goToLuaValue`. -/
def goToLuaValue : Result → LuaReply
  | .nil => .false
  | .str s => .str s
  | .bytes b => .str (b.getD [])
  | .int n => .number (LuaNumber.ofInt n)
  | .int64 n => .number (LuaNumber.ofInt n.toInt)
  | .strs l => .strs l
  | r => .str (sprint r)

/-- `luaToGoValue`: `none` when the recursion is deeper than `fuel`. -/
def luaToGoValue (heap : LuaHeap) : Nat → LuaValue → Option Result
  | _, .nil => some .nil
  | _, .bool b => some (if b then .int64 1 else .nil)
  | _, .number n => some (.int64 n.toInt64)
  | _, .str s => some (.str s)
  | _, .other text => some (.str text)
  | 0, .table _ => none
  | fuel + 1, .table addr => ((heap.getD addr []).mapM (luaToGoValue heap fuel)).map .array

/-! ## The interpreter -/

/-- A script as it runs: it returns a value, fails with a message, or makes a call and goes on by
what comes of it. The arguments of a call are as `L.ToString` reads them; an error ends the script
or is caught by it, as `redis.call` and `redis.pcall` are used. -/
inductive LuaProg where
  | done (heap : LuaHeap) (ret : LuaValue)
  | fail (msg : Bytes)
  | call (args : List Bytes) (next : Except Err LuaReply → LuaProg)

/-- The interpreter: what a script does with `KEYS` and `ARGV`; and `strings.ToUpper` on texts that
are not ASCII. -/
structure LuaVM where
  run : (script : Bytes) → (keys argv : List Bytes) → LuaProg
  upper : Bytes → Bytes

/-- `strings.ToUpper`. -/
def LuaVM.toUpper (vm : LuaVM) (s : Bytes) : Bytes := Badis.toUpper vm.upper s

/-! ## The script registry -/

def scriptPrefix : Bytes := ascii "SCRIPT:"

/-- `getScriptKey`. -/
def getScriptKey (sha : Bytes) : Bytes := scriptPrefix ++ sha

/-- The text of the SHA-1 of a script. -/
def scriptSHA (script : Bytes) : Bytes := encodeHex (Sha1.sum script)

/-- Case `"SCRIPT_LOAD"`. -/
def scriptLoad (cmd : Command) : Tx Result :=
  match cmd.args with
  | [script] => do
    setEntry (getScriptKey (scriptSHA script)) (newEntry script)
    return .str (scriptSHA script)
  | _ => Txn.throw (.wrongArity (ascii "SCRIPT LOAD"))

/-- The loop of case `"SCRIPT_EXISTS"`. -/
def scriptExistsLoop (t : Nat) : List Bytes → Tx (List Int64)
  | [] => pure []
  | sha :: rest => do
    let item ← txnGet t (getScriptKey sha)
    let res ← scriptExistsLoop t rest
    return (if item.isSome then 1 else 0) :: res

/-- A slice of an iterator's key buffer after the buffer was reused for `key`. The buffer of a
script key, of 47 bytes, has room for 48; a longer key gets a new one. -/
def reuseBuffer (slice key : Bytes) : Bytes :=
  if key.length ≤ 48 then key.take slice.length ++ slice.drop key.length else slice

/-- Every second element. -/
def everySecond : List Bytes → List Bytes
  | a :: _ :: rest => a :: everySecond rest
  | l => l

/-- What the slices passed to `txn.Delete` hold when the loop of case `"SCRIPT_FLUSH"` is over. The
iterator reads one item ahead and has two buffers, so the key of an item is overwritten by that of
the second item after it, and so on to the end of the loop. `ahead` are the keys read while the loop
stood on a script: those of the scripts and of up to two items after them. -/
def tombstones : Nat → List Bytes → List Bytes
  | n + 1, key :: ahead => (everySecond (ahead.drop 1)).foldl reuseBuffer key :: tombstones n ahead
  | _, _ => []

/-- Case `"SCRIPT_FLUSH"`: what is deleted are the tombstones. They are written when the transaction
is committed, which is right after the command, unless a script calls it: what the script does after
such a call is not modelled exactly if the slices were overwritten. -/
def scriptFlush (t : Nat) : Tx Result := do
  Txn.modify fun db =>
    let keys := (db.liveEntries t).map Prod.fst |>.dropWhile fun k => k < scriptPrefix
    let n := (keys.takeWhile fun k => scriptPrefix.isPrefixOf k).length
    (tombstones n (keys.take (n + 2))).foldl (fun db k => db.erase k) db
  return .str (ascii "OK")

/-! ## Running a script -/

section Run

variable (vm : LuaVM)

/-- The option loop of `parseCommandForLua` for SET. Words it does not know are skipped. -/
def parseSetOptions : List Bytes → Command → Except Err Command
  | [], cmd => .ok cmd
  | word :: rest, cmd =>
    let arg := vm.toUpper word
    if arg = ascii "NX" then parseSetOptions rest { cmd with condition := .nx }
    else if arg = ascii "XX" then parseSetOptions rest { cmd with condition := .xx }
    else if arg = ascii "GET" then parseSetOptions rest { cmd with returnOld := true }
    else if arg = ascii "EX" ∨ arg = ascii "PX" then
      match rest with
      | [] => .error .syntaxError
      | n :: rest =>
        match parseInt n with
        | (_, false) => .error .luaNotInteger
        | (ttl, true) =>
          parseSetOptions rest { cmd with ttlMs := if arg = ascii "EX" then ttl * 1000 else ttl }
    else parseSetOptions rest cmd

/-- `parseCommandForLua`: the command of a call with this name, in upper case, and these
arguments. -/
def parseCommandForLua (op : Bytes) (args : List Bytes) : Except Err Command :=
  if op = ascii "SET" then
    match args with
    | key :: val :: options => parseSetOptions vm options { op := .set, key := key, args := [val] }
    | _ => .error (.wrongArity (ascii "'set' command"))
  else .ok { op := Op.ofName op, key := args.headD [], args := args.tail }

/-- The loop of EXISTS in `luaRedisCall`. -/
def luaExistsLoop (t : Nat) : List Bytes → Nat → Tx Nat
  | [], count => pure count
  | key :: rest, count => do
    let item ← txnGet t (userKey key)
    luaExistsLoop t rest (if item.isSome then count + 1 else count)

/-- `luaRedisCall`, given how to apply a command. -/
def luaRedisCall (t : Nat) (apply : Command → Tx Result) (args : List Bytes) : Tx LuaReply :=
  match args with
  | [] => Txn.throw .noCallArgs
  | name :: rest =>
    let op := vm.toUpper name
    if op = ascii "GET" then
      match rest with
      | [key] => do
        match ← txnGet t (userKey key) with
        | none => return .nil
        | some item => return .str item.value
      | _ => Txn.throw (.wrongArity (ascii "'get' command"))
    else if op = ascii "EXISTS" then
      match rest with
      | [] => Txn.throw (.wrongArity (ascii "'exists' command"))
      | keys => do
        let count ← luaExistsLoop t keys 0
        return .number (LuaNumber.ofInt count)
    else if op = ascii "TYPE" then
      match rest with
      | [key] => do
        match ← txnGet t (typeKey key) with
        | none => return .str (ascii "none")
        | some item => return .str item.value
      | _ => Txn.throw (.wrongArity (ascii "'type' command"))
    else do
      let cmd ← (parseCommandForLua vm op rest : Except Err Command)
      let res ← apply cmd
      return goToLuaValue res

/-- `L.DoString` and the conversion of what it returns. Call number `n` of the script reads the
clock at `times n` and applies commands by `apply n`. -/
def doString (fuel : Nat) (times : Nat → Nat) (apply : Nat → Command → Tx Result) :
    LuaProg → Nat → Tx Result
  | .done heap ret, _ =>
    match luaToGoValue heap fuel ret with
    | some r => pure r
    | none => Txn.throw .stackOverflow
  | .fail msg, _ => Txn.throw (.script msg)
  | .call args next, n => do
    match ← Txn.attempt (luaRedisCall vm (times n) (apply n) args) with
    | .error .stackOverflow => Txn.throw .stackOverflow
    | r => doString fuel times apply (next r) (n + 1)

/-- `runLua`. -/
def runLua (fuel : Nat) (times : Nat → Nat) (apply : Nat → Command → Tx Result) (script : Bytes)
    (evalArgs : List Bytes) : Tx Result :=
  match evalArgs with
  | [] => Txn.throw .panic
  | numKeysStr :: rest =>
    match parseInt numKeysStr with
    | (_, false) => Txn.throw .luaNotInteger
    | (numKeys, true) =>
      if numKeys < 0 then Txn.throw .luaNotInteger
      else if (rest.length : Int) < numKeys.toInt then Txn.throw .tooManyKeys
      else
        let n := numKeys.toInt.toNat
        doString vm fuel times apply (vm.run script (rest.take n) (rest.drop n)) 0

/-- `handleLuaCommand`. -/
def handleLuaCommand (fuel : Nat) (env : Env) (times : Nat → Nat)
    (apply : Nat → Command → Tx Result) (cmd : Command) : Tx Result :=
  match cmd.op with
  | .scriptLoad => scriptLoad cmd
  | .scriptExists => do
    let res ← scriptExistsLoop env.clock.now cmd.args
    return .int64s res
  | .scriptFlush => scriptFlush env.clock.now
  | .evalsha =>
    match cmd.args with
    | sha :: arg :: rest => do
      match ← txnGet env.clock.now (getScriptKey sha) with
      | none => Txn.throw .noScript
      | some item => runLua vm fuel times apply item.value (arg :: rest)
    | _ => Txn.throw (.wrongArity (ascii "EVALSHA"))
  | .eval =>
    match cmd.args with
    | script :: arg :: rest => runLua vm fuel times apply script (arg :: rest)
    | _ => Txn.throw (.wrongArity (ascii "EVAL"))
  | op => Txn.throw (.unknownOp op)

variable (c : Codec)

/-- `applyCmdInTxn`. The execution of a command sees `envs []`, that of call number `n` of its
script `envs [n]`, and so on inwards. -/
def applyCmdInTxn : Nat → (List Nat → Env) → Command → Tx Result
  | 0, envs, cmd =>
    if cmd.op.script then Txn.throw .stackOverflow else applyData c (envs []) cmd
  | fuel + 1, envs, cmd =>
    if cmd.op.script then
      handleLuaCommand vm fuel (envs []) (fun n => (envs [n]).clock.now)
        (fun n => applyCmdInTxn fuel fun path => envs (n :: path)) cmd
    else applyData c (envs []) cmd

/-- `FSM.Apply` of any command. -/
def fsmApply (fuel : Nat) (envs : List Nat → Env) (cmd : Command) (db : DB) :
    Except Err Result × DB :=
  Txn.atomically (applyCmdInTxn vm c fuel envs cmd) db

/-- Commands without scripts are those of `applyCmd`. -/
theorem fsmApply_of_not_script {cmd : Command} (h : cmd.op.script = false) (fuel : Nat)
    (envs : List Nat → Env) (db : DB) :
    fsmApply vm c fuel envs cmd db = applyCmd c (envs []) cmd db := by
  unfold fsmApply applyCmd
  cases fuel <;> simp [applyCmdInTxn, h]

end Run

end Badis
