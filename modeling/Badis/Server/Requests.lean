import Badis.Server.Handlers

/-!
# `server/server.go` and `server/lua_handlers.go`: requests

Every handler of the mux. A handler gets the argument vector of a request, the command name first,
and either answers at once with a list of `conn.Write*` calls, from what the FSM reads in the local
database, or has a command applied and answers by what comes of it (`Action`). Indexing the argument
vector is checked: `Err.panic` is a handler that panics.
-/

namespace Badis

open Lib

/-! ## What a handler sees and does -/

/-- The parameters of the handlers: the msgpack codec and the text of its errors, `strings.ToUpper`
and `strings.ToLower` on texts that are not ASCII, and the address of the server. -/
structure Server where
  codec : Codec
  codecText : Bytes
  upper : Bytes → Bytes
  lower : Bytes → Bytes
  addr : Bytes

/-- `connectionContext`. -/
structure ConnectionContext where
  clientName : Bytes := []
  libName : Bytes := []
  libVer : Bytes := []
deriving DecidableEq

/-- The connection of a client. -/
structure Conn where
  remoteAddr : Bytes
  ctx : ConnectionContext
deriving DecidableEq

/-- What one `db.View` of a request sees: the database, the clock, and the order in which a `range`
over a map visits its keys. -/
structure ReadView where
  db : DB
  now : Nat
  order : RangeOrder

/-- What becomes of a command handed to raft: an error of the future, or what `FSM.Apply`
returned. -/
inductive Outcome where
  | raftError (text : Bytes)
  | applied (r : Except Err Result)

/-- What a handler does. -/
inductive Action where
  /-- It answers. -/
  | write (ws : List Write)
  /-- It answers, and the connection remembers something. -/
  | client (ws : List Write) (ctx : ConnectionContext)
  /-- It has a command applied, and answers by the outcome. -/
  | apply (cmd : Command) (reply : Outcome → List Write)

/-- What is written to the client, by the outcome of the command if there is one. -/
def Action.replies : Action → Outcome → List Write
  | .write ws, _ => ws
  | .client ws _, _ => ws
  | .apply _ reply, o => reply o

/-- The command of a request, if it is not rejected. -/
def requestCommand : Except Err Action → Option Command
  | .ok (.apply cmd _) => some cmd
  | _ => none

/-- `strings.ToLower`; `lower` is what it does to texts that are not ASCII. -/
def toLower (lower : Bytes → Bytes) (s : Bytes) : Bytes :=
  if s.all fun b => b < 128 then s.map fun b => if 65 ≤ b ∧ b ≤ 90 then b + 32 else b
  else lower s

def wrongNumber : Bytes := ascii "ERR wrong number of arguments"

/-- `WriteArray(len(l))` and the strings. -/
def writeStrings (l : List Bytes) : List Write := .array l.length :: l.map .bulk

/-- `WriteArray(len(l))` and the values, a nil slice as a null. -/
def writeBulks (l : List (Option Bytes)) : List Write :=
  .array l.length :: l.map fun
    | none => .null
    | some b => .bulk b

/-- `applyCommand` from the outcome on. -/
def applyReply (codecText : Bytes) : Outcome → List Write
  | .raftError text => [.error (ascii "ERR " ++ text)]
  | .applied (.error err) => [.error (ascii "ERR " ++ err.text codecText)]
  | .applied (.ok .nil) => [.null]
  | .applied (.ok (.str s)) => [.string s]
  | .applied (.ok (.bytes b)) => [.bulk (b.getD [])]
  | .applied (.ok (.int n)) => [.int n]
  | .applied (.ok (.int64 n)) => [.int n.toInt]
  | .applied (.ok (.strs l)) => writeStrings l
  | .applied (.ok _) => [.string (ascii "OK")]

/-- `handleSet` from the outcome on. -/
def setOutcome (codecText : Bytes) (c : Command) : Outcome → List Write
  | .raftError text => [.error (ascii "ERR " ++ text)]
  | .applied r => handleSetReply codecText c r

/-- An error reply. -/
def refuse (msg : Bytes) : Except Err Action := .ok (.write [.error msg])

section Handlers

variable (srv : Server) (views : Nat → ReadView) (args : List Bytes)

/-- What an FSM read returns in the first view of the request. -/
def readFirst {α : Type} (m : Nat → Tx α) : Except Err α := ((m (views 0).now).run (views 0).db).1

/-- The reply to an FSM read: its error, or what `ok` writes. -/
def answer {α : Type} (r : Except Err α) (ok : α → List Write) : Except Err Action :=
  match r with
  | .error .panic => .error .panic
  | .error err => .ok (.write [.error (err.text srv.codecText)])
  | .ok a => .ok (.write (ok a))

/-- `applyCommand`. -/
def applyCommand (cmd : Command) : Except Err Action := .ok (.apply cmd (applyReply srv.codecText))

/-- The arguments at some positions. -/
def argsAt (positions : List Nat) : Except Err (List Bytes) :=
  positions.mapM fun i => goIndex args (i : Nat)

/-- The loop `for i := start; i < len(cmd.Args); i++ { args = append(args, cmd.Args[i]) }`. -/
def argsFrom (start : Nat) : Except Err (List Bytes) :=
  argsAt args (List.range' start (args.length - start))

/-- A write with a fixed number of arguments: a key, and the arguments at some positions. -/
def handleFixed (op : Op) (arity : Nat) (positions : List Nat) : Except Err Action := do
  if args.length ≠ arity then refuse wrongNumber
  else applyCommand srv { op := op, key := ← goIndex args 1, args := ← argsAt args positions }

/-- A write with a key and at least one more argument. -/
def handleVariadic (op : Op) : Except Err Action := do
  if args.length < 3 then refuse wrongNumber
  else applyCommand srv { op := op, key := ← goIndex args 1, args := ← argsFrom args 2 }

/-- A read of one key. -/
def handleKeyRead {α : Type} (m : Bytes → Nat → Tx α) (ok : α → List Write) :
    Except Err Action := do
  if args.length ≠ 2 then refuse wrongNumber
  else answer srv (readFirst views (m (← goIndex args 1))) ok

/-- A read of one key with one more argument. -/
def handleFieldRead {α : Type} (m : Bytes → Bytes → Nat → Tx α) (ok : α → List Write) :
    Except Err Action := do
  if args.length ≠ 3 then refuse wrongNumber
  else answer srv (readFirst views (m (← goIndex args 1) (← goIndex args 2))) ok

/-- A value that may be the nil slice. -/
def writeBulk : Option Bytes → List Write
  | none => [.null]
  | some b => [.bulk b]

/-- `WriteInt`. -/
def writeNat (n : Nat) : List Write := [.int n]

/-! ## Connection and strings -/

/-- `handleClient`. -/
def handleClient (conn : Conn) : Except Err Action := do
  if args.length < 2 then refuse (ascii "ERR wrong number of arguments for 'client' command")
  else
    let subcmd := toUpper srv.upper (← goIndex args 1)
    if subcmd = ascii "SETNAME" then
      if args.length ≠ 3 then
        refuse (ascii "ERR wrong number of arguments for 'client|setname' command")
      else
        let name ← goIndex args 2
        return .client [.string (ascii "OK")] { conn.ctx with clientName := name }
    else if subcmd = ascii "GETNAME" then
      if args.length ≠ 2 then
        refuse (ascii "ERR wrong number of arguments for 'client|getname' command")
      else if conn.ctx.clientName = [] then return .write [.null]
      else return .write [.bulk conn.ctx.clientName]
    else if subcmd = ascii "SETINFO" then
      if args.length ≠ 4 then
        refuse (ascii "ERR wrong number of arguments for 'client|setinfo' command")
      else
        let attr := toUpper srv.upper (← goIndex args 2)
        let val ← goIndex args 3
        if attr = ascii "LIB-NAME" then
          return .client [.string (ascii "OK")] { conn.ctx with libName := val }
        else if attr = ascii "LIB-VER" then
          return .client [.string (ascii "OK")] { conn.ctx with libVer := val }
        else refuse (ascii "ERR syntax error")
    else if subcmd = ascii "INFO" then
      if args.length ≠ 2 then
        refuse (ascii "ERR wrong number of arguments for 'client|info' command")
      else
        return .write
          [.bulk (ascii "id=1 addr=" ++ conn.remoteAddr ++ ascii " laddr=" ++ srv.addr ++
          ascii " fd=0 name=" ++ conn.ctx.clientName ++
          ascii " age=0 idle=0 flags=N db=0 sub=0 psub=0 ssub=0 multi=-1 qbuf=0 qbuf-free=0" ++
          ascii " argv-mem=0 multi-mem=0 rbs=0 rbp=0 obl=0 oll=0 omem=0 tot-mem=0 events=r" ++
          ascii " cmd=client user=default redir=-1 resp=2 lib-name=" ++
          conn.ctx.libName ++ ascii " lib-ver=" ++ conn.ctx.libVer)]
    else
      refuse (ascii "ERR unknown subcommand '" ++ toLower srv.lower subcmd ++
        ascii "'. Try CLIENT HELP.")

/-- The option loop of `handleSet` from index `i` on. -/
def setOptionLoopChecked (t : Nat) : (rounds i : Nat) → Command → Except Err (Except Bytes Command)
  | 0, _, c => .ok (.ok c)
  | rounds + 1, i, c =>
    if i < args.length then do
      let opt := toUpper srv.upper (← goIndex args i)
      if opt = ascii "NX" then setOptionLoopChecked t rounds (i + 1) { c with condition := .nx }
      else if opt = ascii "XX" then
        setOptionLoopChecked t rounds (i + 1) { c with condition := .xx }
      else if opt = ascii "GET" then
        setOptionLoopChecked t rounds (i + 1) { c with returnOld := true }
      else
        match timedOption t opt with
        | none => return .error (ascii "ERR syntax error")
        | some ttlMs =>
          if args.length ≤ i + 1 then return .error (ascii "ERR syntax error")
          else
            match parseInt (← goIndex args (i + 1 : Nat)) with
            | (_, false) => return .error (ascii "ERR value is not an integer or out of range")
            | (n, true) => setOptionLoopChecked t rounds (i + 2) { c with ttlMs := ttlMs n }
    else .ok (.ok c)

/-- `handleSet`. -/
def handleSet : Except Err Action := do
  if args.length < 3 then refuse (wrongArgs args)
  else
    let key ← goIndex args 1
    let val ← goIndex args 2
    let c : Command := { op := .set, key := key, args := [val] }
    match ← setOptionLoopChecked srv args (views 0).now args.length 3 c with
    | .error msg => refuse msg
    | .ok c => return .apply c (setOutcome srv.codecText c)

/-- `handleDel`, also for `unlink`. -/
def handleDel : Except Err Action := do
  if args.length < 2 then refuse (wrongArgs args)
  else applyCommand srv { op := .del, args := ← argsFrom args 1 }

/-- `handleMSet`. -/
def handleMSet : Except Err Action := do
  if args.length < 3 ∨ args.length % 2 = 0 then refuse (wrongArgs args)
  else applyCommand srv { op := .mset, args := ← argsFrom args 1 }

/-- `handleMGet`. -/
def handleMGet : Except Err Action := do
  if args.length < 2 then refuse (wrongArgs args)
  else
    let keys ← argsFrom args 1
    answer srv (readFirst views fun t => getStrings t keys) writeBulks

/-- `handleType`. -/
def handleType : Except Err Action :=
  handleKeyRead srv views args (fun key t => fsmType t key) fun typ => [.string typ]

/-- `handleKeys`: every error of `FSM.Keys` is a syntax error. -/
def handleKeys : Except Err Action := do
  if args.length ≠ 2 then refuse wrongNumber
  else
    let pattern ← goIndex args 1
    match readFirst views fun t => fsmKeysChecked t pattern with
    | .error .panic => .error .panic
    | .error _ => refuse (ascii "ERR syntax error")
    | .ok keys => return .write (writeStrings keys)

/-- `handleExists` and `handleTouch`. -/
def handleCount : Except Err Action := do
  if args.length < 2 then refuse wrongNumber
  else
    let keys ← argsFrom args 1
    answer srv (readFirst views fun t => fsmExists t keys) writeNat

def handleTouch : Except Err Action := handleCount srv views args

def handleExists : Except Err Action := handleCount srv views args

def handlePersist : Except Err Action := handleFixed srv args .persist 2 []

def handleAppend : Except Err Action := handleFixed srv args .append 3 [2]

def handleGetSet : Except Err Action := handleFixed srv args .getset 3 [2]

def handleIncrBy : Except Err Action := handleFixed srv args .incrby 3 [2]

def handleDecrBy : Except Err Action := handleFixed srv args .decrby 3 [2]

def handleIncr : Except Err Action := handleFixed srv args .incr 2 []

def handleDecr : Except Err Action := handleFixed srv args .decr 2 []

def handlePTTL : Except Err Action :=
  handleKeyRead srv views args (fun key t => fsmPTTL t key) fun ttl => [.int ttl]

def handleTTL : Except Err Action :=
  handleKeyRead srv views args (fun key t => fsmTTL t key) fun ttl => [.int ttl]

def handleStrLen : Except Err Action :=
  handleKeyRead srv views args (fun key t => strLen t key) writeNat

/-- `handleSetEx`: a SET with an expiry. -/
def handleSetEx : Except Err Action := do
  if args.length ≠ 4 then refuse wrongNumber
  else
    match parseInt (← goIndex args 2) with
    | (secs, parsed) =>
      if parsed = false ∨ secs ≤ 0 then refuse (ascii "ERR invalid expire time in 'setex' command")
      else
        let key ← goIndex args 1
        let val ← goIndex args 3
        applyCommand srv { op := .set, key := key, args := [val], ttlMs := secs * 1000 }

/-- `handleFlushDB`. -/
def handleFlushDB : Except Err Action := do
  if args.length ≠ 1 ∧ args.length ≠ 2 then
    refuse (ascii "ERR wrong number of arguments for 'flushdb' command")
  else if args.length = 2 then
    let mode := toUpper srv.upper (← goIndex args 1)
    if mode ≠ ascii "SYNC" ∧ mode ≠ ascii "ASYNC" then refuse (ascii "ERR syntax error")
    else applyCommand srv { op := .flushdb }
  else applyCommand srv { op := .flushdb }

/-- `handleExpire`. -/
def handleExpire : Except Err Action := do
  if args.length ≠ 3 then refuse wrongNumber
  else
    match parseInt (← goIndex args 2) with
    | (_, false) => refuse (ascii "ERR value is not an integer")
    | (secs, true) =>
      applyCommand srv { op := .expire, key := ← goIndex args 1, ttlMs := secs * 1000 }

/-! ## Hashes -/

/-- `handleHSet`. -/
def handleHSet : Except Err Action := do
  if args.length < 4 ∨ args.length % 2 ≠ 0 then refuse wrongNumber
  else applyCommand srv { op := .hset, key := ← goIndex args 1, args := ← argsFrom args 2 }

def handleHSetNX : Except Err Action := handleFixed srv args .hsetnx 4 [2, 3]

def handleHDel : Except Err Action := handleVariadic srv args .hdel

def handleHGet : Except Err Action :=
  handleFieldRead srv views args (fun key field t => hGet srv.codec t key field) writeBulk

/-- `handleHGetAll`: fields and values, in the order the map is visited. -/
def handleHGetAll : Except Err Action :=
  handleKeyRead srv views args (fun key t => hGetAll srv.codec t key) fun hash =>
    .array (hash.entries.length * 2) ::
      (rangeMap (views 0).order hash).flatMap fun entry => [.bulk entry.1, .bulk entry.2]

def handleHExists : Except Err Action :=
  handleFieldRead srv views args (fun key field t => hExists srv.codec t key field) writeNat

def handleHLen : Except Err Action :=
  handleKeyRead srv views args (fun key t => hLen srv.codec t key) writeNat

def handleHKeys : Except Err Action :=
  handleKeyRead srv views args (fun key t => hKeys srv.codec t key (views 0).order) writeStrings

def handleHVals : Except Err Action :=
  handleKeyRead srv views args (fun key t => hVals srv.codec t key (views 0).order) writeStrings

/-- `handleHMGet`. -/
def handleHMGet : Except Err Action := do
  if args.length < 3 then refuse wrongNumber
  else
    let fields ← argsFrom args 2
    let key ← goIndex args 1
    answer srv (readFirst views fun t => hMGet srv.codec t key fields) writeBulks

/-! ## Lists -/

def handleLPush : Except Err Action := handleVariadic srv args .lpush

def handleLPushX : Except Err Action := handleVariadic srv args .lpushx

def handleRPush : Except Err Action := handleVariadic srv args .rpush

def handleRPushX : Except Err Action := handleVariadic srv args .rpushx

/-- `handleLPop` and `handleRPop`: a count may follow the key. -/
def handlePop (op : Op) : Except Err Action := do
  if args.length ≠ 2 ∧ args.length ≠ 3 then refuse wrongNumber
  else
    let count ← argsAt args (if args.length = 3 then [2] else [])
    applyCommand srv { op := op, key := ← goIndex args 1, args := count }

def handleLPop : Except Err Action := handlePop srv args .lpop

def handleRPop : Except Err Action := handlePop srv args .rpop

/-- `handleLRange`. -/
def handleLRange : Except Err Action := do
  if args.length ≠ 4 then refuse wrongNumber
  else
    let start := parseInt (← goIndex args 2)
    let stop := parseInt (← goIndex args 3)
    if start.2 = false ∨ stop.2 = false then refuse (ascii "ERR value is not an integer")
    else
      let key ← goIndex args 1
      answer srv (readFirst views fun t => lRange srv.codec t key start.1.toInt stop.1.toInt)
        writeStrings

def handleLLen : Except Err Action :=
  handleKeyRead srv views args (fun key t => lLen srv.codec t key) writeNat

/-- `handleLIndex`. -/
def handleLIndex : Except Err Action := do
  if args.length ≠ 3 then refuse wrongNumber
  else
    match parseInt (← goIndex args 2) with
    | (_, false) => refuse (ascii "ERR value is not an integer")
    | (index, true) =>
      let key ← goIndex args 1
      answer srv (readFirst views fun t => lIndex srv.codec t key index.toInt) writeBulk

/-- `handleLTrim`. -/
def handleLTrim : Except Err Action := do
  if args.length ≠ 4 then refuse wrongNumber
  else if (parseInt (← goIndex args 2)).2 = false then refuse (ascii "ERR value is not an integer")
  else if (parseInt (← goIndex args 3)).2 = false then refuse (ascii "ERR value is not an integer")
  else applyCommand srv { op := .ltrim, key := ← goIndex args 1, args := ← argsAt args [2, 3] }

/-- `handleLRem`. -/
def handleLRem : Except Err Action := do
  if args.length ≠ 4 then refuse wrongNumber
  else if (parseInt (← goIndex args 2)).2 = false then refuse (ascii "ERR value is not an integer")
  else applyCommand srv { op := .lrem, key := ← goIndex args 1, args := ← argsAt args [2, 3] }

/-! ## Sets -/

def handleSAdd : Except Err Action := handleVariadic srv args .sadd

def handleSRem : Except Err Action := handleVariadic srv args .srem

/-- `handleSPop`. -/
def handleSPop : Except Err Action := do
  if args.length ≠ 2 ∧ args.length ≠ 3 then refuse wrongNumber
  else if args.length = 3 then
    match parseInt (← goIndex args 2) with
    | (count, parsed) =>
      if parsed = false ∨ count < 0 then
        refuse (ascii "ERR value is not an integer or out of range")
      else applyCommand srv { op := .spop, key := ← goIndex args 1, args := ← argsAt args [2] }
  else applyCommand srv { op := .spop, key := ← goIndex args 1 }

def handleSMembers : Except Err Action :=
  handleKeyRead srv views args (fun key t => sMembers srv.codec t key) writeStrings

def handleSIsMember : Except Err Action :=
  handleFieldRead srv views args (fun key member t => sIsMember srv.codec t key member) writeNat

def handleSCard : Except Err Action :=
  handleKeyRead srv views args (fun key t => sCard srv.codec t key) writeNat

/-- `handleSRandMember`. -/
def handleSRandMember : Except Err Action := do
  if args.length = 3 then
    match parseInt (← goIndex args 2) with
    | (_, false) => refuse (ascii "ERR value is not an integer")
    | (count, true) =>
      let key ← goIndex args 1
      answer srv (readFirst views fun t => sRandMember srv.codec t key (some count)) writeStrings
  else
    handleKeyRead srv views args (fun key t => sRandMember srv.codec t key none) fun
      | [] => [.null]
      | member :: _ => [.bulk member]

/-- The loop of `handleSMIsMember` over the arguments from `i` on, each looked up in a transaction
of its own: what it writes after the header. -/
def isMemberLoop : (rounds i : Nat) → Except Err (List Write)
  | 0, _ => .ok []
  | rounds + 1, i => do
    let key ← goIndex args 1
    let member ← goIndex args (i : Nat)
    let view := views (i - 2)
    match ((sIsMember srv.codec view.now key member).run view.db).1 with
    | .error .panic => .error .panic
    | .error err => return [.error (err.text srv.codecText)]
    | .ok n =>
      let ws ← isMemberLoop rounds (i + 1)
      return .int n :: ws

/-- `handleSMIsMember`: the header goes out before the first lookup. -/
def handleSMIsMember : Except Err Action := do
  if args.length < 3 then refuse wrongNumber
  else
    let ws ← isMemberLoop srv views args (args.length - 2) 2
    return .write (.array (args.length - 2) :: ws)

/-! ## Scripts -/

/-- `handleEval` and `handleEvalSha`. -/
def handleScriptCall (op : Op) (name : Bytes) : Except Err Action := do
  if args.length < 3 then
    refuse (ascii "ERR wrong number of arguments for '" ++ name ++ ascii "' command")
  else
    match parseInt (← goIndex args 2) with
    | (numKeys, parsed) =>
      if parsed = false ∨ numKeys < 0 then
        refuse (ascii "ERR value is not an integer or out of range")
      -- the sum wraps
      else if (args.length : Int) < (3 + numKeys).toInt then
        refuse (ascii "ERR Number of keys can't be greater than number of args")
      else applyCommand srv { op := op, args := ← Slice.slice .panic args 1 args.length }

def handleEval : Except Err Action := handleScriptCall srv args .eval (ascii "eval")

def handleEvalSha : Except Err Action := handleScriptCall srv args .evalsha (ascii "evalsha")

/-- `handleScript`. -/
def handleScript : Except Err Action := do
  if args.length < 2 then refuse (ascii "ERR wrong number of arguments for 'script' command")
  else
    let subcmd := toUpper srv.upper (← goIndex args 1)
    if subcmd = ascii "LOAD" then
      if args.length ≠ 3 then
        refuse (ascii "ERR wrong number of arguments for 'script|load' command")
      else applyCommand srv { op := .scriptLoad, args := ← argsAt args [2] }
    else if subcmd = ascii "EXISTS" then
      if args.length < 3 then
        refuse (ascii "ERR wrong number of arguments for 'script|exists' command")
      else applyCommand srv { op := .scriptExists, args := ← Slice.slice .panic args 2 args.length }
    else if subcmd = ascii "FLUSH" then applyCommand srv { op := .scriptFlush }
    else refuse (ascii "ERR Unknown SCRIPT subcommand or wrong number of arguments")

end Handlers

/-! ## The mux -/

/-- The commands of the mux. -/
inductive Verb where
  | ping | client | set | get | del | unlink | type | keys | touch | persist | pttl | mset
  | mget | flushdb | append | strlen | getset | incrby | decrby | setex | incr | decr | existsKeys
  | expire | ttl | hset | hsetnx | hget | hgetall | hdel | hexists | hlen | hkeys | hvals
  | hmget | lpush | rpush | lpushx | rpushx | lpop | rpop | lrange | llen | lindex | ltrim
  | lrem | sadd | smembers | sismember | scard | srem | spop | srandmember | smismember | eval
  | evalsha | script
deriving DecidableEq

namespace Verb

/-- The name under which a command is registered. -/
def name : Verb → Bytes
  | ping => ascii "ping"
  | client => ascii "client"
  | set => ascii "set"
  | get => ascii "get"
  | del => ascii "del"
  | unlink => ascii "unlink"
  | type => ascii "type"
  | keys => ascii "keys"
  | touch => ascii "touch"
  | persist => ascii "persist"
  | pttl => ascii "pttl"
  | mset => ascii "mset"
  | mget => ascii "mget"
  | flushdb => ascii "flushdb"
  | append => ascii "append"
  | strlen => ascii "strlen"
  | getset => ascii "getset"
  | incrby => ascii "incrby"
  | decrby => ascii "decrby"
  | setex => ascii "setex"
  | incr => ascii "incr"
  | decr => ascii "decr"
  | existsKeys => ascii "exists"
  | expire => ascii "expire"
  | ttl => ascii "ttl"
  | hset => ascii "hset"
  | hsetnx => ascii "hsetnx"
  | hget => ascii "hget"
  | hgetall => ascii "hgetall"
  | hdel => ascii "hdel"
  | hexists => ascii "hexists"
  | hlen => ascii "hlen"
  | hkeys => ascii "hkeys"
  | hvals => ascii "hvals"
  | hmget => ascii "hmget"
  | lpush => ascii "lpush"
  | rpush => ascii "rpush"
  | lpushx => ascii "lpushx"
  | rpushx => ascii "rpushx"
  | lpop => ascii "lpop"
  | rpop => ascii "rpop"
  | lrange => ascii "lrange"
  | llen => ascii "llen"
  | lindex => ascii "lindex"
  | ltrim => ascii "ltrim"
  | lrem => ascii "lrem"
  | sadd => ascii "sadd"
  | smembers => ascii "smembers"
  | sismember => ascii "sismember"
  | scard => ascii "scard"
  | srem => ascii "srem"
  | spop => ascii "spop"
  | srandmember => ascii "srandmember"
  | smismember => ascii "smismember"
  | eval => ascii "eval"
  | evalsha => ascii "evalsha"
  | script => ascii "script"

/-- The registered commands. -/
def all : List Verb :=
  [ping, client, set, get, del, unlink, type, keys, touch, persist, pttl, mset, mget, flushdb,
    append, strlen, getset, incrby, decrby, setex, incr, decr, existsKeys, expire, ttl, hset,
    hsetnx, hget, hgetall, hdel, hexists, hlen, hkeys, hvals, hmget, lpush, rpush, lpushx, rpushx,
    lpop, rpop, lrange, llen, lindex, ltrim, lrem, sadd, smembers, sismember, scard, srem, spop,
    srandmember, smismember, eval, evalsha, script]

/-- The command registered under a name. -/
def ofName? (name : Bytes) : Option Verb := all.find? fun verb => verb.name = name

/-- The handler registered for a command. -/
def handler (srv : Server) (views : Nat → ReadView) (conn : Conn) (args : List Bytes) :
    Verb → Except Err Action
  | ping => .ok (.write [.string (ascii "PONG")])
  | client => handleClient srv args conn
  | set => handleSet srv views args
  | get => .ok (.write (handleGet srv.codecText (views 0).now args (views 0).db))
  | del => handleDel srv args
  | unlink => handleDel srv args
  | type => handleType srv views args
  | keys => handleKeys views args
  | touch => handleTouch srv views args
  | persist => handlePersist srv args
  | pttl => handlePTTL srv views args
  | mset => handleMSet srv args
  | mget => handleMGet srv views args
  | flushdb => handleFlushDB srv args
  | append => handleAppend srv args
  | strlen => handleStrLen srv views args
  | getset => handleGetSet srv args
  | incrby => handleIncrBy srv args
  | decrby => handleDecrBy srv args
  | setex => handleSetEx srv args
  | incr => handleIncr srv args
  | decr => handleDecr srv args
  | existsKeys => handleExists srv views args
  | expire => handleExpire srv args
  | ttl => handleTTL srv views args
  | hset => handleHSet srv args
  | hsetnx => handleHSetNX srv args
  | hget => handleHGet srv views args
  | hgetall => handleHGetAll srv views args
  | hdel => handleHDel srv args
  | hexists => handleHExists srv views args
  | hlen => handleHLen srv views args
  | hkeys => handleHKeys srv views args
  | hvals => handleHVals srv views args
  | hmget => handleHMGet srv views args
  | lpush => handleLPush srv args
  | rpush => handleRPush srv args
  | lpushx => handleLPushX srv args
  | rpushx => handleRPushX srv args
  | lpop => handleLPop srv args
  | rpop => handleRPop srv args
  | lrange => handleLRange srv views args
  | llen => handleLLen srv views args
  | lindex => handleLIndex srv views args
  | ltrim => handleLTrim srv args
  | lrem => handleLRem srv args
  | sadd => handleSAdd srv args
  | smembers => handleSMembers srv views args
  | sismember => handleSIsMember srv views args
  | scard => handleSCard srv views args
  | srem => handleSRem srv args
  | spop => handleSPop srv args
  | srandmember => handleSRandMember srv views args
  | smismember => handleSMIsMember srv views args
  | eval => handleEval srv args
  | evalsha => handleEvalSha srv args
  | script => handleScript srv args

end Verb

/-- The command that a name selects. -/
abbrev Server.verb? (srv : Server) (name : Bytes) : Option Verb :=
  Verb.ofName? (toLower srv.lower name)

/-- `mux.ServeRESP`: the handler is looked up under the lower-case name. -/
def serveRESP (srv : Server) (views : Nat → ReadView) (conn : Conn) (args : List Bytes) :
    Except Err Action := do
  let command := toLower srv.lower (← goIndex args 0)
  match Verb.ofName? command with
  | none => refuse (ascii "ERR unknown command '" ++ command ++ ascii "'")
  | some verb => verb.handler srv views conn args

end Badis
