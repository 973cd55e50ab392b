import Mathlib.Data.Nat.Digits.Defs
import Badis.Store.Badger

/-!
# Commands, replies and what surrounds an `Apply`

The replicated command, the values `FSM.Apply` returns, its errors, and the parts of the Go runtime
the transaction code reads: the clock, the iteration order of Go maps, `strconv`, and the msgpack
encoding of strings lists and string maps.
-/

namespace Badis

open Lib

/-- The operation names `applyCmdInTxn` switches on; any other string is `other`. -/
inductive Op where
  | eval | evalsha | scriptLoad | scriptExists | scriptFlush
  | set | getset | append | mset | del | flushdb
  | incr | decr | incrby | decrby
  | expire | persist
  | hset | hsetnx | hdel
  | lpush | rpush | lpushx | rpushx | lpop | rpop | ltrim | lrem
  | sadd | srem | spop
  | other (name : Bytes)
deriving DecidableEq

/-- `Command.Op`. -/
def Op.name : Op → Bytes
  | eval => ascii "EVAL"
  | evalsha => ascii "EVALSHA"
  | scriptLoad => ascii "SCRIPT_LOAD"
  | scriptExists => ascii "SCRIPT_EXISTS"
  | scriptFlush => ascii "SCRIPT_FLUSH"
  | set => ascii "SET"
  | getset => ascii "GETSET"
  | append => ascii "APPEND"
  | mset => ascii "MSET"
  | del => ascii "DEL"
  | flushdb => ascii "FLUSHDB"
  | incr => ascii "INCR"
  | decr => ascii "DECR"
  | incrby => ascii "INCRBY"
  | decrby => ascii "DECRBY"
  | expire => ascii "EXPIRE"
  | persist => ascii "PERSIST"
  | hset => ascii "HSET"
  | hsetnx => ascii "HSETNX"
  | hdel => ascii "HDEL"
  | lpush => ascii "LPUSH"
  | rpush => ascii "RPUSH"
  | lpushx => ascii "LPUSHX"
  | rpushx => ascii "RPUSHX"
  | lpop => ascii "LPOP"
  | rpop => ascii "RPOP"
  | ltrim => ascii "LTRIM"
  | lrem => ascii "LREM"
  | sadd => ascii "SADD"
  | srem => ascii "SREM"
  | spop => ascii "SPOP"
  | other name => name

/-- The cases of the switch. -/
def Op.known : List Op :=
  [eval, evalsha, scriptLoad, scriptExists, scriptFlush, set, getset, append, mset, del, flushdb,
    incr, decr, incrby, decrby, expire, persist, hset, hsetnx, hdel, lpush, rpush, lpushx, rpushx,
    lpop, rpop, ltrim, lrem, sadd, srem, spop]

/-- The case of the switch that a name selects. -/
def Op.ofName (name : Bytes) : Op := (known.find? fun op => op.name = name).getD (.other name)

/-- The operations on scripts. -/
def Op.script : Op → Bool
  | .eval | .evalsha | .scriptLoad | .scriptExists | .scriptFlush => true
  | _ => false

/-- `Command.Condition`: `"NX"`, `"XX"`, or neither. -/
inductive Condition where
  | always | nx | xx
deriving DecidableEq

/-- `store.Command`. -/
structure Command where
  op : Op
  key : Bytes := []
  args : List Bytes := []
  ttlMs : Int64 := 0
  condition : Condition := .always
  returnOld : Bool := false
deriving DecidableEq

/-- The dynamic values behind the `interface{}` that `applyCmdInTxn` returns. A `[]byte` may be the
nil slice (`none`), which is not the nil interface. -/
inductive Result where
  | nil
  | str (s : Bytes)
  | bytes (b : Option Bytes)
  | int (n : Nat)
  | int64 (n : Int64)
  | strs (l : List Bytes)
  | int64s (l : List Int64)
  | array (l : List Result)

/-- The errors of a transaction. -/
inductive Err where
  /-- `ErrWrongType`. -/
  | wrongType
  /-- `"%s missing args"`. -/
  | missingArgs (op : Op)
  /-- `"%s invalid args"`. -/
  | invalidArgs (op : Op)
  /-- `"value is not an integer or out of range"`. -/
  | notInteger
  /-- A msgpack decoding error. -/
  | decode
  /-- `"bad pattern"`. -/
  | badPattern
  /-- `"unknown op: %s"`. -/
  | unknownOp (op : Op)
  /-- `"ERR wrong number of arguments for %s"`. -/
  | wrongArity (what : Bytes)
  /-- `"NOSCRIPT No matching script. Please use EVAL."`. -/
  | noScript
  /-- `"ERR value is not an integer or out of range"`. -/
  | luaNotInteger
  /-- `"ERR Number of keys can't be greater than number of args"`. -/
  | tooManyKeys
  /-- `"Please specify at least one argument for redis.call()"`. -/
  | noCallArgs
  /-- `"ERR syntax error"`. -/
  | syntaxError
  /-- `"ERR Error running script: %s"`. -/
  | script (msg : Bytes)
  /-- A Go panic: an index out of range. -/
  | panic
  /-- The Go stack is exhausted: the process ends and nothing is committed. -/
  | stackOverflow
deriving DecidableEq

/-- `err.Error()`, where `codecText` is the text of a msgpack error. A panic and an exhausted stack
end the process, so that nobody reads their text. -/
def Err.text (codecText : Bytes) : Err → Bytes
  | wrongType => ascii "WRONGTYPE Operation against a key holding the wrong kind of value"
  | missingArgs op => op.name ++ ascii " missing args"
  | invalidArgs op => op.name ++ ascii " invalid args"
  | notInteger => ascii "value is not an integer or out of range"
  | decode => codecText
  | badPattern => ascii "bad pattern"
  | unknownOp op => ascii "unknown op: " ++ op.name
  | wrongArity what => ascii "ERR wrong number of arguments for " ++ what
  | noScript => ascii "NOSCRIPT No matching script. Please use EVAL."
  | luaNotInteger => ascii "ERR value is not an integer or out of range"
  | tooManyKeys => ascii "ERR Number of keys can't be greater than number of args"
  | noCallArgs => ascii "Please specify at least one argument for redis.call()"
  | syntaxError => ascii "ERR syntax error"
  | script msg => ascii "ERR Error running script: " ++ msg
  | panic | stackOverflow => []

/-! ## The environment of one `Apply` -/

/-- The clock readings of one transaction, in the order the code takes them: the liveness tests of
`txn.Get` and the iterators, `time.Until` in `remainingTTLMs`, `WithTTL` on the user entry and
`WithTTL` on the type entry. Readings never go back, the clock is past the first second of 1970, and
the Unix seconds fit Go's signed 64-bit seconds with room to spare. -/
structure Clock where
  now : Nat
  remaining : Nat
  ttl : Nat
  ttlType : Nat
  now_le : now ≤ remaining
  remaining_le : remaining ≤ ttl
  ttl_le : ttl ≤ ttlType
  start : 1000000000 ≤ now
  bound : ttlType < 2 ^ 62 * 1000000000
deriving DecidableEq

/-- The instant that a clock shows for `t`: the nearest one, if `t` is none of its own. -/
def clockInstant (t : Nat) : Nat := max 1000000000 (min t (2 ^ 62 * 1000000000 - 1))

theorem le_clockInstant (t : Nat) : 1000000000 ≤ clockInstant t := Nat.le_max_left _ _

theorem clockInstant_lt (t : Nat) : clockInstant t < 2 ^ 62 * 1000000000 := by
  unfold clockInstant
  omega

/-- All readings at one instant. -/
def Clock.at (t : Nat) : Clock :=
  ⟨clockInstant t, clockInstant t, clockInstant t, clockInstant t, le_rfl, le_rfl, le_rfl,
    le_clockInstant t, clockInstant_lt t⟩

/-- One choice of Go's map iteration order: which permutation of its keys a `range` over a map
visits. -/
structure RangeOrder where
  visit : List Bytes → List Bytes
  perm : ∀ l, (visit l).Perm l

/-- The iteration order by increasing key. -/
def RangeOrder.sorted : RangeOrder := ⟨id, fun l => List.Perm.refl l⟩

/-- The iteration order by decreasing key. -/
def RangeOrder.reversed : RangeOrder := ⟨List.reverse, List.reverse_perm⟩

/-- What one execution of a command sees besides the database: the clock, and the iteration orders
of its `range` loops over maps (the popping loop of SPOP, the rebuilding loop of the set commands,
and the loop inside the msgpack encoder of a hash). -/
structure Env where
  clock : Clock
  pop : RangeOrder
  members : RangeOrder
  encode : RangeOrder

/-- An execution with all clock readings at `t`, which visits maps by increasing key. -/
def Env.at (t : Nat) : Env where
  clock := Clock.at t
  pop := RangeOrder.sorted
  members := RangeOrder.sorted
  encode := RangeOrder.sorted

/-! ## Go maps -/

/-- A Go `map[string]string`. -/
abbrev GoMap := OrdMap Bytes Bytes

/-- A Go `map[string]struct{}`. -/
abbrev GoSet := OrdMap Bytes Unit

/-- `for _, m := range members { set[m] = struct{}{} }`. -/
def toSet (members : List Bytes) : GoSet :=
  members.foldl (fun set m => set.insert m ()) OrdMap.empty

/-- The bindings of a map in the order a `range` visits them. -/
def rangeMap (order : RangeOrder) (h : GoMap) : List (Bytes × Bytes) :=
  (order.visit h.keys).map fun k => (k, (h.get? k).getD [])

/-! ## msgpack -/

/-- The msgpack codec for `[]string` and `map[string]string`; a map is encoded in the order in which
the encoder visits its bindings. -/
structure Codec where
  encodeStrings : List Bytes → Bytes
  decodeStrings : Bytes → Option (List Bytes)
  encodeMap : List (Bytes × Bytes) → Bytes
  decodeMap : Bytes → Option GoMap

/-- Decoding gives back what was encoded, for a map whatever order its bindings were visited in. -/
structure Codec.Lawful (c : Codec) : Prop where
  decodeStrings_encodeStrings : ∀ l, c.decodeStrings (c.encodeStrings l) = some l
  decodeMap_encodeMap : ∀ (h : GoMap) (l : List (Bytes × Bytes)), l.Perm h.entries →
    c.decodeMap (c.encodeMap l) = some h

/-! ## strings and strconv -/

/-- `strings.ToUpper`; `upper` is what it does to texts that are not ASCII. -/
def toUpper (upper : Bytes → Bytes) (s : Bytes) : Bytes :=
  if s.all fun b => b < 128 then s.map fun b => if 97 ≤ b ∧ b ≤ 122 then b - 32 else b
  else upper s

/-- The digit value of a byte. -/
def digit? (b : UInt8) : Option Nat :=
  if 48 ≤ b.toNat ∧ b.toNat ≤ 57 then some (b.toNat - 48) else none

/-- The loop of `strconv.ParseUint(s, 10, 64)`: `none` for a syntax error, else the number and
whether it is in range. The loop stops at the digit that overflows. -/
def parseUint : Bytes → Nat → Option (Nat × Bool)
  | [], n => some (n, true)
  | b :: rest, n =>
    match digit? b with
    | none => none
    | some d =>
      if n * 10 + d < 2 ^ 64 then parseUint rest (n * 10 + d) else some (2 ^ 64 - 1, false)

/-- `strconv.ParseInt(s, 10, 64)`: the value, and whether the error is nil. With an error the value
is `0` for a syntax error and the nearest bound for a range error. -/
def parseInt (s : Bytes) : Int64 × Bool :=
  let (neg, digits) : Bool × Bytes :=
    match s with
    | 43 :: rest => (false, rest)
    | 45 :: rest => (true, rest)
    | s => (false, s)
  match digits with
  | [] => (0, false)
  | digits =>
    match parseUint digits 0 with
    | none => (0, false)
    | some (un, _) =>
      if neg then
        if 2 ^ 63 < un then (Int64.minValue, false) else (Int64.ofInt (-un), true)
      else
        if 2 ^ 63 ≤ un then (Int64.maxValue, false) else (Int64.ofInt un, true)

/-- `strconv.FormatInt(n, 10)`. -/
def formatInt (n : Int64) : Bytes :=
  let digits (m : Nat) : Bytes :=
    if m = 0 then [48] else (Nat.digits 10 m).reverse.map fun d => UInt8.ofNat (48 + d)
  if n.toInt < 0 then 45 :: digits n.toInt.natAbs else digits n.toInt.natAbs

end Badis
