import Badis.Store.Reads

/-!
# `server/server.go`: SET and GET

A handler gets the argument vector of a request, the command name first, and answers with a list of
`conn.Write*` calls. A write handler builds a command, has it applied, and answers by what
`FSM.Apply` returned; the two halves of `handleSet` are `handleSetCommand` and `handleSetReply`.
-/

namespace Badis

open Lib

/-- One `conn.Write*` call. -/
inductive Write where
  | string (s : Bytes)
  | error (msg : Bytes)
  | bulk (b : Bytes)
  | null
  | int (n : Int)
  /-- `WriteArray`: the header of an array. -/
  | array (n : Nat)
deriving DecidableEq

/-- The message for a wrong number of arguments. -/
def wrongArgs (args : List Bytes) : Bytes :=
  ascii "ERR wrong number of arguments for '" ++ args.headD [] ++ ascii "' command"

/-- `ttl` of the options EXAT and PXAT, for a time in milliseconds. -/
def untilMs (t : Nat) (ms : Int64) : Int64 :=
  let ttl := ms - Int64.ofNat (t / 1000000)
  if ttl < 0 then 1 else ttl

/-- The options of SET that take a number, with the `TTLMs` they make of it at the clock reading
`t`. -/
def timedOption (t : Nat) (opt : Bytes) : Option (Int64 → Int64) :=
  if opt = ascii "EX" then some fun secs => secs * 1000
  else if opt = ascii "PX" then some fun ms => ms
  else if opt = ascii "EXAT" then some fun timestamp => untilMs t (timestamp * 1000)
  else if opt = ascii "PXAT" then some fun timestamp => untilMs t timestamp
  else none

/-- The option loop of `handleSet`; an error is the message of the reply. -/
def setOptionLoop (upper : Bytes → Bytes) (t : Nat) : List Bytes → Command → Except Bytes Command
  | [], c => .ok c
  | word :: rest, c =>
    let opt := toUpper upper word
    if opt = ascii "NX" then setOptionLoop upper t rest { c with condition := .nx }
    else if opt = ascii "XX" then setOptionLoop upper t rest { c with condition := .xx }
    else if opt = ascii "GET" then setOptionLoop upper t rest { c with returnOld := true }
    else
      match timedOption t opt, rest with
      | none, _ => .error (ascii "ERR syntax error")
      | some _, [] => .error (ascii "ERR syntax error")
      | some ttlMs, arg :: rest =>
        match parseInt arg with
        | (_, false) => .error (ascii "ERR value is not an integer or out of range")
        | (n, true) => setOptionLoop upper t rest { c with ttlMs := ttlMs n }

/-- `handleSet` up to the command it has applied. -/
def handleSetCommand (upper : Bytes → Bytes) (t : Nat) (args : List Bytes) : Except Bytes Command :=
  match args with
  | _ :: key :: val :: options =>
    setOptionLoop upper t options { op := .set, key := key, args := [val] }
  | args => .error (wrongArgs args)

/-- `handleSet` from the result of the command on. -/
def handleSetReply (codecText : Bytes) (c : Command) : Except Err Result → List Write
  | .error err => [.error (ascii "ERR " ++ err.text codecText)]
  | .ok .nil => [.null]
  | .ok res =>
    if c.returnOld then
      match res with
      | .bytes b => [.bulk (b.getD [])]
      | _ => [.null]
    else [.string (ascii "OK")]

/-- `handleGet` at the clock reading `t`. -/
def handleGet (codecText : Bytes) (t : Nat) (args : List Bytes) (db : DB) : List Write :=
  match args with
  | [_, key] =>
    match ((getString t key).run db).1 with
    | .error err => [.error (err.text codecText)]
    | .ok none => [.null]
    | .ok (some val) => [.bulk val]
  | args => [.error (wrongArgs args)]

end Badis
