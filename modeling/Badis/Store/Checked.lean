import Badis.Lib.Slice
import Badis.Store.Lua

/-!
# `store/fsm.go` with its bounds checks

The cases of `applyCmdInTxn` that index or slice, written with the indices of the source: every
`Args[i]`, `list[i]`, `list[a:b]` and `make` is checked and ends in `Err.panic` when out of range.
`applyDataChecked` is the switch over them; the cases that only index what they have just tested are
those of `applyData`.
-/

namespace Badis

open Lib

/-- `l[i]`. -/
def goIndex {α : Type} (l : List α) (i : Int) : Except Err α := Slice.index .panic l i

/-- The greatest length of a `[]string`: a slice takes at most `2 ^ 48` bytes, 16 for each string
header. -/
def maxStrings : Nat := 2 ^ 44

/-- The loop of case `"MSET"`: round `j` has `i = 2 * j`. -/
def msetLoopChecked (env : Env) (args : List Bytes) : Tx Unit :=
  (List.range ((args.length + 1) / 2)).foldlM (fun _ (j : Nat) => do
    let k ← goIndex args (2 * j : Nat)
    let v ← goIndex args (2 * j + 1 : Nat)
    setValue env k v typeString 0) ()

/-- Case `"MSET"`. -/
def applyMSetChecked (env : Env) (cmd : Command) : Tx Result := do
  if cmd.args.length % 2 ≠ 0 then Txn.throw (.invalidArgs cmd.op)
  else
    msetLoopChecked env cmd.args
    return .str (ascii "OK")

/-- Round `j` of the loop of case `"HSET", "HSETNX"`, with `i = 2 * j`. -/
def hsetRound (nx : Bool) (args : List Bytes) (s : GoMap × Nat) (j : Nat) :
    Except Err (GoMap × Nat) := do
  let (hash, count) := s
  let field ← goIndex args (2 * j : Nat)
  let ok := hash.contains field
  if nx && ok then return (hash, count)
  else
    let val ← goIndex args (2 * j + 1 : Nat)
    return (hash.insert field val, if ok then count else count + 1)

/-- The loop of case `"HSET", "HSETNX"`. -/
def hsetLoopChecked (nx : Bool) (args : List Bytes) (hash : GoMap) : Except Err (GoMap × Nat) :=
  (List.range ((args.length + 1) / 2)).foldlM (hsetRound nx args) (hash, 0)

/-- Case `"HSET", "HSETNX"`. -/
def applyHSetChecked (c : Codec) (env : Env) (cmd : Command) : Tx Result := do
  if cmd.args.length % 2 ≠ 0 then Txn.throw (.invalidArgs cmd.op)
  else
    let old ← readTyped env cmd.key typeHash c.decodeMap
    let (hash, oldTTLMs) := old.getD (OrdMap.empty, 0)
    let (hash, count) ← hsetLoopChecked (cmd.op = .hsetnx) cmd.args hash
    setValue env cmd.key (encodeHash c env hash) typeHash oldTTLMs
    return .int count

/-- The popped elements and the rest in case `"LPOP", "RPOP"`. -/
def popListChecked (op : Op) (count : Nat) (list : List Bytes) :
    Except Err (List Bytes × List Bytes) := do
  -- a slice can be as long as one that is there
  let popped ← Slice.make .panic (max maxStrings list.length) [] (count : Int)
  if op = .lpop then
    let front ← Slice.slice .panic list 0 count
    let rest ← Slice.slice .panic list count list.length
    -- copy(popped, list[:count])
    return (front.take popped.length ++ popped.drop front.length, rest)
  else
    let popped ← (List.range count).foldlM (fun popped (i : Nat) => do
      let v ← goIndex list ((list.length : Int) - 1 - i)
      Slice.update .panic popped (i : Int) v) popped
    let rest ← Slice.slice .panic list 0 ((list.length : Int) - count)
    return (popped, rest)

/-- The reply of `LPOP` and `RPOP`. -/
def popReplyChecked (cmd : Command) (popped : List Bytes) : Except Err Result :=
  if 0 < cmd.args.length then .ok (.strs popped)
  else do
    let first ← goIndex popped 0
    return .bytes (some first)

/-- Case `"LPOP", "RPOP"`. -/
def applyPopChecked (c : Codec) (env : Env) (cmd : Command) : Tx Result := do
  let (list, oldTTLMs) ← readList c env cmd.key
  if list = [] then return .nil
  else
    let count ← popCount cmd
    let (popped, list) ← popListChecked cmd.op (min count list.length) list
    writeList c env cmd.key list oldTTLMs
    popReplyChecked cmd popped

/-- `sliceList`. -/
def sliceListChecked (list : List Bytes) (start stop : Int) : Except Err (List Bytes) :=
  if list = [] then .ok []
  else
    let n : Int := list.length
    let start := if start < 0 then n + start else start
    let stop := if stop < 0 then n + stop else stop
    let start := if start < 0 then 0 else start
    let stop := if stop ≥ n then n - 1 else stop
    if start > stop ∨ start ≥ n then .ok []
    else Slice.slice .panic list start (stop + 1)

/-- Case `"LTRIM"`. -/
def applyLTrimChecked (c : Codec) (env : Env) (cmd : Command) : Tx Result := do
  let (list, oldTTLMs) ← readList c env cmd.key
  let start ← goIndex cmd.args 0
  let stop ← goIndex cmd.args 1
  let list ← sliceListChecked list (parseInt start).1.toInt (parseInt stop).1.toInt
  writeList c env cmd.key list oldTTLMs
  return .str (ascii "OK")

/-- Round `j` of the backward loop of case `"LREM"`, with `i = len(list) - 1 - j`. -/
def lremRound (limit : Int64) (needle : Bytes) (list : List Bytes) (s : List Bytes × Nat)
    (j : Nat) :
    Except Err (List Bytes × Nat) := do
  let (kept, count) := s
  let v ← goIndex list ((list.length : Int) - 1 - j)
  if v = needle ∧ (count : Int) < (-limit).toInt then return (kept, count + 1)
  else return (v :: kept, count)

/-- The loops of case `"LREM"`. -/
def lremLoopChecked (limit : Int64) (needle : Bytes) (list : List Bytes) :
    Except Err (List Bytes × Nat) :=
  if 0 ≤ limit then .ok (lremLoop limit needle list)
  else (List.range list.length).foldlM (lremRound limit needle list) ([], 0)

/-- Case `"LREM"`. -/
def applyLRemChecked (c : Codec) (env : Env) (cmd : Command) : Tx Result := do
  let (list, oldTTLMs) ← readList c env cmd.key
  let limit ← goIndex cmd.args 0
  let needle ← goIndex cmd.args 1
  let (kept, count) ← lremLoopChecked (parseInt limit).1 needle list
  writeList c env cmd.key kept oldTTLMs
  return .int count

/-- The reply of `SPOP`. -/
def spopReplyChecked (cmd : Command) (popped : List Bytes) : Except Err Result :=
  if 0 < cmd.args.length then .ok (.strs popped)
  else if popped.length = 0 then .ok .nil
  else do
    let first ← goIndex popped 0
    return .bytes (some first)

/-- Case `"SREM", "SPOP"`. -/
def applySRemChecked (c : Codec) (env : Env) (cmd : Command) : Tx Result := do
  match ← readTyped env cmd.key typeSet (decodeSet c) with
  | none => if cmd.op = .spop then spopReplyChecked cmd [] else return .int 0
  | some (set, oldTTLMs) =>
    if cmd.op = .srem then
      let (set, count) := sremLoop cmd.args set 0
      if set.entries = [] then deleteKey cmd.key
      else setValue env cmd.key (encodeSet c env set) typeSet oldTTLMs
      return .int count
    else
      let (set, popped) := spopLoop (spopCount cmd) (env.pop.visit set.keys) set []
      if set.entries = [] then deleteKey cmd.key
      else setValue env cmd.key (encodeSet c env set) typeSet oldTTLMs
      spopReplyChecked cmd popped

/-- `applyCmdInTxn` without the Lua cases. -/
def applyDataChecked (c : Codec) (env : Env) (cmd : Command) : Tx Result :=
  match cmd.op with
  | .mset => applyMSetChecked env cmd
  | .hset | .hsetnx => applyHSetChecked c env cmd
  | .lpop | .rpop => applyPopChecked c env cmd
  | .ltrim => applyLTrimChecked c env cmd
  | .lrem => applyLRemChecked c env cmd
  | .srem | .spop => applySRemChecked c env cmd
  | _ => applyData c env cmd

/-- `FSM.Apply`. -/
def fsmApplyChecked (vm : LuaVM) (c : Codec) (fuel : Nat) (envs : List Nat → Env) (cmd : Command)
    (db : DB) :
    Except Err Result × DB :=
  if cmd.op.script then fsmApply vm c fuel envs cmd db
  else Txn.atomically (applyDataChecked c (envs []) cmd) db

end Badis
