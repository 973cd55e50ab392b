import Badis.Lib.Acyclic
import Badis.Store.Lua

/-!
# `store/lua.go`: what a script returns

`L.DoString` up to the Lua value on the stack, before `luaToGoValue` turns it into the result of the
command.
-/

namespace Badis

open Lib

section Return

variable (vm : LuaVM)

/-- The value that a script returns, with the heap it lives in. -/
def LuaProg.value (times : Nat → Nat) (apply : Nat → Command → Tx Result) :
    LuaProg → Nat → Tx (LuaHeap × LuaValue)
  | .done heap ret, _ => pure (heap, ret)
  | .fail msg, _ => Txn.throw (.script msg)
  | .call args next, n => do
    match ← Txn.attempt (luaRedisCall vm (times n) (apply n) args) with
    | .error .stackOverflow => Txn.throw .stackOverflow
    | r => LuaProg.value times apply (next r) (n + 1)

/-- `runLua` up to that value. -/
def runLuaValue (times : Nat → Nat) (apply : Nat → Command → Tx Result) (script : Bytes)
    (evalArgs : List Bytes) : Tx (LuaHeap × LuaValue) :=
  match evalArgs with
  | [] => Txn.throw .panic
  | numKeysStr :: rest =>
    match parseInt numKeysStr with
    | (_, false) => Txn.throw .luaNotInteger
    | (numKeys, true) =>
      if numKeys < 0 then Txn.throw .luaNotInteger
      else if (rest.length : Int) < numKeys.toInt then Txn.throw .tooManyKeys
      else
        let n := numKeys.toInt.toNat
        LuaProg.value vm times apply (vm.run script (rest.take n) (rest.drop n)) 0

/-- Cases `"EVAL"` and `"EVALSHA"` up to that value. -/
def scriptValue (c : Codec) (fuel : Nat) (envs : List Nat → Env) (cmd : Command) :
    Tx (LuaHeap × LuaValue) :=
  let run := runLuaValue vm (fun n => (envs [n]).clock.now)
    fun n => applyCmdInTxn vm c fuel fun path => envs (n :: path)
  match cmd.op, cmd.args with
  | .evalsha, sha :: arg :: rest => do
    match ← txnGet (envs []).clock.now (getScriptKey sha) with
    | none => Txn.throw .noScript
    | some item => run item.value (arg :: rest)
  | .eval, script :: arg :: rest => run script (arg :: rest)
  | .evalsha, _ => Txn.throw (.wrongArity (ascii "EVALSHA"))
  | .eval, _ => Txn.throw (.wrongArity (ascii "EVAL"))
  | op, _ => Txn.throw (.unknownOp op)

/-- What becomes of the value. -/
def convertValue (fuel : Nat) (out : LuaHeap × LuaValue) : Tx Result :=
  match luaToGoValue out.1 fuel out.2 with
  | some r => pure r
  | none => Txn.throw .stackOverflow

end Return

/-- A table holds a value: `luaToGoValue` on the one calls itself on the other. -/
def TableHolds (heap : LuaHeap) (v w : LuaValue) : Prop :=
  ∃ addr, v = .table addr ∧ w ∈ heap.getD addr []

end Badis
