import Badis.Server.Resp
import Badis.Store.Lua

/-!
# Results through a script

`EVAL "return redis.call(...)"` hands the result of a command through Lua and back: `goToLuaValue`
on the way in, `luaToGoValue` on the way out, and then the reply of `applyCommand` to the script.
-/

namespace Badis

open Lib

/-- The reply of a call as a Lua value, with the table it may be. -/
def LuaReply.value : LuaReply → LuaHeap × LuaValue
  | .nil => ([], .nil)
  | .false => ([], .bool .false)
  | .number n => ([], .number n)
  | .str s => ([], .str s)
  | .strs l => ([l.map .str], .table 0)

/-- The script `return redis.call(...)`: it returns what it gets, or fails with the text of the
error. -/
def returnCall (msg : Err → Bytes) (args : List Bytes) : LuaProg :=
  .call args fun r =>
    match r with
    | .ok r => .done r.value.1 r.value.2
    | .error e => .fail (msg e)

/-- What becomes of a result on the way through Lua. -/
def Result.forwarded : Result → Result
  | .nil => .nil
  | .str s => .str s
  | .bytes b => .str (b.getD [])
  | .int n => .int64 (LuaNumber.ofInt n).toInt64
  | .int64 n => .int64 (LuaNumber.ofInt n.toInt).toInt64
  | .strs l => .array (l.map .str)
  | r => .str (sprint r)

/-- An int64 with at most 53 significant bits. -/
def ExactInLua (n : Int) : Prop :=
  -2 ^ 63 ≤ n ∧ n < 2 ^ 63 ∧ 2 ^ (n.natAbs.log2 + 1 - 53) ∣ n.natAbs

instance (n : Int) : Decidable (ExactInLua n) := by
  unfold ExactInLua
  infer_instance

/-- The results that a client still gets when a script returns them: no arrays, no text of several
lines and no integer that Lua rounds. -/
def Result.survives : Result → Bool
  | .nil => true
  | .str s => s.all fun b => b ≠ 13 ∧ b ≠ 10
  | .bytes b => (b.getD []).all fun b => b ≠ 13 ∧ b ≠ 10
  | .int n => ExactInLua n
  | .int64 n => ExactInLua n.toInt
  | _ => false

end Badis
