import Badis.Store.Registry

/-!
# Scripts, one command at a time

EVAL and EVALSHA run all the calls of a script in one transaction. Here every command that a script
calls is a transaction of its own, committed or rolled back before the script goes on; only EVAL and
EVALSHA among the calls are followed into their scripts.
-/

namespace Badis

open Lib

/-- The operations that run a script. -/
def Op.runsScript : Op → Bool
  | .eval | .evalsha => true
  | _ => false

section Serial

variable (vm : LuaVM) (c : Codec)

end Serial

section Flushes

variable (vm : LuaVM) (c : Codec) (lc : LogCodec)

end Flushes

/-- A command that runs a script. -/
def StoreStep.runsScript : StoreStep → Bool
  | .apply _ _ cmd => cmd.op.runsScript
  | _ => false

end Badis
