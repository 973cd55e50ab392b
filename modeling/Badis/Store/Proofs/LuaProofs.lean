import Badis.Store.Lua
import Badis.Store.Proofs.EffectProofs

/-!
# What scripts do to the store

A call from a script reads a key, or applies a command (`luaRedisCall_reads`,
`luaRedisCall_command`). So whatever relation between databases the commands on data, SCRIPT_LOAD
and SCRIPT_FLUSH move along, every command moves along, with all that its script calls
(`applyCmdInTxn_respects`).
-/

namespace Badis

open Lib

/-! ## Reads -/

/-- A run that leaves the database alone. -/
def ReadsOnly {α : Type} (m : Tx α) : Prop := Txn.Respects (fun db db' : DB => db' = db) m

theorem ReadsOnly.respects {α : Type} {m : Tx α} (h : ReadsOnly m) {R : DB → DB → Prop}
    (hr : ∀ db, R db db) :
    Txn.Respects R m := by
  intro db
  rw [h db]
  exact hr db

theorem scriptExistsLoop_run (t : Nat) (args : List Bytes) (db : DB) :
    (scriptExistsLoop t args).run db =
      (.ok (args.map fun sha =>
        if (db.getLive t (getScriptKey sha)).isSome then 1 else 0), db) := by
  induction args with
  | nil => rfl
  | cons sha rest ih =>
    have hget : (txnGet t (getScriptKey sha) : Tx _).run db =
        (.ok (db.getLive t (getScriptKey sha)), db) := rfl
    rw [scriptExistsLoop, Txn.run_bind_ok hget, Txn.run_bind_ok ih]
    rfl

theorem scriptExists_reads (t : Nat) (args : List Bytes) :
    ReadsOnly (do let res ← scriptExistsLoop t args; return Result.int64s res) := by
  intro db
  rw [Txn.run_bind_ok (scriptExistsLoop_run t args db)]
  rfl

theorem luaExistsLoop_reads (t : Nat) (keys : List Bytes) (count : Nat) :
    ReadsOnly (luaExistsLoop t keys count) := by
  induction keys generalizing count with
  | nil => exact fun db => rfl
  | cons key rest ih => exact fun db => ih _ db

/-! ## A call -/

section Call

variable (vm : LuaVM) (t : Nat) (apply : Command → Tx Result) {name : Bytes} (rest : List Bytes)

/-- The names that `luaRedisCall` does not pass on to the parser. -/
def LuaVM.Answers (name : Bytes) : Prop :=
  vm.toUpper name = ascii "GET" ∨ vm.toUpper name = ascii "EXISTS" ∨ vm.toUpper name = ascii "TYPE"

theorem luaRedisCall_reads (h : vm.Answers name) :
    ReadsOnly (luaRedisCall vm t apply (name :: rest)) := by
  intro db
  unfold luaRedisCall
  dsimp only
  split_ifs with hget hexists htype
  · split
    · rw [Txn.run_bind_ok (txnGet_run db t _)]
      split <;> rfl
    · rfl
  · split
    · rfl
    · have hloop := luaExistsLoop_reads t rest 0 db
      rw [Txn.run_bind]
      revert hloop
      generalize (luaExistsLoop t rest 0).run db = out
      obtain ⟨r, db'⟩ := out
      intro hloop
      cases r <;> exact hloop
  · split
    · rw [Txn.run_bind_ok (txnGet_run db t _)]
      split <;> rfl
    · rfl
  · exact absurd h (not_or.mpr ⟨hget, not_or.mpr ⟨hexists, htype⟩⟩)

theorem luaRedisCall_command (h : ¬ vm.Answers name) :
    luaRedisCall vm t apply (name :: rest) = do
      let cmd ← (parseCommandForLua vm (vm.toUpper name) rest : Except Err Command)
      let res ← apply cmd
      return goToLuaValue res := by
  obtain ⟨hget, hexists, htype⟩ : _ ∧ _ ∧ _ := by
    rw [LuaVM.Answers, not_or, not_or] at h
    exact h
  unfold luaRedisCall
  dsimp only
  rw [if_neg hget, if_neg hexists, if_neg htype]

end Call

/-! ## A run -/

section Run

variable (vm : LuaVM) {R : DB → DB → Prop} (hr : ∀ db, R db db)
variable (ht : ∀ db db' db'', R db db' → R db' db'' → R db db'')

include hr ht

theorem luaRedisCall_respects (t : Nat) {apply : Command → Tx Result}
    (happly : ∀ cmd, Txn.Respects R (apply cmd)) (args : List Bytes) :
    Txn.Respects R (luaRedisCall vm t apply args) := by
  cases args with
  | nil => exact Txn.respects_throw hr _
  | cons name rest =>
    by_cases hname : vm.Answers name
    · exact (luaRedisCall_reads vm t apply rest hname).respects hr
    · rw [luaRedisCall_command vm t apply rest hname]
      refine Txn.Respects.bind ht (Txn.respects_lift hr _) fun cmd => ?_
      exact Txn.Respects.bind ht (happly cmd) fun res => Txn.respects_pure hr _

theorem doString_respects (fuel : Nat) (times : Nat → Nat) {apply : Nat → Command → Tx Result}
    (happly : ∀ n cmd, Txn.Respects R (apply n cmd)) (prog : LuaProg) (n : Nat) :
    Txn.Respects R (doString vm fuel times apply prog n) := by
  induction prog generalizing n with
  | done heap ret =>
    unfold doString
    split
    · exact Txn.respects_pure hr _
    · exact Txn.respects_throw hr _
  | fail msg => exact Txn.respects_throw hr _
  | call args next ih =>
    unfold doString
    have hcall := luaRedisCall_respects vm hr ht (times n) (happly n) args
    refine Txn.Respects.bind ht hcall.attempt fun r => ?_
    split
    · exact Txn.respects_throw hr _
    · exact ih r (n + 1)

theorem runLua_respects (fuel : Nat) (times : Nat → Nat) {apply : Nat → Command → Tx Result}
    (happly : ∀ n cmd, Txn.Respects R (apply n cmd)) (script : Bytes) (evalArgs : List Bytes) :
    Txn.Respects R (runLua vm fuel times apply script evalArgs) := by
  unfold runLua
  split
  · exact Txn.respects_throw hr _
  · split
    · exact Txn.respects_throw hr _
    · split_ifs
      · exact Txn.respects_throw hr _
      · exact Txn.respects_throw hr _
      · exact doString_respects vm hr ht fuel times happly _ 0

variable (hload : ∀ cmd, Txn.Respects R (scriptLoad cmd))
  (hflush : ∀ t, Txn.Respects R (scriptFlush t))

include hload hflush

theorem handleLuaCommand_respects (fuel : Nat) (env : Env) (times : Nat → Nat)
    {apply : Nat → Command → Tx Result} (happly : ∀ n cmd, Txn.Respects R (apply n cmd))
    (cmd : Command) : Txn.Respects R (handleLuaCommand vm fuel env times apply cmd) := by
  unfold handleLuaCommand
  split
  · exact hload cmd
  · exact (scriptExists_reads _ _).respects hr
  · exact hflush _
  · split
    · refine Txn.Respects.bind ht (Txn.respects_reads hr _) fun item => ?_
      cases item with
      | none => exact Txn.respects_throw hr _
      | some item => exact runLua_respects vm hr ht fuel times happly _ _
    · exact Txn.respects_throw hr _
  · split
    · exact runLua_respects vm hr ht fuel times happly _ _
    · exact Txn.respects_throw hr _
  · exact Txn.respects_throw hr _

/-- Whatever the commands on data, SCRIPT_LOAD and SCRIPT_FLUSH move along, every command does. -/
theorem applyCmdInTxn_respects (c : Codec) (hdata : ∀ env cmd, Txn.Respects R (applyData c env cmd))
    (fuel : Nat) (envs : List Nat → Env) (cmd : Command) :
    Txn.Respects R (applyCmdInTxn vm c fuel envs cmd) := by
  induction fuel generalizing envs cmd with
  | zero =>
    unfold applyCmdInTxn
    split_ifs
    · exact Txn.respects_throw hr _
    · exact hdata _ cmd
  | succ fuel ih =>
    unfold applyCmdInTxn
    split_ifs
    · exact handleLuaCommand_respects vm hr ht hload hflush fuel _ _ (fun n cmd => ih _ cmd) cmd
    · exact hdata _ cmd

end Run

end Badis
