import Badis.Store.Encoding
import Badis.Store.Proofs.LuaProofs

/-!
# Failed commands

A transaction is rolled back when its command fails, but a script that catches the error of a call
goes on in the same transaction. That leaves no half-done command behind, because every operation
other than EVAL and EVALSHA finishes its checks before its first write: a failing run ends in the
state it started from.
-/

namespace Badis

open Lib

/-- A failing run leaves the state as it found it. -/
def FailsClean {α : Type} (m : Tx α) : Prop := ∀ db e db', m.run db = (.error e, db') → db' = db

theorem failsClean_throw {α : Type} (e : Err) : FailsClean (Txn.throw e : Tx α) := by
  intro db e' db' h
  cases h
  rfl

/-- A run that cannot fail. -/
theorem failsClean_of_ok {α : Type} {m : Tx α} (h : ∀ db, ∃ a db', m.run db = (.ok a, db')) :
    FailsClean m := by
  intro db e db' hrun
  obtain ⟨a, db'', hok⟩ := h db
  rw [hok] at hrun
  cases hrun

/-- A run that only reads. -/
theorem failsClean_of_reads {α : Type} {m : Tx α} (h : ReadsOnly m) : FailsClean m := by
  intro db e db' hrun
  have hdb := h db
  rw [hrun] at hdb
  exact hdb

/-- Nothing is written before the last step. -/
theorem FailsClean.bind_pure {α β : Type} {m : Tx α} (h : FailsClean m) (f : α → β) :
    FailsClean (do let a ← m; return f a) := by
  intro db e db' hrun
  rw [Txn.run_bind] at hrun
  cases hm : m.run db with
  | mk r db'' =>
    rw [hm] at hrun
    cases r with
    | ok a => cases hrun
    | error e' =>
      cases hrun
      exact h db e db' hm

theorem scriptLoad_failsClean (cmd : Command) : FailsClean (scriptLoad cmd) := by
  unfold scriptLoad
  split
  · exact failsClean_of_ok fun db => ⟨_, _, rfl⟩
  · exact failsClean_throw _

section Apply

variable (vm : LuaVM) (c : Codec)

theorem applyCmdInTxn_failsClean (fuel : Nat) (envs : List Nat → Env) {cmd : Command}
    (heval : cmd.op ≠ .eval) (hevalsha : cmd.op ≠ .evalsha) :
    FailsClean (applyCmdInTxn vm c fuel envs cmd) := by
  have hdata : FailsClean (applyData c (envs []) cmd) := fun db e db' h =>
    applyData_of_error c (envs []) cmd db h
  cases fuel with
  | zero =>
    unfold applyCmdInTxn
    split_ifs
    · exact failsClean_throw _
    · exact hdata
  | succ fuel =>
    unfold applyCmdInTxn
    split_ifs
    · unfold handleLuaCommand
      split
      · exact scriptLoad_failsClean cmd
      · exact failsClean_of_reads (scriptExists_reads _ _)
      · exact failsClean_of_ok fun db => ⟨_, _, rfl⟩
      · exact absurd ‹_› hevalsha
      · exact absurd ‹_› heval
      · exact failsClean_throw _
    · exact hdata

theorem op_of_parseSetOptions {options : List Bytes} {cmd cmd' : Command}
    (h : parseSetOptions vm options cmd = .ok cmd') : cmd'.op = cmd.op := by
  fun_induction parseSetOptions vm options cmd with
  | case1 cmd => cases h; rfl
  | case2 cmd word rest arg hnx ih => exact ih h
  | case3 cmd word rest arg hnx hxx ih => exact ih h
  | case4 cmd word rest arg hnx hxx hget ih => exact ih h
  | case5 cmd word arg hnx hxx hget htime => cases h
  | case6 cmd word arg hnx hxx hget htime n rest ttl hparse => cases h
  | case7 cmd word arg hnx hxx hget htime n rest ttl hparse ih => exact ih h
  | case8 cmd word rest arg hnx hxx hget htime ih => exact ih h

/-- The operation of the command a script calls. -/
theorem op_of_parse {op : Bytes} {args : List Bytes} {cmd : Command}
    (h : parseCommandForLua vm op args = .ok cmd) : cmd.op = Op.ofName op := by
  unfold parseCommandForLua at h
  split_ifs at h with hset
  · split at h
    · rw [op_of_parseSetOptions vm h, hset]
      rfl
    · cases h
  · cases h
    rfl

theorem luaRedisCall_failsClean (t : Nat) {apply : Command → Tx Result} {args : List Bytes}
    (happly : ∀ cmd, cmd.op = Op.ofName (vm.toUpper (args.headD [])) → FailsClean (apply cmd)) :
    FailsClean (luaRedisCall vm t apply args) := by
  cases args with
  | nil => exact failsClean_throw _
  | cons name rest =>
    by_cases hname : vm.Answers name
    · exact failsClean_of_reads (luaRedisCall_reads vm t apply rest hname)
    · rw [luaRedisCall_command vm t apply rest hname]
      intro db e db' hrun
      cases hparse : parseCommandForLua vm (vm.toUpper name) rest with
      | error e' =>
        rw [hparse] at hrun
        cases hrun
        rfl
      | ok cmd =>
        rw [hparse] at hrun
        exact (happly cmd (op_of_parse vm hparse)).bind_pure goToLuaValue db e db' hrun

/-- A command other than EVAL and EVALSHA that fails leaves the view of the transaction as it was;
so does a call from a script, and the script can go on after `redis.pcall`. -/
theorem failed_command_keeps_view (fuel : Nat) (envs : List Nat → Env) (db db' : DB) (e : Err) :
    (∀ cmd : Command, cmd.op ≠ .eval → cmd.op ≠ .evalsha →
      (applyCmdInTxn vm c fuel envs cmd).run db = (.error e, db') → db' = db) ∧
    ∀ (t : Nat) (args : List Bytes), Op.ofName (vm.toUpper (args.headD [])) ≠ .eval →
      Op.ofName (vm.toUpper (args.headD [])) ≠ .evalsha →
      (luaRedisCall vm t (applyCmdInTxn vm c fuel envs) args).run db = (.error e, db') →
        db' = db := by
  refine ⟨fun cmd heval hevalsha hrun => ?_, fun t args heval hevalsha hrun => ?_⟩
  · exact applyCmdInTxn_failsClean vm c fuel envs heval hevalsha db e db' hrun
  · refine luaRedisCall_failsClean vm t (fun cmd hop => ?_) db e db' hrun
    rw [← hop] at heval hevalsha
    exact applyCmdInTxn_failsClean vm c fuel envs heval hevalsha

end Apply

/-- The interpreter of a store without scripts, which is never asked. -/
def noScripts : LuaVM := ⟨fun _ _ _ => .fail [], id⟩

/-- A store with one string. -/
def oneString : DB :=
  (applyCmd msgpack (Env.at 1000000000000) ⟨.set, ascii "k", [ascii "v"], 0, .always, false⟩
    OrdMap.empty).2

/-- `LPUSH` on the string fails in the transaction, and the string stays as it is. -/
theorem lpush_on_string_keeps_view :
    ((applyCmdInTxn noScripts msgpack 0 (fun _ => Env.at 1000000000000)
      ⟨.lpush, ascii "k", [ascii "x"], 0, .always, false⟩).run oneString).1 = .error .wrongType ∧
    ((applyCmdInTxn noScripts msgpack 0 (fun _ => Env.at 1000000000000)
      ⟨.lpush, ascii "k", [ascii "x"], 0, .always, false⟩).run oneString).2 = oneString := by
  have herr : ((applyCmdInTxn noScripts msgpack 0 (fun _ => Env.at 1000000000000)
      ⟨.lpush, ascii "k", [ascii "x"], 0, .always, false⟩).run oneString).1 =
        .error .wrongType := by
    rfl
  refine ⟨herr, ?_⟩
  exact (failed_command_keeps_view noScripts msgpack 0 (fun _ => Env.at 1000000000000) oneString _
    .wrongType).1 ⟨.lpush, ascii "k", [ascii "x"], 0, .always, false⟩ (by decide) (by decide)
    (Prod.ext herr rfl)

end Badis
