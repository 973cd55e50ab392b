import Badis.Store.Proofs.FailureProofs
import Badis.Store.Proofs.ReplayProofs

/-!
# Commands on different keys commute

A command acts on the keys it touches (`Command.touches`) and replies by what they hold
(`reply_congr`). Two commands that touch no common key therefore give the same database and the same
replies in either order. A command touches the keys it names (`Command.namedKeys`), and a few touch
more.
-/

namespace Badis

open Lib

/-! ## The keys of a command -/

/-- The keys a command names: `MSET` and `DEL` in their arguments, `FLUSHDB` none, any other command
in its `Key`. -/
def Command.namedKeys (cmd : Command) : List Bytes :=
  match cmd.op with
  | .mset => msetKeys cmd.args
  | .del => cmd.args
  | .flushdb => []
  | _ => [cmd.key]

section Touches

variable {cmd : Command}

theorem touches_key (h : cmd.op.multi = false) : cmd.touches cmd.key = true := by
  unfold Command.touches
  cases hop : cmd.op <;> rw [hop] at h <;> first | exact decide_eq_true rfl | cases h

/-- The reply of a command depends on the keys it touches. -/
theorem reply_congr {views views' : Bytes → View}
    (h : ∀ k, cmd.touches k = true → views k = views' k) (env : Env) :
    reply env cmd views = reply env cmd views' := by
  cases hmulti : cmd.op.multi with
  | false =>
    rw [reply_of_single env cmd hmulti, reply_of_single env cmd hmulti, h _ (touches_key hmulti)]
  | true =>
    unfold Command.touches at h
    unfold reply
    cases hop : cmd.op <;> rw [hop] at hmulti h
    case del =>
      have hcount : delCount (fun k => (views k).isSome) cmd.args =
          delCount (fun k => (views' k).isSome) cmd.args :=
        delCount_congr fun k hk => by rw [h k (by simp [hk])]
      by_cases hback : cmd.args = [] ∧ cmd.key ≠ []
      · simp only [hcount, h cmd.key (by simp [hback])]
      · have hno : ∀ x : View, ¬ (cmd.args = [] ∧ cmd.key ≠ [] ∧ x.isSome = true) := fun x hx =>
          hback ⟨hx.1, hx.2.1⟩
        simp only [hcount, if_neg (hno _)]
    all_goals cases hmulti

end Touches

/-! ## Two commands -/

section Pair

variable (c : Codec) {env env' : Env} {cmd cmd' : Command} {db : DB}

/-- A key that a command does not touch keeps its entries. -/
theorem slot_of_not_touches {k : Bytes} (h : cmd.touches k = false) (env : Env) (db : DB) :
    Slot.of (applyCmd c env cmd db).2 k = Slot.of db k := by
  rw [slot_applyCmd, keyAct_of_not_touches h]
  rfl

/-- The entries that a command writes for the keys it touches do not depend on a command before it
that touches other keys. -/
theorem slot_after {k : Bytes} (h : cmd'.touches k = false) :
    Slot.of (applyCmd c env cmd (applyCmd c env' cmd' db).2).2 k =
      Slot.of (applyCmd c env cmd db).2 k := by
  have hkeep := slot_of_not_touches c h env' db
  rw [slot_applyCmd c env cmd _ k, slot_applyCmd c env cmd db k, DB.view, DB.view, hkeep]

theorem reply_after (h : ∀ k, (cmd.touches k && cmd'.touches k) = false) :
    (applyCmd c env cmd (applyCmd c env' cmd' db).2).1 = (applyCmd c env cmd db).1 := by
  rw [reply_applyCmd, reply_applyCmd]
  refine reply_congr (fun k hk => ?_) env
  have hk' : cmd'.touches k = false := by simpa [hk] using h k
  rw [DB.view, DB.view, slot_of_not_touches c hk' env' db]

theorem applyCmd_comm (h : ∀ k, (cmd.touches k && cmd'.touches k) = false) :
    (applyCmd c env cmd (applyCmd c env' cmd' db).2).2 =
      (applyCmd c env' cmd' (applyCmd c env cmd db).2).2 := by
  refine DB.ext_of_slots (fun k => ?_) fun raw hu ht => ?_
  · cases hk : cmd'.touches k with
    | true =>
      have hk' : cmd.touches k = false := by simpa [hk] using h k
      rw [slot_of_not_touches c hk', slot_after c hk']
    | false => rw [slot_after c hk, slot_of_not_touches c hk]
  · rw [applyCmd_frame c env cmd _ raw hu ht, applyCmd_frame c env' cmd' db raw hu ht,
      applyCmd_frame c env' cmd' _ raw hu ht, applyCmd_frame c env cmd db raw hu ht]

end Pair

/-- Two commands without script that touch no common key commute: either order gives the same
database, and each command the same reply. Each has its own clock readings and map orders, the same
ones in both orders, so that what one order can reply and store for a `SPOP` the other can too. -/
theorem commands_commute (vm : LuaVM) (c : Codec) (fuel : Nat) (envs envs' : List Nat → Env)
    (cmd cmd' : Command) (db : DB) (hcmd : cmd.op.script = false) (hcmd' : cmd'.op.script = false)
    (h : ∀ k, (cmd.touches k && cmd'.touches k) = false) :
    (fsmApply vm c fuel envs cmd (fsmApply vm c fuel envs' cmd' db).2).2 =
      (fsmApply vm c fuel envs' cmd' (fsmApply vm c fuel envs cmd db).2).2 ∧
    (fsmApply vm c fuel envs cmd (fsmApply vm c fuel envs' cmd' db).2).1 =
      (fsmApply vm c fuel envs cmd db).1 ∧
    (fsmApply vm c fuel envs' cmd' (fsmApply vm c fuel envs cmd db).2).1 =
      (fsmApply vm c fuel envs' cmd' db).1 := by
  simp only [fsmApply_of_not_script vm c hcmd, fsmApply_of_not_script vm c hcmd']
  exact ⟨applyCmd_comm c h, reply_after c h, reply_after c fun k => (Bool.and_comm _ _).trans (h k)⟩

/-- `LPUSH` and `SET` of two keys, one a proper beginning of the other. -/
theorem lpush_set_commute :
    let lpush : Command := ⟨.lpush, ascii "k", [ascii "x"], 0, .always, false⟩
    let set : Command := ⟨.set, ascii "k1", [ascii "v"], 0, .always, false⟩
    let run := fsmApply noScripts msgpack 0 fun _ => Env.at 1000000000000
    (run lpush (run set OrdMap.empty).2).2 = (run set (run lpush OrdMap.empty).2).2 ∧
    (run lpush (run set OrdMap.empty).2).1 = (run lpush OrdMap.empty).1 ∧
    (run set (run lpush OrdMap.empty).2).1 = (run set OrdMap.empty).1 := by
  refine commands_commute noScripts msgpack 0 _ _ _ _ OrdMap.empty rfl rfl ?_
  intro k
  simp only [Command.touches]
  cases hk : decide (ascii "k" = k) with
  | false => rfl
  | true =>
    rw [← of_decide_eq_true hk]
    decide

/-- `FLUSHDB` names no key and a `DEL` without arguments none either, but neither commutes with the
`SET` of a key. -/
theorem flushdb_del_set_differ :
    let set : Command := ⟨.set, ascii "k", [ascii "v"], 0, .always, false⟩
    let flushdb : Command := ⟨.flushdb, [], [], 0, .always, false⟩
    let del : Command := ⟨.del, ascii "k", [], 0, .always, false⟩
    let run := fsmApply noScripts msgpack 0 fun _ => Env.at 1000000000000
    (∀ k, ¬ (k ∈ flushdb.namedKeys ∧ k ∈ set.namedKeys)) ∧
    (∀ k, ¬ (k ∈ del.namedKeys ∧ k ∈ set.namedKeys)) ∧
    Slot.of (run set (run flushdb OrdMap.empty).2).2 (ascii "k") ≠
      Slot.of (run flushdb (run set OrdMap.empty).2).2 (ascii "k") ∧
    Slot.of (run set (run del OrdMap.empty).2).2 (ascii "k") ≠
      Slot.of (run del (run set OrdMap.empty).2).2 (ascii "k") := by
  refine ⟨?_, ?_, by decide, by decide⟩
  · rintro k ⟨hk, -⟩
    cases hk
  · rintro k ⟨hk, -⟩
    cases hk

end Badis
