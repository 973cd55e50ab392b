import Badis.Server.Proofs.ReplyProofs
import Badis.Store.Proofs.ReturnProofs

/-!
# Replies carry results

`applyCommand` writes what `FSM.Apply` returned, for the types its switch has a case for: `[]int64`
and `[]interface{}` fall into the default, and a string reply loses its line breaks. Commands on
data only return results of the first kind (`applyCmd_plain`); scripts return what they like.
-/

namespace Badis

open Lib

/-! ## Results of the types that have a case -/

/-- A text without a line break. -/
def oneLine (s : Bytes) : Bool := s.all fun b => b ≠ 13 ∧ b ≠ 10

/-- The results that `applyCommand` has a case for, and whose text it does not change. -/
def Result.plain : Result → Bool
  | .str s => oneLine s
  | .int64s _ | .array _ => false
  | _ => true

/-- A simple string is written as it is if and only if it is one line. -/
theorem stripNewlines_eq_iff (s : Bytes) : stripNewlines s = s ↔ oneLine s = true := by
  induction s with
  | nil => exact iff_of_true rfl rfl
  | cons b s ih =>
    unfold stripNewlines oneLine at ih ⊢
    rw [List.map_cons, List.all_cons, Bool.and_eq_true, List.cons.injEq, ih]
    refine and_congr_left fun _ => ?_
    by_cases hb : b = 13 ∨ b = 10
    · rw [if_pos hb]
      refine iff_of_false ?_ ?_
      · intro h
        rcases hb with rfl | rfl
        · revert h
          decide
        · revert h
          decide
      · simp only [decide_eq_true_eq, not_and_or, not_not]
        exact hb
    · rw [if_neg hb]
      refine iff_of_true rfl ?_
      simp only [decide_eq_true_eq]
      exact not_or.mp hb

/-- The value of a single call. -/
theorem resp_of_single {v : Resp} {w : Write} (h : v.writes = [w]) (hw : w.single = true) :
    v.datum? = match w with
      | .string s => some (.text s)
      | .bulk b => some (.text b)
      | .null => some .nil
      | .int n => some (.int n)
      | _ => none := by
  cases v with
  | array elems =>
    have hhead : Write.array elems.length = w := (List.cons.inj h).1
    rw [← hhead] at hw
    cases hw
  | string | error | bulk | null | int =>
    cases h
    rfl

theorem writesAll_bulk (l : List Bytes) : Resp.writesAll (l.map .bulk) = l.map .bulk := by
  induction l with
  | nil => rfl
  | cons b l ih =>
    show Write.bulk b :: Resp.writesAll (l.map .bulk) = .bulk b :: l.map .bulk
    rw [ih]

theorem data?_bulk (l : List Bytes) : Resp.data? (l.map .bulk) = some (l.map .text) := by
  induction l with
  | nil => rfl
  | cons b l ih =>
    rw [List.map_cons, Resp.data?, ih]
    rfl

/-- The reply says what the result is exactly for the results of the types that have a case. -/
theorem carries_iff (codecText : Bytes) (r : Result) :
    Carries (applyReply codecText (.applied (.ok r))) r.datum ↔ r.plain = true := by
  -- the reply of the default case is read as the text `OK`
  have hdefault : ∀ elems, ¬ Carries [.string (ascii "OK")] (.array elems) := by
    rintro elems ⟨v, hv, hd⟩
    rw [resp_of_single hv rfl] at hd
    cases hd
  cases r with
  | nil => exact iff_of_true ⟨.null, rfl, rfl⟩ rfl
  | str s =>
    show Carries [.string s] (.text s) ↔ oneLine s = true
    rw [← stripNewlines_eq_iff]
    constructor
    · rintro ⟨v, hv, hd⟩
      have htext : v.datum? = some (.text (stripNewlines s)) := resp_of_single hv rfl
      rw [htext] at hd
      exact Datum.text.inj (Option.some.inj hd)
    · intro hs
      refine ⟨.string s, ?_, rfl⟩
      show [Write.string s] = [.string (stripNewlines s)]
      rw [hs]
  | bytes b => exact iff_of_true ⟨.bulk (b.getD []), rfl, rfl⟩ rfl
  | int n => exact iff_of_true ⟨.int n, rfl, rfl⟩ rfl
  | int64 n => exact iff_of_true ⟨.int n.toInt, rfl, rfl⟩ rfl
  | strs l =>
    refine iff_of_true ⟨.array (l.map .bulk), ?_, ?_⟩ rfl
    · show Write.array (l.map Resp.bulk).length :: Resp.writesAll (l.map .bulk) =
        (.array l.length :: l.map .bulk : List Write).map Write.sent
      rw [writesAll_bulk, List.length_map, List.map_cons, List.map_map]
      rfl
    · show (Resp.data? (l.map .bulk)).map Datum.array = some (.array (l.map .text))
      rw [data?_bulk]
      rfl
  | int64s l => exact iff_of_false (hdefault _) Bool.false_ne_true
  | array l => exact iff_of_false (hdefault _) Bool.false_ne_true

/-! ## The results of commands -/

section Plans

variable {env : Env} {cmd : Command} {x : View} {r : Result} {act : KeyAct}

/-- SET, GETSET and APPEND answer with a text, a string, an integer or null. -/
theorem setReply_plain (arg : Bytes) (item : Option Entry) :
    (setReply cmd arg item).plain = true := by
  unfold setReply
  split_ifs <;> rfl

theorem popReply_plain (popped : List Bytes) : (popReply cmd popped).plain = true := by
  unfold popReply
  split <;> rfl

theorem spopReply_plain (popped : List Bytes) : (spopReply cmd popped).plain = true := by
  unfold spopReply
  split <;> rfl

/-- So the plan of each command has a plain result. -/
theorem planSet_plain (h : planSet env cmd x = .ok (r, act)) : r.plain = true := by
  unfold planSet at h
  split at h
  · cases h
  · cases h
    exact setReply_plain _ _
  · cases h
    exact setReply_plain _ _
  · cases h

theorem planIncr_plain (h : planIncr env cmd x = .ok (r, act)) : r.plain = true := by
  obtain ⟨val, -, h⟩ := except_bind_ok h
  obtain ⟨delta, -, h⟩ := except_bind_ok h
  cases h
  rfl

theorem planPersist_plain (h : planPersist x = .ok (r, act)) : r.plain = true := by
  unfold planPersist at h
  split at h
  · cases h
    rfl
  · split_ifs at h
    · cases h
      rfl
    · cases h
      rfl

theorem planHSet_plain (h : planHSet env cmd x = .ok (r, act)) : r.plain = true := by
  unfold planHSet at h
  split_ifs at h
  obtain ⟨old, -, h⟩ := except_bind_ok h
  cases h
  rfl

theorem planHDel_plain (h : planHDel env cmd x = .ok (r, act)) : r.plain = true := by
  obtain ⟨old, -, h⟩ := except_bind_ok h
  cases old with
  | none =>
    cases h
    rfl
  | some p =>
    cases h
    rfl

theorem planPush_plain (h : planPush env cmd x = .ok (r, act)) : r.plain = true := by
  obtain ⟨old, -, h⟩ := except_bind_ok h
  split_ifs at h
  · cases h
    rfl
  · cases h
    rfl

theorem planPop_plain (h : planPop env cmd x = .ok (r, act)) : r.plain = true := by
  obtain ⟨old, -, h⟩ := except_bind_ok h
  dsimp only at h
  split_ifs at h
  · cases h
    rfl
  · obtain ⟨count, -, h⟩ := except_bind_ok h
    cases h
    exact popReply_plain _

theorem planLTrim_plain (h : planLTrim env cmd x = .ok (r, act)) : r.plain = true := by
  obtain ⟨old, -, h⟩ := except_bind_ok h
  obtain ⟨start, -, h⟩ := except_bind_ok h
  obtain ⟨stop, -, h⟩ := except_bind_ok h
  cases h
  rfl

theorem planLRem_plain (h : planLRem env cmd x = .ok (r, act)) : r.plain = true := by
  obtain ⟨old, -, h⟩ := except_bind_ok h
  obtain ⟨limit, -, h⟩ := except_bind_ok h
  obtain ⟨needle, -, h⟩ := except_bind_ok h
  cases h
  rfl

theorem planSAdd_plain (h : planSAdd env cmd x = .ok (r, act)) : r.plain = true := by
  obtain ⟨old, -, h⟩ := except_bind_ok h
  cases h
  rfl

theorem planSRem_plain (h : planSRem env cmd x = .ok (r, act)) : r.plain = true := by
  obtain ⟨old, -, h⟩ := except_bind_ok h
  cases old with
  | none =>
    cases h
    split_ifs
    · exact spopReply_plain _
    · rfl
  | some p =>
    dsimp only at h
    split_ifs at h
    · cases h
      rfl
    · cases h
      exact spopReply_plain _

/-- Every data command returns a result that `applyCommand` has a case for. -/
theorem plan_plain (h : plan env cmd x = .ok (r, act)) : r.plain = true := by
  unfold plan at h
  cases hop : cmd.op <;> rw [hop] at h
  case set | getset | append => exact planSet_plain h
  case incr | decr | incrby | decrby => exact planIncr_plain h
  case expire =>
    cases x with
    | none =>
      cases h
      rfl
    | some p =>
      cases h
      rfl
  case persist => exact planPersist_plain h
  case hset | hsetnx => exact planHSet_plain h
  case hdel => exact planHDel_plain h
  case lpush | rpush | lpushx | rpushx => exact planPush_plain h
  case lpop | rpop => exact planPop_plain h
  case ltrim => exact planLTrim_plain h
  case lrem => exact planLRem_plain h
  case sadd => exact planSAdd_plain h
  case srem | spop => exact planSRem_plain h
  all_goals cases h

end Plans

/-- Commands on data return results of the types that have a case. -/
theorem applyCmd_plain {c : Codec} {env : Env} {cmd : Command} {db : DB} {r : Result}
    (h : (applyCmd c env cmd db).1 = .ok r) : r.plain = true := by
  rw [reply_applyCmd] at h
  cases hmulti : cmd.op.multi with
  | false =>
    rw [reply_of_single _ _ hmulti] at h
    cases hplan : plan env cmd (DB.view c env.clock.now db cmd.key) with
    | error e =>
      rw [hplan] at h
      cases h
    | ok p =>
      rw [hplan] at h
      cases h
      exact plan_plain hplan
  | true =>
    unfold reply at h
    split at h
    · split_ifs at h
      cases h
      rfl
    · dsimp only at h
      split_ifs at h
      · cases h
        rfl
      · cases h
        rfl
    · cases h
      rfl
    · rename_i hmset hdel hflush
      exfalso
      revert hmulti
      cases hop : cmd.op <;> simp_all [Op.multi]

/-! ## The replies of commands -/

/-- Calls that say what two data are, and send the same, say the same. -/
theorem Carries.inj {ws ws' : List Write} {d d' : Datum} (h : Carries ws d) (h' : Carries ws' d')
    (hsent : ws.map Write.sent = ws'.map Write.sent) : d = d' := by
  obtain ⟨v, hv, hd⟩ := h
  obtain ⟨v', hv', hd'⟩ := h'
  have hwrites : v.writes = v'.writes := by rw [hv, hv', hsent]
  rw [Resp.writes_injective hwrites, hd'] at hd
  exact (Option.some.inj hd).symm

/-- The Lua values whose conversion has a case of its own in the reply. -/
def LuaValue.plain : LuaValue → Bool
  | .str s | .other s => oneLine s
  | .table _ => false
  | _ => true

/-- What a script returns is told to the client as it is unless it is a table, or a text of several
lines. -/
theorem plain_luaToGoValue {heap : LuaHeap} {fuel : Nat} {v : LuaValue} {r : Result}
    (h : luaToGoValue heap fuel v = some r) : r.plain = v.plain := by
  cases v with
  | nil | number | str | other => cases fuel <;> cases h <;> rfl
  | bool b => cases b <;> cases fuel <;> cases h <;> rfl
  | table addr =>
    cases fuel with
    | zero => cases h
    | succ fuel =>
      obtain ⟨l, -, rfl⟩ := Option.map_eq_some_iff.mp h
      rfl

theorem hexDigit_oneLine {n : Nat} (h : n < 16) : hexDigit n ≠ 13 ∧ hexDigit n ≠ 10 := by
  revert n
  decide

/-- A hash in hexadecimal is one line. -/
theorem oneLine_encodeHex (b : Bytes) : oneLine (encodeHex b) = true := by
  unfold oneLine
  rw [List.all_eq_true]
  intro d hd
  obtain ⟨byte, -, hmem⟩ := List.mem_flatMap.mp hd
  have hbyte : byte.toNat < 256 := byte.toNat_lt
  rw [decide_eq_true_eq]
  rcases List.mem_pair.mp hmem with rfl | rfl
  · exact hexDigit_oneLine (by omega)
  · exact hexDigit_oneLine (by omega)

section Replies

variable (vm : LuaVM) (c : Codec) (codecText : Bytes) (fuel : Nat) (envs : List Nat → Env)
  (cmd : Command) (db : DB)

/-- The replies that carry the result: not to SCRIPT EXISTS, and to a script only if it returns
neither a table nor a text with a line break. A table that is nested too deep for the stack ends the
process. -/
def RepliesResult : Prop :=
  match cmd.op with
  | .scriptExists => False
  | .eval | .evalsha => ∀ heap v, ((scriptValue vm c fuel envs cmd).run db).1 = .ok (heap, v) →
      v.plain = true ∨ luaToGoValue heap fuel v = none
  | _ => True

/-- The operations on the registry that reply with a text. -/
theorem registry_plain (hop : cmd.op = .scriptLoad ∨ cmd.op = .scriptFlush) {r : Result}
    (h : (fsmApply vm c (fuel + 1) envs cmd db).1 = .ok r) : r.plain = true := by
  rw [fsmApply, Txn.atomically_fst, applyCmdInTxn] at h
  rcases hop with hop | hop
  · rw [if_pos (by rw [hop]; rfl)] at h
    unfold handleLuaCommand at h
    rw [hop] at h
    change ((scriptLoad cmd).run db).1 = .ok r at h
    unfold scriptLoad at h
    split at h
    · cases h
      exact oneLine_encodeHex _
    · cases h
  · rw [if_pos (by rw [hop]; rfl)] at h
    unfold handleLuaCommand at h
    rw [hop] at h
    cases h
    rfl

/-- SCRIPT EXISTS returns one flag for each script. -/
theorem scriptExists_result (hop : cmd.op = .scriptExists) :
    (fsmApply vm c (fuel + 1) envs cmd db).1 =
      .ok (.int64s (cmd.args.map fun sha =>
        if (db.getLive (envs []).clock.now (getScriptKey sha)).isSome then 1 else 0)) := by
  rw [fsmApply, Txn.atomically_fst, applyCmdInTxn, if_pos (by rw [hop]; rfl)]
  unfold handleLuaCommand
  rw [hop]
  dsimp only
  rw [Txn.run_bind_ok (scriptExistsLoop_run _ _ db)]
  rfl

/-- The result of a script is plain if the value it returns is, unless the conversion does not
end. -/
theorem script_plain_iff (hop : cmd.op = .eval ∨ cmd.op = .evalsha) :
    (∀ r, (fsmApply vm c (fuel + 1) envs cmd db).1 = .ok r → r.plain = true) ↔
      ∀ heap v, ((scriptValue vm c fuel envs cmd).run db).1 = .ok (heap, v) →
        v.plain = true ∨ luaToGoValue heap fuel v = none := by
  simp only [script_result_iff vm c fuel envs cmd db hop]
  constructor
  · intro h heap v hrun
    cases hv : luaToGoValue heap fuel v with
    | none => exact .inr rfl
    | some r =>
      rw [← plain_luaToGoValue hv]
      exact .inl (h r ⟨heap, v, hrun, hv⟩)
  · rintro h r ⟨heap, v, hrun, hv⟩
    rcases h heap v hrun with hplain | hnone
    · rw [plain_luaToGoValue hv, hplain]
    · rw [hv] at hnone
      cases hnone

/-- Replies carry the results of commands, and a reply that carries a result tells it. -/
theorem reply_carries_result_iff :
    ((∀ r, (fsmApply vm c (fuel + 1) envs cmd db).1 = .ok r →
        Carries (applyReply codecText (.applied (.ok r))) r.datum) ↔
      RepliesResult vm c fuel envs cmd db) ∧
    ∀ r r', Carries (applyReply codecText (.applied (.ok r))) r.datum →
      Carries (applyReply codecText (.applied (.ok r'))) r'.datum →
      (applyReply codecText (.applied (.ok r))).map Write.sent =
        (applyReply codecText (.applied (.ok r'))).map Write.sent → r.datum = r'.datum := by
  refine ⟨?_, fun r r' h h' hsent => h.inj h' hsent⟩
  simp only [carries_iff]
  unfold RepliesResult
  cases hop : cmd.op
  case scriptExists =>
    refine iff_of_false ?_ id
    intro h
    cases h _ (scriptExists_result vm c fuel envs cmd db hop)
  case eval => exact script_plain_iff vm c fuel envs cmd db (.inl hop)
  case evalsha => exact script_plain_iff vm c fuel envs cmd db (.inr hop)
  case scriptLoad =>
    exact iff_of_true (fun r => registry_plain vm c fuel envs cmd db (.inl hop)) trivial
  case scriptFlush =>
    exact iff_of_true (fun r => registry_plain vm c fuel envs cmd db (.inr hop)) trivial
  all_goals
    refine iff_of_true (fun r hr => ?_) trivial
    rw [fsmApply_of_not_script vm c (by rw [hop]; rfl)] at hr
    exact applyCmd_plain hr

/-- `SCRIPT EXISTS` of two scripts that are not there gets the reply of a success: the two zeros are
lost. -/
theorem scriptExists_replies_ok :
    let cmd : Command := { op := .scriptExists, args := [ascii "a", ascii "b"] }
    (fsmApply noScripts msgpack 1 (fun _ => Env.at 1000000000000) cmd OrdMap.empty).1 =
      .ok (.int64s [0, 0]) ∧
    applyReply [] (.applied (.ok (.int64s [0, 0]))) = [.string (ascii "OK")] ∧
    ¬ Carries [.string (ascii "OK")] (Result.int64s [0, 0]).datum := by
  refine ⟨rfl, rfl, ?_⟩
  rintro ⟨v, hv, hd⟩
  rw [resp_of_single hv rfl] at hd
  cases hd

end Replies

end Badis
