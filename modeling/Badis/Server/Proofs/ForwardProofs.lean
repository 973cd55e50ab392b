import Badis.Server.Forward
import Badis.Server.Proofs.ResultProofs
import Badis.Store.Proofs.LuaProofs
import Badis.Store.Proofs.NumeralProofs

/-!
# Proofs: results through a script

The script leaves the database that the command leaves, and its result is the command's, forwarded.
Integers are exact if and only if they have at most 53 significant bits (`toInt64_ofInt_iff`).
-/

namespace Badis

open Lib

/-! ## Integers -/

/-- The magnitude of an integer rounded to 53 bits. -/
def rounded (a : Nat) : Nat :=
  let unit := 2 ^ (a.log2 + 1 - 53)
  let q := a / unit
  let r := a % unit
  (if unit < 2 * r ∨ 2 * r = unit ∧ q % 2 = 1 then q + 1 else q) * unit

theorem ofInt_eq (n : Int) : LuaNumber.ofInt n = .finite (n.sign * rounded n.natAbs) 0 := by
  unfold LuaNumber.ofInt rounded
  simp

theorem rounded_eq_iff (a : Nat) : rounded a = a ↔ 2 ^ (a.log2 + 1 - 53) ∣ a := by
  unfold rounded
  generalize hunit : 2 ^ (a.log2 + 1 - 53) = unit
  have hpos : 0 < unit := hunit ▸ Nat.two_pow_pos _
  constructor
  · intro h
    exact Dvd.intro_left _ h
  · intro h
    have hr : a % unit = 0 := Nat.mod_eq_zero_of_dvd h
    have hnot : ¬ (unit < 2 * (a % unit) ∨ 2 * (a % unit) = unit ∧ a / unit % 2 = 1) := by omega
    dsimp only
    rw [if_neg hnot, Nat.div_mul_cancel h]

/-- `int64(f)` of an integer. -/
theorem toInt_toInt64_finite (m : Int) : (LuaNumber.finite m 0).toInt64.toInt =
    if -2 ^ 63 ≤ m ∧ m < 2 ^ 63 then m else -2 ^ 63 := by
  have hint : (LuaNumber.finite m 0).toInt64 =
      if -2 ^ 63 ≤ m ∧ m < 2 ^ 63 then Int64.ofInt m else Int64.minValue := by
    simp [LuaNumber.toInt64]
  rw [hint]
  split_ifs with hrange
  · exact Int64.toInt_ofInt_of_le hrange.1 hrange.2
  · rfl

/-- An integer comes back from Lua if and only if it is exact there. -/
theorem toInt64_ofInt_iff (n : Int) : (LuaNumber.ofInt n).toInt64.toInt = n ↔ ExactInLua n := by
  rw [ofInt_eq, toInt_toInt64_finite]
  unfold ExactInLua
  rw [← rounded_eq_iff]
  constructor
  · intro h
    split_ifs at h with hrange
    · rw [h] at hrange
      refine ⟨hrange.1, hrange.2, ?_⟩
      have habs := congrArg Int.natAbs h
      rw [Int.natAbs_mul, Int.natAbs_natCast] at habs
      by_cases hzero : n = 0
      · rw [hzero]
        decide
      · rw [Int.natAbs_sign_of_ne_zero hzero, Nat.one_mul] at habs
        exact habs
    · subst h
      exact ⟨le_rfl, by decide, by decide⟩
  · rintro ⟨hlow, hhigh, hexact⟩
    rw [hexact, Int.sign_mul_natAbs, if_pos ⟨hlow, hhigh⟩]

/-! ## Values -/

theorem mapM_str (heap : LuaHeap) (fuel : Nat) (l : List Bytes) :
    (l.map LuaValue.str).mapM (luaToGoValue heap fuel) = some (l.map .str) := by
  induction l with
  | nil => rfl
  | cons s l ih =>
    have hstr : luaToGoValue heap fuel (.str s) = some (.str s) := by cases fuel <;> rfl
    rw [List.map_cons, List.mapM_cons, hstr, ih]
    rfl

/-- The way in and the way out. -/
theorem luaToGoValue_goToLuaValue (r : Result) (fuel : Nat) :
    luaToGoValue (goToLuaValue r).value.1 (fuel + 1) (goToLuaValue r).value.2 =
      some r.forwarded := by
  cases r with
  | strs l =>
    show ((l.map LuaValue.str).mapM (luaToGoValue [l.map .str] fuel)).map Result.array = _
    rw [mapM_str]
    rfl
  | _ => rfl

/-- The reply to a forwarded result says what the result was if and only if the result survives. -/
theorem carries_forwarded_iff (codecText : Bytes) (r : Result) :
    Carries (applyReply codecText (.applied (.ok r.forwarded))) r.datum ↔ r.survives = true := by
  have hsame : r.forwarded.datum = r.datum → r.forwarded.plain = r.survives →
      (Carries (applyReply codecText (.applied (.ok r.forwarded))) r.datum ↔
        r.survives = true) := by
    intro hdatum hplain
    rw [← hdatum, ← hplain]
    exact carries_iff codecText r.forwarded
  have hint : ∀ n : Int, Carries [.int (LuaNumber.ofInt n).toInt64.toInt] (.int n) ↔
      decide (ExactInLua n) = true := by
    intro n
    rw [decide_eq_true_iff, ← toInt64_ofInt_iff]
    generalize (LuaNumber.ofInt n).toInt64 = m
    constructor
    · rintro ⟨v, hv, hd⟩
      rw [resp_of_single hv rfl] at hd
      exact Datum.int.inj (Option.some.inj hd)
    · rintro rfl
      exact ⟨.int m.toInt, rfl, rfl⟩
  have hnone : ∀ s elems, ¬ Carries [.string s] (.array elems) := by
    rintro s elems ⟨v, hv, hd⟩
    rw [resp_of_single hv rfl] at hd
    cases hd
  cases r with
  | nil => exact hsame rfl rfl
  | str s => exact hsame rfl rfl
  | bytes b => exact hsame rfl rfl
  | int n => exact hint n
  | int64 n => exact hint n.toInt
  | strs l => exact iff_of_false (hnone _ _) Bool.false_ne_true
  | int64s l => exact iff_of_false (hnone _ _) Bool.false_ne_true
  | array l => exact iff_of_false (hnone _ _) Bool.false_ne_true

/-! ## The script -/

/-- A command that succeeds, inside its transaction. -/
theorem run_of_applyCmd {c : Codec} {env : Env} {cmd : Command} {db db' : DB} {r : Result}
    (h : applyCmd c env cmd db = (.ok r, db')) : (applyData c env cmd).run db = (.ok r, db') := by
  unfold applyCmd Txn.atomically at h
  generalize (applyData c env cmd).run db = out at h ⊢
  obtain ⟨x, db''⟩ := out
  cases x with
  | error e => cases h
  | ok r' => exact h

section Script

variable (vm : LuaVM) (c : Codec)

theorem luaRedisCall_run {name : Bytes} {rest : List Bytes} (hname : ¬ vm.Answers name)
    {cmd : Command} (hparse : parseCommandForLua vm (vm.toUpper name) rest = .ok cmd)
    {apply : Command → Tx Result} {db db' : DB} {r : Result}
    (happly : (apply cmd).run db = (.ok r, db')) (t : Nat) :
    (luaRedisCall vm t apply (name :: rest)).run db = (.ok (goToLuaValue r), db') := by
  rw [luaRedisCall_command vm t apply rest hname, hparse]
  exact (Txn.run_bind_ok happly).trans rfl

/-- The script returns the result of its call, forwarded. -/
theorem doString_returnCall {name : Bytes} {rest : List Bytes} (hname : ¬ vm.Answers name)
    {cmd : Command} (hparse : parseCommandForLua vm (vm.toUpper name) rest = .ok cmd)
    (apply : Nat → Command → Tx Result) {db db' : DB} {r : Result}
    (happly : (apply 0 cmd).run db = (.ok r, db')) (fuel : Nat) (times : Nat → Nat)
    (msg : Err → Bytes) :
    (doString vm (fuel + 1) times apply (returnCall msg (name :: rest)) 0).run db =
      (.ok r.forwarded, db') := by
  have hcall := luaRedisCall_run vm hname hparse happly (times 0)
  have hattempt : (Txn.attempt (luaRedisCall vm (times 0) (apply 0) (name :: rest))).run db =
      (.ok (.ok (goToLuaValue r)), db') := by
    show (Except.ok ((luaRedisCall vm (times 0) (apply 0) (name :: rest)).run db).1, _) = _
    rw [hcall]
  unfold returnCall doString
  rw [Txn.run_bind_ok hattempt]
  unfold doString
  dsimp only
  rw [luaToGoValue_goToLuaValue]
  rfl

/-- `EVAL` of a script that returns the result of a call, other than GET, EXISTS and TYPE, of a data
command that succeeds does what the command does: it leaves the same database, and the reply tells
the client the result of the command if and only if the result survives the way through Lua. -/
theorem forwarded_reply_iff {script name : Bytes} {keys argv rest : List Bytes} {msg : Err → Bytes}
    (hrun : vm.run script keys argv = returnCall msg (name :: rest)) (hkeys : keys.length < 2 ^ 63)
    (hname : ¬ vm.Answers name) {cmd : Command}
    (hparse : parseCommandForLua vm (vm.toUpper name) rest = .ok cmd)
    (hscript : cmd.op.script = false) (envs : List Nat → Env) {db db' : DB} {r : Result}
    (happly : applyCmd c (envs [0]) cmd db = (.ok r, db')) (fuel : Nat) (codecText : Bytes) :
    let eval : Command :=
      { op := .eval, args := script :: formatInt (Int64.ofNat keys.length) :: (keys ++ argv) }
    ∃ r', fsmApply vm c (fuel + 2) envs eval db = (.ok r', db') ∧
      (Carries (applyReply codecText (.applied (.ok r'))) r.datum ↔ r.survives = true) := by
  intro eval
  refine ⟨r.forwarded, ?_, carries_forwarded_iff codecText r⟩
  have happly' : (applyCmdInTxn vm c (fuel + 1) (fun path => envs (0 :: path)) cmd).run db =
      (.ok r, db') := by
    rw [applyCmdInTxn, if_neg (by rw [hscript]; decide)]
    exact run_of_applyCmd happly
  have hnum : (Int64.ofNat keys.length).toInt = keys.length := Int64.toInt_ofNat_of_lt hkeys
  have hneg : ¬ Int64.ofNat keys.length < 0 := by
    rw [Int64.lt_iff_toInt_lt, hnum]
    simp
  have hmany : ¬ ((keys ++ argv).length : Int) < (keys.length : Int) := by
    rw [List.length_append]
    omega
  have hdo := doString_returnCall vm hname hparse
    (fun n => applyCmdInTxn vm c (fuel + 1) fun path => envs (n :: path)) happly' fuel (fun n =>
      (envs [n]).clock.now) msg
  have hinTxn : (applyCmdInTxn vm c (fuel + 2) envs eval).run db = (.ok r.forwarded, db') := by
    have hop : eval.op.script = true := rfl
    rw [← hdo, ← hrun, applyCmdInTxn, if_pos hop]
    simp only [handleLuaCommand, eval, runLua, parseInt_formatInt, if_neg hneg, if_neg hmany, hnum,
      Int.toNat_natCast, List.take_left, List.drop_left]
  rw [fsmApply, Txn.atomically, hinTxn]

/-- The script `return redis.call('INCRBY', KEYS[1], ARGV[1])`. -/
def forwardIncrBy : LuaVM where
  run _ keys argv := returnCall (fun _ => []) (ascii "INCRBY" :: (keys ++ argv))
  upper s := s

/-- `INCRBY` of a new counter by the first integer that Lua rounds. -/
def incrByRounded : Command :=
  { op := .incrby, key := ascii "k", args := [ascii "9007199254740993"] }

theorem forwarded_reply_rounded :
    let eval : Command :=
      { op := .eval, args := [ascii "return redis.call('INCRBY', KEYS[1], ARGV[1])", ascii "1",
      ascii "k", ascii "9007199254740993"] }
    let db := (applyCmd msgpack (Env.at 1000000000000) incrByRounded OrdMap.empty).2
    ∃ r', fsmApply forwardIncrBy msgpack 2 (fun _ => Env.at 1000000000000) eval OrdMap.empty =
      (.ok r', db) ∧
      (Carries (applyReply [] (.applied (.ok r'))) (.int 9007199254740993) ↔
        (Result.int64 9007199254740993).survives = true) := by
  intro eval db
  have hrun : forwardIncrBy.run (ascii "return redis.call('INCRBY', KEYS[1], ARGV[1])") [ascii "k"]
      [ascii "9007199254740993"] =
        returnCall (fun _ => []) [ascii "INCRBY", ascii "k", ascii "9007199254740993"] := rfl
  have hname : ¬ forwardIncrBy.Answers (ascii "INCRBY") := by
    unfold LuaVM.Answers
    decide
  have hparse : parseCommandForLua forwardIncrBy (forwardIncrBy.toUpper (ascii "INCRBY"))
      [ascii "k", ascii "9007199254740993"] = .ok incrByRounded := rfl
  have happly : applyCmd msgpack (Env.at 1000000000000) incrByRounded OrdMap.empty =
      (.ok (.int64 9007199254740993), db) := by
    rfl
  exact forwarded_reply_iff forwardIncrBy msgpack hrun (by decide) hname hparse rfl (fun _ =>
    Env.at 1000000000000)
    happly 0 []

end Script

end Badis
