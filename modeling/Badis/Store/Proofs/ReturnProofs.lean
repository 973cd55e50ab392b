import Mathlib.Data.Set.Finite.Range
import Badis.Store.Encoding
import Badis.Store.Return
import Badis.Store.Proofs.PlanProofs

/-!
# Proofs: what a script returns

A script command is the value of its script, converted (`applyCmdInTxn_script_run`). The conversion
of a value ends if and only if the value leads to no table that contains itself, and with it the
command (`luaToGoValue_returns_iff`).
-/

namespace Badis

open Lib

/-! ## From a script's value to the result -/

section Scripts

variable (vm : LuaVM)

/-- Running a script is computing its value and converting it. -/
theorem doString_run (fuel : Nat) (times : Nat → Nat) (apply : Nat → Command → Tx Result)
    (p : LuaProg) (n : Nat) (db : DB) :
    (doString vm fuel times apply p n).run db =
      (LuaProg.value vm times apply p n >>= convertValue fuel).run db := by
  induction p generalizing n db with
  | done heap ret =>
    rw [doString, LuaProg.value]
    rfl
  | fail msg => rfl
  | call args next ih =>
    rw [doString, LuaProg.value, Txn.run_bind, Txn.run_bind, Txn.run_bind]
    generalize (Txn.attempt (luaRedisCall vm (times n) (apply n) args)).run db = out
    obtain ⟨r, db'⟩ := out
    cases r with
    | error e => rfl
    | ok r =>
      cases r with
      | ok reply => exact ih (.ok reply) (n + 1) db'
      | error e =>
        -- only an exhausted stack is not handed to the script
        cases e with
        | stackOverflow => rfl
        | _ => exact ih _ (n + 1) db'

theorem runLua_run (fuel : Nat) (times : Nat → Nat) (apply : Nat → Command → Tx Result)
    (script : Bytes) (evalArgs : List Bytes) (db : DB) :
    (runLua vm fuel times apply script evalArgs).run db =
      (runLuaValue vm times apply script evalArgs >>= convertValue fuel).run db := by
  unfold runLua runLuaValue
  cases evalArgs with
  | nil => rfl
  | cons numKeysStr rest =>
    dsimp only
    obtain ⟨numKeys, parsed⟩ := parseInt numKeysStr
    cases parsed with
    | false => rfl
    | true =>
      dsimp only
      split_ifs
      · rfl
      · rfl
      · exact doString_run vm fuel times apply _ 0 db

/-- A script command is its script's value, converted. -/
theorem applyCmdInTxn_script_run (c : Codec) (fuel : Nat) (envs : List Nat → Env) {cmd : Command}
    (hop : cmd.op = .eval ∨ cmd.op = .evalsha) (db : DB) :
    (applyCmdInTxn vm c (fuel + 1) envs cmd).run db =
      (scriptValue vm c fuel envs cmd >>= convertValue fuel).run db := by
  have hscript : cmd.op.script = true := by
    rcases hop with hop | hop
    · rw [hop]
      rfl
    · rw [hop]
      rfl
  rw [applyCmdInTxn, if_pos hscript]
  unfold handleLuaCommand scriptValue
  rcases hop with hop | hop
  · rw [hop]
    rcases cmd.args with _ | ⟨script, _ | ⟨arg, rest⟩⟩
    · rfl
    · rfl
    · exact runLua_run vm fuel _ _ script (arg :: rest) db
  · rw [hop]
    rcases cmd.args with _ | ⟨sha, _ | ⟨arg, rest⟩⟩
    · rfl
    · rfl
    · dsimp only
      rw [Txn.run_bind_ok (txnGet_run db _ _), Txn.run_bind, Txn.run_bind_ok (txnGet_run db _ _)]
      cases (db.get? (getScriptKey sha)).filter (Entry.live (envs []).clock.now) with
      | none => rfl
      | some item =>
        dsimp only
        rw [runLua_run, Txn.run_bind]

/-- The result of a script, by the value it returns. -/
theorem script_result_iff (c : Codec) (fuel : Nat) (envs : List Nat → Env) (cmd : Command) (db : DB)
    (hop : cmd.op = .eval ∨ cmd.op = .evalsha) (r : Result) :
    (fsmApply vm c (fuel + 1) envs cmd db).1 = .ok r ↔
      ∃ heap v, ((scriptValue vm c fuel envs cmd).run db).1 = .ok (heap, v) ∧
        luaToGoValue heap fuel v = some r := by
  rw [fsmApply, Txn.atomically_fst, applyCmdInTxn_script_run vm c fuel envs hop db, Txn.run_bind]
  generalize (scriptValue vm c fuel envs cmd).run db = out
  obtain ⟨x, db'⟩ := out
  cases x with
  | error e =>
    constructor
    · intro h
      cases h
    · rintro ⟨heap, v, h, -⟩
      cases h
  | ok p =>
    obtain ⟨heap, v⟩ := p
    show ((convertValue fuel (heap, v)).run db').1 = .ok r ↔ _
    unfold convertValue
    cases hv : luaToGoValue heap fuel v with
    | none =>
      constructor
      · intro h
        dsimp only at h
        cases h
      · rintro ⟨heap', v', h, hr⟩
        cases h
        rw [hv] at hr
        cases hr
    | some r' =>
      dsimp only
      constructor
      · intro h
        cases h
        exact ⟨heap, v, rfl, hv⟩
      · rintro ⟨heap', v', h, hr⟩
        cases h
        rw [hv] at hr
        cases hr
        rfl

end Scripts

/-! ## The conversion of a value -/

section Convert

variable {heap : LuaHeap} {v : LuaValue} {fuel fuel' : Nat}

theorem isSome_mapM_iff {α β : Type} {f : α → Option β} {l : List α} :
    (l.mapM f).isSome = true ↔ ∀ a ∈ l, (f a).isSome = true := by
  induction l with
  | nil => simp
  | cons a l ih =>
    rw [List.mapM_cons, List.forall_mem_cons, ← ih]
    cases f a <;> cases l.mapM f <;> simp

theorem mapM_mono {α β : Type} {f g : α → Option β} {l : List α} {bs : List β}
    (h : ∀ a b, f a = some b → g a = some b) (hl : l.mapM f = some bs) : l.mapM g = some bs := by
  induction l generalizing bs with
  | nil => exact hl
  | cons a l ih =>
    rw [List.mapM_cons] at hl ⊢
    obtain ⟨b, hb, hl⟩ := Option.bind_eq_some_iff.mp hl
    obtain ⟨bs', hbs, heq⟩ := Option.bind_eq_some_iff.mp hl
    rw [h a b hb, ih hbs]
    exact heq

/-- A conversion that ends ends with more fuel, in the same result. -/
theorem luaToGoValue_mono (hle : fuel ≤ fuel') {r : Result}
    (h : luaToGoValue heap fuel v = some r) :
    luaToGoValue heap fuel' v = some r := by
  induction fuel generalizing fuel' v r with
  | zero =>
    cases v with
    | table addr => cases h
    | _ => cases fuel' <;> exact h
  | succ fuel ih =>
    obtain ⟨fuel', rfl⟩ : ∃ n, fuel' = n + 1 := ⟨fuel' - 1, by omega⟩
    cases v with
    | table addr =>
      obtain ⟨rs, hrs, rfl⟩ := Option.map_eq_some_iff.mp h
      exact Option.map_eq_some_iff.mpr ⟨rs, mapM_mono (fun w r => ih (by omega)) hrs, rfl⟩
    | _ => exact h

/-- With this much stack for every value of a list. -/
theorem exists_common_fuel {l : List LuaValue}
    (h : ∀ w ∈ l, ∃ fuel, (luaToGoValue heap fuel w).isSome = true) :
    ∃ fuel, ∀ w ∈ l, (luaToGoValue heap fuel w).isSome = true := by
  induction l with
  | nil => exact ⟨0, by simp⟩
  | cons w l ih =>
    obtain ⟨n, hn⟩ := h w List.mem_cons_self
    obtain ⟨k, hk⟩ := ih fun w' hw' => h w' (List.mem_cons_of_mem _ hw')
    have hmono : ∀ {i : Nat} {w' : LuaValue}, i ≤ max n k → (luaToGoValue heap i w').isSome = true →
        (luaToGoValue heap (max n k) w').isSome = true := by
      intro i w' hi hsome
      obtain ⟨r, hr⟩ := Option.isSome_iff_exists.mp hsome
      rw [luaToGoValue_mono hi hr]
      rfl
    refine ⟨max n k, List.forall_mem_cons.mpr ⟨hmono (le_max_left n k) hn, fun w' hw' => ?_⟩⟩
    exact hmono (le_max_right n k) (hk w' hw')

theorem acc_of_luaToGoValue (h : (luaToGoValue heap fuel v).isSome = true) :
    Acc (flip (TableHolds heap)) v := by
  induction fuel generalizing v with
  | zero =>
    refine Acc.intro _ ?_
    rintro w ⟨addr, rfl, -⟩
    cases h
  | succ fuel ih =>
    refine Acc.intro _ ?_
    rintro w ⟨addr, rfl, hw⟩
    have hvalues : ((heap.getD addr []).mapM (luaToGoValue heap fuel)).isSome = true := by
      rw [← Option.isSome_map]
      exact h
    exact ih (isSome_mapM_iff.mp hvalues w hw)

theorem luaToGoValue_of_acc (h : Acc (flip (TableHolds heap)) v) :
    ∃ fuel, (luaToGoValue heap fuel v).isSome = true := by
  induction h with
  | intro v _ ih =>
    cases v with
    | table addr =>
      obtain ⟨fuel, hfuel⟩ := exists_common_fuel fun w hw => ih w ⟨addr, rfl, hw⟩
      refine ⟨fuel + 1, ?_⟩
      show (((heap.getD addr []).mapM (luaToGoValue heap fuel)).map _).isSome = true
      rw [Option.isSome_map]
      exact isSome_mapM_iff.mpr hfuel
    | _ => exact ⟨0, rfl⟩

/-- Only the tables of the heap hold anything. -/
theorem finite_tableHolds (heap : LuaHeap) : { v | ∃ w, TableHolds heap v w }.Finite := by
  refine (Set.finite_range fun i : Fin heap.length => LuaValue.table i).subset ?_
  rintro _ ⟨w, addr, rfl, hw⟩
  have haddr : addr < heap.length := by
    by_contra hlt
    rw [List.getD_eq_getElem?_getD, List.getElem?_eq_none (Nat.le_of_not_lt hlt)] at hw
    cases hw
  exact ⟨⟨addr, haddr⟩, rfl⟩

/-- A conversion ends if and only if no table that it comes to holds itself. -/
theorem luaToGoValue_isSome_iff :
    (∃ fuel, (luaToGoValue heap fuel v).isSome = true) ↔ Acyclic (TableHolds heap) v := by
  rw [← acc_iff_acyclic (finite_tableHolds heap)]
  exact ⟨fun ⟨_, h⟩ => acc_of_luaToGoValue h, luaToGoValue_of_acc⟩

end Convert

/-! ## More stack -/

section Fuel

variable (vm : LuaVM) {c : Codec} {fuel fuel' : Nat}

theorem luaRedisCall_extends (t : Nat) {apply apply' : Command → Tx Result}
    (h : ∀ cmd, Txn.Extends .stackOverflow (apply cmd) (apply' cmd)) (args : List Bytes) :
    Txn.Extends .stackOverflow (luaRedisCall vm t apply args) (luaRedisCall vm t apply' args) := by
  unfold luaRedisCall
  cases args with
  | nil => exact Txn.extends_refl _
  | cons name rest =>
    dsimp only
    split_ifs
    · exact Txn.extends_refl _
    · exact Txn.extends_refl _
    · exact Txn.extends_refl _
    · exact (Txn.extends_refl _).bind fun cmd => (h cmd).bind fun _ => Txn.extends_refl _

variable {times : Nat → Nat} {apply apply' : Nat → Command → Tx Result}
  (happly : ∀ n cmd, Txn.Extends .stackOverflow (apply n cmd) (apply' n cmd))

include happly

/-- More stack does not change what a script computes if it does not run out. -/
theorem value_extends (p : LuaProg) (n : Nat) :
    Txn.Extends .stackOverflow (p.value vm times apply n) (p.value vm times apply' n) := by
  induction p generalizing n with
  | done heap ret => exact Txn.extends_refl _
  | fail msg => exact Txn.extends_refl _
  | call args next ih =>
    rw [LuaProg.value, LuaProg.value]
    refine Txn.Extends.attempt (luaRedisCall_extends vm (times n) (happly n) args) rfl
      fun r hr => ?_
    cases r with
    | ok reply => exact ih (.ok reply) (n + 1)
    | error e =>
      cases e with
      | stackOverflow => exact absurd rfl hr
      | _ => exact ih _ (n + 1)

theorem runLuaValue_extends (script : Bytes) (evalArgs : List Bytes) :
    Txn.Extends .stackOverflow (runLuaValue vm times apply script evalArgs)
      (runLuaValue vm times apply' script evalArgs) := by
  unfold runLuaValue
  cases evalArgs with
  | nil => exact Txn.extends_refl _
  | cons numKeysStr rest =>
    dsimp only
    obtain ⟨numKeys, parsed⟩ := parseInt numKeysStr
    cases parsed with
    | false => exact Txn.extends_refl _
    | true =>
      dsimp only
      split_ifs
      · exact Txn.extends_refl _
      · exact Txn.extends_refl _
      · exact value_extends vm happly _ 0

omit happly

theorem convertValue_extends (hle : fuel ≤ fuel') (out : LuaHeap × LuaValue) :
    Txn.Extends .stackOverflow (convertValue fuel out) (convertValue fuel' out) := by
  unfold convertValue
  cases hv : luaToGoValue out.1 fuel out.2 with
  | none => exact Txn.extends_throw _
  | some r =>
    rw [luaToGoValue_mono hle hv]
    exact Txn.extends_refl _

theorem scriptValue_extends (envs : List Nat → Env) (cmd : Command)
    (h : ∀ envs cmd, Txn.Extends .stackOverflow (applyCmdInTxn vm c fuel envs cmd)
      (applyCmdInTxn vm c fuel' envs cmd)) :
    Txn.Extends .stackOverflow (scriptValue vm c fuel envs cmd)
      (scriptValue vm c fuel' envs cmd) := by
  unfold scriptValue
  dsimp only
  split
  · refine (Txn.extends_refl _).bind fun item => ?_
    cases item with
    | none => exact Txn.extends_refl _
    | some item => exact runLuaValue_extends vm (fun n cmd => h _ cmd) _ _
  · exact runLuaValue_extends vm (fun n cmd => h _ cmd) _ _
  · exact Txn.extends_refl _
  · exact Txn.extends_refl _
  · exact Txn.extends_refl _

/-- With more stack a command does the same, unless it had run out of it. -/
theorem applyCmdInTxn_extends (hle : fuel ≤ fuel') (envs : List Nat → Env) (cmd : Command) :
    Txn.Extends .stackOverflow (applyCmdInTxn vm c fuel envs cmd)
      (applyCmdInTxn vm c fuel' envs cmd) := by
  induction fuel generalizing fuel' envs cmd with
  | zero =>
    by_cases hscript : cmd.op.script = true
    · rw [applyCmdInTxn, if_pos hscript]
      exact Txn.extends_throw _
    · cases fuel' <;> simp only [applyCmdInTxn, if_neg hscript] <;> exact Txn.extends_refl _
  | succ fuel ih =>
    obtain ⟨fuel', rfl⟩ : ∃ n, fuel' = n + 1 := ⟨fuel' - 1, by omega⟩
    have hle' : fuel ≤ fuel' := by omega
    by_cases hop : cmd.op = .eval ∨ cmd.op = .evalsha
    · have hextends := (scriptValue_extends vm envs cmd fun envs cmd => ih hle' envs cmd).bind
        (convertValue_extends hle')
      intro db h
      rw [applyCmdInTxn_script_run vm c fuel envs hop] at h ⊢
      rw [applyCmdInTxn_script_run vm c fuel' envs hop]
      exact hextends db h
    · have hsame : applyCmdInTxn vm c (fuel + 1) envs cmd =
          applyCmdInTxn vm c (fuel' + 1) envs cmd := by
        rw [not_or] at hop
        rw [applyCmdInTxn, applyCmdInTxn]
        split_ifs with hscript
        · unfold handleLuaCommand
          cases hcmd : cmd.op <;> simp_all
        · rfl
      rw [hsame]
      exact Txn.extends_refl _

end Fuel

/-! ## Scripts that return -/

/-- Where a script ends with a value, its command returns if and only if the conversion of the value
does. -/
theorem script_returns_iff {vm : LuaVM} {c : Codec} {fuel : Nat} {envs : List Nat → Env}
    {cmd : Command} {db db' : DB} {heap : LuaHeap} {v : LuaValue}
    (hop : cmd.op = .eval ∨ cmd.op = .evalsha)
    (hvalue : (scriptValue vm c fuel envs cmd).run db = (.ok (heap, v), db')) :
    (∃ n, (fsmApply vm c n envs cmd db).1 ≠ .error .stackOverflow) ↔
      ∃ n, (luaToGoValue heap n v).isSome = true := by
  have hmore :
    ∀ {n k : Nat}, n ≤ k → ((scriptValue vm c n envs cmd).run db).1 ≠ .error .stackOverflow →
      (scriptValue vm c k envs cmd).run db = (scriptValue vm c n envs cmd).run db := fun hle =>
    scriptValue_extends vm envs cmd (applyCmdInTxn_extends vm hle) db
  have hok : ((scriptValue vm c fuel envs cmd).run db).1 ≠ .error .stackOverflow := by
    rw [hvalue]
    rintro ⟨⟩
  constructor
  · rintro ⟨n, hn⟩
    cases n with
    | zero =>
      have hscript : cmd.op.script = true := by rcases hop with hop | hop <;> rw [hop] <;> rfl
      rw [fsmApply, Txn.atomically_fst, applyCmdInTxn, if_pos hscript] at hn
      exact absurd rfl hn
    | succ n =>
      rw [fsmApply, Txn.atomically_fst, applyCmdInTxn_script_run vm c n envs hop,
        Txn.run_bind] at hn
      have hn' : ((scriptValue vm c n envs cmd).run db).1 ≠ .error .stackOverflow := by
        intro hover
        generalize (scriptValue vm c n envs cmd).run db = out at hn hover
        obtain ⟨r, s⟩ := out
        cases hover
        exact hn rfl
      -- both amounts of stack find the value that their maximum finds
      have hsame : (scriptValue vm c n envs cmd).run db = (.ok (heap, v), db') := by
        rw [← hmore (le_max_left n fuel) hn', hmore (le_max_right n fuel) hok, hvalue]
      rw [hsame] at hn
      refine ⟨n, ?_⟩
      rw [Option.isSome_iff_ne_none]
      intro hnone
      refine hn ?_
      show ((convertValue n (heap, v)).run db').1 = _
      rw [convertValue, hnone]
      rfl
  · rintro ⟨n, hn⟩
    obtain ⟨r, hr⟩ := Option.isSome_iff_exists.mp hn
    have hresult : (fsmApply vm c (max n fuel + 1) envs cmd db).1 = .ok r := by
      refine (script_result_iff vm c (max n fuel) envs cmd db hop r).mpr ⟨heap, v, ?_, ?_⟩
      · rw [hmore (le_max_right n fuel) hok, hvalue]
      · exact luaToGoValue_mono (le_max_left n fuel) hr
    refine ⟨max n fuel + 1, ?_⟩
    rw [hresult]
    rintro ⟨⟩

/-- The conversion of a value ends if and only if the value leads to no table that contains itself,
and so does an EVAL or EVALSHA whose script returns the value. -/
theorem luaToGoValue_returns_iff (heap : LuaHeap) (v : LuaValue) :
    ((∃ fuel, (luaToGoValue heap fuel v).isSome = true) ↔ Acyclic (TableHolds heap) v) ∧
      ∀ (vm : LuaVM) (c : Codec) (fuel : Nat) (envs : List Nat → Env) (cmd : Command) (db db' : DB),
        cmd.op = .eval ∨ cmd.op = .evalsha → (scriptValue vm c fuel envs cmd).run db =
          (.ok (heap, v), db') →
        ((∃ n, (fsmApply vm c n envs cmd db).1 ≠ .error .stackOverflow) ↔
          Acyclic (TableHolds heap) v) := by
  refine ⟨luaToGoValue_isSome_iff, fun vm c fuel envs cmd db db' hop hvalue => ?_⟩
  rw [script_returns_iff hop hvalue]
  exact luaToGoValue_isSome_iff

/-- An interpreter whose scripts return a table that holds itself. -/
def selfHolding : LuaVM := ⟨fun _ _ _ => .done [[.table 0]] (.table 0), id⟩

theorem luaToGoValue_selfHolding (fuel : Nat) :
    luaToGoValue [[.table 0]] fuel (.table 0) = none := by
  induction fuel with
  | zero => rfl
  | succ fuel ih =>
    show ((luaToGoValue [[.table 0]] fuel (.table 0) >>= fun r => _).map _) = none
    rw [ih]
    rfl

/-- `t = {}; t[1] = t; return t`: no stack is enough for the conversion, nor for EVAL. -/
theorem selfHolding_never_returns :
    (∀ fuel, luaToGoValue [[.table 0]] fuel (.table 0) = none) ∧
      ∀ fuel, (fsmApply selfHolding msgpack fuel (fun _ => Env.at 1000000000000)
        { op := .eval, args := [ascii "t = {}; t[1] = t; return t", ascii "0"] } OrdMap.empty).1 =
          .error .stackOverflow := by
  refine ⟨luaToGoValue_selfHolding, fun fuel => ?_⟩
  cases fuel with
  | zero => rfl
  | succ fuel =>
    rw [fsmApply, Txn.atomically_fst, applyCmdInTxn_script_run _ _ _ _ (.inl rfl)]
    show ((convertValue fuel ([[.table 0]], .table 0)).run OrdMap.empty).1 = _
    rw [convertValue, luaToGoValue_selfHolding]
    rfl

end Badis
