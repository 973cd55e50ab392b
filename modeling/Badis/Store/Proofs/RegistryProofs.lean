import Badis.Store.Registry
import Badis.Store.Proofs.FailureProofs
import Badis.Store.Proofs.LogStoreProofs

/-!
# The script registry

Loading a script binds its SHA, and no other write of the FSM or of raft touches a script key except
SCRIPT_FLUSH. A flush that clears the registry (`flushClears`) deletes every script. So in a run
where every flush is of that kind, the registry holds the scripts that its history says
(`RegistryHolds`).
-/

namespace Badis

open Lib

/-! ## What the registry holds -/

/-- The entries under the script keys are those of the scripts `loaded`, under each SHA the first
one. -/
def RegistryHolds (loaded : List Bytes) (db : DB) : Prop :=
  ∀ sha, db.get? (getScriptKey sha) =
    (loaded.find? fun script => scriptSHA script = sha).map newEntry

/-- The databases have the same scripts. -/
def SameScripts (db db' : DB) : Prop :=
  ∀ sha, db'.get? (getScriptKey sha) = db.get? (getScriptKey sha)

theorem SameScripts.refl (db : DB) : SameScripts db db := fun _ => rfl

theorem SameElsewhere.sameScripts {db db' : DB} (h : SameElsewhere db db') :
    SameScripts db db' := by
  intro sha
  apply h
  · intro k heq
    cases heq
  · intro k heq
    cases heq

theorem SameData.sameScripts {db db' : DB} (h : SameData db db') : SameScripts db db' :=
  fun _ => h _ (.inr (.inr (List.prefix_append _ _)))

/-- A step that leaves the script entries alone leaves the registry as it was. -/
theorem RegistryHolds.of_same {loaded : List Bytes} {db db' : DB} (h : RegistryHolds loaded db)
    (hsame : SameScripts db db') : RegistryHolds loaded db' := fun sha => (hsame sha).trans (h sha)

/-- SCRIPT LOAD adds a script under its own hash. A script with the same hash would be overwritten,
and is no longer the one that is found. -/
theorem RegistryHolds.load {loaded : List Bytes} {db : DB} (h : RegistryHolds loaded db)
    (script : Bytes) :
    RegistryHolds (script :: loaded)
      (db.insert (getScriptKey (scriptSHA script)) (newEntry script)) := by
  intro sha
  by_cases hsha : scriptSHA script = sha
  · subst hsha
    rw [OrdMap.get?_insert_self, List.find?_cons_of_pos (by simp)]
    rfl
  · have hne : getScriptKey (scriptSHA script) ≠ getScriptKey sha := fun heq =>
      hsha (List.append_cancel_left heq)
    rw [OrdMap.get?_insert_of_ne _ _ hne, List.find?_cons_of_neg (by simpa using hsha)]
    exact h sha

/-! ## A flush -/

/-- Every script entry is that of a script that has been loaded. -/
theorem RegistryHolds.get?_eq {loaded : List Bytes} {db : DB} (h : RegistryHolds loaded db)
    {sha : Bytes} {e : Entry} (hget : db.get? (getScriptKey sha) = some e) :
    ∃ script ∈ loaded, scriptSHA script = sha ∧ e = newEntry script := by
  have hheld := h sha
  rw [hget] at hheld
  obtain ⟨script, hfind, hentry⟩ := Option.map_eq_some_iff.mp hheld.symm
  exact ⟨script, List.mem_of_find?_eq_some hfind, by simpa using List.find?_some hfind, hentry.symm⟩

theorem RegistryHolds.scriptKeys {loaded : List Bytes} {db : DB} (h : RegistryHolds loaded db) :
    ScriptKeys db := by
  rintro key e hget ⟨sha, rfl⟩
  obtain ⟨script, -, rfl, -⟩ := h.get?_eq hget
  exact length_getScriptKey script

/-- The test in terms of the keys that the iterator of SCRIPT FLUSH visits. -/
theorem flushClears_iff (t : Nat) (db : DB) : flushClears t db = true ↔
    flushCount t db ≤ 2 ∧
      ∀ i < flushCount t db, ∀ key, (flushKeys t db)[i + 2]? = some key → 48 < key.length := by
  have hall : ∀ o : Option Bytes, (o.all fun key => decide (48 < key.length)) = true ↔
      ∀ key, o = some key → 48 < key.length := by
    intro o
    cases o with
    | none => exact iff_of_true rfl fun key hkey => nomatch hkey
    | some key => simp
  show (decide (flushCount t db ≤ 2) && (List.range (flushCount t db)).all fun i =>
    ((flushKeys t db)[i + 2]?).all fun key => 48 < key.length) = true ↔ _
  rw [Bool.and_eq_true, decide_eq_true_eq, List.all_eq_true]
  simp only [List.mem_range, hall]

theorem RegistryHolds.flush {loaded : List Bytes} {db : DB} {t : Nat} (h : RegistryHolds loaded db)
    (hclears : flushClears t db = true) : RegistryHolds [] ((scriptFlush t).run db).2 := by
  intro sha
  obtain ⟨htwo, hlong⟩ := (flushClears_iff t db).mp hclears
  rw [scriptFlush_run, tombstones_eq htwo hlong, OrdMap.get?_foldl_erase]
  split_ifs with hmem
  · rfl
  · cases hget : db.get? (getScriptKey sha) with
    | none => rfl
    | some e =>
      obtain ⟨script, -, -, rfl⟩ := h.get?_eq hget
      exact absurd (mem_take_flushCount hget rfl (List.prefix_append scriptPrefix sha)) hmem

/-- SCRIPT_FLUSH empties the registry exactly when it clears it. -/
theorem RegistryHolds.flush_iff {loaded : List Bytes} {db : DB} (h : RegistryHolds loaded db)
    (t : Nat) :
    RegistryHolds [] ((scriptFlush t).run db).2 ↔ flushClears t db = true := by
  refine ⟨fun hempty => (flushClears_iff t db).mpr ?_, h.flush⟩
  have hkeys : ∀ key ∈ flushKeys t db, AtScripts key := by
    intro key hkey
    obtain ⟨e, hget⟩ := stored_of_mem_flushKeys hkey
    by_cases hpre : scriptPrefix <+: key
    · exact .inl ⟨hpre, h.scriptKeys key e hget hpre⟩
    · exact .inr ⟨hpre, le_of_mem_flushKeys hkey⟩
  have hscripts : ∀ key ∈ (flushKeys t db).take (flushCount t db),
      scriptPrefix <+: key ∧ key.length = 47 := by
    intro key hkey
    obtain ⟨e, hget⟩ := stored_of_mem_flushKeys (List.mem_of_mem_take hkey)
    exact ⟨script_of_mem_take hkey, h.scriptKeys key e hget (script_of_mem_take hkey)⟩
  refine clears_of_deleted hkeys hscripts flushCount_le (sorted_flushKeys.imp fun hlt => hlt.ne) ?_
  intro key hkey
  by_contra hkept
  obtain ⟨e, hget⟩ := stored_of_mem_flushKeys (List.mem_of_mem_take hkey)
  obtain ⟨sha, hsha⟩ : ∃ sha, getScriptKey sha = key := script_of_mem_take hkey
  have hgone := hempty sha
  rw [scriptFlush_run, hsha, OrdMap.get?_foldl_erase, if_neg hkept, hget] at hgone
  cases hgone

/-! ## The history of a transaction -/

/-- A flush of the history clears the registry. -/
def RegistryEvent.Clears : RegistryEvent → Prop
  | .load _ => True
  | .flush t db => flushClears t db = true

/-- `m` changes the registry as the events say, if every flush among them clears it. -/
def Tracks {α : Type} (m : Tx α) (events : DB → List RegistryEvent) : Prop :=
  ∀ loaded db, RegistryHolds loaded db → (∀ event ∈ events db, event.Clears) →
    RegistryHolds (loadedSince loaded (events db)) (m.run db).2

section Rules

variable {α β : Type}

/-- A transaction that leaves the scripts alone makes no events. -/
theorem Tracks.of_quiet {m : Tx α} (h : Txn.Respects SameScripts m) : Tracks m fun _ => [] :=
  fun _ db hholds _ => hholds.of_same (h db)

theorem Tracks.of_reads {m : Tx α} (h : ReadsOnly m) : Tracks m fun _ => [] :=
  .of_quiet (h.respects SameScripts.refl)

theorem tracks_throw (e : Err) : Tracks (Txn.throw e : Tx α) fun _ => [] :=
  .of_quiet (Txn.respects_throw SameScripts.refl e)

/-- Steps that leave the scripts alone add no events. -/
theorem Tracks.bind_quiet {m : Tx α} {f : α → Tx β} {events : DB → List RegistryEvent}
    (hm : Tracks m events) (hf : ∀ a, Txn.Respects SameScripts (f a)) :
    Tracks (m >>= f) events := by
  intro loaded db hholds hclears
  have hafter := hm loaded db hholds hclears
  rw [Txn.run_bind]
  cases hrun : m.run db with
  | mk r db' =>
    rw [hrun] at hafter
    cases r with
    | ok a => exact hafter.of_same (hf a db')
    | error e => exact hafter

theorem scriptLoad_tracks (cmd : Command) : Tracks (scriptLoad cmd) fun _ =>
    match cmd.args with
    | [script] => [.load script]
    | _ => [] := by
  unfold scriptLoad
  rcases cmd.args with _ | ⟨script, _ | ⟨arg, rest⟩⟩
  · exact tracks_throw _
  · exact Tracks.bind_quiet (fun loaded db hholds _ => hholds.load script)
      fun _ => Txn.respects_pure SameScripts.refl _
  · exact tracks_throw _

/-- SCRIPT FLUSH is an event of its own, with the state in which it runs. -/
theorem scriptFlush_tracks (t : Nat) : Tracks (scriptFlush t) fun db => [.flush t db] :=
  fun _ _ hholds hclears => hholds.flush (hclears _ (List.mem_singleton_self _))

end Rules

section Lua

variable (vm : LuaVM)

/-- A call from a script makes the events of the command that it runs. -/
theorem luaRedisCall_tracks (t : Nat) {apply : Command → Tx Result}
    {events : Command → DB → List RegistryEvent} (happly : ∀ cmd, Tracks (apply cmd) (events cmd))
    (args : List Bytes) : Tracks (luaRedisCall vm t apply args) (callEvents vm events args) := by
  cases args with
  | nil => exact tracks_throw _
  | cons name rest =>
    by_cases hname : vm.Answers name
    · have hevents : callEvents vm events (name :: rest) = fun _ => [] :=
        funext fun db => if_pos hname
      rw [hevents]
      exact .of_reads (luaRedisCall_reads vm t apply rest hname)
    · have hevents : ∀ db, callEvents vm events (name :: rest) db = _ := fun db => if_neg hname
      rw [funext hevents, luaRedisCall_command vm t apply rest hname]
      cases parseCommandForLua vm (vm.toUpper name) rest with
      | error e => exact .of_quiet (Txn.respects_lift SameScripts.refl _)
      | ok cmd => exact (happly cmd).bind_quiet fun res => Txn.respects_pure SameScripts.refl _

/-- A script makes the events of its calls in order, by induction on the fuel. -/
theorem doString_tracks (fuel : Nat) (times : Nat → Nat) {apply : Nat → Command → Tx Result}
    {events : Nat → Command → DB → List RegistryEvent}
    (happly : ∀ n cmd, Tracks (apply n cmd) (events n cmd)) (prog : LuaProg) (n : Nat) :
    Tracks (doString vm fuel times apply prog n) (progEvents vm times apply events prog n) := by
  induction prog generalizing n with
  | done heap ret =>
    refine .of_quiet ?_
    unfold doString
    split
    · exact Txn.respects_pure SameScripts.refl _
    · exact Txn.respects_throw SameScripts.refl _
  | fail msg => exact tracks_throw _
  | call args next ih =>
    intro loaded db hholds hclears
    unfold progEvents at hclears ⊢
    dsimp only at hclears ⊢
    have hcall :=
      luaRedisCall_tracks vm (times n) (happly n) args loaded db hholds fun event hevent =>
      hclears event (List.mem_append_left _ hevent)
    have hrun : (Txn.attempt (luaRedisCall vm (times n) (apply n) args)).run db =
        (.ok ((luaRedisCall vm (times n) (apply n) args).run db).1,
          ((luaRedisCall vm (times n) (apply n) args).run db).2) := rfl
    unfold doString
    rw [Txn.run_bind_ok hrun]
    have hrest := fun event hevent => hclears event (List.mem_append_right _ hevent)
    generalize (luaRedisCall vm (times n) (apply n) args).run db = res at hcall hrest ⊢
    obtain ⟨r, db'⟩ := res
    unfold loadedSince at hcall ⊢
    rw [List.foldl_append]
    by_cases hover : r = .error .stackOverflow
    · subst hover
      rw [if_pos rfl]
      exact hcall
    · rw [if_neg hover] at hrest ⊢
      have hnext := ih r (n + 1) _ db' hcall hrest
      split
      · rename_i heq
        exact absurd heq hover
      · exact hnext

theorem runLua_tracks (fuel : Nat) (times : Nat → Nat) {apply : Nat → Command → Tx Result}
    {events : Nat → Command → DB → List RegistryEvent}
    (happly : ∀ n cmd, Tracks (apply n cmd) (events n cmd)) (script : Bytes)
    (evalArgs : List Bytes) :
    Tracks (runLua vm fuel times apply script evalArgs)
      (scriptEvents vm times apply events script evalArgs) := by
  cases evalArgs with
  | nil => exact tracks_throw _
  | cons numKeysStr rest =>
    unfold runLua scriptEvents
    dsimp only
    rcases parseInt numKeysStr with ⟨numKeys, _ | _⟩
    · exact tracks_throw _
    · dsimp only
      by_cases hneg : numKeys < 0
      · simp only [if_pos hneg, if_pos (Or.inl hneg)]
        exact tracks_throw _
      · by_cases hmany : (rest.length : Int) < numKeys.toInt
        · simp only [if_neg hneg, if_pos hmany, if_pos (Or.inr hmany)]
          exact tracks_throw _
        · simp only [if_neg hneg, if_neg hmany, if_neg (not_or.mpr ⟨hneg, hmany⟩)]
          exact doString_tracks vm fuel times happly _ 0

variable (c : Codec)

/-- A command makes the events of its scripts, to any depth. -/
theorem applyCmdInTxn_tracks (fuel : Nat) (envs : List Nat → Env) (cmd : Command) :
    Tracks (applyCmdInTxn vm c fuel envs cmd) (commandEvents vm c fuel envs cmd) := by
  have hdata : ∀ cmd env, Txn.Respects SameScripts (applyData c env cmd) := fun cmd env db =>
    (applyData_frame c env cmd db).sameScripts
  induction fuel generalizing envs cmd with
  | zero =>
    refine .of_quiet ?_
    unfold applyCmdInTxn
    split_ifs
    · exact Txn.respects_throw SameScripts.refl _
    · exact hdata cmd _
  | succ fuel ih =>
    have hrun := fun script evalArgs => runLua_tracks vm fuel (fun n => (envs [n]).clock.now)
      (fun n cmd => ih (fun path => envs (n :: path)) cmd) script evalArgs
    show Tracks _ fun db => commandEvents vm c (fuel + 1) envs cmd db
    unfold applyCmdInTxn commandEvents handleLuaCommand
    dsimp only
    cases hop : cmd.op
    case scriptLoad =>
      have hload := scriptLoad_tracks cmd
      rcases hargs :
        cmd.args with _ | ⟨script, _ | ⟨arg, rest⟩⟩ <;> rw [hargs] at hload <;> exact hload
    case scriptExists =>
      exact .of_reads (scriptExists_reads _ _)
    case scriptFlush => exact scriptFlush_tracks _
    case evalsha =>
      rcases hargs : cmd.args with _ | ⟨sha, _ | ⟨arg, rest⟩⟩
      · exact tracks_throw _
      · exact tracks_throw _
      · intro loaded db hholds hclears
        have hget : (txnGet (envs []).clock.now (getScriptKey sha) : Tx (Option Entry)).run db =
            (.ok (db.getLive (envs []).clock.now (getScriptKey sha)), db) := rfl
        dsimp only at hclears ⊢
        rw [if_pos (show Op.evalsha.script = true from rfl), Txn.run_bind_ok hget]
        revert hclears
        cases db.getLive (envs []).clock.now (getScriptKey sha) with
        | none => exact fun _ => hholds
        | some item => exact fun hclears => hrun item.value (arg :: rest) loaded db hholds hclears
    case eval =>
      rcases hargs : cmd.args with _ | ⟨script, _ | ⟨arg, rest⟩⟩
      · exact tracks_throw _
      · exact tracks_throw _
      · exact hrun script (arg :: rest)
    all_goals exact .of_quiet (hdata cmd _)

end Lua

/-! ## The history of a run -/

section Runs

variable (vm : LuaVM) (c : Codec) (lc : LogCodec)

/-- A step whose flushes all clear keeps the registry in step with its events. -/
theorem step_holds {loaded : List Bytes} {db : DB} (h : RegistryHolds loaded db) (step : StoreStep)
    (hclears : ∀ event ∈ step.events vm c db, event.Clears) :
    RegistryHolds (loadedSince loaded (step.events vm c db)) (step.run vm c lc db) := by
  have hraft : ∀ {db' : DB}, SameData db db' → RegistryHolds loaded db' := fun hdata =>
    h.of_same hdata.sameScripts
  cases step with
  | apply fuel envs cmd =>
    have htracks := applyCmdInTxn_tracks vm c fuel envs cmd loaded db h
    have hdb : (StoreStep.apply fuel envs cmd).run vm c lc db =
      (fsmApply vm c fuel envs cmd db).2 := rfl
    rw [StoreStep.events] at hclears ⊢
    rw [hdb]
    unfold fsmApply Txn.atomically at hclears ⊢
    cases hrun : (applyCmdInTxn vm c fuel envs cmd).run db with
    | mk r db' =>
      rw [hrun] at htracks hclears
      cases r with
      | ok res => exact htracks hclears
      | error e => exact h
  | storeLogs lim logs =>
    exact hraft
      (storeLogs_induct lim lc logs (fun db' i val hsame => hsame.insert (logKey_not_data i) _)
      fun _ _ => rfl)
  | deleteRange lim min max =>
    exact hraft (deleteRange_induct lim min max (fun db' i hsame => hsame.erase (logKey_not_data i))
      fun _ _ => rfl)
  | set name val =>
    have hsame : SameData db db := fun _ _ => rfl
    exact hraft (hsame.insert (stableKey_not_data name.2) _)

/-- So does a run. -/
theorem run_holds {loaded : List Bytes} {db : DB} (h : RegistryHolds loaded db)
    (steps : List StoreStep) (hclears : ∀ event ∈ runEvents vm c lc steps db, event.Clears) :
    RegistryHolds (loadedSince loaded (runEvents vm c lc steps db))
      (runSteps vm c lc steps db) := by
  induction steps generalizing loaded db with
  | nil => exact h
  | cons step rest ih =>
    unfold runEvents at hclears ⊢
    have hstep :=
      step_holds vm c lc h step fun event hevent => hclears event (List.mem_append_left _ hevent)
    have hrest := ih hstep fun event hevent => hclears event (List.mem_append_right _ hevent)
    unfold loadedSince at hrest ⊢
    rw [List.foldl_append]
    exact hrest

/-! ## What the registry answers -/

/-- EVALSHA finds the last loaded script with the hash. -/
theorem RegistryHolds.getLive {loaded : List Bytes} {db : DB} (h : RegistryHolds loaded db)
    (t : Nat) (sha : Bytes) : db.getLive t (getScriptKey sha) =
      (loaded.find? fun script => scriptSHA script = sha).map newEntry := by
  rw [DB.getLive, h sha]
  cases loaded.find? fun script => scriptSHA script = sha with
  | none => rfl
  | some script => rfl

/-- EVALSHA runs the script it finds as EVAL does. -/
theorem evalsha_run (fuel : Nat) (envs : List Nat → Env) (sha arg : Bytes) (rest : List Bytes)
    (db : DB) :
    (applyCmdInTxn vm c (fuel + 1) envs { op := .evalsha, args := sha :: arg :: rest }).run db =
      match db.getLive (envs []).clock.now (getScriptKey sha) with
      | none => (.error .noScript, db)
      | some item =>
        (applyCmdInTxn vm c (fuel + 1) envs { op := .eval, args := item.value :: arg :: rest }).run
          db := by
  have hget : (txnGet (envs []).clock.now (getScriptKey sha) : Tx (Option Entry)).run db =
      (.ok (db.getLive (envs []).clock.now (getScriptKey sha)), db) := rfl
  have hunfold : applyCmdInTxn vm c (fuel + 1) envs { op := .evalsha, args := sha :: arg :: rest } =
      (txnGet (envs []).clock.now (getScriptKey sha) >>= fun item =>
        match item with
        | none => Txn.throw .noScript
        | some item =>
          applyCmdInTxn vm c (fuel + 1) envs { op := .eval, args := item.value :: arg :: rest }) :=
            rfl
  rw [hunfold, Txn.run_bind_ok hget]
  cases db.getLive (envs []).clock.now (getScriptKey sha) with
  | none => rfl
  | some item => rfl

/-- A registry that holds scripts with distinct SHAs answers exactly. -/
theorem RegistryHolds.exact {loaded : List Bytes} {db : DB} (h : RegistryHolds loaded db)
    (hsha : ∀ s ∈ loaded, ∀ s' ∈ loaded, scriptSHA s = scriptSHA s' → s = s') :
    RegistryExact vm c loaded db := by
  refine ⟨fun fuel envs shas => ?_, fun script hscript fuel envs arg rest => ?_,
    fun sha hnone fuel envs arg rest => ?_⟩
  · have hshas : (shas.map fun sha =>
        if (db.getLive (envs []).clock.now (getScriptKey sha)).isSome then (1 : Int64) else 0) =
        shas.map fun sha => if ∃ script ∈ loaded, scriptSHA script = sha then 1 else 0 := by
      refine List.map_congr_left fun sha _ => if_congr ?_ rfl rfl
      rw [h.getLive, Option.isSome_map, List.find?_isSome]
      simp only [decide_eq_true_eq]
    have hloop := scriptExistsLoop_run (envs []).clock.now shas db
    rw [hshas] at hloop
    have hrun : (applyCmdInTxn vm c (fuel + 1) envs { op := .scriptExists, args := shas }).run db =
        (.ok (.int64s (shas.map fun sha => if ∃ script ∈ loaded, scriptSHA script =
          sha then 1 else 0)), db) := by
      show (scriptExistsLoop (envs []).clock.now shas >>= fun res => pure (Result.int64s res)).run
        db = _
      rw [Txn.run_bind_ok hloop]
      rfl
    unfold fsmApply Txn.atomically
    rw [hrun]
  · have hfind : loaded.find? (fun s => scriptSHA s = scriptSHA script) = some script := by
      have hsome : (loaded.find? fun s => scriptSHA s = scriptSHA script).isSome = true := by
        rw [List.find?_isSome]
        exact ⟨script, hscript, decide_eq_true rfl⟩
      obtain ⟨s, hs⟩ := Option.isSome_iff_exists.mp hsome
      have hsame : scriptSHA s = scriptSHA script := by simpa using List.find?_some hs
      rw [hs, hsha s (List.mem_of_find?_eq_some hs) script hscript hsame]
    have hrun : (applyCmdInTxn vm c (fuel + 1) envs
          { op := .evalsha, args := scriptSHA script :: arg :: rest }).run db =
        (applyCmdInTxn vm c (fuel + 1) envs { op := .eval, args := script :: arg :: rest }).run
          db := by
      have hget := evalsha_run vm c fuel envs (scriptSHA script) arg rest db
      rw [h.getLive, hfind] at hget
      exact hget
    unfold fsmApply Txn.atomically
    rw [hrun]
  · have hfind : loaded.find? (fun s => scriptSHA s = sha) = none := by
      rw [List.find?_eq_none]
      intro s hs
      simpa using hnone s hs
    have hrun := evalsha_run vm c fuel envs sha arg rest db
    rw [h.getLive, hfind] at hrun
    unfold fsmApply Txn.atomically
    rw [hrun]
    rfl

/-- What is loaded in the end was loaded at the start or by an event. -/
theorem load_mem_of_loaded {loaded : List Bytes} {events : List RegistryEvent} {script : Bytes}
    (h : script ∈ loadedSince loaded events) : script ∈ loaded ∨ .load script ∈ events := by
  induction events generalizing loaded with
  | nil => exact .inl h
  | cons event rest ih =>
    rcases ih h with hmem | hmem
    · cases event with
      | load s =>
        rcases List.mem_cons.mp hmem with rfl | hmem
        · exact .inr List.mem_cons_self
        · exact .inl hmem
      | flush t db => cases hmem
    · exact .inr (List.mem_cons_of_mem _ hmem)

/-- In every run from a store without scripts in which each flush finds at most two scripts, and no
visible key of at most 48 bytes two places after one, the registry is exact. -/
theorem registry_exact (db : DB) (steps : List StoreStep)
    (hempty : ∀ sha, db.get? (getScriptKey sha) = none)
    (hsha : ∀ s s', .load s ∈ runEvents vm c lc steps db → .load s' ∈ runEvents vm c lc steps db →
      scriptSHA s = scriptSHA s' → s = s')
    (hclears : ∀ t db', .flush t db' ∈ runEvents vm c lc steps db → flushClears t db' = true) :
    RegistryExact vm c (loadedSince [] (runEvents vm c lc steps db))
      (runSteps vm c lc steps db) := by
  have hclears' : ∀ event ∈ runEvents vm c lc steps db, event.Clears := by
    intro event hevent
    cases event with
    | load script => trivial
    | flush t db' => exact hclears t db' hevent
  have hload : ∀ s ∈ loadedSince [] (runEvents vm c lc steps db),
      .load s ∈ runEvents vm c lc steps db := by
    intro s hs
    rcases load_mem_of_loaded hs with hmem | hmem
    · cases hmem
    · exact hmem
  have hstart : RegistryHolds [] db := hempty
  refine (run_holds vm c lc hstart steps hclears').exact vm c fun s hs s' hs' => ?_
  exact hsha s s' (hload s hs) (hload s' hs')

end Runs

/-! ## Runs from the empty store -/

section Samples

/-- A committed command. -/
def committed (op : Op) (args : List Bytes) : StoreStep :=
  .apply 1 (fun _ => Env.at 1000000000000) { op := op, args := args }

/-- Two scripts are loaded and deleted, and a third is loaded. -/
def loadAndFlush : List StoreStep :=
  [committed .scriptLoad [ascii "return 1"], committed .scriptLoad [ascii "return 2"],
    committed .scriptFlush [], committed .scriptLoad [ascii "return 3"]]

theorem events_loadAndFlush :
    runEvents noScripts msgpack sampleCodec loadAndFlush OrdMap.empty =
      [.load (ascii "return 1"), .load (ascii "return 2"),
        .flush 1000000000000
          (runSteps noScripts msgpack sampleCodec (loadAndFlush.take 2) OrdMap.empty),
        .load (ascii "return 3")] := rfl

theorem loadAndFlush_exact :
    RegistryExact noScripts msgpack
      (loadedSince [] (runEvents noScripts msgpack sampleCodec loadAndFlush OrdMap.empty))
      (runSteps noScripts msgpack sampleCodec loadAndFlush OrdMap.empty) := by
  refine registry_exact noScripts msgpack sampleCodec OrdMap.empty loadAndFlush
    (fun sha => rfl) ?_ ?_
  · intro s s' hs hs' hsha
    rw [events_loadAndFlush] at hs hs'
    have hdistinct : ∀ s ∈ [ascii "return 1", ascii "return 2", ascii "return 3"],
        ∀ s' ∈ [ascii "return 1", ascii "return 2", ascii "return 3"],
          scriptSHA s = scriptSHA s' → s = s' := by
      decide +kernel
    exact hdistinct s (by simpa using hs) s' (by simpa using hs') hsha
  · intro t db' hflush
    rw [events_loadAndFlush] at hflush
    have hsame : t = 1000000000000 ∧
        db' = runSteps noScripts msgpack sampleCodec (loadAndFlush.take 2) OrdMap.empty := by
      simpa using hflush
    rw [hsame.1, hsame.2]
    decide +kernel

/-- The numbers that SCRIPT EXISTS returns. -/
def existsFlags : Except Err Result → List Int64
  | .ok (.int64s l) => l
  | _ => []

/-- Of three scripts a flush keeps one. -/
theorem flush_keeps_script :
    let steps :=
      [committed .scriptLoad [ascii "return 1"], committed .scriptLoad [ascii "return 2"],
      committed .scriptLoad [ascii "return 3"], committed .scriptFlush []]
    loadedSince [] (runEvents noScripts msgpack sampleCodec steps OrdMap.empty) = [] ∧
      ¬ RegistryExact noScripts msgpack
        (loadedSince [] (runEvents noScripts msgpack sampleCodec steps OrdMap.empty))
        (runSteps noScripts msgpack sampleCodec steps OrdMap.empty) := by
  intro steps
  have hloaded : loadedSince [] (runEvents noScripts msgpack sampleCodec steps OrdMap.empty) = [] :=
    rfl
  refine ⟨hloaded, fun hexact => ?_⟩
  have hexists := hexact.exists_iff 0 (fun _ => Env.at 1000000000000) [scriptSHA (ascii "return 3")]
  rw [hloaded] at hexists
  have hanswer := congrArg (fun res => existsFlags res.1) hexists
  revert hanswer
  decide +kernel

end Samples

end Badis
