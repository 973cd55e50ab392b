import Badis.Server.Attempts
import Badis.Server.Proofs.HandlerProofs
import Badis.Store.Encoding
import Badis.Store.Proofs.ReplayProofs

/-!
# What an error tells a client

A handler that has a command applied writes no error when the command succeeds, and a command that
fails is rolled back. So the request of an error reply has left nothing, unless raft has applied the
entry of a future that failed. If raft may have done that, a client can send the request again and
have it count once exactly for the commands that overwrite (`viewStep_repeat`).
-/

namespace Badis

open Lib

/-! ## Replies of commands that succeed -/

/-- A command that succeeds is not answered with an error. -/
def Action.Confirms : Action → Prop
  | .apply _ reply => ∀ r, (reply (.applied (.ok r))).any Write.isError = false
  | _ => True

theorem writeStrings_any_isError (l : List Bytes) : (writeStrings l).any Write.isError = false := by
  simp [writeStrings, Write.isError]

theorem applyReply_confirms (codecText : Bytes) (r : Result) :
    (applyReply codecText (.applied (.ok r))).any Write.isError = false := by
  cases r
  case strs l => exact writeStrings_any_isError l
  all_goals rfl

theorem setOutcome_confirms (codecText : Bytes) (cmd : Command) (r : Result) :
    (setOutcome codecText cmd (.applied (.ok r))).any Write.isError = false := by
  unfold setOutcome handleSetReply
  cases hold : cmd.returnOld <;> cases r <;> rfl

section Handlers

variable (srv : Server) (views : Nat → ReadView) (conn : Conn) (args : List Bytes)

/-- No handler writes an error for a command that has succeeded. -/
theorem handler_confirms (verb : Verb) :
    Yields Action.Confirms (verb.handler srv views conn args) := by
  have hwrite : ∀ ws, Action.Confirms (.write ws) := fun _ => trivial
  have hrefuse : ∀ msg, Action.Confirms (.write [.error msg]) := fun _ => trivial
  have happly : ∀ cmd, Action.Confirms (.apply cmd (applyReply srv.codecText)) :=
    fun _ => applyReply_confirms srv.codecText
  cases verb
  case ping => exact yields_ok (hwrite _)
  case client =>
    exact handleClient_yields srv args hrefuse conn (fun _ => hwrite _) fun _ _ => trivial
  case set => exact handleSet_yields srv views hrefuse fun _ cmd _ _ _ => setOutcome_confirms _ cmd
  case get => exact yields_ok (hwrite _)
  case del | unlink => exact handleDel_yields srv hrefuse fun _ _ => happly _
  case mset => exact handleMSet_yields srv hrefuse fun _ _ => happly _
  case setex => exact handleSetEx_yields srv hrefuse fun _ _ _ _ => happly _
  case flushdb => exact handleFlushDB_yields srv hrefuse (happly _)
  case expire => exact handleExpire_yields srv hrefuse fun _ _ _ => happly _
  case hset => exact handleHSet_yields srv hrefuse fun _ _ _ _ => happly _
  case ltrim => exact handleLTrim_yields srv hrefuse fun _ _ _ => happly _
  case lrem => exact handleLRem_yields srv hrefuse fun _ _ _ => happly _
  case spop => exact handleSPop_yields srv hrefuse fun _ _ _ => happly _
  case eval | evalsha => exact handleScriptCall_yields srv args hrefuse _ fun _ => happly _
  case script => exact handleScript_yields srv args hrefuse fun _ _ => happly _
  case keys => exact handleKeys_yields views args hrefuse fun _ => hwrite _
  case mget => exact handleMGet_yields srv views args hrefuse fun _ => hwrite _
  case touch | existsKeys => exact handleCount_yields srv views args hrefuse fun _ => hwrite _
  case hmget => exact handleHMGet_yields srv views args hrefuse fun _ => hwrite _
  case lrange => exact handleLRange_yields srv views args hrefuse fun _ => hwrite _
  case lindex => exact handleLIndex_yields srv views args hrefuse fun _ => hwrite _
  case srandmember =>
    exact handleSRandMember_yields srv views args hrefuse (fun _ => hwrite _) fun _ => hwrite _
  case smismember => exact handleSMIsMember_yields srv views args hrefuse fun _ _ _ => hwrite _
  case hgetall | type | pttl | strlen | ttl | hlen | llen | scard | hkeys | hvals | smembers =>
    exact handleKeyRead_yields srv views args hrefuse _ fun _ => hwrite _
  case hget | hexists | sismember =>
    exact handleFieldRead_yields srv views args hrefuse _ fun _ => hwrite _
  all_goals
    first
    | exact handleFixed_yields srv hrefuse (by decide) fun _ _ _ _ => happly _
    | exact handleVariadic_yields srv hrefuse fun _ _ _ _ => happly _
    | exact handlePop_yields srv hrefuse fun _ _ _ => happly _

theorem serveRESP_confirms : Yields Action.Confirms (serveRESP srv views conn args) := by
  refine .bind fun name _ => ?_
  dsimp only
  split
  · exact yields_ok trivial
  · exact handler_confirms srv views conn args _

end Handlers

/-! ## Requests that fail -/

section Run

variable (vm : LuaVM) (fuel : Nat) (srv : Server)

/-- A command that fails is rolled back. -/
theorem fsmApply_of_error (c : Codec) {envs : List Nat → Env} {cmd : Command} {db : DB} {e : Err}
    (h : (fsmApply vm c fuel envs cmd db).1 = .error e) :
    (fsmApply vm c fuel envs cmd db).2 = db := by
  unfold fsmApply Txn.atomically at h ⊢
  generalize (applyCmdInTxn vm c fuel envs cmd).run db = x at h ⊢
  obtain ⟨r, db'⟩ := x
  cases r with
  | error e => rfl
  | ok r => cases h

/-- A command that fails without ending the process has changed nothing. -/
theorem Attempt.apply_of_error {a : Attempt} {cmd : Command} {db db' : DB} {e : Err}
    (h : a.apply vm fuel srv cmd db = some (.error e, db')) : db' = db := by
  have hres : fsmApply vm srv.codec fuel a.envs cmd db = (.error e, db') := by
    unfold Attempt.apply at h
    split at h
    · cases h
    · cases h
    · exact Option.some.inj h
  have hkept := fsmApply_of_error vm fuel srv.codec (congrArg Prod.fst hres)
  rw [hres] at hkept
  exact hkept

/-- One request. -/
theorem Attempt.serve_of_traceless {a : Attempt} {db db' : DB} {ws : List Write}
    (hserved : a.serve vm fuel srv db = some (ws, db')) (h : a.traceless ws = true) : db' = db := by
  obtain ⟨hfailed, hfate⟩ := Bool.and_eq_true_iff.mp h
  have hconfirms := serveRESP_confirms srv (fun _ => ⟨db, a.now, a.order⟩) a.conn a.args
  unfold Attempt.serve at hserved
  cases hserve : serveRESP srv (fun _ => ⟨db, a.now, a.order⟩) a.conn a.args with
  | error e =>
    rw [hserve] at hserved
    cases hserved
  | ok action =>
    rw [hserve] at hserved
    cases action with
    | write ws => exact (congrArg Prod.snd (Option.some.inj hserved)).symm
    | client ws ctx => exact (congrArg Prod.snd (Option.some.inj hserved)).symm
    | apply cmd reply =>
      have hreply : ∀ r, (reply (.applied (.ok r))).any Write.isError = false := hconfirms _ hserve
      cases hcase : a.fate with
      | lost text =>
        simp only [hcase] at hserved
        exact (congrArg Prod.snd (Option.some.inj hserved)).symm
      | unreported text =>
        rw [hcase] at hfate
        cases hfate
      | reported =>
        simp only [hcase] at hserved
        obtain ⟨⟨r, db''⟩, hres, hpair⟩ := Option.map_eq_some_iff.mp hserved
        cases hpair
        cases r with
        | error e => exact a.apply_of_error vm fuel srv hres
        | ok r =>
          rw [hreply r] at hfailed
          cases hfailed

theorem serveAttempts_of_none {a : Attempt} {db : DB} (h : a.serve vm fuel srv db = none)
    (rest : List Attempt) :
    serveAttempts vm fuel srv (a :: rest) db = ([], db) := by
  rw [serveAttempts, h]

theorem serveAttempts_of_some {a : Attempt} {db db' : DB} {ws : List Write}
    (h : a.serve vm fuel srv db = some (ws, db')) (rest : List Attempt) :
    serveAttempts vm fuel srv (a :: rest) db =
      (ws :: (serveAttempts vm fuel srv rest db').1, (serveAttempts vm fuel srv rest db').2) := by
  rw [serveAttempts, h]

/-- Errors leave no trace. In any run of requests, those that are answered with an error can be left
out, unless raft has applied the command of a future that failed: all other requests are answered in
the same way, the store is the same in the end, and the process ends at the same request, if it
does. -/
theorem errors_leave_no_trace (attempts : List Attempt) (db : DB) :
    let run := serveAttempts vm fuel srv attempts db
    let kept := (attempts.zip run.1).filter fun p => !p.1.traceless p.2
    serveAttempts vm fuel srv (kept.map Prod.fst ++ attempts.drop run.1.length) db =
      (kept.map Prod.snd, run.2) := by
  induction attempts generalizing db with
  | nil => rfl
  | cons a rest ih =>
    dsimp only
    cases hserve : a.serve vm fuel srv db with
    | none =>
      have hrun := serveAttempts_of_none vm fuel srv hserve rest
      rw [hrun]
      exact hrun
    | some served =>
      obtain ⟨ws, db'⟩ := served
      rw [serveAttempts_of_some vm fuel srv hserve rest, List.zip_cons_cons, List.filter_cons,
        List.length_cons, List.drop_succ_cons]
      have hrest := ih db'
      cases htraceless : a.traceless ws with
      | true =>
        obtain rfl : db' = db := a.serve_of_traceless vm fuel srv hserve htraceless
        exact hrest
      | false =>
        rw [if_pos (by rfl), List.map_cons, List.map_cons, List.cons_append,
          serveAttempts_of_some vm fuel srv hserve, hrest]

end Run

/-! ## Requests that are sent again -/

section Repeat

variable {k : Bytes} {env env' : Env} {cmd : Command} {x : View}

theorem replaySafe_of_repeatable (hop : cmd.op.repeatable = true)
    (hother : ∀ name, cmd.op ≠ .other name)
    (hxx : cmd.op = .set ∨ cmd.op = .getset → cmd.condition ≠ .xx) : replaySafe k [cmd] = true := by
  unfold replaySafe
  cases hcase : cmd.op
  case other name => exact absurd hcase (hother name)
  case set => simp [onlyOps, Command.registerOp, hcase, hxx (Or.inl hcase)]
  case getset => simp [onlyOps, Command.registerOp, hcase, hxx (Or.inr hcase)]
  case mset | del | flushdb =>
    -- the key is reset, or the command does not touch it
    cases htouches : cmd.touches k <;>
      simp [resetSafe, Command.known, Command.resets, onlyOps, Op.multi, hcase, htouches]
  all_goals
    first
    | simp [onlyOps, Command.hashOp, Command.setOp, hcase]; done
    | rw [hcase] at hop; cases hop

/-- What SET and GETSET with XX do to a string, or to nothing. -/
theorem viewStep_xx (hcmd : cmd.plain = true) (hops : cmd.op = .set ∨ cmd.op = .getset)
    (hk : cmd.key = k) (hcond : cmd.condition = .xx) :
    ∃ f : Option Bytes → Option Bytes, (∀ y, f (f y) = f y) ∧
      ∀ env y, viewStep k (ofString y) (env, cmd) = ofString (f y) := by
  have hmulti : cmd.op.multi = false := by rcases hops with h | h <;> rw [h] <;> rfl
  cases hargs : cmd.args with
  | nil =>
    refine ⟨fun y => y, fun _ => rfl, fun env y => ?_⟩
    rw [viewStep_of_plan hmulti hk]
    rcases hops with h | h <;> simp only [plan, h, planSet, hargs]
  | cons arg rest =>
    refine ⟨Option.map fun _ => arg, fun y => by cases y <;> rfl, fun env y => ?_⟩
    rw [viewStep_assign env hcmd hops hk hargs, setKey, hcond]
    cases y <;> rfl

theorem viewStep_repeat_xx (hcmd : cmd.plain = true) (hops : cmd.op = .set ∨ cmd.op = .getset)
    (hk : cmd.key = k) (hcond : cmd.condition = .xx) (hx : x.plain = true) :
    viewStep k (viewStep k x (env, cmd)) (env', cmd) = viewStep k x (env, cmd) := by
  obtain ⟨f, hidem, hf⟩ := viewStep_xx hcmd hops hk hcond
  have hstring : ∀ y : Option Bytes, viewStep k (viewStep k (ofString y) (env, cmd)) (env', cmd) =
      viewStep k (ofString y) (env, cmd) := fun y => by rw [hf, hf, hidem]
  rcases View.plain_cases hx with rfl | ⟨v, hv, rfl⟩
  · exact hstring none
  · by_cases htyp : v.typ = typeString
    · obtain ⟨b, rfl⟩ := string_of_typ hv htyp
      exact hstring (some b)
    · have huses : UsesAs typeString cmd := by
        rcases hops with h | h <;> simp [UsesAs, Op.multi, typeWritten, h]
      rw [viewStep_of_other_type hcmd huses hk htyp, viewStep_of_other_type hcmd huses hk htyp]

/-- An operation that the switch does not have. -/
theorem viewStep_other {name : Bytes} (hname : cmd.op = .other name) :
    viewStep k x (env, cmd) = x := by
  have hmulti : cmd.op.multi = false := by
    rw [hname]
    rfl
  cases htouches : cmd.touches k with
  | false => exact viewStep_of_not_touches htouches
  | true =>
    rw [viewStep_of_plan hmulti (key_of_touches hmulti htouches)]
    simp only [plan, hname]

/-- A command that overwrites, twice. -/
theorem viewStep_repeat (hcmd : cmd.plain = true) (hop : cmd.op.repeatable = true)
    (hx : x.plain = true) :
    viewStep k (viewStep k x (env, cmd)) (env', cmd) = viewStep k x (env, cmd) := by
  by_cases hother : ∃ name, cmd.op = .other name
  · obtain ⟨name, hname⟩ := hother
    rw [viewStep_other hname, viewStep_other hname]
  · by_cases hxx : (cmd.op = .set ∨ cmd.op = .getset) ∧ cmd.condition = .xx
    · have hmulti : cmd.op.multi = false := by rcases hxx.1 with h | h <;> rw [h] <;> rfl
      cases htouches : cmd.touches k with
      | false => rw [viewStep_of_not_touches htouches, viewStep_of_not_touches htouches]
      | true => exact viewStep_repeat_xx hcmd hxx.1 (key_of_touches hmulti htouches) hxx.2 hx
    · have hsafe : replaySafe k [cmd] = true :=
        replaySafe_of_repeatable hop (fun name h => hother ⟨name, h⟩) fun hops hcond =>
          hxx ⟨hops, hcond⟩
      have hplain : ∀ s ∈ [(env, cmd)], s.2.plain = true := by simpa using hcmd
      exact viewRun_replay (show [(env, cmd)].map Prod.snd = [(env', cmd)].map Prod.snd from rfl)
        hplain hx hsafe

/-- Any number of times. -/
theorem viewRun_repeat (hcmd : cmd.plain = true) (hop : cmd.op.repeatable = true)
    (hx : x.plain = true) (again : List Env) :
    viewRun k (again.map fun e => (e, cmd)) (viewStep k x (env, cmd)) =
      viewStep k x (env, cmd) := by
  refine viewRun_of_fixed fun s hs => ?_
  obtain ⟨e, -, rfl⟩ := List.mem_map.mp hs
  exact viewStep_repeat hcmd hop hx

end Repeat

/-- A command on `k` with two numbers. -/
def oneOne (op : Op) : Step :=
  (Env.at 1000000000000, ⟨op, ascii "k", [ascii "1", ascii "1"], 0, .always, false⟩)

/-- What makes a difference to `oneOne op`, if `op` does not overwrite. -/
def spoiling : Op → List Step
  | .append | .incr | .decr | .incrby | .decrby => []
  | .spop =>
    [(Env.at 1000000000000,
      ⟨.sadd, ascii "k", [ascii "1", ascii "2", ascii "3"], 0, .always, false⟩)]
  | _ => [oneOne .rpush, oneOne .rpush]

theorem spoiling_plain (op : Op) : ∀ s ∈ spoiling op, s.2.plain = true := by
  unfold spoiling
  split <;> decide

/-- For every other operation there is a log after which applying it twice differs from applying it
once. -/
theorem viewRun_spoiling {op : Op} (hscript : op.script = false) (hexpire : op ≠ .expire)
    (hop : op.repeatable = false) :
    viewRun (ascii "k") (spoiling op ++ [oneOne op, oneOne op]) none ≠
      viewRun (ascii "k") (spoiling op ++ [oneOne op]) none := by
  cases op
  case expire => exact absurd rfl hexpire
  all_goals first | cases hscript; done | cases hop; done | decide

theorem view_applyLog_empty {c : Codec} (hc : c.Lawful) {steps : List Step}
    (hsteps : ∀ s ∈ steps, s.2.plain = true) (k : Bytes) (t : Nat) :
    DB.view c t (applyLog c steps OrdMap.empty).2 k = viewRun k steps none :=
  (view_applyLog hc k hsteps DB.permanent_empty).2 t

/-- A client that cannot know whether its command was applied may send it again exactly if the
command overwrites: then, and only then, a command without an expiry that is applied any number of
times after a log of data commands without expiries, whatever each execution sees, leaves every key
as if it had been applied once. EXPIRE is left out. -/
theorem repeatable_iff {c : Codec} (hc : c.Lawful) {op : Op} (hscript : op.script = false)
    (hexpire : op ≠ .expire) :
    op.repeatable = true ↔
      ∀ (before : List Step) (cmd : Command) (env : Env) (again : List Env) (k : Bytes) (t : Nat),
        (∀ s ∈ before, s.2.plain = true) → cmd.plain = true → cmd.op = op →
          DB.view c t
            (applyLog c (before ++ (env, cmd) :: again.map fun e => (e, cmd)) OrdMap.empty).2 k =
            DB.view c t (applyLog c (before ++ [(env, cmd)]) OrdMap.empty).2 k := by
  constructor
  · intro hop before cmd env again k t hbefore hcmd hcmdop
    have hagain : ∀ s ∈ (env, cmd) :: again.map fun e => (e, cmd), s.2.plain = true := by
      intro s hs
      rcases List.mem_cons.mp hs with rfl | hs
      · exact hcmd
      · obtain ⟨e, -, rfl⟩ := List.mem_map.mp hs
        exact hcmd
    have honce : ∀ s ∈ [(env, cmd)], s.2.plain = true := fun s hs =>
      hagain s (List.mem_cons.mpr (Or.inl (List.mem_singleton.mp hs)))
    rw [view_applyLog_empty hc (List.forall_mem_append.mpr ⟨hbefore, hagain⟩),
      view_applyLog_empty hc (List.forall_mem_append.mpr ⟨hbefore, honce⟩), viewRun_append,
      viewRun_append]
    exact viewRun_repeat hcmd (hcmdop ▸ hop) (viewRun_plain hbefore rfl) again
  · intro h
    by_contra hop
    have honce : (oneOne op).2.plain = true := by
      show (!op.script && decide (op ≠ .expire) && _) = true
      rw [hscript, decide_eq_true hexpire]
      rfl
    have hsame :=
      h (spoiling op) (oneOne op).2 (oneOne op).1 [(oneOne op).1] (ascii "k") 0 (spoiling_plain op)
      honce rfl
    have hsteps : ∀ l : List Step, (∀ s ∈ l, s = oneOne op) →
        ∀ s ∈ spoiling op ++ l, s.2.plain = true :=
      fun l hl => List.forall_mem_append.mpr ⟨spoiling_plain op, fun s hs => hl s hs ▸ honce⟩
    rw [view_applyLog_empty hc (hsteps _ (by simp)),
      view_applyLog_empty hc (hsteps _ (by simp))] at hsame
    exact viewRun_spoiling hscript hexpire (Bool.eq_false_iff.mpr hop) hsame

theorem repeatable_iff_append : msgpack.Lawful ∧ Op.script .append = false ∧
    ¬ ∀ (before : List Step) (cmd : Command) (env : Env) (again : List Env) (k : Bytes) (t : Nat),
      (∀ s ∈ before, s.2.plain = true) → cmd.plain = true → cmd.op = .append →
        DB.view msgpack t (applyLog msgpack (before ++ (env, cmd) :: again.map fun e => (e, cmd))
          OrdMap.empty).2 k =
          DB.view msgpack t (applyLog msgpack (before ++ [(env, cmd)]) OrdMap.empty).2 k :=
  ⟨msgpack_lawful, rfl, fun h =>
    absurd ((repeatable_iff msgpack_lawful rfl (by decide)).mpr h) (by decide)⟩

end Badis
