import Badis.Server.Proofs.RequestsProofs
import Badis.Store.Encoding
import Badis.Store.Proofs.ErrorProofs
import Badis.Store.Proofs.FailureProofs

/-!
# One request, one reply, and no panic

Over every command name and argument vector: the reply is one complete value unless SMISMEMBER
breaks off its array or SRANDMEMBER panics (`reply_complete_iff`), and that is the only panic of a
request other than EVAL and EVALSHA (`request_panics_iff`).
-/

namespace Badis

open Lib

section Requests

variable (srv : Server) (views : Nat → ReadView) (conn : Conn) (name : Bytes) (rest : List Bytes)

theorem serveRESP_of_verb {verb : Verb} (h : srv.verb? name = some verb) :
    serveRESP srv views conn (name :: rest) = verb.handler srv views conn (name :: rest) := by
  have hget : goIndex (name :: rest) 0 = .ok name := rfl
  rw [serveRESP, hget]
  dsimp only [bind, Except.bind]
  rw [show Verb.ofName? (toLower srv.lower name) = _ from h]

theorem serveRESP_of_unknown (h : srv.verb? name = none) :
    serveRESP srv views conn (name :: rest) =
      refuse (ascii "ERR unknown command '" ++ toLower srv.lower name ++ ascii "'") := by
  have hget : goIndex (name :: rest) 0 = .ok name := rfl
  rw [serveRESP, hget]
  dsimp only [bind, Except.bind]
  rw [show Verb.ofName? (toLower srv.lower name) = _ from h]

theorem upper_lower (b : UInt8) :
    let lower : UInt8 := if 65 ≤ b ∧ b ≤ 90 then b + 32 else b
    (if 97 ≤ lower ∧ lower ≤ 122 then lower - 32 else lower) = if 97 ≤ b ∧ b ≤ 122 then b - 32
      else b := by
  intro lower
  by_cases hcap : 65 ≤ b ∧ b ≤ 90
  · have hlower : lower = b + 32 := if_pos hcap
    have hsmall : ¬ (97 ≤ b ∧ b ≤ 122) := by grind
    have hrange : 97 ≤ b + 32 ∧ b + 32 ≤ 122 := by grind
    rw [hlower, if_neg hsmall, if_pos hrange, UInt8.add_sub_cancel]
  · have hlower : lower = b := if_neg hcap
    rw [hlower]

/-- A name in ASCII that selects a command is, in upper case, the command's name in upper case. -/
theorem toUpper_of_verb {srv : Server} {name : Bytes} {verb : Verb} (upper : Bytes → Bytes)
    (hname : name.all (· < 128) = true) (h : srv.verb? name = some verb) :
    toUpper upper name = verb.name.map fun b => if 97 ≤ b ∧ b ≤ 122 then b - 32 else b := by
  have hverb : verb.name = toLower srv.lower name := by
    have hfound := List.find?_some h
    exact of_decide_eq_true hfound
  rw [hverb, toUpper, toLower, if_pos hname, if_pos hname, List.map_map]
  exact List.map_congr_left fun b _ => (upper_lower b).symm

theorem Action.Builds.replies {Q : Command → Prop} {a : Action} (h : a.Builds Q) (o : Outcome) :
    Complete (a.replies o) := by
  cases a with
  | write ws => exact h
  | client ws ctx => exact h
  | apply cmd reply => exact h.2 o

/-- The handler gets to a reply, and whatever comes of the command it is complete. -/
def Replies (r : Except Err Action) : Prop := Returns r fun a => ∀ o, Complete (a.replies o)

theorem Returns.replies {Q : Command → Prop} {r : Except Err Action}
    (h : Returns r (Action.Builds Q)) :
    Replies r := by
  obtain ⟨a, ha, hbuilds⟩ := h
  exact ⟨a, ha, hbuilds.replies⟩

theorem handleSMIsMember_replies_iff (args : List Bytes) :
    Replies (handleSMIsMember srv views args) ↔ ¬ BreaksOff srv views args := by
  obtain ⟨_, hrun, ws, rfl, hiff⟩ := handleSMIsMember_returns srv views args
  rw [← hiff]
  constructor
  · rintro ⟨a, ha, hcomplete⟩
    rw [hrun] at ha
    cases ha
    exact hcomplete (.raftError [])
  · intro hcomplete
    exact ⟨_, hrun, fun _ => hcomplete⟩

theorem handleSRandMember_replies_iff (args : List Bytes) :
    Replies (handleSRandMember srv views args) ↔ ¬ AsksTooMany srv views args := by
  constructor
  · rintro ⟨a, ha, -⟩ hasks
    rw [handleSRandMember_panic srv views args hasks] at ha
    cases ha
  · intro hasks
    exact (handleSRandMember_sound srv views args hasks).replies

/-- All other handlers reply. -/
theorem handler_replies (args : List Bytes) {verb : Verb} (hmis : verb ≠ .smismember)
    (hrand : verb ≠ .srandmember) : Replies (verb.handler srv views conn args) := by
  by_cases heval : verb = .eval
  · subst heval
    exact (handleScriptCall_builds srv args .eval (ascii "eval")).replies
  by_cases hevalsha : verb = .evalsha
  · subst hevalsha
    exact (handleScriptCall_builds srv args .evalsha (ascii "evalsha")).replies
  · exact (handler_sound srv views args conn ⟨heval, hevalsha⟩ ⟨hrand, hmis⟩).replies

/-- One request, one complete reply. -/
theorem reply_complete_iff :
    Replies (serveRESP srv views conn (name :: rest)) ↔
      ¬ (srv.verb? name = some .smismember ∧ BreaksOff srv views (name :: rest)) ∧
      ¬ (srv.verb? name = some .srandmember ∧ AsksTooMany srv views (name :: rest)) := by
  cases hverb : srv.verb? name with
  | none =>
    rw [serveRESP_of_unknown srv views conn name rest hverb]
    exact iff_of_true (refuse_sound (Q := fun _ => True) _).replies ⟨by simp, by simp⟩
  | some verb =>
    rw [serveRESP_of_verb srv views conn name rest hverb]
    by_cases hmis : verb = .smismember
    · subst hmis
      show Replies (handleSMIsMember srv views (name :: rest)) ↔ _
      rw [handleSMIsMember_replies_iff]
      simp
    by_cases hrand : verb = .srandmember
    · subst hrand
      show Replies (handleSRandMember srv views (name :: rest)) ↔ _
      rw [handleSRandMember_replies_iff]
      simp
    · exact iff_of_true (handler_replies srv views conn (name :: rest) hmis hrand)
        ⟨fun h => hmis (Option.some.inj h.1), fun h => hrand (Option.some.inj h.1)⟩

end Requests

/-! ### A broken-off array -/

/-- A server that is asked in ASCII only. -/
def asciiServer : Server := ⟨msgpack, ascii "msgpack decode error", id, id, ascii ":6379"⟩

def newConn : Conn := ⟨ascii "127.0.0.1:50000", {}⟩

/-- The store after the request for one command, `cmd`, was applied. -/
def storeAfter (cmd : Command) : DB :=
  (fsmApply noScripts msgpack 0 (fun _ => Env.at 1000000000000) cmd OrdMap.empty).2

/-- A request on that store. -/
def viewOf (db : DB) (_ : Nat) : ReadView := ⟨db, 1000000000000, RangeOrder.sorted⟩

/-- SMISMEMBER of two members on a list writes a header for two elements and one error. -/
theorem smismember_on_list_breaks_off :
    ∃ ws, serveRESP asciiServer
        (viewOf (storeAfter { op := .lpush, key := ascii "l", args := [ascii "x"] })) newConn
        [ascii "SMISMEMBER", ascii "l", ascii "a", ascii "b"] = .ok (.write ws) ∧
      ws = [.array 2,
        .error (ascii "WRONGTYPE Operation against a key holding the wrong kind of value")] ∧
      ¬ Complete ws := by
  refine ⟨_, rfl, by decide, ?_⟩
  intro h
  have hp := h.pending
  revert hp
  decide

/-! ## Panics -/

section Panics

variable (vm : LuaVM) {c : Codec}

theorem Command.Served.not_lacksArgs {cmd : Command} (h : cmd.Served) : cmd.lacksArgs = false := by
  unfold Command.Served at h
  unfold Command.lacksArgs
  cases hop : cmd.op <;> rw [hop] at h
  case incrby | decrby => exact decide_eq_false (Nat.not_lt.mpr (Nat.le_of_eq h.symm))
  case ltrim | lrem => exact decide_eq_false (Nat.not_lt.mpr (Nat.le_of_eq h.symm))

/-- Of the operations on scripts, those on the registry do not panic. -/
theorem registry_noPanic {cmd : Command} (h : cmd.Served) (hscript : cmd.op.script = true)
    (fuel : Nat) (envs : List Nat → Env) : NoPanic (applyCmdInTxn vm c fuel envs cmd) := by
  cases fuel with
  | zero =>
    rw [applyCmdInTxn, if_pos hscript]
    exact Txn.raises_throw (by decide)
  | succ fuel =>
    rw [applyCmdInTxn, if_pos hscript]
    unfold handleLuaCommand
    unfold Command.Served at h
    cases hop : cmd.op <;> rw [hop] at h hscript
    case scriptLoad =>
      show NoPanic (scriptLoad cmd)
      unfold scriptLoad
      split
      · intro db e he
        cases he
      · exact Txn.raises_throw (by decide)
    case scriptExists =>
      intro db e he
      have hrun := scriptExistsLoop_run (envs []).clock.now cmd.args db
      rw [Txn.run_bind_ok hrun] at he
      cases he
    case scriptFlush =>
      intro db e he
      cases he
    case eval | evalsha => cases h
    all_goals cases hscript

/-- A command with its arguments does not make `FSM.Apply` panic. -/
theorem served_noPanic {cmd : Command} (h : cmd.Served) (fuel : Nat) (envs : List Nat → Env)
    (db : DB) :
    (fsmApplyChecked vm c fuel envs cmd db).1 ≠ .error .panic := by
  rw [fsmApplyChecked_eq]
  intro hpanic
  cases hscript : cmd.op.script with
  | false =>
    rw [fsmApply_of_not_script vm c hscript] at hpanic
    have hlacks : cmd.lacksArgs = true := by
      cases applyCmd_error hpanic with
      | panic h => exact h
    rw [h.not_lacksArgs] at hlacks
    cases hlacks
  | true =>
    rw [fsmApply, Txn.atomically_fst] at hpanic
    exact registry_noPanic vm h hscript fuel envs db _ hpanic rfl

variable (srv : Server) (views : Nat → ReadView) (conn : Conn) (name : Bytes) (rest : List Bytes)
  (fuel : Nat) (envs : List Nat → Env) (db : DB)

/-- The handler panics, or `FSM.Apply` does on the command that it builds. -/
def RequestPanics : Prop :=
  serveRESP srv views conn (name :: rest) = .error .panic ∨
    ∃ cmd reply, serveRESP srv views conn (name :: rest) = .ok (.apply cmd reply) ∧
      (fsmApplyChecked vm srv.codec fuel envs cmd db).1 = .error .panic

theorem Returns.not_panics
    (h : Returns (serveRESP srv views conn (name :: rest)) Action.Sound) :
    ¬ RequestPanics vm srv views conn name rest fuel envs db := by
  obtain ⟨a, ha, hsound⟩ := h
  rintro (hpanic | ⟨cmd, reply, hcmd, hpanic⟩)
  · rw [ha] at hpanic
    cases hpanic
  · rw [ha] at hcmd
    cases hcmd
    exact served_noPanic vm hsound.1 fuel envs db hpanic

/-- No request other than EVAL and EVALSHA panics, except for an SRANDMEMBER whose count is below an
interval. -/
theorem request_panics_iff (heval : srv.verb? name ≠ some .eval ∧ srv.verb? name ≠ some .evalsha) :
    ¬ RequestPanics vm srv views conn name rest fuel envs db ↔
      ¬ (srv.verb? name = some .srandmember ∧ AsksTooMany srv views (name :: rest)) := by
  cases hverb : srv.verb? name with
  | none =>
    refine iff_of_true (Returns.not_panics _ _ _ _ _ _ _ _ _ ?_) ?_
    · rw [serveRESP_of_unknown srv views conn name rest hverb]
      exact refuse_sound _
    · rintro ⟨h, -⟩
      cases h
  | some verb =>
    have hserve := serveRESP_of_verb srv views conn name rest hverb
    by_cases hrand : verb = .srandmember
    · subst hrand
      by_cases hasks : AsksTooMany srv views (name :: rest)
      · refine iff_of_false (not_not.mpr (.inl ?_)) (not_not.mpr ⟨rfl, hasks⟩)
        exact hserve.trans (handleSRandMember_panic srv views (name :: rest) hasks)
      · refine iff_of_true (Returns.not_panics _ _ _ _ _ _ _ _ _ ?_) fun h => hasks h.2
        rw [hserve]
        exact handleSRandMember_sound srv views (name :: rest) hasks
    refine iff_of_true ?_ fun h => hrand (Option.some.inj h.1)
    by_cases hmis : verb = .smismember
    · subst hmis
      obtain ⟨a, ha, ws, rfl, -⟩ := handleSMIsMember_returns srv views (name :: rest)
      have hwrite : serveRESP srv views conn (name :: rest) = .ok (.write ws) := hserve.trans ha
      rintro (hpanic | ⟨cmd, reply, hcmd, -⟩)
      · rw [hwrite] at hpanic
        cases hpanic
      · rw [hwrite] at hcmd
        cases hcmd
    · refine Returns.not_panics _ _ _ _ _ _ _ _ _ ?_
      rw [hserve]
      refine handler_sound srv views (name :: rest) conn ⟨?_, ?_⟩ ⟨hrand, hmis⟩
      · rintro rfl
        exact heval.1 hverb
      · rintro rfl
        exact heval.2 hverb

/-- `SRANDMEMBER s -2` on a set of one member does not panic. -/
theorem srandmember_twice_returns :
    let db := storeAfter { op := .sadd, key := ascii "s", args := [ascii "x"] }
    ¬ RequestPanics noScripts asciiServer (viewOf db) newConn (ascii "SRANDMEMBER")
      [ascii "s", ascii "-2"]
      0 (fun _ => Env.at 1000000000000) db := by
  intro db
  refine (request_panics_iff _ _ _ _ _ _ _ _ _ (by decide)).mpr ?_
  rintro ⟨-, name, key, count, n, hargs, hcount, hn, -⟩
  cases hargs
  obtain rfl : -2 = n := congrArg Prod.fst hcount
  revert hn
  decide

/-- `SRANDMEMBER s -9223372036854775808` on a set of one member allocates a slice of negative
length. -/
theorem srandmember_least_panics :
    let db := storeAfter { op := .sadd, key := ascii "s", args := [ascii "x"] }
    RequestPanics noScripts asciiServer (viewOf db) newConn (ascii "SRANDMEMBER")
      [ascii "s", ascii "-9223372036854775808"] 0 (fun _ => Env.at 1000000000000) db :=
  .inl rfl

end Panics

end Badis
