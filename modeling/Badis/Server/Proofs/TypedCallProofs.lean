import Badis.Server.ScriptCall
import Badis.Server.TypedCall
import Badis.Server.Proofs.KeyUseProofs
import Badis.Store.Proofs.SnapshotProofs
import Badis.Store.Proofs.WrongTypeProofs

/-!
# Type errors of requests

The calls of a command with a type of its own: a write is a command that works on that type and has
the arguments it tests first (`handler_issues_typed`), a read begins with the test of that type
(`readCalls_check`), and the handler reports what the read reports (`handler_reports`). So a call
fails by type exactly if the key is live with another type, nothing changes, and the client is told
so (`wrongType_exact`).
-/

namespace Badis

open Lib

theorem getD_of_goIndex {args : List Bytes} {key : Bytes} (h : goIndex args 1 = .ok key) :
    key = args.getD 1 [] := by
  unfold goIndex Slice.index at h
  rcases args with _ | ⟨name, _ | ⟨key', rest⟩⟩ <;> cases h
  rfl

/-! ## Writes -/

/-- A command on `key` that works on the type `want`, with the arguments it tests before the key. -/
structure Command.Typed (key want : Bytes) (cmd : Command) : Prop where
  key : cmd.key = key
  single : cmd.op.multi = false
  typ : typeWritten cmd cmd.key = some want
  args : cmd.ArgsFit

section Writes

variable (srv : Server) (views : Nat → ReadView) (conn : Conn) (args : List Bytes)

/-- The command of a request with a type of its own works on that type. -/
theorem handler_issues_typed {verb : Verb} {want : Bytes} (hown : verb.ownType = some want) :
    Issues (Command.Typed (args.getD 1 []) want) (verb.handler srv views conn args) := by
  have hrefuse : ∀ msg, Action.Issues (Command.Typed (args.getD 1 []) want) (.write [.error msg]) :=
    fun _ => trivial
  have htyped : ∀ cmd : Command, goIndex args 1 = .ok cmd.key → cmd.op.multi = false →
      typeWritten cmd cmd.key = some want → cmd.ArgsFit → cmd.Typed (args.getD 1 []) want :=
    fun cmd hget hsingle htyp hargs => ⟨getD_of_goIndex hget, hsingle, htyp, hargs⟩
  have hne : ∀ l : List Bytes, l.length = 1 → l ≠ [] := by
    rintro l hlen rfl
    cases hlen
  have heven : ∀ l : List Bytes, l.length = 2 → l.length % 2 = 0 := fun l hlen => by rw [hlen]
  apply Yields.issues
  cases verb <;> cases hown
  case get => exact yields_ok trivial
  case setex =>
    refine handleSetEx_yields srv hrefuse fun key val ttlMs hget => htyped _ hget rfl ?_ ?_
    · simp [typeWritten]
    · exact List.cons_ne_nil val []
  case append | getset =>
    refine handleFixed_yields srv hrefuse (by decide) fun key l hget hlen =>
      htyped _ hget rfl ?_ (hne l hlen)
    simp [typeWritten]
  case hsetnx =>
    refine handleFixed_yields srv hrefuse (by decide) fun key l hget hlen =>
      htyped _ hget rfl ?_ (heven l hlen)
    simp [typeWritten]
  case hset =>
    refine handleHSet_yields srv hrefuse fun key l hget heven => htyped _ hget rfl ?_ heven
    simp [typeWritten]
  case incr | decr | incrby | decrby =>
    refine handleFixed_yields srv hrefuse (by decide) fun key l hget _ =>
      htyped _ hget rfl ?_ trivial
    simp [typeWritten]
  case hdel | lpush | rpush | lpushx | rpushx | sadd | srem =>
    refine handleVariadic_yields srv hrefuse fun key l hget _ => htyped _ hget rfl ?_ trivial
    simp [typeWritten]
  case lpop | rpop =>
    refine handlePop_yields srv hrefuse fun key l hget => htyped _ hget rfl ?_ trivial
    simp [typeWritten]
  case ltrim =>
    refine handleLTrim_yields srv hrefuse fun key l hget => htyped _ hget rfl ?_ trivial
    simp [typeWritten]
  case lrem =>
    refine handleLRem_yields srv hrefuse fun key l hget => htyped _ hget rfl ?_ trivial
    simp [typeWritten]
  case spop =>
    refine handleSPop_yields srv hrefuse fun key l hget => htyped _ hget rfl ?_ trivial
    simp [typeWritten]
  case hmget => exact handleHMGet_yields srv views args hrefuse fun _ => trivial
  case lrange => exact handleLRange_yields srv views args hrefuse fun _ => trivial
  case lindex => exact handleLIndex_yields srv views args hrefuse fun _ => trivial
  case srandmember =>
    exact handleSRandMember_yields srv views args hrefuse (fun _ => trivial) fun _ => trivial
  case smismember => exact handleSMIsMember_yields srv views args hrefuse fun _ _ _ => trivial
  case hget | hexists | sismember =>
    exact handleFieldRead_yields srv views args hrefuse _ fun _ => trivial
  all_goals exact handleKeyRead_yields srv views args hrefuse _ fun _ => trivial

end Writes

/-! ## Reads -/

section Reads

variable (srv : Server) (order : RangeOrder) (args : List Bytes) {want : Bytes}

/-- Every call begins with the test that `key` has the type `want`. -/
def CallsCheck (key want : Bytes) (calls : List (Nat → Tx Unit)) : Prop :=
  ∀ call ∈ calls, ∀ t, ChecksType t key want (call t)

theorem callsCheck_nil (key : Bytes) : CallsCheck key want [] := by
  intro call hcall
  cases hcall

theorem callsCheck_single {key : Bytes} {call : Nat → Tx Unit}
    (h : ∀ t, ChecksType t key want (call t)) :
    CallsCheck key want [call] := by
  intro call' hcall t
  rw [List.mem_singleton.mp hcall]
  exact h t

/-- The call of a handler of one key tests the type if the read does. -/
theorem keyCall_check {α : Type} {m : Bytes → Nat → Tx α}
    (h : ∀ key t, ChecksType t key want (m key t)) :
    CallsCheck (args.getD 1 []) want (keyCall args m) := by
  unfold keyCall
  split
  · exact callsCheck_single fun t => (h _ t).map
  · exact callsCheck_nil _

theorem fieldCall_check {α : Type} {m : Bytes → Bytes → Nat → Tx α}
    (h : ∀ key field t, ChecksType t key want (m key field t)) :
    CallsCheck (args.getD 1 []) want (fieldCall args m) := by
  unfold fieldCall
  split
  · exact callsCheck_single fun t => (h _ _ t).map
  · exact callsCheck_nil _

/-- The read methods test the type of the command that calls them. -/
theorem readCalls_check {verb : Verb} (hown : verb.ownType = some want) :
    CallsCheck (args.getD 1 []) want (verb.readCalls srv order args) := by
  cases verb <;> cases hown
  case get => exact keyCall_check args fun key t => getString_checksType t key
  case strlen => exact keyCall_check args fun key t => strLen_checksType t key
  case hget => exact fieldCall_check args fun key field t => hGet_checksType srv.codec t key field
  case hgetall => exact keyCall_check args fun key t => hGetAll_checksType srv.codec t key
  case hexists =>
    exact fieldCall_check args fun key field t => (hGetAll_checksType srv.codec t key).map
  case hlen | hkeys | hvals =>
    exact keyCall_check args fun key t => (hGetAll_checksType srv.codec t key).map
  case llen => exact keyCall_check args fun key t => (lRange_checksType srv.codec t key 0 (-1)).map
  case smembers => exact keyCall_check args fun key t => sMembers_checksType srv.codec t key
  case scard => exact keyCall_check args fun key t => (sMembers_checksType srv.codec t key).map
  case sismember =>
    exact fieldCall_check args fun key member t => sIsMember_checksType srv.codec t key member
  case hmget =>
    simp only [Verb.readCalls]
    split
    · exact callsCheck_single fun t => (hGetAll_checksType srv.codec t _).map.map
    · exact callsCheck_nil _
  case lrange =>
    simp only [Verb.readCalls]
    split
    · split_ifs
      · exact callsCheck_nil _
      · exact callsCheck_single fun t => (lRange_checksType srv.codec t _ _ _).map
    · exact callsCheck_nil _
  case lindex =>
    simp only [Verb.readCalls]
    split
    · split_ifs
      · exact callsCheck_nil _
      · exact callsCheck_single fun t => (lIndex_checksType srv.codec t _ _).map
    · exact callsCheck_nil _
  case srandmember =>
    simp only [Verb.readCalls]
    split
    · split_ifs
      · exact callsCheck_nil _
      · exact callsCheck_single fun t => (sRandMember_checksType srv.codec t _ _).map
    · exact keyCall_check _ fun key t => sRandMember_checksType srv.codec t key none
  case smismember =>
    simp only [Verb.readCalls]
    split
    · intro call hcall t
      obtain ⟨member, -, rfl⟩ := List.mem_map.mp hcall
      exact (sIsMember_checksType srv.codec t _ member).map
    · exact callsCheck_nil _
  all_goals exact callsCheck_nil _

end Reads

/-! ### The handlers make these calls -/

/-- The handler goes by its read calls: without one it refuses the request, and an error of the
first one ends the reply. -/
def Reports (srv : Server) (views : Nat → ReadView) (calls : List (Nat → Tx Unit))
    (r : Except Err Action) : Prop :=
  match calls with
  | [] => ∃ msg, r = refuse msg
  | call :: _ => ∀ e, readFirst views call = .error e → e ≠ .panic →
    ∃ ws, r = .ok (.write (ws ++ [.error (e.text srv.codecText)]))

section Reports

variable (srv : Server) (views : Nat → ReadView) (args : List Bytes)

theorem answer_error {α : Type} {e : Err} (he : e ≠ .panic) (ok : α → List Write) :
    answer srv (.error e) ok = .ok (.write [.error (e.text srv.codecText)]) := by
  unfold answer
  split
  · rename_i heq
    cases heq
    exact absurd rfl he
  · rename_i heq
    cases heq
    rfl
  · rename_i heq
    cases heq

/-- A read fails with the error that it fails with when its result is dropped. -/
theorem error_of_outcome {α : Type} {m : Nat → Tx α} {e : Err}
    (h : readFirst views (fun t => outcome (m t)) = .error e) : readFirst views m = .error e := by
  unfold readFirst outcome at h
  rw [Txn.run_bind] at h
  unfold readFirst
  cases hrun : (m (views 0).now).run (views 0).db with
  | mk r db =>
    rw [hrun] at h
    cases r with
    | error e' =>
      cases h
      rfl
    | ok a => cases h

/-- A request that is answered from one call. -/
theorem answer_reports {α : Type} (m : Nat → Tx α) (ok : α → List Write)
    (rest : List (Nat → Tx Unit)) :
    Reports srv views ((fun t => outcome (m t)) :: rest) (answer srv (readFirst views m) ok) := by
  intro e h he
  rw [error_of_outcome views h, answer_error srv he ok]
  exact ⟨[], rfl⟩

/-- A handler of one key refuses another number of arguments, and reports the error of its read. -/
theorem handleKeyRead_reports {α : Type} (m : Bytes → Nat → Tx α) (ok : α → List Write) :
    Reports srv views (keyCall args m) (handleKeyRead srv views args m ok) := by
  rcases args with _ | ⟨name, _ | ⟨key, _ | ⟨arg, rest⟩⟩⟩
  · exact ⟨_, rfl⟩
  · exact ⟨_, rfl⟩
  · exact answer_reports srv views (m key) ok []
  · exact ⟨_, if_pos (by simp)⟩

theorem handleFieldRead_reports {α : Type} (m : Bytes → Bytes → Nat → Tx α) (ok : α → List Write) :
    Reports srv views (fieldCall args m) (handleFieldRead srv views args m ok) := by
  rcases args with _ | ⟨name, _ | ⟨key, _ | ⟨field, _ | ⟨arg, rest⟩⟩⟩⟩
  · exact ⟨_, rfl⟩
  · exact ⟨_, rfl⟩
  · exact ⟨_, rfl⟩
  · exact answer_reports srv views (m key field) ok []
  · exact ⟨_, if_pos (by simp)⟩

theorem handleHMGet_reports (order : RangeOrder) :
    Reports srv views (Verb.hmget.readCalls srv order args) (handleHMGet srv views args) := by
  rcases args with _ | ⟨name, _ | ⟨key, _ | ⟨field, fields⟩⟩⟩
  · exact ⟨_, rfl⟩
  · exact ⟨_, rfl⟩
  · exact ⟨_, rfl⟩
  · have hfields : argsFrom (name :: key :: field :: fields) 2 = .ok (field :: fields) :=
      argsFrom_eq _ (by simp)
    unfold handleHMGet
    rw [if_neg (by simp), hfields]
    exact answer_reports srv views (fun t => hMGet srv.codec t key (field :: fields)) writeBulks []

theorem handleLRange_reports (order : RangeOrder) :
    Reports srv views (Verb.lrange.readCalls srv order args) (handleLRange srv views args) := by
  rcases args with _ | ⟨name, _ | ⟨key, _ | ⟨start, _ | ⟨stop, _ | ⟨arg, rest⟩⟩⟩⟩⟩
  · exact ⟨_, rfl⟩
  · exact ⟨_, rfl⟩
  · exact ⟨_, rfl⟩
  · exact ⟨_, rfl⟩
  · have hrange : handleLRange srv views [name, key, start, stop] =
        if (parseInt start).2 = false ∨ (parseInt stop).2 = false then
          refuse (ascii "ERR value is not an integer")
        else answer srv (readFirst views fun t =>
          lRange srv.codec t key (parseInt start).1.toInt (parseInt stop).1.toInt) writeStrings :=
            rfl
    simp only [hrange, Verb.readCalls]
    split_ifs
    · exact ⟨_, rfl⟩
    · exact answer_reports srv views _ writeStrings []
  · exact ⟨_, if_pos (by simp)⟩

theorem handleLIndex_reports (order : RangeOrder) :
    Reports srv views (Verb.lindex.readCalls srv order args) (handleLIndex srv views args) := by
  rcases args with _ | ⟨name, _ | ⟨key, _ | ⟨index, _ | ⟨arg, rest⟩⟩⟩⟩
  · exact ⟨_, rfl⟩
  · exact ⟨_, rfl⟩
  · exact ⟨_, rfl⟩
  · rw [handleLIndex_eq]
    simp only [Verb.readCalls]
    split_ifs
    · exact ⟨_, rfl⟩
    · exact answer_reports srv views _ writeBulk []
  · exact ⟨_, if_pos (by simp)⟩

theorem handleSRandMember_reports (order : RangeOrder) :
    Reports srv views (Verb.srandmember.readCalls srv order args)
      (handleSRandMember srv views args) := by
  rcases args with _ | ⟨name, _ | ⟨key, _ | ⟨count, _ | ⟨arg, rest⟩⟩⟩⟩
  · exact ⟨_, rfl⟩
  · exact ⟨_, rfl⟩
  · exact answer_reports srv views (fun t => sRandMember srv.codec t key none) _ []
  · rw [handleSRandMember_count]
    simp only [Verb.readCalls]
    split_ifs
    · exact ⟨_, rfl⟩
    · exact answer_reports srv views _ writeStrings []
  · refine ⟨wrongNumber, ?_⟩
    unfold handleSRandMember
    rw [if_neg (by simp)]
    exact if_pos (by simp)

/-- SMISMEMBER has written the header when its first read fails, and writes the error after it. -/
theorem handleSMIsMember_reports (order : RangeOrder) :
    Reports srv views (Verb.smismember.readCalls srv order args)
      (handleSMIsMember srv views args) := by
  rcases args with _ | ⟨name, _ | ⟨key, _ | ⟨member, members⟩⟩⟩
  · exact ⟨_, rfl⟩
  · exact ⟨_, rfl⟩
  · exact ⟨_, rfl⟩
  · intro e h he
    have hread := error_of_outcome (m := fun t => sIsMember srv.codec t key member) views h
    have hkey : goIndex (name :: key :: member :: members) 1 = .ok key := rfl
    have hmember : goIndex (name :: key :: member :: members) ((2 : Nat) : Int) = .ok member := rfl
    have hloop : isMemberLoop srv views (name :: key :: member :: members) (members.length + 1) 2 =
        .ok [.error (e.text srv.codecText)] :=
          isMemberLoop_refused srv views _ hkey hmember he hread
    refine ⟨[.array (members.length + 1)], ?_⟩
    unfold handleSMIsMember
    rw [if_neg (by simp), show (name :: key :: member :: members).length - 2 =
      members.length + 1 from rfl, hloop]
    rfl

theorem handleGet_reports (conn : Conn) (order : RangeOrder) :
    Reports srv views (Verb.get.readCalls srv order args)
      (Verb.get.handler srv views conn args) := by
  show Reports srv views (keyCall args fun key t => getString t key)
    (.ok (.write (handleGet srv.codecText (views 0).now args (views 0).db)))
  rcases args with _ | ⟨name, _ | ⟨key, _ | ⟨arg, rest⟩⟩⟩
  · exact ⟨_, rfl⟩
  · exact ⟨_, rfl⟩
  · intro e h he
    have hread : ((getString (views 0).now key).run (views 0).db).1 = .error e :=
      error_of_outcome (m := fun t => getString t key) views h
    refine ⟨[], ?_⟩
    unfold handleGet
    simp only [hread, List.nil_append]
  · exact ⟨_, rfl⟩

/-- The handlers of the reads go by the calls listed for them. -/
theorem handler_reports (conn : Conn) {verb : Verb} {want : Bytes} (hown : verb.ownType = some want)
    (hread : verb.isWrite = false) :
    Reports srv views (verb.readCalls srv (views 0).order args)
      (verb.handler srv views conn args) := by
  cases verb <;> cases hown <;> cases hread
  case get => exact handleGet_reports srv views args conn _
  case hmget => exact handleHMGet_reports srv views args _
  case lrange => exact handleLRange_reports srv views args _
  case lindex => exact handleLIndex_reports srv views args _
  case srandmember => exact handleSRandMember_reports srv views args _
  case smismember => exact handleSMIsMember_reports srv views args _
  case hget | hexists | sismember => exact handleFieldRead_reports srv views args _ _
  all_goals exact handleKeyRead_reports srv views args _ _

end Reports

/-! ## Type errors are exact -/

/-- While the two entries of a key are live or dead together, its type is what its type entry
says. -/
theorem otherType_iff {t : Nat} {want : Bytes} {db : DB} {k : Bytes}
    (hboth : (db.getLive t (userKey k)).isSome = (db.getLive t (typeKey k)).isSome) :
    DB.OtherType t want db k ↔
      ∃ e item, db.getLive t (userKey k) = some e ∧ db.getLive t (typeKey k) = some item ∧
        item.value ≠ want := by
  unfold DB.OtherType DB.present
  rw [typ_eq_getLive]
  cases huser : db.getLive t (userKey k) with
  | none => simp
  | some e =>
    rw [huser] at hboth
    obtain ⟨item, hitem⟩ := Option.isSome_iff_exists.mp hboth.symm
    simp [hitem]

theorem map_eq_error_iff {α β : Type} {f : α → β} {r : Except Err α} {e : Err} :
    r.map f = .error e ↔ r = .error e := by
  cases r <;> simp [Except.map]

/-- Only reads have read calls. -/
theorem isWrite_eq_false_of_mem_readCalls {srv : Server} {order : RangeOrder} {args : List Bytes}
    {verb : Verb} {m : Nat → Tx Unit} (hm : m ∈ verb.readCalls srv order args) :
    verb.isWrite = false := by
  cases verb
  all_goals first | rfl | cases hm

/-- If one read call of a request fails by type in the first view, then the first call does, and the
reply ends with that error. -/
theorem handler_tells_wrongType {srv : Server} {views : Nat → ReadView} (conn : Conn)
    {args : List Bytes} {verb : Verb} {want : Bytes} (hown : verb.ownType = some want)
    {m : Nat → Tx Unit} (hm : m ∈ verb.readCalls srv (views 0).order args)
    (herr : readFirst views m = .error .wrongType) :
    ∃ ws, verb.handler srv views conn args =
      .ok (.write (ws ++ [.error (Err.text srv.codecText .wrongType)])) := by
  have hchecks := readCalls_check srv (views 0).order args hown
  have hreports := handler_reports srv views args conn hown (isWrite_eq_false_of_mem_readCalls hm)
  cases hcalls : verb.readCalls srv (views 0).order args with
  | nil =>
    rw [hcalls] at hm
    cases hm
  | cons first rest =>
    rw [hcalls] at hreports
    have hfirst : first ∈ verb.readCalls srv (views 0).order args := hcalls ▸ List.mem_cons_self
    have hother := (hchecks m hm (views 0).now (views 0).db).1.mp herr
    refine hreports .wrongType ?_ (by decide)
    exact (hchecks first hfirst (views 0).now (views 0).db).1.mpr hother

/-- At an instant when the user entry and the type entry of the key are both live or both not, each
call of a command with a type of its own returns `ErrWrongType` exactly if the key is live with
another type, and then the database stays as it is. The reply to a read that fails so ends with the
error. -/
theorem wrongType_exact (srv : Server) (views : Nat → ReadView) (conn : Conn) (verb : Verb)
    (want : Bytes) (hown : verb.ownType = some want) (args : List Bytes) (call : FsmCall)
    (hcall : call ∈ verb.fsmCalls srv views conn args) (env : Env) (db : DB)
    (hboth : (db.getLive env.clock.now (userKey (args.getD 1 []))).isSome =
      (db.getLive env.clock.now (typeKey (args.getD 1 []))).isSome) :
    ((call.run srv.codec env db).1 = .error .wrongType ↔
        ∃ e item, db.getLive env.clock.now (userKey (args.getD 1 [])) = some e ∧
          db.getLive env.clock.now (typeKey (args.getD 1 [])) = some item ∧ item.value ≠ want) ∧
      ((call.run srv.codec env db).1 = .error .wrongType → (call.run srv.codec env db).2 = db) ∧
      (∀ m, call = .read m → readFirst views m = .error .wrongType →
        ∃ ws, verb.handler srv views conn args =
          .ok (.write (ws ++ [.error (Err.text srv.codecText .wrongType)]))) := by
  rw [← otherType_iff hboth]
  unfold Verb.fsmCalls at hcall
  cases hcmd : requestCommand (verb.handler srv views conn args) with
  | some cmd =>
    rw [hcmd, List.mem_singleton] at hcall
    subst hcall
    have htyped := handler_issues_typed srv views conn args hown cmd hcmd
    have happly := applyCmd_wrongType_iff srv.codec env db htyped.single htyped.typ htyped.args
    rw [htyped.key] at happly
    simp only [FsmCall.run, map_eq_error_iff]
    refine ⟨happly.1, happly.2, fun m hm => ?_⟩
    cases hm
  | none =>
    rw [hcmd] at hcall
    obtain ⟨m, hm, rfl⟩ := List.mem_map.mp hcall
    have hchecks := readCalls_check srv (views 0).order args hown m hm env.clock.now db
    refine ⟨hchecks.1, fun _ => hchecks.2, fun m' hm' herr => ?_⟩
    cases hm'
    exact handler_tells_wrongType conn hown hm herr

/-- A store that holds a list. -/
def listStored : DB := storeAfter { op := .lpush, key := ascii "l", args := [ascii "x"] }

/-- INCR of a list fails by type and leaves the list as it is, and GET of the list is answered with
the error. -/
theorem incr_and_get_of_list_wrongType :
    FsmCall.apply { op := .incr, key := ascii "l" } ∈
        Verb.incr.fsmCalls asciiServer (viewOf listStored) newConn [ascii "incr", ascii "l"] ∧
      ((FsmCall.apply { op := .incr, key := ascii "l" }).run msgpack (Env.at 1001000000000)
        listStored).1 = .error .wrongType ∧
      ((FsmCall.apply { op := .incr, key := ascii "l" }).run msgpack (Env.at 1001000000000)
        listStored).2 = listStored ∧
      ∃ ws, Verb.get.handler asciiServer (viewOf listStored) newConn [ascii "get", ascii "l"] =
        .ok (.write (ws ++ [.error (Err.text asciiServer.codecText .wrongType)])) := by
  have hcall : FsmCall.apply { op := .incr, key := ascii "l" } ∈
      Verb.incr.fsmCalls asciiServer (viewOf listStored) newConn [ascii "incr", ascii "l"] :=
    List.mem_singleton.mpr rfl
  have hexact := wrongType_exact asciiServer (viewOf listStored) newConn .incr typeString rfl
    [ascii "incr", ascii "l"] _ hcall (Env.at 1001000000000) listStored (by decide)
  have herr : ((FsmCall.apply { op := .incr, key := ascii "l" }).run msgpack (Env.at 1001000000000)
      listStored).1 = .error .wrongType := by decide
  have hget := wrongType_exact asciiServer (viewOf listStored) newConn .get typeString rfl
    [ascii "get", ascii "l"] (.read fun t => outcome (getString t (ascii "l")))
      (List.mem_singleton.mpr rfl)
    (Env.at 1001000000000) listStored (by decide)
  exact ⟨hcall, herr, hexact.2.1 herr, hget.2.2 _ rfl (by decide)⟩

end Badis
