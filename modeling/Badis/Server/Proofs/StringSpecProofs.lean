import Badis.Server.StringSpec
import Badis.Server.Proofs.SessionProofs
import Badis.Server.Proofs.SetGrammarProofs
import Badis.Store.Proofs.ReadsProofs

/-!
# Proofs: the string commands refine a register

SET, GETSET and APPEND share one plan, which is compared with the reference through the old value.
An empty string is told from an absent key on every path. A run is answered as the reference answers
it if and only if no SET of it has both NX and XX, of which the code takes the last
(`strings_refine_iff`).
-/

namespace Badis

open Lib

/-! ## The flags of SET -/

/-- The condition that flags leave: the last of NX and XX. -/
def flagsCondition (flags : List SetFlag) : Condition :=
  ((flags.map SetOption.flag).filterMap SetOption.condition?).getLast?.getD .always

theorem mem_condition_flags {flags : List SetFlag} {cond : Condition} :
    cond ∈ (flags.map SetOption.flag).filterMap SetOption.condition? ↔
      (cond = .nx ∧ .nx ∈ flags) ∨ (cond = .xx ∧ .xx ∈ flags) := by
  simp only [List.filterMap_map, List.mem_filterMap, Function.comp_apply]
  constructor
  · rintro ⟨f, hf, hcond⟩
    cases f <;> cases hcond
    · exact .inl ⟨rfl, hf⟩
    · exact .inr ⟨rfl, hf⟩
  · rintro (⟨rfl, hf⟩ | ⟨rfl, hf⟩)
    · exact ⟨_, hf, rfl⟩
    · exact ⟨_, hf, rfl⟩

/-- The condition of a SET is one that was given, or none was. -/
theorem flagsCondition_cases (flags : List SetFlag) :
    (flagsCondition flags = .nx ∧ .nx ∈ flags) ∨ (flagsCondition flags = .xx ∧ .xx ∈ flags) ∨
      (flagsCondition flags = .always ∧ .nx ∉ flags ∧ .xx ∉ flags) := by
  unfold flagsCondition
  cases hlast : ((flags.map SetOption.flag).filterMap SetOption.condition?).getLast? with
  | none =>
    have hnone : ∀ cond, cond ∉ (flags.map SetOption.flag).filterMap SetOption.condition? := by
      rw [List.getLast?_eq_none_iff.mp hlast]
      simp
    exact .inr (.inr ⟨rfl, fun h => hnone .nx (mem_condition_flags.mpr (.inl ⟨rfl, h⟩)),
      fun h => hnone .xx (mem_condition_flags.mpr (.inr ⟨rfl, h⟩))⟩)
  | some cond =>
    rcases mem_condition_flags.mp (List.mem_of_getLast? hlast) with ⟨rfl, hf⟩ | ⟨rfl, hf⟩
    · exact .inl ⟨rfl, hf⟩
    · exact .inr (.inl ⟨rfl, hf⟩)

/-- The command of a SET with flags. -/
def flagsCommand (key val : Bytes) (flags : List SetFlag) : Command :=
  { op := .set, key := key, args := [val], condition := flagsCondition flags,
    returnOld := decide (.get ∈ flags) }

theorem applyOptions_flags (t : Nat) (key val : Bytes) (flags : List SetFlag) :
    applyOptions t (flags.map .flag) { op := .set, key := key, args := [val] } =
      flagsCommand key val flags := by
  have htime : (flags.map SetOption.flag).filterMap SetOption.time? = [] := by
    simp [List.filterMap_map, SetOption.time?, Function.comp_def]
  rw [applyOptions_eq, htime, flagsCommand, flagsCondition]
  simp

/-- A SET with flags and no times builds the command with these flags. -/
theorem handleSet_flags {srv : Server} {flags : List SetFlag} {words : List Bytes}
    (h : Spells srv.upper (flags.map .flag) words) (views : Nat → ReadView) (name key val : Bytes) :
    handleSet srv views (name :: key :: val :: words) =
      .ok (.apply (flagsCommand key val flags)
        (setOutcome srv.codecText (flagsCommand key val flags))) := by
  rw [handleSet_eq, h.loop, applyOptions_flags]

/-- Without both NX and XX, SET writes when the reference does. -/
theorem setKey_flags_iff {flags : List SetFlag} (h : ¬ (.nx ∈ flags ∧ .xx ∈ flags))
    (key val : Bytes) (old : Option Bytes) :
    setKey (flagsCommand key val flags) old.isSome = true ↔ Writes flags old := by
  unfold setKey Writes flagsCommand
  rcases flagsCondition_cases flags with ⟨hcond, hf⟩ | ⟨hcond, hf⟩ | ⟨hcond, hnx, hxx⟩
  · have hxx : .xx ∉ flags := fun hxx => h ⟨hf, hxx⟩
    cases old <;> simp [hcond, hf, hxx]
  · have hnx : .nx ∉ flags := fun hnx => h ⟨hnx, hf⟩
    cases old <;> simp [hcond, hf, hnx]
  · simp [hcond, hnx, hxx]

/-! ## Writes -/

section Writes

variable {c : Codec} (hc : c.Lawful) {start : Nat} {env : Env} {old : Option Bytes} {s : Slot}

/-- The value of a string as the entry of its key. -/
def stringEntry (old : Option Bytes) : Option Entry := old.map fun b => ⟨b, 0⟩

/-- SET of a key that holds a string or nothing passes the type test. -/
theorem planSet_ofString {cmd : Command} {arg : Bytes} (hargs : cmd.args = [arg]) :
    planSet env cmd (ofString old) = .ok (setPlan env cmd arg (stringEntry old)) := by
  unfold planSet
  rw [hargs]
  cases old <;> rfl

theorem setTTLMs_ofString {cmd : Command} (httl : cmd.ttlMs = 0) :
    setTTLMs env cmd (stringEntry old) = 0 := by
  unfold setTTLMs
  rw [httl]
  cases old <;> simp [stringEntry, remainingTTLMs]

include hc

/-- SET, GETSET and APPEND: the string that is written, or what was there. -/
theorem setPlan_shows {cmd : Command} (arg : Bytes) (hold : Shows c start (ofString old) s)
    (httl : cmd.ttlMs = 0) :
    Shows c start
      (ofString (if setKey cmd old.isSome then some (setNewVal cmd arg (stringEntry old)) else old))
      ((setPlan env cmd arg (stringEntry old)).2.onSlot c env s) := by
  have hsome : (stringEntry old).isSome = old.isSome := Option.isSome_map
  unfold setPlan
  rw [hsome, setTTLMs_ofString httl]
  split_ifs
  · exact shows_put hc env rfl s
  · exact hold

end Writes

theorem setOutcome_ok_ne_error (codecText : Bytes) (cmd : Command) (r : Result) (msg : Bytes) :
    setOutcome codecText cmd (.applied (.ok r)) ≠ [.error msg] := by
  by_cases hold : cmd.returnOld = true
  · cases r <;> simp [setOutcome, handleSetReply, hold]
  · cases r <;> simp [setOutcome, handleSetReply, hold]

/-- The reply of SET: the old value with GET, and otherwise whether it wrote. -/
theorem setOutcome_flags (codecText key val : Bytes) (flags : List SetFlag) (old : Option Bytes) :
    setOutcome codecText (flagsCommand key val flags)
        (.applied (.ok (setReply (flagsCommand key val flags) val (stringEntry old)))) =
      if .get ∈ flags then writeBulk old
      else if setKey (flagsCommand key val flags) old.isSome then [.string (ascii "OK")]
        else [.null] := by
  have hop : (flagsCommand key val flags).op = .set := rfl
  unfold setOutcome setReply
  rw [hop]
  by_cases hget : .get ∈ flags
  · have hold : (flagsCommand key val flags).returnOld = true := decide_eq_true hget
    rw [if_pos hget, if_neg (by decide), hold]
    cases old with
    | none => rfl
    | some b =>
      show (if (flagsCommand key val flags).returnOld = true then _ else _) = _
      rw [hold]
      show [Write.bulk ((setOldVal (flagsCommand key val flags) (some ⟨b, 0⟩)).getD [])] =
        [Write.bulk b]
      rw [setOldVal, hold]
      rfl
  · have hold : (flagsCommand key val flags).returnOld = false := decide_eq_false hget
    have hsome : (stringEntry old).isSome = old.isSome := Option.isSome_map
    rw [if_neg hget, if_neg (by decide), hold, hsome]
    by_cases hkey : setKey (flagsCommand key val flags) old.isSome = true
    · simp [hkey, handleSetReply, hold]
    · simp [hkey, handleSetReply]

/-! ## MSET -/

/-- Assigning pairs in order gives a key its last value in the list. -/
theorem assignAll_apply (pairs : List (Bytes × Bytes)) (m : Bytes → Option Bytes) (k : Bytes) :
    assignAll pairs m k = (msetValue k (flatPairs pairs) <|> m k) := by
  induction pairs generalizing m with
  | nil => rfl
  | cons p pairs ih =>
    show assignAll pairs (Function.update m p.1 (some p.2)) k =
      ((msetValue k (flatPairs pairs) <|> if p.1 = k then some p.2 else none) <|> m k)
    rw [ih]
    cases msetValue k (flatPairs pairs) with
    | some v => rfl
    | none =>
      by_cases hk : p.1 = k
      · subst hk
        simp
      · simp [hk, Function.update_of_ne (Ne.symm hk)]

theorem Held.mset {c : Codec} (hc : c.Lawful) {start : Nat} {env : Env} {K : Bytes → Prop}
    {m : Bytes → Option Bytes} {db : DB} (h : HoldsStrings c start K m db)
    (pairs : List (Bytes × Bytes)) :
    (applyCmd c env { op := .mset, args := flatPairs pairs } db).1 = .ok (.str (ascii "OK")) ∧
      HoldsStrings c start K (assignAll pairs m)
        (applyCmd c env { op := .mset, args := flatPairs pairs } db).2 := by
  have heven : ¬ (flatPairs pairs).length % 2 ≠ 0 := by
    rw [length_flatPairs]
    omega
  refine ⟨?_, fun k hk => ?_⟩
  · rw [reply_applyCmd]
    exact if_neg heven
  · rw [slot_applyCmd, assignAll_apply]
    simp only [keyAct, if_neg heven]
    cases msetValue k (flatPairs pairs) with
    | none => exact h k hk
    | some v => exact shows_put hc env rfl _

/-! ## One request -/

section Step

variable (vm : LuaVM) (fuel : Nat) {srv : Server} (hc : srv.codec.Lawful) {start : Nat}
  {K : Bytes → Prop} {m : Bytes → Option Bytes} {db : DB} {a : Arrival StringRequest}
  (hallowed : a.Allowed srv start K) (hR : HoldsStrings srv.codec start K m db) {key : Bytes}

/-- The answer of the reference, and a store that holds its strings. -/
def GivesString (srv : Server) (start : Nat) (K : Bytes → Prop) (m : Bytes → Option Bytes) (db : DB)
    (a : Arrival StringRequest) : Prop :=
  a.Gives vm fuel srv db (a.request.step m).1 (fun o => Shows srv.codec start (ofString o)) K
    (a.request.step m).2

include hallowed hR

/-- What the command of a request sees is what the reference holds. -/
theorem stringView_applied {k : Bytes} (hk : K k) :
    DB.view srv.codec a.env.clock.now db k = ofString (m k) :=
  hR k hk _ hallowed.applied

theorem stringView_read {k : Bytes} (hk : K k) : DB.view srv.codec a.now db k = ofString (m k) :=
  hR k hk _ hallowed.read

theorem stringGet_gives (hreq : a.request = .get key) : GivesString vm fuel srv start K m db a := by
  obtain ⟨request, name, conn, env, now, order⟩ := a
  obtain rfl : request = _ := hreq
  have hview := stringView_read hallowed hR (hallowed.keys key List.mem_cons_self)
  refine gives_answer vm fuel hallowed.named ?_ hR
  show Except.ok (Action.write (handleGet srv.codecText now [name, key] db)) = _
  rw [handleGet_ofString srv.codec srv.codecText name hview]
  rfl

theorem strlen_gives (hreq : a.request = .strlen key) : GivesString vm fuel srv start K m db a := by
  obtain ⟨request, name, conn, env, now, order⟩ := a
  obtain rfl : request = _ := hreq
  have hview := stringView_read hallowed hR (hallowed.keys key List.mem_cons_self)
  refine gives_answer vm fuel hallowed.named ?_ hR
  show answer srv ((strLen now key).run db).1 writeNat =
    .ok (.write [.int ((m key).getD []).length])
  rw [strLen, Txn.run_bind, getString_run srv.codec, hview]
  cases m key <;> rfl

theorem stringDel_gives {keys : List Bytes} (hreq : a.request = .del key keys) :
    GivesString vm fuel srv start K m db a := by
  obtain ⟨request, name, conn, env, now, order⟩ := a
  obtain rfl : request = _ := hreq
  have hpresent : ∀ (x : Option Bytes) s, Shows srv.codec start (ofString x) s →
      ((s.view srv.codec env.clock.now).isSome = true ↔ x ≠ none) := by
    intro x s hs
    rw [hs _ hallowed.applied]
    cases x <;> simp [ofString]
  exact gives_command vm fuel hallowed.named (handleDel_eq srv name key keys) rfl
    (Held.del hR shows_nothing hpresent (List.cons_ne_nil _ _) hallowed.keys)

include hc

theorem mset_gives {pair : Bytes × Bytes} {pairs : List (Bytes × Bytes)}
    (hreq : a.request = .mset pair pairs) :
    GivesString vm fuel srv start K m db a := by
  obtain ⟨request, name, conn, env, now, order⟩ := a
  obtain rfl : request = _ := hreq
  have hlen := length_flatPairs (pair :: pairs)
  rw [List.length_cons] at hlen
  have hhandler :=
    handleMSet_eq srv name (show 2 ≤ (flatPairs (pair :: pairs)).length by omega) (by omega)
  exact gives_command vm fuel hallowed.named hhandler rfl (Held.mset hc hR (pair :: pairs))

/-- What SET, GETSET and APPEND leave. -/
theorem setPlan_held (hk : K key) {cmd : Command} {arg : Bytes} (hkey : cmd.key = key)
    (hargs : cmd.args = [arg]) (hop : cmd.op = .set ∨ cmd.op = .getset ∨ cmd.op = .append)
    (httl : cmd.ttlMs = 0) :
    (applyCmd srv.codec a.env cmd db).1 = .ok (setReply cmd arg (stringEntry (m key))) ∧
      HoldsStrings srv.codec start K
        (Function.update m key
          (if setKey cmd (m key).isSome then some (setNewVal cmd arg (stringEntry (m key)))
            else m key))
        (applyCmd srv.codec a.env cmd db).2 := by
  subst hkey
  have hmulti : cmd.op.multi = false := by rcases hop with h | h | h <;> rw [h] <;> rfl
  have hplan : plan a.env cmd (DB.view srv.codec a.env.clock.now db cmd.key) =
      .ok (setPlan a.env cmd arg (stringEntry (m cmd.key))) := by
    rw [stringView_applied hallowed hR hk, ← planSet_ofString hargs]
    rcases hop with h | h | h <;> simp only [plan, h]
  exact Held.of_plan hR hmulti hplan (setPlan_shows hc arg (hR _ hk) httl)

/-- What a SET with flags answers and leaves, by the condition that its command has. -/
theorem set_serves {val : Bytes} {flags : List SetFlag} {words : List Bytes}
    (hreq : a.request = .set key val flags words)
    (hspells : Spells srv.upper (flags.map .flag) words) :
    a.Gives vm fuel srv db
      (setOutcome srv.codecText (flagsCommand key val flags)
        (.applied (.ok (setReply (flagsCommand key val flags) val (stringEntry (m key))))))
      (fun o => Shows srv.codec start (ofString o)) K
      (Function.update m key
        (if setKey (flagsCommand key val flags) (m key).isSome then some val else m key)) := by
  obtain ⟨request, name, conn, env, now, order⟩ := a
  obtain rfl : request = _ := hreq
  have hk : K key := hallowed.keys key List.mem_cons_self
  have hargs : (flagsCommand key val flags).args = [val] := rfl
  have hhandler := handleSet_flags hspells (fun _ => ⟨db, now, order⟩) name key val
  have hheld := setPlan_held hc hallowed hR hk rfl hargs (.inl rfl) rfl
  exact gives_command vm fuel hallowed.named hhandler rfl hheld

/-- Without both conditions that is what the reference does. -/
theorem set_gives {val : Bytes} {flags : List SetFlag} {words : List Bytes}
    (hreq : a.request = .set key val flags words)
    (hspells : Spells srv.upper (flags.map .flag) words) (hboth : ¬ (.nx ∈ flags ∧ .xx ∈ flags)) :
    GivesString vm fuel srv start K m db a := by
  have hserves := set_serves vm fuel hc hallowed hR hreq hspells
  have hiff := setKey_flags_iff hboth key val (m key)
  rw [setOutcome_flags] at hserves
  unfold GivesString
  rw [hreq, StringRequest.step, if_neg hboth]
  by_cases hwrites : Writes flags (m key)
  · rw [if_pos (hiff.mpr hwrites), if_pos (hiff.mpr hwrites)] at hserves
    rw [if_pos hwrites, if_pos hwrites]
    exact hserves
  · have hkey : ¬ setKey (flagsCommand key val flags) (m key).isSome = true :=
      fun h => hwrites (hiff.mp h)
    rw [if_neg hkey, if_neg hkey, Function.update_eq_self] at hserves
    rw [if_neg hwrites, if_neg hwrites]
    exact hserves

theorem getset_gives {val : Bytes} (hreq : a.request = .getset key val) :
    GivesString vm fuel srv start K m db a := by
  obtain ⟨request, name, conn, env, now, order⟩ := a
  obtain rfl : request = _ := hreq
  have hk : K key := hallowed.keys key List.mem_cons_self
  have hhandler : handleGetSet srv [name, key, val] =
      applyCommand srv { op := .getset, key := key, args := [val] } := rfl
  have hreply : applyReply srv.codecText (.applied (.ok
      (setReply { op := .getset, key := key, args := [val] } val (stringEntry (m key))))) =
        writeBulk (m key) := by
    cases m key <;> rfl
  have hargs : ({ op := .getset, key := key, args := [val] } : Command).args = [val] := rfl
  have hgives := gives_command vm fuel hallowed.named hhandler rfl
    (setPlan_held hc hallowed hR hk rfl hargs (.inr (.inl rfl)) rfl)
  rw [hreply] at hgives
  exact hgives

theorem append_gives {val : Bytes} (hreq : a.request = .append key val) :
    GivesString vm fuel srv start K m db a := by
  obtain ⟨request, name, conn, env, now, order⟩ := a
  obtain rfl : request = _ := hreq
  have hk : K key := hallowed.keys key List.mem_cons_self
  have hhandler : handleAppend srv [name, key, val] =
      applyCommand srv { op := .append, key := key, args := [val] } := rfl
  have hnew : setNewVal { op := .append, key := key, args := [val] } val (stringEntry (m key)) =
      (m key).getD [] ++ val := by
    cases m key <;> rfl
  have hargs : ({ op := .append, key := key, args := [val] } : Command).args = [val] := rfl
  have hgives := gives_command vm fuel hallowed.named hhandler rfl
    (setPlan_held hc hallowed hR hk rfl hargs (.inr (.inr rfl)) rfl)
  rw [setReply, hnew] at hgives
  exact hgives

end Step

/-! ## Runs -/

/-- A request on strings is answered as the reference answers it, unless it is a SET with both NX
and XX. -/
theorem stringRequest_follows (vm : LuaVM) (fuel : Nat) {srv : Server} (hc : srv.codec.Lawful)
    (start : Nat) (K : Bytes → Prop) :
    Follows (fun a => a.Allowed srv start K ∧
      a.request.Spelled srv.upper) (fun a _ => a.request.Answered)
      (Arrival.serve vm fuel srv) (Arrival.reference StringRequest.step)
        (HoldsStrings srv.codec start K) where
  keeps a m db hallowed hR hanswered := by
    obtain ⟨hallowed, hspelled⟩ := hallowed
    show GivesString vm fuel srv start K m db a
    cases hreq : a.request with
    | set key val flags words =>
      rw [hreq] at hspelled hanswered
      exact set_gives vm fuel hc hallowed hR hreq hspelled hanswered
    | getset key val => exact getset_gives vm fuel hc hallowed hR hreq
    | append key val => exact append_gives vm fuel hc hallowed hR hreq
    | mset pair pairs => exact mset_gives vm fuel hc hallowed hR hreq
    | del key keys => exact stringDel_gives vm fuel hallowed hR hreq
    | get key => exact stringGet_gives vm fuel hallowed hR hreq
    | strlen key => exact strlen_gives vm fuel hallowed hR hreq
  leaves a m db hallowed hR hanswered := by
    obtain ⟨hallowed, hspelled⟩ := hallowed
    unfold Arrival.reference
    cases hreq : a.request with
    | set key val flags words =>
      rw [hreq] at hspelled hanswered
      have hboth : .nx ∈ flags ∧ .xx ∈ flags := not_not.mp hanswered
      rw [(set_serves vm fuel hc hallowed hR hreq hspelled).1, StringRequest.step, if_pos hboth]
      exact fun heq => setOutcome_ok_ne_error _ _ _ _ (Except.ok.inj heq)
    | _ =>
      rw [hreq] at hanswered
      exact absurd trivial hanswered

/-- A run of requests on strings is answered as the reference answers it if and only if no SET of it
has both NX and XX. -/
theorem strings_refine_iff (vm : LuaVM) (fuel : Nat) {srv : Server} (hc : srv.codec.Lawful)
    {start : Nat} {K : Bytes → Prop} {m : Bytes → Option Bytes} {db : DB}
    (hheld : HoldsStrings srv.codec start K m db) {run : List (Arrival StringRequest)}
    (hrun : ∀ a ∈ run, a.Allowed srv start K ∧ a.request.Spelled srv.upper) :
    (exec (Arrival.serve vm fuel srv) run db).1 =
      (exec (Arrival.reference StringRequest.step) run m).1 ↔
      ∀ a ∈ run, a.request.Answered :=
  ((stringRequest_follows vm fuel hc start K).outputs_eq_iff hrun hheld).trans
    (along_iff_forall run m)

/-- `SET k "" NX` and then `GET k` on an empty store: the key holds the empty string. -/
theorem set_nx_get_refines :
    (exec (Arrival.serve noScripts 0 asciiServer)
      [sampleArrival "SET" (StringRequest.set (ascii "k") [] [.nx] [ascii "nx"]),
        sampleArrival "GET" (StringRequest.get (ascii "k"))] OrdMap.empty).1 =
      [.ok [.string (ascii "OK")], .ok [.bulk []]] := by
  have hheld : HoldsStrings msgpack 1000000000000 (fun _ => True) (fun _ => none) OrdMap.empty :=
    fun _ _ _ _ => rfl
  refine (strings_refine_iff noScripts 0 msgpack_lawful hheld ?_).mpr ?_
  · exact List.forall_mem_cons.mpr ⟨⟨sampleArrival_allowed rfl, Spells.flag rfl .nil⟩,
      List.forall_mem_cons.mpr ⟨⟨sampleArrival_allowed rfl, trivial⟩, List.forall_mem_nil _⟩⟩
  · have hflags : ¬ (SetFlag.nx ∈ [SetFlag.nx] ∧ SetFlag.xx ∈ [SetFlag.nx]) := by decide
    exact List.forall_mem_cons.mpr
      ⟨hflags, List.forall_mem_cons.mpr ⟨trivial, List.forall_mem_nil _⟩⟩

/-- `SET k v NX XX` on an empty store is not refused: XX comes last, so nothing is written and the
answer is null. With `XX NX` the same SET writes. -/
theorem set_both_conditions_served :
    let set :=
      fun flags words => sampleArrival "SET" (StringRequest.set (ascii "k") (ascii "v") flags words)
    let get := sampleArrival "GET" (StringRequest.get (ascii "k"))
    let run :=
      [set [.nx, .xx] [ascii "NX", ascii "XX"], get, set [.xx, .nx] [ascii "XX", ascii "NX"], get]
    (exec (Arrival.serve noScripts 0 asciiServer) run OrdMap.empty).1 =
        [.ok [.null], .ok [.null], .ok [.string (ascii "OK")], .ok [.bulk (ascii "v")]] ∧
      (exec (Arrival.reference StringRequest.step) run fun _ => none).1 =
        [.ok [.error (ascii "ERR syntax error")], .ok [.null],
          .ok [.error (ascii "ERR syntax error")], .ok [.null]] :=
  ⟨rfl, rfl⟩

end Badis
