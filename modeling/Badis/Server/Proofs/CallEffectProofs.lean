import Badis.Server.Proofs.AggregateProofs
import Badis.Server.ScriptCall

/-!
# What tells two commands apart

The command a call builds and the command a handler builds are compared by what they do to every
store (`SameStores`), here for the writes of strings. Where the commands differ, one of three stores
tells them apart: the empty one, one where an entry of the key will expire and the other will not,
so that writing the value back shows, and one with a string under the key.
-/

namespace Badis

open Lib

/-! ## Commands that change nothing, and commands that change something -/

section Effects

variable (c : Codec) {cmd cmd' : Command}

/-- The command leaves every store as it is. -/
def Inert (cmd : Command) : Prop := ∀ env db, (applyCmd c env cmd db).2 = db

/-- The command changes some store. -/
def Changes (cmd : Command) : Prop := ∃ env db, (applyCmd c env cmd db).2 ≠ db

/-- The command does to every store what the other one does, or nothing if there is no other. -/
def SameStores (cmd : Command) (other : Option Command) : Prop :=
  ∀ env db, (applyCmd c env cmd db).2 =
    match other with
    | none => db
    | some cmd' => (applyCmd c env cmd' db).2

variable {c}

/-- A command that keeps every key changes no store. -/
theorem inert_of_keep (h : ∀ env k x, keyAct env cmd k x = .keep) : Inert c cmd := by
  intro env db
  refine DB.ext_of_slots (fun k => ?_) (applyCmd_frame c env cmd db)
  rw [slot_applyCmd, h]
  rfl

/-- A command on one key that always fails. -/
theorem inert_of_error (hmulti : cmd.op.multi = false)
    (h : ∀ env x, ∃ e, plan env cmd x = .error e) :
    Inert c cmd := by
  refine inert_of_keep fun env k x => ?_
  obtain ⟨e, he⟩ := h env x
  rw [keyAct_of_single _ _ _ hmulti, he]
  split_ifs <;> rfl

/-- Commands that act alike on every slot leave the same stores. -/
theorem SameStores.of_slots (h : ∀ env k x s,
    (keyAct env cmd k x).onSlot c env s = (keyAct env cmd' k x).onSlot c env s) :
    SameStores c cmd (some cmd') := by
  intro env db
  refine DB.ext_of_slots (fun k => ?_) fun raw hu ht => ?_
  · rw [slot_applyCmd, slot_applyCmd, h]
  · rw [applyCmd_frame c env cmd db raw hu ht, applyCmd_frame c env cmd' db raw hu ht]

theorem SameStores.of_ext (h : ∀ env k x, keyAct env cmd k x = keyAct env cmd' k x) :
    SameStores c cmd (some cmd') :=
  SameStores.of_slots fun env k x s => by rw [h]

theorem Inert.same (h : Inert c cmd) : SameStores c cmd none := h

/-- A call that changes a store differs from a request that is refused. -/
theorem Changes.not_same (h : Changes c cmd) : ¬ SameStores c cmd none := by
  obtain ⟨env, db, hne⟩ := h
  exact fun hsame => hne (hsame env db)

theorem Inert.not_same (h : Inert c cmd) (h' : Changes c cmd') :
    ¬ SameStores c cmd (some cmd') := by
  obtain ⟨env, db, hne⟩ := h'
  exact fun hsame => hne ((hsame env db).symm.trans (h env db))

/-- Two commands are told apart by what they do to the entries of one key. -/
theorem not_same_of_slot (env : Env) (k : Bytes) (s : Slot)
    (h : (keyAct env cmd k (s.view c env.clock.now)).onSlot c env s ≠
      (keyAct env cmd' k (s.view c env.clock.now)).onSlot c env s) : ¬ SameStores c cmd (some
        cmd') := by
  intro hsame
  have hslot := congrArg (fun db => Slot.of db k) (hsame env (DB.setSlot OrdMap.empty k s))
  simp only [slot_applyCmd, DB.view, Slot.of_setSlot] at hslot
  exact h hslot

/-- To change some store it is enough to change one slot. -/
theorem changes_of_slot (env : Env) (k : Bytes) (s : Slot)
    (h : (keyAct env cmd k (s.view c env.clock.now)).onSlot c env s ≠ s) : Changes c cmd := by
  refine ⟨env, DB.setSlot OrdMap.empty k s, fun heq => h ?_⟩
  have hslot := congrArg (fun db => Slot.of db k) heq
  simp only [slot_applyCmd, DB.view, Slot.of_setSlot] at hslot
  exact hslot

/-- A command that creates a key. -/
theorem changes_of_create {env : Env} {k : Bytes} {v : Value} {ttlMs : Int64}
    (h : keyAct env cmd k none = .put v ttlMs) : Changes c cmd := by
  refine changes_of_slot env k ⟨none, none⟩ ?_
  show (keyAct env cmd k none).onSlot c env ⟨none, none⟩ ≠ ⟨none, none⟩
  rw [h]
  intro heq
  cases congrArg Slot.user heq

/-- A time, and a second after it. -/
def noon : Env := Env.at 1000000000000

/-- A key that holds `v` for good, with a type entry that will expire. -/
def Slot.lasting (c : Codec) (v : Value) : Slot :=
  ⟨some (newEntry (v.encode c noon)), some ⟨v.typ, 2000⟩⟩

/-- A slot without expiry shows its value. -/
theorem view_lasting (hc : c.Lawful) {v : Value} (hv : v.proper = true) :
    (Slot.lasting c v).view c noon.clock.now = some (v, 0) := by
  have htyp : (Slot.lasting c v).typ noon.clock.now = v.typ := rfl
  have hview : (Slot.lasting c v).view c noon.clock.now =
      some (Value.decode c ((Slot.lasting c v).typ noon.clock.now) (v.encode c noon), 0) := rfl
  rw [hview, htyp, decode_encode hc noon hv]

/-- A command that writes the value back, or deletes it. -/
theorem changes_of_rewrite (hc : c.Lawful) {k : Bytes} {v : Value} (hv : v.proper = true)
    (h : (∃ w, keyAct noon cmd k (some (v, 0)) = .put w 0) ∨
      keyAct noon cmd k (some (v, 0)) = .drop) :
    Changes c cmd := by
  refine changes_of_slot noon k (Slot.lasting c v) ?_
  rw [view_lasting hc hv]
  rcases h with ⟨w, h⟩ | h
  · rw [h]
    intro heq
    have htype : some (withTTLMs noon.clock.ttlType 0 (newEntry w.typ)) = some ⟨v.typ, 2000⟩ :=
      congrArg Slot.type heq
    have hexp : (0 : UInt64) = 2000 := congrArg Entry.expiresAt (Option.some.inj htype)
    revert hexp
    decide
  · rw [h]
    intro heq
    cases congrArg Slot.user heq

end Effects

/-! ## The two commands -/

/-- The command of a call, SET apart. -/
def callCommand (op : Op) (args : List Bytes) : Command :=
  { op := op, key := args.headD [], args := args.tail }

section Handlers

variable (srv : Server) (name : Bytes) (args : List Bytes)

theorem fixed_refused {op : Op} {arity : Nat} {positions : List Nat} (h : args.length + 1 ≠ arity) :
    requestCommand (handleFixed srv (name :: args) op arity positions) = none := by
  have hlen : (name :: args).length ≠ arity := h
  rw [handleFixed, if_pos hlen]
  rfl

theorem variadic_refused {op : Op} (h : args.length < 2) :
    requestCommand (handleVariadic srv (name :: args) op) = none := by
  have hlen : (name :: args).length < 3 := Nat.succ_lt_succ h
  rw [handleVariadic, if_pos hlen]
  rfl

/-- The variadic writes have a call's command. -/
theorem variadic_command {op : Op} (h : 2 ≤ args.length) :
    requestCommand (handleVariadic srv (name :: args) op) = some (callCommand op args) := by
  match args, h with
  | key :: a :: rest, _ =>
    rw [handleVariadic_eq]
    rfl

end Handlers

/-! ## Strings -/

section Strings

variable {c : Codec} (hc : c.Lawful) (srv : Server) (name : Bytes) (args : List Bytes)

/-- The call deletes the keys after the first. -/
theorem del_same {key : Bytes} {rest : List Bytes} (hmem : key ∈ rest) :
    SameStores c (callCommand .del (key :: rest)) (some { op := .del, args := key :: rest }) := by
  refine SameStores.of_ext fun env k x => ?_
  have hne : rest ≠ [] := List.ne_nil_of_mem hmem
  have hiff : k ∈ key :: rest ↔ k ∈ rest := by
    rw [List.mem_cons]
    constructor
    · rintro (rfl | h)
      · exact hmem
      · exact h
    · exact .inr
  simp [keyAct, callCommand, hiff, hne]

/-- What the call does to a string under its first argument, which the request deletes. -/
theorem del_act {key : Bytes} {rest : List Bytes} (hmem : key ∉ rest) :
    keyAct noon (callCommand .del (key :: rest)) key (some (.string [], 0)) =
      if rest = [] ∧ key ≠ [] then .unset else .keep := by
  by_cases hunset : rest = [] ∧ key ≠ []
  · obtain ⟨rfl, hkey⟩ := hunset
    simp [keyAct, callCommand, hkey]
  · rw [if_neg hunset]
    simp only [keyAct, callCommand, List.tail_cons, List.headD_cons, Option.isNone_some, hmem,
      if_false, Bool.false_eq_true]
    rw [if_neg]
    rintro ⟨h, h', -⟩
    exact hunset ⟨h, h'⟩

include hc in
theorem del_agrees :
    SameStores c (callCommand .del args) (requestCommand (handleDel srv (name :: args))) ↔
    Verb.agrees srv.upper args .del = true := by
  cases args with
  | nil =>
    refine iff_of_true (Inert.same (inert_of_keep fun env k x => ?_)) rfl
    cases x with
    | none => rfl
    | some p => simp [keyAct, callCommand]
  | cons key rest =>
    rw [handleDel_eq, applyCommand, requestCommand]
    by_cases hmem : key ∈ rest
    · exact iff_of_true (del_same hmem) (decide_eq_true hmem)
    · refine iff_of_false ?_ fun h => hmem (of_decide_eq_true h)
      refine not_same_of_slot noon key (Slot.lasting c (.string [])) ?_
      have hdrop : keyAct noon { op := .del, args := key :: rest } key (some (.string [], 0)) =
          .drop := by
        simp [keyAct]
      rw [view_lasting hc rfl, hdrop, del_act hmem]
      intro heq
      split_ifs at heq
      · cases congrArg Slot.type heq
      · cases congrArg Slot.user heq

/-- A deletion of at least one key. -/
theorem changes_del (hc : c.Lawful) (key : Bytes) (rest : List Bytes) :
    Changes c { op := .del, args := key :: rest } := by
  refine changes_of_rewrite hc (k := key) (v := .string []) rfl (.inr ?_)
  simp [keyAct]

/-- A name that is no operation of the store. -/
theorem inert_other (name : Bytes) : Inert c (callCommand (.other name) args) :=
  inert_of_error rfl fun _ _ => ⟨_, rfl⟩

include hc in
/-- A script has no UNLINK: the call has an unknown operation, which changes nothing. -/
theorem unlink_agrees (other : Bytes) :
    SameStores c (callCommand (.other other) args) (requestCommand (handleDel srv (name :: args))) ↔
      Verb.agrees srv.upper args .unlink = true := by
  cases args with
  | nil => exact iff_of_true (inert_other [] other).same rfl
  | cons key rest =>
    rw [handleDel_eq, applyCommand, requestCommand]
    refine iff_of_false ((inert_other (key :: rest) other).not_same (changes_del hc key rest)) ?_
    intro h
    have hnil : key :: rest = [] := of_decide_eq_true h
    cases hnil

/-- MSET creates the key of its first pair. -/
theorem changes_mset (key val : Bytes) {rest : List Bytes} (heven : rest.length % 2 = 0)
    (k : Bytes) :
    Changes c { op := .mset, key := k, args := key :: val :: rest } := by
  obtain ⟨v, hv⟩ : ∃ v, msetValue key (key :: val :: rest) = some v := by
    rw [msetValue, if_pos rfl]
    cases msetValue key rest with
    | none => exact ⟨val, rfl⟩
    | some v => exact ⟨v, rfl⟩
  have hlen : ¬ (key :: val :: rest).length % 2 ≠ 0 := by
    simp only [List.length_cons]
    omega
  have hact : keyAct noon { op := .mset, key := k, args := key :: val :: rest } key none =
      .put (.string v) 0 := by
    simp only [keyAct, if_neg hlen, hv]
  exact changes_of_create hact

/-- MSET with a key too many. -/
theorem inert_mset_odd {cmd : Command} (hop : cmd.op = .mset) (hodd : cmd.args.length % 2 ≠ 0) :
    Inert c cmd := by
  refine inert_of_keep fun env k x => ?_
  simp only [keyAct, hop, if_pos hodd]

/-- A request with too few arguments or with a key too many has no command. -/
theorem mset_refused (h : (name :: args).length < 3 ∨ (name :: args).length % 2 = 0) :
    requestCommand (handleMSet srv (name :: args)) = none := by
  rw [handleMSet, if_pos h]
  rfl

/-- A call with at most one argument, which is the key of its command. -/
theorem inert_mset_short (h : args.length ≤ 1) : Inert c (callCommand .mset args) := by
  refine inert_of_keep fun env k x => ?_
  have htail : args.tail = [] := by
    rw [← List.length_eq_zero_iff, List.length_tail]
    omega
  simp [keyAct, callCommand, htail, msetValue]

/-- The call takes the first argument for the key of its command, so either the call or the request
has a key too many. -/
theorem mset_not_same (key val : Bytes) (rest : List Bytes) :
    ¬ SameStores c (callCommand .mset (key :: val :: rest))
      (requestCommand (handleMSet srv (name :: key :: val :: rest))) := by
  by_cases heven : rest.length % 2 = 0
  · have hargs : (key :: val :: rest).length % 2 = 0 := by
      simp only [List.length_cons]
      omega
    rw [handleMSet_eq srv name (by simp) hargs]
    refine Inert.not_same (inert_mset_odd rfl ?_) (changes_mset key val heven [])
    show (val :: rest).length % 2 ≠ 0
    simp only [List.length_cons]
    omega
  · have hodd : (name :: key :: val :: rest).length % 2 = 0 := by
      simp only [List.length_cons]
      omega
    rw [mset_refused srv name _ (.inr hodd)]
    rcases rest with _ | ⟨val', rest'⟩
    · exact absurd rfl heven
    · refine Changes.not_same (changes_mset val val' ?_ key)
      simp only [List.length_cons] at heven
      omega

theorem mset_agrees :
    SameStores c (callCommand .mset args) (requestCommand (handleMSet srv (name :: args))) ↔
      Verb.agrees srv.upper args .mset = true := by
  by_cases hshort : args.length ≤ 1
  · rw [mset_refused srv name args (.inl (by simp; omega))]
    exact iff_of_true (inert_mset_short args hshort).same (decide_eq_true hshort)
  · rcases args with _ | ⟨key, _ | ⟨val, rest⟩⟩
    · exact absurd (Nat.zero_le 1) hshort
    · exact absurd le_rfl hshort
    · exact iff_of_false (mset_not_same srv name key val rest) (by simp [Verb.agrees])

/-- SET without a condition creates its key. -/
theorem changes_set {cmd : Command} (hop : cmd.op = .set ∨ cmd.op = .getset ∨ cmd.op = .append)
    (hargs : cmd.args ≠ []) (hcond : cmd.condition = .always) : Changes c cmd := by
  obtain ⟨arg, rest, hcons⟩ := List.exists_cons_of_ne_nil hargs
  have hplan : plan noon cmd none = planSet noon cmd none := by
    rcases hop with hop | hop | hop <;> simp only [plan, hop]
  have hmulti : cmd.op.multi = false := by
    rcases hop with hop | hop | hop <;> rw [hop] <;> rfl
  have hact : keyAct noon cmd cmd.key none =
      .put (.string (setNewVal cmd arg none)) (setTTLMs noon cmd none) := by
    have hset : planSet noon cmd none = .ok (setPlan noon cmd arg none) := by
      simp only [planSet, hcons]
    rw [keyAct_of_single _ _ _ hmulti, if_pos rfl, hplan, hset]
    simp [setPlan, setKey, hcond]
  exact changes_of_create hact

/-- SETEX is no operation of the store: a request for it is a SET. -/
theorem setex_agrees (other : Bytes) :
    SameStores c (callCommand (.other other) args)
      (requestCommand (handleSetEx srv (name :: args))) ↔
      Verb.agrees srv.upper args .setex = true := by
  by_cases hlen : args.length = 3
  · obtain ⟨key, secs, val, rfl⟩ := List.length_eq_three.mp hlen
    have hunfold : handleSetEx srv [name, key, secs, val] =
        if (parseInt secs).2 = false ∨ (parseInt secs).1 ≤ 0 then
          refuse (ascii "ERR invalid expire time in 'setex' command")
        else applyCommand srv
          { op := .set, key := key, args := [val], ttlMs := (parseInt secs).1 * 1000 } := rfl
    have hpos : Verb.agrees srv.upper [key, secs, val] .setex = true ↔
        ((parseInt secs).2 = false ∨ (parseInt secs).1 ≤ 0) := by
      show (!isPositive secs) = true ↔ _
      simp only [isPositive, isInteger, Bool.not_eq_true', Bool.and_eq_false_iff,
        decide_eq_false_iff_not, Int64.not_lt]
    rw [hunfold, hpos]
    by_cases hbad : (parseInt secs).2 = false ∨ (parseInt secs).1 ≤ 0
    · rw [if_pos hbad]
      exact iff_of_true (inert_other _ other).same hbad
    · rw [if_neg hbad]
      refine iff_of_false ((inert_other _ other).not_same (changes_set (.inl rfl) ?_ rfl)) hbad
      exact List.cons_ne_nil _ _
  · have hreq : requestCommand (handleSetEx srv (name :: args)) = none := by
      have hlen' : (name :: args).length ≠ 4 := by simpa using hlen
      rw [handleSetEx, if_pos hlen']
      rfl
    rw [hreq]
    refine iff_of_true (inert_other _ other).same ?_
    match args, hlen with
    | [], _ => rfl
    | [_], _ => rfl
    | [_, _], _ => rfl
    | [_, _, _], hlen => exact absurd rfl hlen
    | _ :: _ :: _ :: _ :: _, _ => rfl

/-- PERSIST shows on a key that will expire. -/
theorem changes_persist (key : Bytes) (rest : List Bytes) :
    Changes c { op := .persist, key := key, args := rest } := by
  refine changes_of_slot noon key ⟨some ⟨[], 2000⟩, none⟩ ?_
  have hact :
    keyAct noon { op := .persist, key := key, args := rest } key (some (.string [], 2000)) =
      .persist := by
    simp only [keyAct, if_pos]
    rfl
  show (keyAct noon { op := .persist, key := key, args := rest } key
    (some (.string [], 2000))).onSlot
    c noon ⟨some ⟨[], 2000⟩, none⟩ ≠ _
  rw [hact]
  intro heq
  have hexp : (0 : UInt64) = 2000 :=
    congrArg Entry.expiresAt (Option.some.inj (congrArg Slot.user heq))
  revert hexp
  decide

theorem persist_agrees :
    SameStores c (callCommand .persist args) (requestCommand (handlePersist srv (name :: args))) ↔
      Verb.agrees srv.upper args .persist = true := by
  by_cases hlen : args.length = 1
  · obtain ⟨key, rfl⟩ := List.length_eq_one_iff.mp hlen
    exact iff_of_true (SameStores.of_ext fun _ _ _ => rfl) rfl
  · have hreq : requestCommand (handlePersist srv (name :: args)) = none :=
      fixed_refused srv name args (by omega)
    rw [hreq]
    exact iff_of_false (changes_persist _ _).not_same fun h => hlen (of_decide_eq_true h)

/-- FLUSHDB changes a store that has a key. -/
theorem changes_flushdb {cmd : Command} (hop : cmd.op = .flushdb) : Changes c cmd := by
  refine changes_of_slot noon [] (Slot.lasting c (.string [])) ?_
  have hact : keyAct noon cmd [] ((Slot.lasting c (.string [])).view c noon.clock.now) =
      .flush := by
    simp only [keyAct, hop]
  rw [hact]
  intro heq
  cases congrArg Slot.user heq

theorem flushdb_agrees :
    SameStores c (callCommand .flushdb args) (requestCommand (handleFlushDB srv (name :: args))) ↔
      Verb.agrees srv.upper args .flushdb = true := by
  match args with
  | [] => exact iff_of_true (SameStores.of_ext fun _ _ _ => rfl) rfl
  | [mode] =>
    have hunfold : handleFlushDB srv [name, mode] =
        if toUpper srv.upper mode ≠ ascii "SYNC" ∧ toUpper srv.upper mode ≠ ascii "ASYNC" then
          refuse (ascii "ERR syntax error")
        else applyCommand srv { op := .flushdb } := rfl
    have hmode : Verb.agrees srv.upper [mode] .flushdb = true ↔
        (toUpper srv.upper mode = ascii "SYNC" ∨ toUpper srv.upper mode = ascii "ASYNC") := by
      show (decide _ || decide _) = true ↔ _
      simp only [Bool.or_eq_true, decide_eq_true_eq]
    rw [hunfold, hmode]
    by_cases hbad : toUpper srv.upper mode ≠ ascii "SYNC" ∧ toUpper srv.upper mode ≠ ascii "ASYNC"
    · rw [if_pos hbad]
      exact iff_of_false (changes_flushdb rfl).not_same (not_or.mpr hbad)
    · rw [if_neg hbad]
      refine iff_of_true (SameStores.of_ext fun _ _ _ => rfl) ?_
      rw [not_and_or, not_not, not_not] at hbad
      exact hbad
  | _ :: _ :: _ =>
    exact iff_of_false (changes_flushdb rfl).not_same Bool.false_ne_true

/-! ### Expiry -/

theorem ofInt_ne {a b : Int} (hne : a ≠ b) (hlt : (a - b).natAbs < 2 ^ 64) :
    UInt64.ofInt a ≠ UInt64.ofInt b := by
  intro h
  have hnat := congrArg UInt64.toNat h
  rw [toNat_ofInt, toNat_ofInt] at hnat
  omega

/-- Another duration shows in the expiry, at one instant or another. -/
theorem exists_expiry_ne {d : Int64} (hd : d ≠ 0) :
    ∃ env : Env, UInt64.ofInt (((env.clock.ttl : Int) + d.toInt) / 1000000000) ≠
      UInt64.ofInt (((env.clock.ttl : Int) + (0 : Int64).toInt) / 1000000000) := by
  have hne : d.toInt ≠ 0 := fun h => hd (Int64.toInt_inj.mp h)
  have hlow : -2 ^ 63 ≤ d.toInt := Int64.le_toInt d
  have hhigh : d.toInt < 2 ^ 63 := Int64.toInt_lt d
  have hzero : (0 : Int64).toInt = 0 := rfl
  by_cases hpos : 0 < d.toInt
  · -- the last nanosecond of a second
    refine ⟨Env.at 1999999999, ?_⟩
    have httl : ((Env.at 1999999999).clock.ttl : Int) = 1999999999 := rfl
    rw [httl, hzero]
    exact ofInt_ne (by omega) (by omega)
  · -- the first nanosecond of a second
    refine ⟨Env.at 2000000000, ?_⟩
    have httl : ((Env.at 2000000000).clock.ttl : Int) = 2000000000 := rfl
    rw [httl, hzero]
    exact ofInt_ne (by omega) (by omega)

/-- EXPIRE on a key that holds a string for good. -/
theorem onSlot_expire (env : Env) (ttlMs : Int64) :
    ((KeyAct.expire ttlMs).onSlot c env ⟨some (newEntry []), none⟩).user =
      some ⟨[], UInt64.ofInt (((env.clock.ttl : Int) + (ttlMs * 1000000).toInt) / 1000000000)⟩ :=
  rfl

theorem keyAct_expire {cmd : Command} (hop : cmd.op = .expire) (env : Env) (p : Value × UInt64) :
    keyAct env cmd cmd.key (some p) = .expire cmd.ttlMs := by
  have hmulti : cmd.op.multi = false := by rw [hop]; rfl
  rw [keyAct_of_single _ _ _ hmulti, if_pos rfl, plan, hop]
  rfl

/-- EXPIRE at once shows on a key that would not expire. -/
theorem changes_expire {cmd : Command} (hop : cmd.op = .expire) (httl : cmd.ttlMs = 0) :
    Changes c cmd := by
  refine changes_of_slot noon cmd.key ⟨some (newEntry []), none⟩ ?_
  have hview : (⟨some (newEntry []), none⟩ : Slot).view c noon.clock.now = some (.string [], 0) :=
    rfl
  rw [hview, keyAct_expire hop, httl]
  intro heq
  have huser := congrArg Slot.user heq
  rw [onSlot_expire] at huser
  have hexp := congrArg Entry.expiresAt (Option.some.inj huser)
  revert hexp
  decide

/-- EXPIRE at once and EXPIRE after some time agree when that time is nothing, as a 64-bit number of
nanoseconds. -/
theorem expire_same_iff {cmd cmd' : Command} (hop : cmd.op = .expire) (hop' : cmd'.op = .expire)
    (hkey : cmd'.key = cmd.key) (httl : cmd.ttlMs = 0) :
    SameStores c cmd (some cmd') ↔ cmd'.ttlMs * 1000000 = 0 := by
  have hact : ∀ env p, keyAct env cmd cmd.key (some p) = .expire 0 := fun env p =>
    (keyAct_expire hop env p).trans (by rw [httl])
  have hact' : ∀ env p, keyAct env cmd' cmd.key (some p) = .expire cmd'.ttlMs := by
    intro env p
    rw [← hkey]
    exact keyAct_expire hop' env p
  have hmulti : cmd.op.multi = false := by
    rw [hop]
    rfl
  have hmulti' : cmd'.op.multi = false := by
    rw [hop']
    rfl
  by_cases hzero : cmd'.ttlMs * 1000000 = 0
  · refine iff_of_true (SameStores.of_slots fun env k x s => ?_) hzero
    by_cases hk : cmd.key = k
    · subst hk
      cases x with
      | none =>
        rw [keyAct_of_single _ _ _ hmulti, keyAct_of_single _ _ _ hmulti', plan, plan, hop, hop',
          hkey]
        rfl
      | some p =>
        rw [hact, hact', KeyAct.onSlot, KeyAct.onSlot, hzero]
        rfl
    · have hk' : ¬ cmd'.key = k := by
        rw [hkey]
        exact hk
      rw [keyAct_of_single _ _ _ hmulti, keyAct_of_single _ _ _ hmulti', if_neg hk', if_neg hk]
  · refine iff_of_false ?_ hzero
    obtain ⟨env, henv⟩ := exists_expiry_ne hzero
    refine not_same_of_slot env cmd.key ⟨some (newEntry []), none⟩ ?_
    have hview : (⟨some (newEntry []), none⟩ : Slot).view c env.clock.now = some (.string [], 0) :=
      rfl
    rw [hview, hact, hact']
    intro heq
    have huser := congrArg Slot.user heq
    rw [onSlot_expire, onSlot_expire] at huser
    exact henv (congrArg Entry.expiresAt (Option.some.inj huser)).symm

/-- EXPIRE of a script takes no time from its arguments. -/
theorem expire_agrees :
    SameStores c (callCommand .expire args) (requestCommand (handleExpire srv (name :: args))) ↔
      Verb.agrees srv.upper args .expire = true := by
  by_cases hlen : args.length = 2
  · obtain ⟨key, secs, rfl⟩ := List.length_eq_two.mp hlen
    have hagrees : Verb.agrees srv.upper [key, secs] .expire =
        ((parseInt secs).2 && decide ((parseInt secs).1 * 1000 * 1000000 = 0)) := rfl
    rw [handleExpire_eq, hagrees]
    rcases parseInt secs with ⟨n, _ | _⟩
    · exact iff_of_false (changes_expire rfl rfl).not_same Bool.false_ne_true
    · rw [if_neg Bool.false_ne_true.symm, requestCommand_applyCommand, Bool.true_and,
        decide_eq_true_eq]
      exact expire_same_iff rfl rfl rfl rfl
  · have hreq : requestCommand (handleExpire srv (name :: args)) = none := by
      have hlen' : (name :: args).length ≠ 3 := by simpa using hlen
      rw [handleExpire, if_pos hlen']
      rfl
    rw [hreq]
    refine iff_of_false (changes_expire rfl rfl).not_same ?_
    rcases args with _ | ⟨key, _ | ⟨secs, _ | ⟨arg, rest⟩⟩⟩
    · exact Bool.false_ne_true
    · exact Bool.false_ne_true
    · exact absurd rfl hlen
    · exact Bool.false_ne_true

/-! ### Counters -/

/-- Without an argument to write nothing is written. -/
theorem inert_set {cmd : Command} (hop : cmd.op = .getset ∨ cmd.op = .append)
    (hargs : cmd.args = []) :
    Inert c cmd := by
  refine inert_of_error ?_ fun env x => ⟨.missingArgs cmd.op, ?_⟩
  · rcases hop with hop | hop <;> rw [hop] <;> rfl
  · have hplan : plan env cmd x = planSet env cmd x := by
      rcases hop with hop | hop <;> simp only [plan, hop]
    rw [hplan]
    simp only [planSet, hargs]

/-- APPEND and GETSET. -/
theorem append_agrees {op : Op} (hop : op = .getset ∨ op = .append) :
    SameStores c (callCommand op args) (requestCommand (handleFixed srv (name :: args) op 3 [2])) ↔
      args.length ≤ 2 := by
  match args with
  | [] =>
    rw [fixed_refused srv name [] (by decide)]
    exact iff_of_true (inert_set hop rfl).same (by decide)
  | [key] =>
    rw [fixed_refused srv name [key] (show 1 + 1 ≠ 3 by decide)]
    exact iff_of_true (inert_set hop rfl).same (show 1 ≤ 2 by decide)
  | [key, val] => exact iff_of_true (SameStores.of_ext fun _ _ _ => rfl) (show 2 ≤ 2 by decide)
  | key :: val :: a :: rest =>
    have hlen : (key :: val :: a :: rest).length = rest.length + 3 := rfl
    rw [fixed_refused srv name _ (by omega)]
    refine iff_of_false (changes_set (.inr hop) ?_ rfl).not_same (by omega)
    exact List.cons_ne_nil _ _

/-- A counter that is not there is created. -/
theorem changes_incr {cmd : Command} {n : Int64}
    (hop : cmd.op = .incr ∨ cmd.op = .decr ∨ cmd.op = .incrby ∨ cmd.op = .decrby)
    (hdelta : incrDelta cmd = .ok n) : Changes c cmd := by
  have hmulti : cmd.op.multi = false := by
    rcases hop with hop | hop | hop | hop <;> rw [hop] <;> rfl
  have hplan : plan noon cmd none = planIncr noon cmd none := by
    rcases hop with hop | hop | hop | hop <;> simp only [plan, hop]
  obtain ⟨r, v, ttlMs, hput⟩ : ∃ r v ttlMs, planIncr noon cmd none = .ok (r, .put v ttlMs) := by
    unfold planIncr
    rw [hdelta]
    exact ⟨_, _, _, rfl⟩
  have hact : keyAct noon cmd cmd.key none = .put v ttlMs := by
    rw [keyAct_of_single _ _ _ hmulti, if_pos rfl, hplan, hput]
  exact changes_of_create hact

/-- INCR and DECR. -/
theorem incr_agrees {op : Op} (hop : op = .incr ∨ op = .decr) :
    SameStores c (callCommand op args) (requestCommand (handleFixed srv (name :: args) op 2 [])) ↔
      args.length = 1 := by
  by_cases hlen : args.length = 1
  · obtain ⟨key, rfl⟩ := List.length_eq_one_iff.mp hlen
    exact iff_of_true (SameStores.of_ext fun _ _ _ => rfl) hlen
  · rw [fixed_refused srv name args (by omega)]
    have hop' : op = .incr ∨ op = .decr ∨ op = .incrby ∨ op = .decrby := by
      rcases hop with hop | hop
      · exact .inl hop
      · exact .inr (.inl hop)
    have hdelta : incrDelta (callCommand op args) = .ok 1 := by
      rcases hop with rfl | rfl <;> rfl
    exact iff_of_false (changes_incr hop' hdelta).not_same hlen

/-- A counter that gets no number stays. -/
theorem inert_incrby {cmd : Command} {e : Err} (hop : cmd.op = .incrby ∨ cmd.op = .decrby)
    (hdelta : incrDelta cmd = .error e) : Inert c cmd := by
  refine inert_of_error ?_ fun env x => ?_
  · rcases hop with hop | hop <;> rw [hop] <;> rfl
  · have hplan : plan env cmd x = planIncr env cmd x := by
      rcases hop with hop | hop <;> simp only [plan, hop]
    rw [hplan]
    unfold planIncr
    cases hval : counterOf x with
    | error e' => exact ⟨e', rfl⟩
    | ok val =>
      rw [hdelta]
      exact ⟨e, rfl⟩

theorem incrDelta_of_args {op : Op} (hop : op = .incrby ∨ op = .decrby) (key delta : Bytes)
    (rest : List Bytes) :
    incrDelta (callCommand op (key :: delta :: rest)) = parseInteger delta := by
  rcases hop with rfl | rfl <;> rfl

/-- INCRBY and DECRBY. -/
theorem incrby_agrees {op : Op} (hop : op = .incrby ∨ op = .decrby) :
    SameStores c (callCommand op args) (requestCommand (handleFixed srv (name :: args) op 3 [2])) ↔
      Verb.agrees srv.upper args .incrby = true := by
  match args with
  | [] =>
    rw [fixed_refused srv name [] (by decide)]
    have hdelta : incrDelta (callCommand op []) =
      .error .panic := by rcases hop with rfl | rfl <;> rfl
    exact iff_of_true (inert_incrby hop hdelta).same rfl
  | [key] =>
    rw [fixed_refused srv name [key] (show 1 + 1 ≠ 3 by decide)]
    have hdelta : incrDelta (callCommand op [key]) =
      .error .panic := by rcases hop with rfl | rfl <;> rfl
    exact iff_of_true (inert_incrby hop hdelta).same rfl
  | [key, delta] => exact iff_of_true (SameStores.of_ext fun _ _ _ => rfl) rfl
  | key :: delta :: a :: rest =>
    have hlen : (key :: delta :: a :: rest).length = rest.length + 3 := rfl
    rw [fixed_refused srv name _ (by omega)]
    have hdelta := incrDelta_of_args hop key delta (a :: rest)
    have hagrees : Verb.agrees srv.upper (key :: delta :: a :: rest) .incrby = !isInteger delta :=
      rfl
    unfold parseInteger at hdelta
    rw [hagrees, isInteger]
    cases hparse : parseInt delta with
    | mk n parsed =>
      rw [hparse] at hdelta
      cases parsed with
      | false => exact iff_of_true (inert_incrby hop hdelta).same rfl
      | true =>
        have hop' : op = .incr ∨ op = .decr ∨ op = .incrby ∨ op = .decrby := .inr (.inr hop)
        exact iff_of_false (changes_incr hop' hdelta).not_same Bool.false_ne_true

end Strings

end Badis
