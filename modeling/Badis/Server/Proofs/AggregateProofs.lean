import Badis.Server.Proofs.ReplyProofs
import Badis.Store.Log
import Badis.Store.Proofs.ActionProofs

/-!
# Stored aggregates are well formed

Where a key has both its entries, the bytes of a list, a hash or a set decode, and not to an empty
one (`Slot.WellFormed`). This says nothing about the time: the two entries expire separately, and an
entry that is gone is no longer there to contradict the other. Every command that a request can
build keeps it, because the handlers let no command through that would create an aggregate out of
nothing (`Command.Served`).
-/

namespace Badis

open Lib

/-! ## Values -/

/-- An aggregate is not empty, and its bytes decoded. -/
def Value.Full : Value → Prop
  | .string _ => True
  | .list l => l ≠ []
  | .hash h => h.entries ≠ []
  | .set s => s.entries ≠ []
  | .raw typ _ => isAggregate typ = false

/-- The bytes are those of an aggregate that is not empty, if the type is that of one. -/
structure StoredAs (c : Codec) (typ bytes : Bytes) : Prop where
  list : typ = typeList → ∃ l, c.decodeStrings bytes = some l ∧ l ≠ []
  hash : typ = typeHash → ∃ h, c.decodeMap bytes = some h ∧ h.entries ≠ []
  set : typ = typeSet → ∃ l, c.decodeStrings bytes = some l ∧ l ≠ [] ∧ l.Nodup

theorem storedAs_of_not_aggregate {c : Codec} {typ : Bytes} (bytes : Bytes)
    (h : isAggregate typ = false) :
    StoredAs c typ bytes := by
  refine ⟨?_, ?_, ?_⟩
  · rintro rfl
    exact absurd h (by decide)
  · rintro rfl
    exact absurd h (by decide)
  · rintro rfl
    exact absurd h (by decide)

/-- What a command writes is stored as it should be. -/
theorem storedAs_encode {c : Codec} (hc : c.Lawful) (env : Env) {v : Value} (hv : v.proper = true)
    (hfull : v.Full) : StoredAs c v.typ (v.encode c env) := by
  cases v with
  | string b => exact storedAs_of_not_aggregate _ (show isAggregate typeString = false by decide)
  | list l =>
    refine ⟨fun _ => ⟨l, hc.decodeStrings_encodeStrings l, hfull⟩, ?_, ?_⟩
    · intro h
      exact absurd h (show typeList ≠ typeHash by decide)
    · intro h
      exact absurd h (show typeList ≠ typeSet by decide)
  | hash h =>
    have hdec := hc.decodeMap_encodeMap h _ (rangeMap_perm env.encode h)
    refine ⟨?_, fun _ => ⟨h, hdec, hfull⟩, ?_⟩
    · intro h
      exact absurd h (show typeHash ≠ typeList by decide)
    · intro h
      exact absurd h (show typeHash ≠ typeSet by decide)
  | set s =>
    have hperm := env.members.perm s.keys
    refine ⟨?_, ?_, fun _ => ⟨_, hc.decodeStrings_encodeStrings _, ?_, ?_⟩⟩
    · intro h
      exact absurd h (show typeSet ≠ typeList by decide)
    · intro h
      exact absurd h (show typeSet ≠ typeHash by decide)
    · intro hnil
      rw [hnil] at hperm
      have hkeys : s.keys = [] := hperm.symm.eq_nil
      exact hfull (List.map_eq_nil_iff.mp hkeys)
    · exact hperm.nodup_iff.mpr (OrdMap.keys_nodup s)
  | raw typ b => cases hv

theorem entries_toSet_ne_nil {l : List Bytes} (h : l ≠ []) : (toSet l).entries ≠ [] := by
  obtain ⟨m, rest, rfl⟩ := List.exists_cons_of_ne_nil h
  have hget : (toSet (m :: rest)).get? m = some () := by
    rw [get?_toSet, if_pos List.mem_cons_self]
  exact OrdMap.entries_ne_nil hget

/-- What decodes to an aggregate that is not empty is one. -/
theorem full_decode {c : Codec} {typ bytes : Bytes} (h : StoredAs c typ bytes) :
    (Value.decode c typ bytes).Full := by
  unfold Value.decode
  split_ifs with hstring hlist hhash hset
  · trivial
  · obtain ⟨l, hdec, hne⟩ := h.list hlist
    rw [hdec]
    exact hne
  · obtain ⟨m, hdec, hne⟩ := h.hash hhash
    rw [hdec]
    exact hne
  · obtain ⟨l, hdec, hne, -⟩ := h.set hset
    rw [decodeSet, hdec]
    exact entries_toSet_ne_nil hne
  · simp [Value.Full, isAggregate, hlist, hhash, hset]

/-! ## Keys -/

/-- Where a key has both its entries, they fit. -/
def Slot.WellFormed (c : Codec) (s : Slot) : Prop :=
  ∀ u ty, s.user = some u → s.type = some ty → StoredAs c ty.value u.value

/-- The bytes of a visible key fit the type it has at that time. -/
theorem Slot.WellFormed.storedAs {c : Codec} {s : Slot} (h : s.WellFormed c) {t : Nat} {u : Entry}
    (hu : s.user = some u) : StoredAs c (s.typ t) u.value := by
  unfold Slot.typ
  split
  · exact storedAs_of_not_aggregate _ (by decide)
  · rename_i ty hty
    exact h u ty hu (Option.filter_eq_some_iff.mp hty).1

theorem Slot.WellFormed.full {c : Codec} {s : Slot} (h : s.WellFormed c) {t : Nat} {v : Value}
    {exp : UInt64} (hv : s.view c t = some (v, exp)) : v.Full := by
  unfold Slot.view at hv
  obtain ⟨u, hu, heq⟩ := Option.map_eq_some_iff.mp hv
  cases heq
  exact full_decode (h.storedAs (Option.filter_eq_some_iff.mp hu).1)

/-- An action keeps the entries fitting if what it writes is full. -/
theorem wellFormed_onSlot {c : Codec} (hc : c.Lawful) (env : Env) {act : KeyAct} {s : Slot}
    (hs : s.WellFormed c) (hput : ∀ v ttlMs, act = .put v ttlMs → v.proper = true ∧ v.Full) :
    (act.onSlot c env s).WellFormed c := by
  intro u ty hu hty
  cases act with
  | keep => exact hs u ty hu hty
  | put v ttlMs =>
    obtain ⟨hv, hfull⟩ := hput v ttlMs rfl
    have hstored := storedAs_encode hc env hv hfull
    rw [KeyAct.onSlot, withTTLMs_newEntry, withTTLMs_newEntry] at hu hty
    rw [← Option.some.inj hu, ← Option.some.inj hty]
    exact hstored
  | expire ttlMs =>
    rw [KeyAct.onSlot] at hu hty
    obtain ⟨e, he, heq⟩ := Option.map_eq_some_iff.mp hu
    -- the new expiry is left alone, so that it is not evaluated
    obtain ⟨exp, hexp⟩ : ∃ exp, (newEntry e.value).withTTL env.clock.ttl (ttlMs * 1000000) =
        ⟨e.value, exp⟩ := ⟨_, rfl⟩
    rw [← heq, hexp]
    exact hs e ty he hty
  | persist =>
    rw [KeyAct.onSlot] at hu hty
    obtain ⟨e, he, rfl⟩ := Option.map_eq_some_iff.mp hu
    have hstored : StoredAs c (s.typ env.clock.now) e.value := hs.storedAs he
    rw [← Option.some.inj hty]
    exact hstored
  | drop => cases hu
  | unset => cases hu
  | flush =>
    exact hs u ty (Option.filter_eq_some_iff.mp hu).1 (Option.filter_eq_some_iff.mp hty).1

/-! ## What the commands write -/

/-- The fields of a hash stay, and a pair of arguments adds one. -/
theorem hsetLoop_ne_nil (nx : Bool) {args : List Bytes} {hash : GoMap} (n : Nat)
    (h : hash.entries ≠ [] ∨ 2 ≤ args.length) : (hsetLoop nx args hash n).1.entries ≠ [] := by
  fun_induction hsetLoop nx args hash n with
  | case1 field val rest hash n ok hskip ih =>
    refine ih (.inl ?_)
    have hok : hash.contains field = true := (Bool.and_eq_true_iff.mp hskip).2
    obtain ⟨v, hv⟩ := Option.isSome_iff_exists.mp hok
    exact OrdMap.entries_ne_nil hv
  | case2 field val rest hash n ok hskip ih =>
    exact ih (.inl (OrdMap.entries_ne_nil (OrdMap.get?_insert_self hash field val)))
  | case3 args hash n hpair =>
    rcases h with h | h
    · exact h
    · match args, hpair, h with
      | field :: val :: rest, hpair, _ => exact absurd rfl (hpair field val rest)

/-- SADD leaves a member if there was one or it adds one. -/
theorem saddLoop_ne_nil {args : List Bytes} {set : GoSet} (n : Nat)
    (h : set.entries ≠ [] ∨ args ≠ []) :
    (saddLoop args set n).1.entries ≠ [] := by
  induction args generalizing set n with
  | nil =>
    rcases h with h | h
    · exact h
    · exact absurd rfl h
  | cons arg rest ih =>
    rw [saddLoop]
    split_ifs with hin
    · refine ih _ (.inl ?_)
      obtain ⟨v, hv⟩ := Option.isSome_iff_exists.mp hin
      exact OrdMap.entries_ne_nil hv
    · exact ih _ (.inl (OrdMap.entries_ne_nil (OrdMap.get?_insert_self set arg ())))

/-- A push leaves an element if there was one or it adds one. -/
theorem pushLoop_ne_nil (left : Bool) {args list : List Bytes} (h : list ≠ [] ∨ args ≠ []) :
    pushLoop left args list ≠ [] := by
  induction args generalizing list with
  | nil =>
    rcases h with h | h
    · exact h
    · exact absurd rfl h
  | cons arg rest ih =>
    refine ih (.inl ?_)
    cases left with
    | true => exact List.cons_ne_nil _ _
    | false => simp

section Plans

variable {env : Env} {cmd : Command} {x : View} {r : Result} {v : Value} {ttlMs : Int64}

/-- An empty list is not written but deleted. -/
theorem putList_full {list : List Bytes} {ttl : Int64} (h : putList list ttl = .put v ttlMs) :
    v.Full := by
  unfold putList at h
  split_ifs at h with hne
  cases h
  exact hne

theorem putSet_full {set : GoSet} {ttl : Int64} (h : putSet set ttl = .put v ttlMs) : v.Full := by
  unfold putSet at h
  split_ifs at h with hne
  cases h
  exact hne

/-- HSET writes a hash with a field in it, as its handler lets no command through that has none. -/
theorem planHSet_full (hargs : cmd.args ≠ []) (h : planHSet env cmd x = .ok (r, .put v ttlMs)) :
    v.Full := by
  unfold planHSet at h
  split_ifs at h with heven
  obtain ⟨old, -, h⟩ := except_bind_ok h
  cases h
  refine hsetLoop_ne_nil _ _ (.inr ?_)
  have hpos : 0 < cmd.args.length := List.length_pos_iff.mpr hargs
  omega

theorem planHDel_full (h : planHDel env cmd x = .ok (r, .put v ttlMs)) : v.Full := by
  obtain ⟨old, -, h⟩ := except_bind_ok h
  cases old with
  | none => cases h
  | some p =>
    have hact : (if (hdelLoop cmd.args p.1 0).1.entries = [] then KeyAct.drop
        else .put (.hash (hdelLoop cmd.args p.1 0).1) p.2) = .put v ttlMs :=
      congrArg Prod.snd (Except.ok.inj h)
    split_ifs at hact with hne
    cases hact
    exact hne

theorem planPush_full (hargs : cmd.args ≠ []) (h : planPush env cmd x = .ok (r, .put v ttlMs)) :
    v.Full := by
  obtain ⟨old, -, h⟩ := except_bind_ok h
  split_ifs at h
  · cases h
  · cases h
    exact pushLoop_ne_nil _ (.inr hargs)

theorem planPop_full (h : planPop env cmd x = .ok (r, .put v ttlMs)) : v.Full := by
  obtain ⟨old, -, h⟩ := except_bind_ok h
  dsimp only at h
  split_ifs at h
  · cases h
  · obtain ⟨count, -, h⟩ := except_bind_ok h
    exact putList_full (congrArg Prod.snd (Except.ok.inj h))

theorem planLTrim_full (h : planLTrim env cmd x = .ok (r, .put v ttlMs)) : v.Full := by
  obtain ⟨old, -, h⟩ := except_bind_ok h
  obtain ⟨start, -, h⟩ := except_bind_ok h
  obtain ⟨stop, -, h⟩ := except_bind_ok h
  exact putList_full (congrArg Prod.snd (Except.ok.inj h))

theorem planLRem_full (h : planLRem env cmd x = .ok (r, .put v ttlMs)) : v.Full := by
  obtain ⟨old, -, h⟩ := except_bind_ok h
  obtain ⟨limit, -, h⟩ := except_bind_ok h
  obtain ⟨needle, -, h⟩ := except_bind_ok h
  exact putList_full (congrArg Prod.snd (Except.ok.inj h))

theorem planSAdd_full (hargs : cmd.args ≠ []) (h : planSAdd env cmd x = .ok (r, .put v ttlMs)) :
    v.Full := by
  obtain ⟨old, -, h⟩ := except_bind_ok h
  cases h
  exact saddLoop_ne_nil _ (.inr hargs)

theorem planSRem_full (h : planSRem env cmd x = .ok (r, .put v ttlMs)) : v.Full := by
  obtain ⟨old, -, h⟩ := except_bind_ok h
  cases old with
  | none => cases h
  | some p =>
    dsimp only at h
    split_ifs at h
    · exact putSet_full (congrArg Prod.snd (Except.ok.inj h))
    · exact putSet_full (congrArg Prod.snd (Except.ok.inj h))

/-- A string is always full. -/
theorem full_of_typ_string (hv : v.typ = typeString) : v.Full := by
  cases v with
  | string b => trivial
  | list l => exact absurd hv (show typeList ≠ typeString by decide)
  | hash h => exact absurd hv (show typeHash ≠ typeString by decide)
  | set s => exact absurd hv (show typeSet ≠ typeString by decide)
  | raw typ b =>
    have htyp : typ = typeString := hv
    rw [Value.Full, htyp]
    decide

/-- What a served command writes is full. -/
theorem plan_full (hserved : cmd.Served) (h : plan env cmd x = .ok (r, .put v ttlMs)) : v.Full := by
  have hstring : typeWritten cmd cmd.key = some typeString → v.Full := by
    intro hw
    cases plan_acts h with
    | put v hv htyp hold =>
      rw [hw] at htyp
      exact full_of_typ_string (Option.some.inj htyp).symm
  unfold Command.Served at hserved
  unfold plan at h
  cases hop : cmd.op <;> rw [hop] at h hserved
  case set | getset | append => exact hstring (by simp [typeWritten, hop])
  case incr | decr | incrby | decrby => exact hstring (by simp [typeWritten, hop])
  case expire => cases x <;> cases h
  case persist =>
    have hpersist : planPersist x = .ok (r, .put v ttlMs) := h
    unfold planPersist at hpersist
    split at hpersist
    · cases hpersist
    · split_ifs at hpersist <;> cases hpersist
  case hset => exact planHSet_full hserved h
  case hsetnx => exact planHSet_full (List.length_pos_iff.mp (hserved ▸ by decide)) h
  case hdel => exact planHDel_full h
  case lpush | rpush | lpushx | rpushx => exact planPush_full hserved h
  case lpop | rpop => exact planPop_full h
  case ltrim => exact planLTrim_full h
  case lrem => exact planLRem_full h
  case sadd => exact planSAdd_full hserved h
  case srem | spop => exact planSRem_full h
  all_goals cases h

/-- A command that a handler lets through writes no empty aggregate. -/
theorem keyAct_full {k : Bytes} (hserved : cmd.Served) (h : keyAct env cmd k x = .put v ttlMs) :
    v.proper = true ∧ v.Full := by
  have hacts := keyAct_acts env cmd k x
  rw [h] at hacts
  have hproper : v.proper = true := by
    cases hacts with
    | put v hv htyp hold => exact hv
  refine ⟨hproper, ?_⟩
  cases hmulti : cmd.op.multi with
  | false =>
    rw [keyAct_of_single _ _ _ hmulti] at h
    split_ifs at h
    cases hplan : plan env cmd x with
    | error e =>
      rw [hplan] at h
      cases h
    | ok p =>
      obtain ⟨r, act⟩ := p
      rw [hplan] at h
      change act = .put v ttlMs at h
      subst h
      exact plan_full hserved hplan
  | true =>
    -- of the commands on several keys only MSET writes, and it writes strings
    unfold keyAct at h
    split at h
    · split_ifs at h
      split at h
      · cases h
      · cases h
        trivial
    · split_ifs at h
    · cases h
    · rename_i hmset hdel hflush
      cases hop : cmd.op <;> simp_all [Op.multi]

end Plans

/-! ## Runs -/

/-- Some request has this command applied, and it is not a script. -/
def Command.Requested (cmd : Command) : Prop :=
  cmd.op.script = false ∧
    ∃ srv views conn args reply, serveRESP srv views conn args = .ok (.apply cmd reply)

theorem Command.Requested.served {cmd : Command} (h : cmd.Requested) : cmd.Served := by
  obtain ⟨hscript, srv, views, conn, args, reply, hserve⟩ := h
  have hsound : ∀ {Q : Command → Prop} {r : Except Err Action}, Returns r (Action.Builds Q) →
      r = .ok (.apply cmd reply) → Q cmd := by
    rintro Q r ⟨a, ha, hbuilds⟩ hr
    rw [ha] at hr
    cases hr
    exact hbuilds.1
  cases args with
  | nil => cases hserve
  | cons name rest =>
    cases hverb : srv.verb? name with
    | none =>
      rw [serveRESP_of_unknown srv views conn name rest hverb] at hserve
      cases hserve
    | some verb =>
      rw [serveRESP_of_verb srv views conn name rest hverb] at hserve
      by_cases heval : verb = .eval
      · subst heval
        have hop := hsound (handleScriptCall_builds srv (name :: rest) .eval (ascii "eval")) hserve
        rw [hop] at hscript
        cases hscript
      by_cases hevalsha : verb = .evalsha
      · subst hevalsha
        have hop :=
          hsound (handleScriptCall_builds srv (name :: rest) .evalsha (ascii "evalsha")) hserve
        rw [hop] at hscript
        cases hscript
      by_cases hmis : verb = .smismember
      · subst hmis
        obtain ⟨a, ha, ws, rfl, -⟩ := handleSMIsMember_returns srv views (name :: rest)
        change handleSMIsMember srv views (name :: rest) = _ at hserve
        rw [ha] at hserve
        cases hserve
      by_cases hrand : verb = .srandmember
      · subst hrand
        by_cases hasks : AsksTooMany srv views (name :: rest)
        · change handleSRandMember srv views (name :: rest) = _ at hserve
          rw [handleSRandMember_panic srv views (name :: rest) hasks] at hserve
          cases hserve
        · exact hsound (handleSRandMember_sound srv views (name :: rest) hasks) hserve
      · exact hsound (handler_sound srv views (name :: rest) conn ⟨heval, hevalsha⟩ ⟨hrand, hmis⟩)
          hserve

/-- Every key is well formed. -/
def DB.WellFormed (c : Codec) (db : DB) : Prop := ∀ k, (Slot.of db k).WellFormed c

/-- Such a command keeps the database well formed. -/
theorem wellFormed_applyCmd {c : Codec} (hc : c.Lawful) (env : Env) {cmd : Command}
    (hserved : cmd.Served) {db : DB} (h : DB.WellFormed c db) :
    DB.WellFormed c (applyCmd c env cmd db).2 := by
  intro k
  rw [slot_applyCmd]
  exact wellFormed_onSlot hc env (h k) fun v ttlMs hact => keyAct_full hserved hact

/-- So does a log of commands of requests. -/
theorem wellFormed_applyLog {c : Codec} (hc : c.Lawful) {steps : List Step} {db : DB}
    (hreq : ∀ s ∈ steps, s.2.Requested) (h : DB.WellFormed c db) :
    DB.WellFormed c (applyLog c steps db).2 := by
  induction steps generalizing db with
  | nil => exact h
  | cons s rest ih =>
    obtain ⟨env, cmd⟩ := s
    have hserved : cmd.Served := (hreq _ List.mem_cons_self).served
    exact ih (fun s hs => hreq s (List.mem_cons_of_mem _ hs)) (wellFormed_applyCmd hc env hserved h)

/-! ## Nothing fails on decoding -/

/-- The FSM reads of hashes, lists and sets. -/
inductive AggregateRead (c : Codec) (t : Nat) (key : Bytes) : {α : Type} → Tx α → Prop where
  | hGet (field : Bytes) : AggregateRead c t key (hGet c t key field)
  | hGetAll : AggregateRead c t key (hGetAll c t key)
  | hLen : AggregateRead c t key (hLen c t key)
  | hExists (field : Bytes) : AggregateRead c t key (hExists c t key field)
  | hMGet (fields : List Bytes) : AggregateRead c t key (hMGet c t key fields)
  | hKeys (order : RangeOrder) : AggregateRead c t key (hKeys c t key order)
  | hVals (order : RangeOrder) : AggregateRead c t key (hVals c t key order)
  | lRange (start stop : Int) : AggregateRead c t key (lRange c t key start stop)
  | lLen : AggregateRead c t key (lLen c t key)
  | lIndex (index : Int) : AggregateRead c t key (lIndex c t key index)
  | sMembers : AggregateRead c t key (sMembers c t key)
  | sCard : AggregateRead c t key (sCard c t key)
  | sRandMember (count : Option Int64) : AggregateRead c t key (sRandMember c t key count)
  | sIsMember (member : Bytes) : AggregateRead c t key (sIsMember c t key member)

/-- The run does not fail on decoding. -/
def Decodes {α : Type} (m : Tx α) (db : DB) : Prop := (m.run db).1 ≠ .error .decode

/-- A read that decodes, with nothing after it that could fail to. -/
theorem Decodes.bind {α β : Type} {m : Tx α} {f : α → Tx β} {db : DB} (hm : Decodes m db)
    (hf : ∀ a, Txn.Raises (fun e => e ≠ Err.decode) (f a)) : Decodes (m >>= f) db := by
  unfold Decodes at hm ⊢
  rw [Txn.run_bind]
  revert hm
  generalize m.run db = out
  obtain ⟨r, db'⟩ := out
  intro hm h
  cases r with
  | ok a => exact hf a db' _ h rfl
  | error e =>
    cases h
    exact hm rfl

theorem goIndex_error {α : Type} {l : List α} {i : Int} {e : Err} (h : goIndex l i = .error e) :
    e = .panic := by
  unfold goIndex Slice.index at h
  split_ifs at h
  · split at h
    · cases h
    · cases h
      rfl
  · cases h
    rfl

section Reads

variable {c : Codec} {db : DB} (h : DB.WellFormed c db) (t : Nat) (key : Bytes)

include h

/-- In a well-formed database the bytes of a type decode. -/
theorem readAs_decodes {α : Type} {want : Bytes} {decode : Bytes → Option α}
    (hdec : ∀ bytes, StoredAs c want bytes → decode bytes ≠ none) :
    Decodes (readAs t key want decode) db := by
  unfold Decodes
  rw [readAs_run]
  cases hget : (db.get? (userKey key)).filter (Entry.live t) with
  | none =>
    intro herr
    cases herr
  | some item =>
    dsimp only
    split_ifs with htyp
    · have hstored := (h key).storedAs (t := t) (Option.filter_eq_some_iff.mp hget).1
      rw [htyp] at hstored
      cases hval : decode item.value with
      | none => exact absurd hval (hdec _ hstored)
      | some a =>
        intro herr
        cases herr
    · intro herr
      cases herr

theorem readList_decodes : Decodes (readAs t key typeList c.decodeStrings) db := by
  refine readAs_decodes h t key fun bytes hstored => ?_
  obtain ⟨l, hdec, -⟩ := hstored.list rfl
  rw [hdec]
  exact Option.some_ne_none l

theorem readHash_decodes : Decodes (readAs t key typeHash c.decodeMap) db := by
  refine readAs_decodes h t key fun bytes hstored => ?_
  obtain ⟨m, hdec, -⟩ := hstored.hash rfl
  rw [hdec]
  exact Option.some_ne_none m

theorem readSet_decodes : Decodes (readAs t key typeSet c.decodeStrings) db := by
  refine readAs_decodes h t key fun bytes hstored => ?_
  obtain ⟨l, hdec, -⟩ := hstored.set rfl
  rw [hdec]
  exact Option.some_ne_none l

/-- Every read of an aggregate decodes what it finds. -/
theorem aggregateRead_decodes {α : Type} {m : Tx α} (hm : AggregateRead c t key m) :
    Decodes m db := by
  have hhash : Decodes (hGetAll c t key) db :=
    (readHash_decodes h t key).bind fun _ => Txn.raises_pure _
  have hset : Decodes (sMembers c t key) db :=
    (readSet_decodes h t key).bind fun _ => Txn.raises_pure _
  have hlist : ∀ start stop, Decodes (lRange c t key start stop) db := by
    intro start stop
    refine (readList_decodes h t key).bind fun list => ?_
    rw [sliceListChecked_eq]
    exact Txn.raises_pure _
  cases hm with
  | hGet field => exact (readHash_decodes h t key).bind fun _ => Txn.raises_pure _
  | hGetAll => exact hhash
  | hLen => exact hhash.bind fun _ => Txn.raises_pure _
  | hExists field => exact hhash.bind fun _ => Txn.raises_pure _
  | hMGet fields => exact hhash.bind fun _ => Txn.raises_pure _
  | hKeys order => exact hhash.bind fun _ => Txn.raises_pure _
  | hVals order => exact hhash.bind fun _ => Txn.raises_pure _
  | lRange start stop => exact hlist start stop
  | lLen => exact (hlist 0 (-1)).bind fun _ => Txn.raises_pure _
  | lIndex index =>
    refine (hlist 0 (-1)).bind fun list => ?_
    dsimp only
    generalize (if index < 0 then (list.length : Int) + index else index) = i
    split_ifs
    · exact Txn.raises_pure _
    · refine Txn.Raises.bind (Txn.raises_lift fun e he => ?_) fun _ => Txn.raises_pure _
      rw [goIndex_error he]
      decide
  | sMembers => exact hset
  | sCard => exact hset.bind fun _ => Txn.raises_pure _
  | sRandMember count =>
    refine hset.bind fun members => ?_
    cases count with
    | none => exact Txn.raises_pure _
    | some count =>
      dsimp only
      split_ifs with hneg hempty
      · exact Txn.raises_pure _
      · refine Txn.raises_lift fun e he => ?_
        rw [repeatMembers_error (fun hnil => hempty (by rw [hnil]; rfl)) he]
        decide
      · exact Txn.raises_pure _
      · refine Txn.raises_lift fun e he => ?_
        unfold Slice.slice at he
        split_ifs at he
        cases he
        decide
  | sIsMember member => exact (readSet_decodes h t key).bind fun _ => Txn.raises_pure _

end Reads

/-- Stored aggregates are well formed, and nothing fails on decoding: after any run of commands that
requests build. -/
theorem stored_aggregates_wellFormed {c : Codec} (hc : c.Lawful) {steps : List Step}
    (hreq : ∀ s ∈ steps, s.2.Requested) :
    let db := (applyLog c steps OrdMap.empty).2
    (∀ t k u ty, db.getLive t (userKey k) = some u → db.getLive t (typeKey k) = some ty →
      StoredAs c ty.value u.value) ∧
    (∀ t k v exp, DB.view c t db k = some (v, exp) → v.Full) ∧
    (∀ env cmd, (applyCmd c env cmd db).1 ≠ .error .decode) ∧
    (∀ t k α (m : Tx α), AggregateRead c t k m → (m.run db).1 ≠ .error .decode) := by
  intro db
  have hwf : DB.WellFormed c db := by
    refine wellFormed_applyLog hc hreq ?_
    intro k u ty hu
    cases hu
  refine ⟨?_, ?_, ?_, ?_⟩
  · intro t k u ty hu hty
    exact hwf k u ty (Option.filter_eq_some_iff.mp hu).1 (Option.filter_eq_some_iff.mp hty).1
  · intro t k v exp hv
    exact (hwf k).full hv
  · intro env cmd herr
    cases applyCmd_error herr with
    | decode typ bytes exp hx htyp =>
      have hfull : isAggregate typ = false := (hwf cmd.key).full hx
      rw [htyp] at hfull
      cases hfull
  · intro t k α m hm
    exact aggregateRead_decodes hwf t k hm

/-- A run of two requests, `SADD s a b` and `SPOP s`. -/
def addAndPop : List Step :=
  [(Env.at 1000000000000, { op := .sadd, key := ascii "s", args := [ascii "a", ascii "b"] }),
    (Env.at 1000000000000, { op := .spop, key := ascii "s" })]

/-- After them no read of a set fails on decoding, and there still is a member. -/
theorem addAndPop_decodes :
    let db := (applyLog msgpack addAndPop OrdMap.empty).2
    ((sMembers msgpack 1000000000000 (ascii "s")).run db).1 = .ok [ascii "b"] ∧
      ∀ t k, ((sMembers msgpack t k).run db).1 ≠ .error .decode := by
  refine ⟨by decide, fun t k => ?_⟩
  have hreq : ∀ s ∈ addAndPop, s.2.Requested := by
    intro s hs
    rcases List.mem_pair.mp hs with rfl | rfl
    · exact ⟨rfl, asciiServer, viewOf OrdMap.empty, newConn,
        [ascii "SADD", ascii "s", ascii "a", ascii "b"], _, rfl⟩
    · exact ⟨rfl, asciiServer, viewOf OrdMap.empty, newConn, [ascii "SPOP", ascii "s"], _, rfl⟩
  exact (stored_aggregates_wellFormed msgpack_lawful hreq).2.2.2 t k _ _ .sMembers

end Badis
