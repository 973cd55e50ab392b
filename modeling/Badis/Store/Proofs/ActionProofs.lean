import Badis.Store.Proofs.ViewProofs

/-!
# What a command can do to a key

`keyAct_acts` lists everything a command can do to a key, with its guards: the invariants of the
store are case analyses over it, and never look into the commands again.
-/

namespace Badis

open Lib

/-- The actions of a command on the key `k` that holds `x`. -/
inductive Acts (env : Env) (cmd : Command) (k : Bytes) (x : View) : KeyAct → Prop where
  | keep : Acts env cmd k x .keep
  | put (v : Value) (hv : v.proper = true) (htyp : typeWritten cmd k = some v.typ)
      (hold : ∀ p, x = some p → cmd.op ≠ .mset → p.1.typ = v.typ) :
      Acts env cmd k x (.put v (ttlWritten env cmd x))
  | expire (hop : cmd.op = .expire) (hk : cmd.key = k) (hx : x.isSome) :
      Acts env cmd k x (.expire cmd.ttlMs)
  | persist (hop : cmd.op = .persist) (hk : cmd.key = k) (p : Value × UInt64) (hx : x = some p)
      (hexp : p.2 ≠ 0) : Acts env cmd k x .persist
  | drop (hop : cmd.op = .del ∨ ∃ typ, typeWritten cmd k = some typ ∧ typ ≠ typeString ∧
      ∀ p, x = some p → p.1.typ = typ) : Acts env cmd k x .drop
  | unset (hop : cmd.op = .del) : Acts env cmd k x .unset
  | flush (hop : cmd.op = .flushdb) : Acts env cmd k x .flush

section Plans

variable {env : Env} {cmd : Command} {x : View} {r : Result} {act : KeyAct}

/-- Reading a view as one type fails, finds nothing, or finds a value of that type. -/
theorem readView_cases {α : Type} {as : Value → Except Err α} {old : Option (α × Int64)}
    (h : readView env as x = .ok old) :
    (x = none ∧ old = none) ∨
    (∃ v exp a, x = some (v, exp) ∧ as v = .ok a ∧ old = some (a, remainingTTLMs env exp)) := by
  cases x with
  | none =>
    cases h
    exact Or.inl ⟨rfl, rfl⟩
  | some p =>
    obtain ⟨v, exp⟩ := p
    simp only [readView] at h
    cases hv : as v with
    | error e => rw [hv] at h; cases h
    | ok a =>
      rw [hv] at h
      cases h
      exact Or.inr ⟨v, exp, a, rfl, hv, rfl⟩

theorem typ_of_asList {v : Value} {l : List Bytes} (h : v.asList = .ok l) : v = .list l := by
  cases v <;> cases h
  rfl

theorem typ_of_asHash {v : Value} {m : GoMap} (h : v.asHash = .ok m) : v = .hash m := by
  cases v <;> cases h
  rfl

theorem typ_of_asSet {v : Value} {m : GoSet} (h : v.asSet = .ok m) : v = .set m := by
  cases v <;> cases h
  rfl

/-- A value written back after the key was read as its type, with the remaining time found. -/
theorem Acts.put_of_read {α : Type} {as : Value → Except Err α} {old : Option (α × Int64)} {d : α}
    {v : Value} (hread : readView env as x = .ok old) (hv : v.proper = true)
    (has : ∀ w a, as w = .ok a → w.typ = v.typ) (hw : typeWritten cmd cmd.key = some v.typ)
    (httl : ttlWritten env cmd x = oldTTLMs env x) :
    Acts env cmd cmd.key x (.put v (old.getD (d, 0)).2) := by
  rcases readView_cases hread with ⟨rfl, rfl⟩ | ⟨w, exp, a, rfl, hw', rfl⟩
  · have : (0 : Int64) = ttlWritten env cmd none := httl.symm
    rw [Option.getD_none, this]
    exact Acts.put v hv hw fun p hp => by cases hp
  · have : remainingTTLMs env exp = ttlWritten env cmd (some (w, exp)) := httl.symm
    rw [Option.getD_some, this]
    refine Acts.put v hv hw fun p hp _ => ?_
    cases hp
    exact has w a hw'

/-- A key deleted after it was read as its type. -/
theorem Acts.drop_of_read {α : Type} {as : Value → Except Err α} {old : Option (α × Int64)}
    (hread : readView env as x = .ok old) (typ : Bytes) (htyp : typ ≠ typeString)
    (has : ∀ w a, as w = .ok a → w.typ = typ) (hw : typeWritten cmd cmd.key = some typ) :
    Acts env cmd cmd.key x .drop := by
  refine Acts.drop (Or.inr ⟨typ, hw, htyp, fun p hp => ?_⟩)
  rcases readView_cases hread with ⟨hnone, -⟩ | ⟨w, exp, a, hsome, hw', -⟩
  · rw [hnone] at hp
    cases hp
  · rw [hsome] at hp
    cases hp
    exact has w a hw'

/-- SET, GETSET and APPEND write a string, with the expiry that `ttlWritten` gives. -/
theorem planSet_acts (hop : cmd.op = .set ∨ cmd.op = .getset ∨ cmd.op = .append)
    (h : planSet env cmd x = .ok (r, act)) : Acts env cmd cmd.key x act := by
  have hw : typeWritten cmd cmd.key = some typeString := by
    rcases hop with hop | hop | hop <;> simp [typeWritten, hop]
  have hplan : ∀ arg item, (item = none ∧ x = none ∨ ∃ b exp, item = some ⟨b, exp⟩ ∧
      x = some (.string b, exp)) → (setPlan env cmd arg item).2 = act →
      Acts env cmd cmd.key x act := by
    intro arg item hitem hact
    simp only [setPlan] at hact
    split_ifs at hact
    · have httl : setTTLMs env cmd item = ttlWritten env cmd x := by
        rcases hitem with ⟨rfl, rfl⟩ | ⟨b, exp, rfl, rfl⟩ <;> rcases hop with hop | hop | hop <;>
          simp [setTTLMs, ttlWritten, hop, oldTTLMs]
      rw [← hact, httl]
      refine Acts.put _ rfl hw fun p hp _ => ?_
      rcases hitem with ⟨-, hx⟩ | ⟨b, exp, -, hx⟩
      · rw [hx] at hp; cases hp
      · rw [hx] at hp; cases hp; rfl
    · rw [← hact]
      exact Acts.keep
  unfold planSet at h
  split at h
  · cases h
  · cases h
    exact hplan _ none (Or.inl ⟨rfl, rfl⟩) rfl
  · cases h
    exact hplan _ _ (Or.inr ⟨_, _, rfl, rfl⟩) rfl
  · cases h

theorem planIncr_acts (hop : cmd.op = .incr ∨ cmd.op = .decr ∨ cmd.op = .incrby ∨ cmd.op = .decrby)
    (h : planIncr env cmd x = .ok (r, act)) : Acts env cmd cmd.key x act := by
  have hw : typeWritten cmd cmd.key = some typeString := by
    rcases hop with hop | hop | hop | hop <;> simp [typeWritten, hop]
  have httl : oldTTLMs env x = ttlWritten env cmd x := by
    rcases hop with hop | hop | hop | hop <;> simp [ttlWritten, hop]
  unfold planIncr at h
  cases hval : counterOf x with
  | error e => rw [hval] at h; cases h
  | ok val =>
    cases hdelta : incrDelta cmd with
    | error e => rw [hval, hdelta] at h; cases h
    | ok delta =>
      rw [hval, hdelta] at h
      cases h
      rw [httl]
      refine Acts.put _ rfl hw fun p hp _ => ?_
      subst hp
      obtain ⟨v, exp⟩ := p
      cases v <;> first | rfl | cases hval

/-- EXPIRE changes the expiry and nothing else. -/
theorem planExpire_acts (hop : cmd.op = .expire) (h : planExpire cmd x = .ok (r, act)) :
    Acts env cmd cmd.key x act := by
  cases x with
  | none => cases h; exact Acts.keep
  | some p => cases h; exact Acts.expire hop rfl rfl

theorem planPersist_acts (hop : cmd.op = .persist) (h : planPersist x = .ok (r, act)) :
    Acts env cmd cmd.key x act := by
  cases x with
  | none => cases h; exact Acts.keep
  | some p =>
    simp only [planPersist] at h
    split_ifs at h with hexp
    · cases h; exact Acts.keep
    · cases h; exact Acts.persist hop rfl p rfl hexp

theorem planHSet_acts (hop : cmd.op = .hset ∨ cmd.op = .hsetnx)
    (h : planHSet env cmd x = .ok (r, act)) : Acts env cmd cmd.key x act := by
  unfold planHSet at h
  split_ifs at h
  cases hread : readView env Value.asHash x with
  | error e => rw [hread] at h; cases h
  | ok old =>
    rw [hread] at h
    cases h
    refine Acts.put_of_read hread rfl (fun w a hw => by rw [typ_of_asHash hw]; rfl) ?_ ?_
    · rcases hop with hop | hop <;> simp [typeWritten, hop, Value.typ]
    · rcases hop with hop | hop <;> simp [ttlWritten, hop]

theorem planHDel_acts (hop : cmd.op = .hdel)
    (h : planHDel env cmd x = .ok (r, act)) : Acts env cmd cmd.key x act := by
  unfold planHDel at h
  cases hread : readView env Value.asHash x with
  | error e => rw [hread] at h; cases h
  | ok old =>
    rw [hread] at h
    cases old with
    | none => cases h; exact Acts.keep
    | some p =>
      cases h
      split_ifs
      · exact Acts.drop_of_read hread typeHash (by decide)
          (fun w a hw => by rw [typ_of_asHash hw]; rfl) (by simp [typeWritten, hop])
      · refine Acts.put_of_read (d := OrdMap.empty) hread rfl
          (fun w a hw => by rw [typ_of_asHash hw]; rfl) ?_ ?_
        · simp [typeWritten, hop, Value.typ]
        · simp [ttlWritten, hop]

/-- Writing a list back, or deleting the emptied key. -/
theorem Acts.putList_of_read {old : Option (List Bytes × Int64)} {list : List Bytes}
    (hread : readView env Value.asList x = .ok old) (hw : typeWritten cmd cmd.key = some typeList)
    (httl : ttlWritten env cmd x = oldTTLMs env x) :
    Acts env cmd cmd.key x (putList list (old.getD ([], 0)).2) := by
  unfold putList
  split_ifs
  · exact Acts.drop_of_read hread typeList (by decide)
      (fun w a hw => by rw [typ_of_asList hw]; rfl) hw
  · exact Acts.put_of_read hread rfl (fun w a hw => by rw [typ_of_asList hw]; rfl) hw httl

theorem planPush_acts
    (hop : cmd.op = .lpush ∨ cmd.op = .rpush ∨ cmd.op = .lpushx ∨ cmd.op = .rpushx)
    (h : planPush env cmd x = .ok (r, act)) : Acts env cmd cmd.key x act := by
  unfold planPush at h
  cases hread : readView env Value.asList x with
  | error e => rw [hread] at h; cases h
  | ok old =>
    rw [hread] at h
    simp only [bind, Except.bind] at h
    split_ifs at h
    · cases h; exact Acts.keep
    · cases h
      refine Acts.put_of_read hread rfl (fun w a hw => by rw [typ_of_asList hw]; rfl) ?_ ?_
      · rcases hop with hop | hop | hop | hop <;> simp [typeWritten, hop, Value.typ]
      · rcases hop with hop | hop | hop | hop <;> simp [ttlWritten, hop]

/-- The pops write the rest of the list back, or delete the key. -/
theorem planPop_acts (hop : cmd.op = .lpop ∨ cmd.op = .rpop)
    (h : planPop env cmd x = .ok (r, act)) : Acts env cmd cmd.key x act := by
  have hw : typeWritten cmd cmd.key = some typeList := by
    rcases hop with hop | hop <;> simp [typeWritten, hop]
  have httl : ttlWritten env cmd x = oldTTLMs env x := by
    rcases hop with hop | hop <;> simp [ttlWritten, hop]
  unfold planPop at h
  cases hread : readView env Value.asList x with
  | error e => rw [hread] at h; cases h
  | ok old =>
    rw [hread] at h
    simp only [bind, Except.bind] at h
    split_ifs at h
    · cases h; exact Acts.keep
    · cases hcount : popCount cmd with
      | error e => rw [hcount] at h; cases h
      | ok count =>
        rw [hcount] at h
        cases h
        exact Acts.putList_of_read hread hw httl

theorem planLTrim_acts (hop : cmd.op = .ltrim)
    (h : planLTrim env cmd x = .ok (r, act)) : Acts env cmd cmd.key x act := by
  unfold planLTrim at h
  cases hread : readView env Value.asList x with
  | error e => rw [hread] at h; cases h
  | ok old =>
    cases h0 : cmd.arg 0 with
    | error e => rw [hread, h0] at h; cases h
    | ok start =>
      cases h1 : cmd.arg 1 with
      | error e => rw [hread, h0, h1] at h; cases h
      | ok stop =>
        rw [hread, h0, h1] at h
        cases h
        exact Acts.putList_of_read hread (by simp [typeWritten, hop]) (by simp [ttlWritten, hop])

theorem planLRem_acts (hop : cmd.op = .lrem)
    (h : planLRem env cmd x = .ok (r, act)) : Acts env cmd cmd.key x act := by
  unfold planLRem at h
  cases hread : readView env Value.asList x with
  | error e => rw [hread] at h; cases h
  | ok old =>
    cases h0 : cmd.arg 0 with
    | error e => rw [hread, h0] at h; cases h
    | ok limit =>
      cases h1 : cmd.arg 1 with
      | error e => rw [hread, h0, h1] at h; cases h
      | ok needle =>
        rw [hread, h0, h1] at h
        cases h
        exact Acts.putList_of_read hread (by simp [typeWritten, hop]) (by simp [ttlWritten, hop])

theorem planSAdd_acts (hop : cmd.op = .sadd)
    (h : planSAdd env cmd x = .ok (r, act)) : Acts env cmd cmd.key x act := by
  unfold planSAdd at h
  cases hread : readView env Value.asSet x with
  | error e => rw [hread] at h; cases h
  | ok old =>
    rw [hread] at h
    cases h
    refine Acts.put_of_read hread rfl (fun w a hw => by rw [typ_of_asSet hw]; rfl) ?_ ?_
    · simp [typeWritten, hop, Value.typ]
    · simp [ttlWritten, hop]

theorem planSRem_acts (hop : cmd.op = .srem ∨ cmd.op = .spop)
    (h : planSRem env cmd x = .ok (r, act)) : Acts env cmd cmd.key x act := by
  unfold planSRem at h
  cases hread : readView env Value.asSet x with
  | error e => rw [hread] at h; cases h
  | ok old =>
    rw [hread] at h
    cases old with
    | none => cases h; exact Acts.keep
    | some p =>
      have hput : ∀ set, Acts env cmd cmd.key x (putSet set p.2) := by
        intro set
        unfold putSet
        split_ifs
        · exact Acts.drop_of_read hread typeSet (by decide)
            (fun w a hw => by rw [typ_of_asSet hw]; rfl)
              (by rcases hop with hop | hop <;> simp [typeWritten, hop])
        · refine Acts.put_of_read (d := OrdMap.empty) hread rfl
            (fun w a hw => by rw [typ_of_asSet hw]; rfl) ?_ ?_
          · rcases hop with hop | hop <;> simp [typeWritten, hop, Value.typ]
          · rcases hop with hop | hop <;> simp [ttlWritten, hop]
      simp only [bind, Except.bind] at h
      split_ifs at h <;> (cases h; exact hput _)

/-- Whatever a command on one key does is one of the actions listed in `Acts`. -/
theorem plan_acts (h : plan env cmd x = .ok (r, act)) : Acts env cmd cmd.key x act := by
  unfold plan at h
  cases hop : cmd.op <;> rw [hop] at h
  case set | getset | append => exact planSet_acts (by simp [hop]) h
  case incr | decr | incrby | decrby => exact planIncr_acts (by simp [hop]) h
  case expire => exact planExpire_acts hop h
  case persist => exact planPersist_acts hop h
  case hset | hsetnx => exact planHSet_acts (by simp [hop]) h
  case hdel => exact planHDel_acts hop h
  case lpush | rpush | lpushx | rpushx => exact planPush_acts (by simp [hop]) h
  case lpop | rpop => exact planPop_acts (by simp [hop]) h
  case ltrim => exact planLTrim_acts hop h
  case lrem => exact planLRem_acts hop h
  case sadd => exact planSAdd_acts hop h
  case srem | spop => exact planSRem_acts (by simp [hop]) h
  all_goals cases h

end Plans

/-- Everything a command can do to a key. -/
theorem keyAct_acts (env : Env) (cmd : Command) (k : Bytes) (x : View) :
    Acts env cmd k x (keyAct env cmd k x) := by
  cases hmulti : cmd.op.multi with
  | true =>
    unfold keyAct
    cases hop : cmd.op <;> rw [hop] at hmulti
    case mset =>
      simp only
      split_ifs
      · exact Acts.keep
      · cases hval : msetValue k cmd.args with
        | none => exact Acts.keep
        | some v =>
          have httl : (0 : Int64) = ttlWritten env cmd x := by simp [ttlWritten, hop]
          simp only
          rw [httl]
          exact Acts.put _ rfl (by simp [typeWritten, hop, hval, Value.typ]) fun p _ h =>
            absurd hop h
    case del =>
      simp only
      split_ifs
      · exact Acts.keep
      · exact Acts.drop (Or.inl hop)
      · exact Acts.unset hop
      · exact Acts.keep
    case flushdb => exact Acts.flush hop
    all_goals cases hmulti
  | false =>
    rw [keyAct_of_single env cmd k hmulti]
    split_ifs with hk
    · subst hk
      cases hplan : plan env cmd x with
      | error e => exact Acts.keep
      | ok ra => exact plan_acts (r := ra.1) hplan
    · exact Acts.keep

end Badis
