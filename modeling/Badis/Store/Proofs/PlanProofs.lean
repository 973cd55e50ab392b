import Badis.Store.Plan

/-!
# Every command on one key carries out its plan

`applyData_eq_plan` is the refinement theorem of the store: the transaction code of a command on one
key, with its reads and writes, is the plan computed from the view of the key, carried out on the
key's two entries. Everything else about these commands is proved from the plan.
-/

namespace Badis

open Lib

/-! ## The keys of the two entries -/

@[simp] theorem userKey_inj {a b : Bytes} : userKey a = userKey b ↔ a = b := by simp [userKey]

@[simp] theorem typeKey_inj {a b : Bytes} : typeKey a = typeKey b ↔ a = b := by simp [typeKey]

/-- The two entries of keys never share a database key: their first bytes differ. -/
@[simp] theorem userKey_ne_typeKey (a b : Bytes) : userKey a ≠ typeKey b := by
  simp [userKey, typeKey]

@[simp] theorem typeKey_ne_userKey (a b : Bytes) : typeKey a ≠ userKey b := by
  simp [userKey, typeKey]

/-- What a `DEL` finds depends on the keys it names. -/
theorem delCount_congr {present present' : Bytes → Bool} {args : List Bytes}
    (h : ∀ k ∈ args, present k = present' k) : delCount present args = delCount present' args := by
  induction args generalizing present present' with
  | nil => rfl
  | cons a rest ih =>
    have ha := h a List.mem_cons_self
    have hrest : ∀ k ∈ rest, present k = present' k := fun k hk => h k (List.mem_cons_of_mem _ hk)
    rw [delCount, delCount, ha, ih hrest, ih fun k hk => by rw [hrest k hk]]

/-! ## Slots -/

theorem get?_alter (db : DB) (key k : Bytes) (e : Option Entry) :
    (DB.alter db key e).get? k = if key = k then e else db.get? k := by
  cases e with
  | none => exact OrdMap.get?_erase db key k
  | some e => exact OrdMap.get?_insert db key k e

/-- Writing a slot changes the two entries of its key and nothing else. -/
theorem get?_setSlot (db : DB) (key k : Bytes) (s : Slot) :
    (DB.setSlot db key s).get? k =
      if typeKey key = k then s.type else if userKey key = k then s.user else db.get? k := by
  rw [DB.setSlot, get?_alter, get?_alter]

@[simp] theorem Slot.of_setSlot (db : DB) (key : Bytes) (s : Slot) :
    Slot.of (DB.setSlot db key s) key = s := by
  simp [Slot.of, get?_setSlot]

theorem Slot.of_setSlot_of_ne (db : DB) {key k : Bytes} (s : Slot) (h : key ≠ k) :
    Slot.of (DB.setSlot db key s) k = Slot.of db k := by
  simp [Slot.of, get?_setSlot, h]

/-- Writing back what is there changes nothing. -/
@[simp] theorem setSlot_of (db : DB) (key : Bytes) : DB.setSlot db key (Slot.of db key) = db := by
  apply OrdMap.ext_get?
  intro k
  rw [get?_setSlot]
  split_ifs with h1 h2
  · rw [← h1]; rfl
  · rw [← h2]; rfl
  · rfl

/-- A slot that keeps its type entry is written by writing the user entry. -/
theorem setSlot_user (db : DB) (key : Bytes) (e : Entry) :
    DB.setSlot db key ⟨some e, (Slot.of db key).type⟩ = db.insert (userKey key) e := by
  apply OrdMap.ext_get?
  intro k
  rw [get?_setSlot, OrdMap.get?_insert]
  split_ifs with h1 h2
  · exact absurd (h2.trans h1.symm) (userKey_ne_typeKey key key)
  · rw [← h1]; rfl
  · rfl
  · rfl

/-! ## The reading steps -/

section Reading

variable (c : Codec) (env : Env) (key : Bytes) (db : DB)

theorem txnGet_run (t : Nat) (k : Bytes) :
    (txnGet t k : Tx (Option Entry)).run db = (.ok ((db.get? k).filter (Entry.live t)), db) := rfl

theorem getExistingType_run (t : Nat) :
    (getExistingType t key).run db = (.ok ((Slot.of db key).typ t), db) := by
  rw [getExistingType, Txn.run_bind_ok (txnGet_run db _ _)]
  unfold Slot.typ Slot.of
  cases (db.get? (typeKey key)).filter (Entry.live t) <;> rfl

/-- The type test reads only the type entry, and fails without a change. -/
theorem ensureExistingType_run (t : Nat) (want : Bytes) :
    (ensureExistingType t key want).run db =
      if (Slot.of db key).typ t = want then (.ok (), db) else (.error .wrongType, db) := by
  rw [ensureExistingType, Txn.run_bind_ok (getExistingType_run key db t)]
  split_ifs <;> rfl

/-- `as` reads the values stored under the type `want` with the decoder `dec`, and refuses every
other type. -/
def ReadsAs {α : Type} (as : Value → Except Err α) (want : Bytes) (dec : Bytes → Option α) : Prop :=
  ∀ typ b, as (Value.decode c typ b) =
    if typ = want then (match dec b with | none => .error .decode | some a => .ok a)
    else .error .wrongType

/-- A typed read is a read of the view: it finds nothing, fails by type, fails to decode, or gives
the value with the time that it has left. -/
theorem readTyped_run {α : Type} {want : Bytes} {dec : Bytes → Option α} {as : Value → Except Err α}
    (has : ReadsAs c as want dec) :
    (readTyped env key want dec).run db =
      (readView env as (DB.view c env.clock.now db key), db) := by
  rw [readTyped, Txn.run_bind_ok (txnGet_run db _ _), DB.view, Slot.view]
  show _ = (readView env as (Option.map _ ((db.get? (userKey key)).filter _)), db)
  cases (db.get? (userKey key)).filter (Entry.live env.clock.now) with
  | none => rfl
  | some item =>
    have htyp := ensureExistingType_run key db env.clock.now want
    simp only [Option.map_some, readView, has _ _]
    by_cases h : (Slot.of db key).typ env.clock.now = want
    · rw [if_pos h] at htyp
      rw [Txn.run_bind_ok htyp, if_pos h]
      cases dec item.value <;> rfl
    · rw [if_neg h] at htyp
      rw [Txn.run_bind_error htyp, if_neg h]

end Reading

/-! ## Values and their types -/

theorem Value.typ_decode (c : Codec) (typ b : Bytes) : (Value.decode c typ b).typ = typ := by
  unfold Value.decode
  split_ifs with h1 h2 h3 h4
  · exact h1.symm
  · split
    · exact h2.symm
    · rfl
  · split
    · exact h3.symm
    · rfl
  · split
    · exact h4.symm
    · rfl
  · rfl

/-- To read a value as one type it is enough to decode that type and to refuse all others. -/
theorem ReadsAs.of_typ {α : Type} (c : Codec) {want : Bytes} {dec : Bytes → Option α}
    {as : Value → Except Err α}
    (hwant : ∀ b, as (Value.decode c want b) =
      match dec b with | none => .error .decode | some a => .ok a)
    (hother : ∀ v : Value, v.typ ≠ want → as v = .error .wrongType) : ReadsAs c as want dec := by
  intro typ b
  by_cases h : typ = want
  · subst h
    rw [if_pos rfl, hwant]
  · rw [if_neg h]
    exact hother _ (by rw [Value.typ_decode]; exact h)

theorem asList_reads (c : Codec) : ReadsAs c Value.asList typeList c.decodeStrings := by
  refine ReadsAs.of_typ c (fun b => ?_) (fun v hv => ?_)
  · have h1 : typeList ≠ typeString := by decide
    simp only [Value.decode, h1, if_false, if_true]
    cases c.decodeStrings b <;> simp [Value.asList, Value.typeError, Value.typ]
  · cases v <;> simp_all [Value.asList, Value.typeError, Value.typ]

theorem asHash_reads (c : Codec) : ReadsAs c Value.asHash typeHash c.decodeMap := by
  refine ReadsAs.of_typ c (fun b => ?_) (fun v hv => ?_)
  · have h1 : typeHash ≠ typeString := by decide
    have h2 : typeHash ≠ typeList := by decide
    simp only [Value.decode, h1, h2, if_false, if_true]
    cases c.decodeMap b <;> simp [Value.asHash, Value.typeError, Value.typ]
  · cases v <;> simp_all [Value.asHash, Value.typeError, Value.typ]

theorem asSet_reads (c : Codec) : ReadsAs c Value.asSet typeSet (decodeSet c) := by
  refine ReadsAs.of_typ c (fun b => ?_) (fun v hv => ?_)
  · have h1 : typeSet ≠ typeString := by decide
    have h2 : typeSet ≠ typeList := by decide
    have h3 : typeSet ≠ typeHash := by decide
    simp only [Value.decode, h1, h2, h3, if_false, if_true]
    cases decodeSet c b <;> simp [Value.asSet, Value.typeError, Value.typ]
  · cases v <;> simp_all [Value.asSet, Value.typeError, Value.typ]

/-- A key holds nothing, a string, or a value of another type. -/
theorem Slot.view_cases (c : Codec) (t : Nat) (s : Slot) :
    (s.user.filter (Entry.live t) = none ∧ s.view c t = none) ∨
    (∃ item, s.user.filter (Entry.live t) = some item ∧ s.typ t = typeString ∧
      s.view c t = some (.string item.value, item.expiresAt)) ∨
    (∃ item v, s.user.filter (Entry.live t) = some item ∧ s.typ t ≠ typeString ∧
      v.typ = s.typ t ∧ s.view c t = some (v, item.expiresAt)) := by
  unfold Slot.view
  cases s.user.filter (Entry.live t) with
  | none => exact Or.inl ⟨rfl, rfl⟩
  | some item =>
    right
    by_cases h : s.typ t = typeString
    · refine Or.inl ⟨item, rfl, h, ?_⟩
      simp [Value.decode, h]
    · exact Or.inr ⟨item, _, rfl, h, Value.typ_decode c _ _, rfl⟩

/-! ## The cases of the switch -/

section Cases

variable (c : Codec) (env : Env) (cmd : Command) (db : DB)

/-- `setValue` writes both entries, each with an expiry from its own clock reading. -/
theorem setValue_run (key val typ : Bytes) (ttlMs : Int64) :
    (setValue env key val typ ttlMs).run db =
      (.ok (), DB.setSlot db key ⟨some (withTTLMs env.clock.ttl ttlMs (newEntry val)),
        some (withTTLMs env.clock.ttlType ttlMs (newEntry typ))⟩) := rfl

/-- `deleteKey` removes both entries. -/
theorem deleteKey_run (key : Bytes) :
    (deleteKey key).run db = (.ok (), DB.setSlot db key ⟨none, none⟩) := rfl

/-- HSET and HSETNX do what their plan says. -/
theorem applyHSet_run :
    (applyHSet c env cmd).run db =
      (planHSet env cmd (DB.view c env.clock.now db cmd.key)).run c env cmd.key db := by
  unfold applyHSet planHSet
  split_ifs with hargs
  · rfl
  · rw [Txn.run_bind, readTyped_run c env cmd.key db (asHash_reads c)]
    cases readView env Value.asHash (DB.view c env.clock.now db cmd.key) with
    | error e => rfl
    | ok old => rfl

theorem applyHDel_run :
    (applyHDel c env cmd).run db =
      (planHDel env cmd (DB.view c env.clock.now db cmd.key)).run c env cmd.key db := by
  unfold applyHDel planHDel
  rw [Txn.run_bind, readTyped_run c env cmd.key db (asHash_reads c)]
  cases readView env Value.asHash (DB.view c env.clock.now db cmd.key) with
  | error e => rfl
  | ok old =>
    cases old with
    | none => simp [Plan.run, bind, Except.bind, pure, Except.pure, KeyAct.onSlot]
    | some x =>
      obtain ⟨hash, ttlMs⟩ := x
      simp only [bind, Except.bind, pure, Except.pure, Plan.run]
      split_ifs <;> rfl

theorem readList_run (key : Bytes) :
    (readList c env key).run db =
      ((readView env Value.asList (DB.view c env.clock.now db key)).map (·.getD ([], 0)), db) := by
  unfold readList
  rw [Txn.run_bind, readTyped_run c env key db (asList_reads c)]
  cases readView env Value.asList (DB.view c env.clock.now db key) <;> rfl

/-- `writeList` deletes a key whose list is empty. -/
theorem writeList_run (key : Bytes) (list : List Bytes) (ttlMs : Int64) :
    (writeList c env key list ttlMs).run db =
      (.ok (), DB.setSlot db key ((putList list ttlMs).onSlot c env (Slot.of db key))) := by
  unfold writeList putList
  split_ifs <;> rfl

/-- The four pushes do what their plan says. -/
theorem applyPush_run :
    (applyPush c env cmd).run db =
      (planPush env cmd (DB.view c env.clock.now db cmd.key)).run c env cmd.key db := by
  unfold applyPush planPush
  rw [Txn.run_bind, readTyped_run c env cmd.key db (asList_reads c)]
  cases readView env Value.asList (DB.view c env.clock.now db cmd.key) with
  | error e => rfl
  | ok old =>
    simp only [bind, Except.bind]
    split_ifs with h
    · simp [Plan.run, pure, Except.pure, KeyAct.onSlot]
    · rfl

theorem applyPop_run :
    (applyPop c env cmd).run db =
      (planPop env cmd (DB.view c env.clock.now db cmd.key)).run c env cmd.key db := by
  unfold applyPop planPop
  rw [Txn.run_bind, readList_run]
  cases readView env Value.asList (DB.view c env.clock.now db cmd.key) with
  | error e => rfl
  | ok old =>
    simp only [bind, Except.bind, Except.map]
    split_ifs with h
    · simp [Plan.run, pure, Except.pure, KeyAct.onSlot]
    · cases popCount cmd with
      | error e => rfl
      | ok count => exact Txn.run_bind_ok (writeList_run c env db cmd.key _ _)

theorem applyLTrim_run :
    (applyLTrim c env cmd).run db =
      (planLTrim env cmd (DB.view c env.clock.now db cmd.key)).run c env cmd.key db := by
  unfold applyLTrim planLTrim
  rw [Txn.run_bind, readList_run]
  cases readView env Value.asList (DB.view c env.clock.now db cmd.key) with
  | error e => rfl
  | ok old =>
    cases cmd.arg 0 with
    | error e => rfl
    | ok start =>
      cases cmd.arg 1 with
      | error e => rfl
      | ok stop => exact Txn.run_bind_ok (writeList_run c env db cmd.key _ _)

theorem applyLRem_run :
    (applyLRem c env cmd).run db =
      (planLRem env cmd (DB.view c env.clock.now db cmd.key)).run c env cmd.key db := by
  unfold applyLRem planLRem
  rw [Txn.run_bind, readList_run]
  cases readView env Value.asList (DB.view c env.clock.now db cmd.key) with
  | error e => rfl
  | ok old =>
    cases cmd.arg 0 with
    | error e => rfl
    | ok limit =>
      cases cmd.arg 1 with
      | error e => rfl
      | ok needle => exact Txn.run_bind_ok (writeList_run c env db cmd.key _ _)

theorem applySAdd_run :
    (applySAdd c env cmd).run db =
      (planSAdd env cmd (DB.view c env.clock.now db cmd.key)).run c env cmd.key db := by
  unfold applySAdd planSAdd
  rw [Txn.run_bind, readTyped_run c env cmd.key db (asSet_reads c)]
  cases readView env Value.asSet (DB.view c env.clock.now db cmd.key) with
  | error e => rfl
  | ok old => rfl

theorem applySRem_run :
    (applySRem c env cmd).run db =
      (planSRem env cmd (DB.view c env.clock.now db cmd.key)).run c env cmd.key db := by
  unfold applySRem planSRem
  rw [Txn.run_bind, readTyped_run c env cmd.key db (asSet_reads c)]
  cases readView env Value.asSet (DB.view c env.clock.now db cmd.key) with
  | error e => rfl
  | ok old =>
    cases old with
    | none => simp [Plan.run, bind, Except.bind, pure, Except.pure, KeyAct.onSlot]
    | some x =>
      obtain ⟨set, ttlMs⟩ := x
      simp only [bind, Except.bind, pure, Except.pure, Plan.run, putSet]
      split_ifs <;> rfl

theorem filter_live_eq_some {t : Nat} {o : Option Entry} {item : Entry}
    (h : o.filter (Entry.live t) = some item) : o = some item :=
  (Option.filter_eq_some_iff.mp h).1

/-- EXPIRE writes the user entry only, with its value as it was. -/
theorem applyExpire_run :
    (applyExpire env cmd).run db =
      (planExpire cmd (DB.view c env.clock.now db cmd.key)).run c env cmd.key db := by
  unfold applyExpire DB.view Slot.view
  rw [Txn.run_bind_ok (txnGet_run db _ _)]
  show _ =
    (planExpire cmd (Option.map _ ((db.get? (userKey cmd.key)).filter _))).run c env cmd.key db
  cases hget : (db.get? (userKey cmd.key)).filter (Entry.live env.clock.now) with
  | none => exact congrArg (Prod.mk _) (setSlot_of db cmd.key).symm
  | some item =>
    have huser : db.get? (userKey cmd.key) = some item := filter_live_eq_some hget
    refine congrArg (Prod.mk _) ?_
    simp only [KeyAct.onSlot, Slot.of, huser, Option.map_some]
    exact (setSlot_user db cmd.key _).symm

theorem applyPersist_run :
    (applyPersist env cmd).run db =
      (planPersist (DB.view c env.clock.now db cmd.key)).run c env cmd.key db := by
  unfold applyPersist DB.view Slot.view
  rw [Txn.run_bind_ok (txnGet_run db _ _)]
  show _ = (planPersist (Option.map _ ((db.get? (userKey cmd.key)).filter _))).run c env cmd.key db
  cases hget : (db.get? (userKey cmd.key)).filter (Entry.live env.clock.now) with
  | none => exact congrArg (Prod.mk _) (setSlot_of db cmd.key).symm
  | some item =>
    have huser : db.get? (userKey cmd.key) = some item := filter_live_eq_some hget
    simp only [Option.map_some, planPersist]
    split_ifs with hexp
    · exact congrArg (Prod.mk _) (setSlot_of db cmd.key).symm
    · rw [Txn.run_bind_ok (getExistingType_run cmd.key db env.clock.now)]
      simp only [Plan.run, KeyAct.onSlot, Slot.of, huser, Option.map_some]
      rfl

/-- INCR, DECR, INCRBY and DECRBY do what their plan says. -/
theorem applyIncr_run :
    (applyIncr env cmd).run db =
      (planIncr env cmd (DB.view c env.clock.now db cmd.key)).run c env cmd.key db := by
  unfold applyIncr planIncr DB.view
  rw [Txn.run_bind_ok (txnGet_run db _ _)]
  have htyp := ensureExistingType_run cmd.key db env.clock.now typeString
  rcases Slot.view_cases c env.clock.now (Slot.of db cmd.key) with
    ⟨hget, hview⟩ | ⟨item, hget, hstr, hview⟩ | ⟨item, v, hget, hstr, hv, hview⟩
  · change (db.get? (userKey cmd.key)).filter (Entry.live env.clock.now) = none at hget
    rw [hget, hview]
    cases incrDelta cmd <;> rfl
  · change (db.get? (userKey cmd.key)).filter (Entry.live env.clock.now) = some item at hget
    rw [if_pos hstr] at htyp
    rw [hget, hview]
    simp only [Txn.run_bind, htyp, counterOf]
    cases parseInteger item.value with
    | error e => rfl
    | ok n => cases incrDelta cmd <;> rfl
  · change (db.get? (userKey cmd.key)).filter (Entry.live env.clock.now) = some item at hget
    rw [if_neg hstr] at htyp
    rw [hget, hview]
    simp only [Txn.run_bind, htyp]
    cases v <;> first | rfl | exact absurd hv.symm hstr

/-- SET, GETSET and APPEND, from where the existing item has been read. -/
theorem setString_run (arg : Bytes) (item : Option Entry) :
    (setString env cmd arg item).run db =
      Plan.run c env cmd.key (.ok (setPlan env cmd arg item)) db := by
  unfold setString setPlan
  split_ifs
  · rfl
  · exact congrArg (Prod.mk _) (setSlot_of db cmd.key).symm

/-- SET, GETSET and APPEND do what their plan says: the type is tested only if the key is live. -/
theorem applySet_run :
    (applySet env cmd).run db =
      (planSet env cmd (DB.view c env.clock.now db cmd.key)).run c env cmd.key db := by
  unfold applySet planSet DB.view
  cases cmd.args with
  | nil => rfl
  | cons arg rest =>
    rw [Txn.run_bind_ok (txnGet_run db _ _)]
    have htyp := ensureExistingType_run cmd.key db env.clock.now typeString
    rcases Slot.view_cases c env.clock.now (Slot.of db cmd.key) with
      ⟨hget, hview⟩ | ⟨item, hget, hstr, hview⟩ | ⟨item, v, hget, hstr, hv, hview⟩
    · change (db.get? (userKey cmd.key)).filter (Entry.live env.clock.now) = none at hget
      rw [hget, hview]
      exact setString_run c env cmd db arg none
    · change (db.get? (userKey cmd.key)).filter (Entry.live env.clock.now) = some item at hget
      rw [if_pos hstr] at htyp
      rw [hget, hview]
      exact (Txn.run_bind_ok htyp).trans (setString_run c env cmd db arg (some item))
    · change (db.get? (userKey cmd.key)).filter (Entry.live env.clock.now) = some item at hget
      rw [if_neg hstr] at htyp
      rw [hget, hview]
      simp only [Txn.run_bind, htyp]
      cases v <;> first | rfl | exact absurd hv.symm hstr

end Cases

/-- A command on one key is its plan, computed from what the key holds and carried out on the key's
two entries. -/
theorem applyData_eq_plan (c : Codec) (env : Env) (cmd : Command) (db : DB)
    (h : cmd.op.multi = false) :
    (applyData c env cmd).run db =
      (plan env cmd (DB.view c env.clock.now db cmd.key)).run c env cmd.key db := by
  unfold applyData plan
  cases hop : cmd.op <;> rw [hop] at h
  case set | getset | append => exact applySet_run c env cmd db
  case mset | del | flushdb => cases h
  case incr | decr | incrby | decrby => exact applyIncr_run c env cmd db
  case expire => exact applyExpire_run c env cmd db
  case persist => exact applyPersist_run c env cmd db
  case hset | hsetnx => exact applyHSet_run c env cmd db
  case hdel => exact applyHDel_run c env cmd db
  case lpush | rpush | lpushx | rpushx => exact applyPush_run c env cmd db
  case lpop | rpop => exact applyPop_run c env cmd db
  case ltrim => exact applyLTrim_run c env cmd db
  case lrem => exact applyLRem_run c env cmd db
  case sadd => exact applySAdd_run c env cmd db
  case srem | spop => exact applySRem_run c env cmd db
  all_goals rfl

/-- `FSM.Apply` of a command on one key: nothing to roll back, since its plan fails before it
writes. -/
theorem applyCmd_eq_plan (c : Codec) (env : Env) (cmd : Command) (db : DB)
    (h : cmd.op.multi = false) :
    applyCmd c env cmd db =
      (plan env cmd (DB.view c env.clock.now db cmd.key)).run c env cmd.key db := by
  unfold applyCmd Txn.atomically
  rw [applyData_eq_plan c env cmd db h]
  cases plan env cmd (DB.view c env.clock.now db cmd.key) <;> rfl

end Badis
