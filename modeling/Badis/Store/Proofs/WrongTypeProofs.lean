import Badis.Store.Proofs.ActionProofs
import Badis.Store.Proofs.ErrorProofs
import Badis.Store.Proofs.LuaProofs
import Badis.Store.Proofs.ReadsProofs

/-!
# When a type is wrong

A command or a read fails with `ErrWrongType` exactly if its key is live and has another type than
the one it works on. For commands this is a statement about plans (`plan_wrongType_iff`); for reads
about transactions that begin with the type test (`ChecksType`), with one rule for what follows the
test.
-/

namespace Badis

open Lib

/-- The key is live, and its type is not `want`. -/
def DB.OtherType (t : Nat) (want : Bytes) (db : DB) (k : Bytes) : Prop :=
  DB.present t db k = true ∧ (Slot.of db k).typ t ≠ want

/-- The view is a value of another type than `want`. -/
def View.Refused (want : Bytes) (x : View) : Prop := ∃ v exp, x = some (v, exp) ∧ v.typ ≠ want

/-- A view is refused if and only if the key is live with another type. -/
theorem refused_view_iff (c : Codec) (t : Nat) (want : Bytes) (db : DB) (k : Bytes) :
    View.Refused want (DB.view c t db k) ↔ DB.OtherType t want db k := by
  unfold View.Refused DB.OtherType DB.present DB.view Slot.view
  show _ ↔ ((Slot.of db k).user.filter (Entry.live t)).isSome = true ∧ _
  cases (Slot.of db k).user.filter (Entry.live t) with
  | none => simp
  | some e =>
    constructor
    · rintro ⟨v, exp, hsome, htyp⟩
      cases hsome
      rw [Value.typ_decode] at htyp
      exact ⟨rfl, htyp⟩
    · rintro ⟨-, htyp⟩
      exact ⟨_, _, rfl, by rwa [Value.typ_decode]⟩

/-! ## Commands -/

section Plans

variable {env : Env} {cmd : Command} {x : View} {want : Bytes}

/-- The type error of a plan comes from its read if nothing after the read raises one. -/
theorem bind_wrongType_iff {α β : Type} {m : Except Err α} {f : α → Except Err β}
    (hf : ∀ a, f a ≠ .error .wrongType) :
    (m >>= f) = .error .wrongType ↔ m = .error .wrongType := by
  constructor
  · intro h
    rcases except_bind_error h with h | ⟨a, -, h⟩
    · exact h
    · exact absurd h (hf a)
  · rintro rfl
    rfl

/-- A read fails by type exactly at the values of other types. -/
theorem readView_wrongType_iff {α : Type} {as : Value → Except Err α}
    (has : ∀ v, as v = .error .wrongType ↔ v.typ ≠ want) :
    readView env as x = .error .wrongType ↔ x.Refused want := by
  unfold View.Refused
  cases x with
  | none => simp [readView]
  | some p =>
    obtain ⟨v, exp⟩ := p
    have hv := has v
    simp only [readView, Option.some.injEq, Prod.mk.injEq]
    constructor
    · intro h
      refine ⟨v, exp, ⟨rfl, rfl⟩, hv.mp ?_⟩
      cases has' : as v with
      | ok a => rw [has'] at h; cases h
      | error e => rw [has'] at h; cases h; rfl
    · rintro ⟨v', exp', ⟨rfl, rfl⟩, htyp⟩
      rw [hv.mpr htyp]

/-- A value is refused as one of another type, unless it has the type and does not decode. -/
theorem as_wrongType_iff {α : Type} {as : Value → Except Err α}
    (herr : ∀ v e, as v = .error e → e = Value.typeError want v ∧
      (v.typ = want → ∃ b, v = .raw want b))
    (hok : ∀ v a, as v = .ok a → v.typ = want) (v : Value) :
    as v = .error .wrongType ↔ v.typ ≠ want := by
  constructor
  · intro h htyp
    obtain ⟨he, -⟩ := herr v _ h
    rw [Value.typeError, if_pos htyp] at he
    cases he
  · intro htyp
    cases h : as v with
    | ok a => exact absurd (hok v a h) htyp
    | error e => rw [(herr v e h).1, Value.typeError, if_neg htyp]

theorem readList_wrongType_iff :
    readView env Value.asList x = .error .wrongType ↔ x.Refused typeList :=
  readView_wrongType_iff (as_wrongType_iff asList_error fun v l h => by rw [typ_of_asList h]; rfl)

theorem readHash_wrongType_iff :
    readView env Value.asHash x = .error .wrongType ↔ x.Refused typeHash :=
  readView_wrongType_iff (as_wrongType_iff asHash_error fun v m h => by rw [typ_of_asHash h]; rfl)

theorem readSet_wrongType_iff :
    readView env Value.asSet x = .error .wrongType ↔ x.Refused typeSet :=
  readView_wrongType_iff (as_wrongType_iff asSet_error fun v m h => by rw [typ_of_asSet h]; rfl)

/-- The arguments that a command tests before it looks at the key. -/
def Command.ArgsFit (cmd : Command) : Prop :=
  match cmd.op with
  | .set | .getset | .append => cmd.args ≠ []
  | .hset | .hsetnx => cmd.args.length % 2 = 0
  | _ => True

/-- Bytes under the type of strings are read as a string. -/
theorem string_of_view {c : Codec} {t : Nat} {db : DB} {k : Bytes} :
    ∀ v exp, DB.view c t db k = some (v, exp) → v.typ = typeString → ∃ b, v = .string b := by
  intro v exp hview htyp
  unfold DB.view at hview
  rcases Slot.view_cases c t (Slot.of db k) with ⟨-, hnone⟩ | ⟨item, -, -, hsome⟩ |
      ⟨item, v', -, hne, hv', hsome⟩
  · rw [hnone] at hview
    cases hview
  · rw [hsome] at hview
    cases hview
    exact ⟨_, rfl⟩
  · rw [hsome] at hview
    cases hview
    exact absurd (hv'.symm.trans htyp) hne

section Strings

variable (hx : ∀ v exp, x = some (v, exp) → v.typ = typeString → ∃ b, v = .string b)

include hx

/-- A command on a string fails by type on every value that is not a string. -/
theorem refused_string_iff {α : Type} {f : View → Except Err α} (hnone : f none ≠ .error .wrongType)
    (hstring : ∀ b exp, f (some (.string b, exp)) ≠ .error .wrongType)
    (hother : ∀ v exp, (∀ b, v ≠ .string b) → f (some (v, exp)) = .error .wrongType) :
    f x = .error .wrongType ↔ x.Refused typeString := by
  constructor
  · intro h
    cases x with
    | none => exact absurd h hnone
    | some p =>
      refine ⟨p.1, p.2, rfl, fun htyp => ?_⟩
      obtain ⟨b, hb⟩ := hx p.1 p.2 rfl htyp
      obtain ⟨v, exp⟩ := p
      cases hb
      exact hstring b exp h
  · rintro ⟨v, exp, rfl, htyp⟩
    refine hother v exp fun b hb => ?_
    rw [hb] at htyp
    exact htyp rfl

/-- SET, GETSET and APPEND fail by type exactly if a live key is no string. They test for arguments
before. -/
theorem planSet_wrongType_iff (hargs : cmd.args ≠ []) :
    planSet env cmd x = .error .wrongType ↔ x.Refused typeString := by
  obtain ⟨arg, rest, hlist⟩ := List.exists_cons_of_ne_nil hargs
  refine refused_string_iff hx ?_ ?_ ?_
  · simp [planSet, hlist]
  · simp [planSet, hlist]
  · intro v exp hv
    cases v with
    | string b => exact absurd rfl (hv b)
    | _ => simp [planSet, hlist]

theorem planIncr_wrongType_iff : planIncr env cmd x = .error .wrongType ↔ x.Refused typeString := by
  have hrest : ∀ val : Int64, (do
      let delta ← incrDelta cmd
      let val := if cmd.op = .incr ∨ cmd.op = .incrby then val + delta else val - delta
      return (Result.int64 val, KeyAct.put (.string (formatInt val)) (oldTTLMs env x)) : Plan) ≠
      .error .wrongType := by
    intro val h
    rw [bind_wrongType_iff (fun delta hd => by cases hd)] at h
    unfold incrDelta at h
    split_ifs at h
    rcases except_bind_error h with harg | ⟨arg, -, hparse⟩
    · cases (arg_error harg).1
    · cases parseInteger_error hparse
  unfold planIncr
  rw [bind_wrongType_iff hrest]
  refine refused_string_iff (f := counterOf) hx ?_ ?_ ?_
  · intro h
    cases h
  · intro b exp h
    cases parseInteger_error h
  · intro v exp hv
    cases v with
    | string b => exact absurd rfl (hv b)
    | _ => rfl

end Strings

/-- HSET and HSETNX test for pairs before they look at the key. -/
theorem planHSet_wrongType_iff (heven : cmd.args.length % 2 = 0) :
    planHSet env cmd x = .error .wrongType ↔ x.Refused typeHash := by
  unfold planHSet
  rw [if_neg (by omega), bind_wrongType_iff (fun old h => by cases h)]
  exact readHash_wrongType_iff

theorem planHDel_wrongType_iff : planHDel env cmd x = .error .wrongType ↔ x.Refused typeHash := by
  unfold planHDel
  rw [bind_wrongType_iff (fun old h => by cases old <;> cases h)]
  exact readHash_wrongType_iff

theorem planPush_wrongType_iff : planPush env cmd x = .error .wrongType ↔ x.Refused typeList := by
  unfold planPush
  rw [bind_wrongType_iff (fun old h => by split_ifs at h <;> cases h)]
  exact readList_wrongType_iff

/-- LPOP and RPOP look at the key before they look at the count. -/
theorem planPop_wrongType_iff : planPop env cmd x = .error .wrongType ↔ x.Refused typeList := by
  unfold planPop
  rw [bind_wrongType_iff]
  · exact readList_wrongType_iff
  · intro old h
    dsimp only at h
    split_ifs at h
    · cases h
    · rw [bind_wrongType_iff (fun count h => by cases h)] at h
      unfold popCount at h
      split at h
      · cases h
      · rcases except_bind_error h with hparse | ⟨n, -, hneg⟩
        · cases parseInteger_error hparse
        · split_ifs at hneg
          cases hneg

/-- The two arguments of LTRIM and LREM. -/
theorem twoArgs_ne_wrongType {α : Type} {f : Bytes → Bytes → Except Err α}
    (hf : ∀ a b, f a b ≠ .error .wrongType) :
    (do let a ← cmd.arg 0; let b ← cmd.arg 1; f a b) ≠ .error .wrongType := by
  intro h
  rcases except_bind_error h with ha | ⟨a, -, h⟩
  · cases (arg_error ha).1
  rcases except_bind_error h with hb | ⟨b, -, h⟩
  · cases (arg_error hb).1
  · exact hf a b h

theorem planLTrim_wrongType_iff : planLTrim env cmd x = .error .wrongType ↔ x.Refused typeList := by
  unfold planLTrim
  rw [bind_wrongType_iff fun old => twoArgs_ne_wrongType fun a b h => by cases h]
  exact readList_wrongType_iff

theorem planLRem_wrongType_iff : planLRem env cmd x = .error .wrongType ↔ x.Refused typeList := by
  unfold planLRem
  rw [bind_wrongType_iff fun old => twoArgs_ne_wrongType fun a b h => by cases h]
  exact readList_wrongType_iff

theorem planSAdd_wrongType_iff : planSAdd env cmd x = .error .wrongType ↔ x.Refused typeSet := by
  unfold planSAdd
  rw [bind_wrongType_iff (fun old h => by cases h)]
  exact readSet_wrongType_iff

theorem planSRem_wrongType_iff : planSRem env cmd x = .error .wrongType ↔ x.Refused typeSet := by
  unfold planSRem
  rw [bind_wrongType_iff]
  · exact readSet_wrongType_iff
  · intro old h
    cases old with
    | none => cases h
    | some p =>
      dsimp only at h
      split_ifs at h <;> cases h

/-- A command that works on the type `want` fails by type exactly if the key holds another one. -/
theorem plan_wrongType_iff (hmulti : cmd.op.multi = false)
    (hw : typeWritten cmd cmd.key = some want) (hargs : cmd.ArgsFit)
    (hx : ∀ v exp, x = some (v, exp) → v.typ = typeString → ∃ b, v = .string b) :
    plan env cmd x = .error .wrongType ↔ x.Refused want := by
  unfold plan
  unfold Command.ArgsFit at hargs
  unfold typeWritten at hw
  cases hop : cmd.op <;> simp only [hop, if_true] at hw hargs hmulti ⊢
  case mset => cases hmulti
  all_goals cases hw
  case set | getset | append => exact planSet_wrongType_iff hx hargs
  case incr | decr | incrby | decrby => exact planIncr_wrongType_iff hx
  case hset | hsetnx => exact planHSet_wrongType_iff hargs
  case hdel => exact planHDel_wrongType_iff
  case lpush | rpush | lpushx | rpushx => exact planPush_wrongType_iff
  case lpop | rpop => exact planPop_wrongType_iff
  case ltrim => exact planLTrim_wrongType_iff
  case lrem => exact planLRem_wrongType_iff
  case sadd => exact planSAdd_wrongType_iff
  case srem | spop => exact planSRem_wrongType_iff

end Plans

/-- An applied command fails by type exactly if its key is live with another type, and then changes
nothing. -/
theorem applyCmd_wrongType_iff (c : Codec) (env : Env) {cmd : Command} {want : Bytes} (db : DB)
    (hmulti : cmd.op.multi = false) (hw : typeWritten cmd cmd.key = some want)
    (hargs : cmd.ArgsFit) :
    ((applyCmd c env cmd db).1 = .error .wrongType ↔
        DB.OtherType env.clock.now want db cmd.key) ∧
      ((applyCmd c env cmd db).1 = .error .wrongType → (applyCmd c env cmd db).2 = db) := by
  have hplan : plan env cmd (DB.view c env.clock.now db cmd.key) = .error .wrongType ↔ _ :=
    plan_wrongType_iff hmulti hw hargs string_of_view
  rw [applyCmd_eq_plan c env cmd db hmulti, ← refused_view_iff c, ← hplan]
  cases plan env cmd (DB.view c env.clock.now db cmd.key) with
  | error e => simp [Plan.run]
  | ok p => simp [Plan.run]

/-! ## Reads -/

/-- A transaction that changes nothing, and fails by type exactly if `key` is live with another type
than `want`. -/
def ChecksType {α : Type} (t : Nat) (key want : Bytes) (m : Tx α) : Prop :=
  ∀ db, ((m.run db).1 = .error .wrongType ↔ DB.OtherType t want db key) ∧ (m.run db).2 = db

/-- A transaction that changes nothing, and does not fail by type. -/
def IgnoresType {α : Type} (m : Tx α) : Prop :=
  ∀ db, (m.run db).1 ≠ .error .wrongType ∧ (m.run db).2 = db

section Reads

variable {α β : Type} {t : Nat} {key want : Bytes}

theorem ignoresType_pure (a : α) : IgnoresType (pure a : Tx α) := by
  intro db
  refine ⟨fun h => ?_, rfl⟩
  cases h

theorem ignoresType_lift {r : Except Err α} (h : r ≠ .error .wrongType) :
    IgnoresType (Txn.lift r : Tx α) := fun _ => ⟨h, rfl⟩

/-- A type test at the front of a read, with nothing after it that raises a type error. -/
theorem ChecksType.bind {m : Tx α} {f : α → Tx β} (hm : ChecksType t key want m)
    (hf : ∀ a, IgnoresType (f a)) : ChecksType t key want (m >>= f) := by
  intro db
  obtain ⟨herr, hdb⟩ := hm db
  rw [Txn.run_bind]
  cases hrun : m.run db with
  | mk r db' =>
    rw [hrun] at herr hdb
    cases hdb
    cases r with
    | error e => exact ⟨by rw [← herr]; simp, rfl⟩
    | ok a =>
      refine ⟨iff_of_false (hf a db').1 ?_, (hf a db').2⟩
      intro hother
      cases herr.mpr hother

theorem ChecksType.map {m : Tx α} {f : α → β} (hm : ChecksType t key want m) :
    ChecksType t key want (do let a ← m; return f a) := hm.bind fun a => ignoresType_pure (f a)

/-- The reads of aggregates test the type before they decode. -/
theorem readAs_checksType (t : Nat) (key want : Bytes) (decode : Bytes → Option α) :
    ChecksType t key want (readAs t key want decode) := by
  intro db
  rw [readAs_run]
  unfold DB.OtherType DB.present DB.getLive
  cases (db.get? (userKey key)).filter (Entry.live t) with
  | none => simp
  | some item =>
    by_cases htyp : (Slot.of db key).typ t = want
    · cases hdec : decode item.value <;> simp [htyp, hdec]
    · simp [htyp]

theorem getString_checksType (t : Nat) (key : Bytes) :
    ChecksType t key typeString (getString t key) := by
  intro db
  unfold DB.OtherType DB.present
  cases hitem : db.getLive t (userKey key) with
  | none => simp [getString_of_none hitem]
  | some item =>
    rw [getString_of_some hitem]
    by_cases htyp : (Slot.of db key).typ t = typeString
    · simp [htyp]
    · simp [htyp]

theorem strLen_checksType (t : Nat) (key : Bytes) : ChecksType t key typeString (strLen t key) :=
  (getString_checksType t key).map

variable (c : Codec) (t : Nat) (key : Bytes)

theorem hGet_checksType (field : Bytes) : ChecksType t key typeHash (hGet c t key field) :=
  (readAs_checksType t key typeHash c.decodeMap).map

theorem hGetAll_checksType : ChecksType t key typeHash (hGetAll c t key) :=
  (readAs_checksType t key typeHash c.decodeMap).map

theorem lRange_checksType (start stop : Int) :
    ChecksType t key typeList (lRange c t key start stop) := by
  refine (readAs_checksType t key typeList c.decodeStrings).bind fun list => ?_
  rw [sliceListChecked_eq]
  exact ignoresType_lift fun h => by cases h

theorem lIndex_checksType (index : Int) : ChecksType t key typeList (lIndex c t key index) := by
  refine (lRange_checksType c t key 0 (-1)).bind fun list => ?_
  dsimp only
  generalize (if index < 0 then (list.length : Int) + index else index) = i
  split_ifs with hrange
  · exact ignoresType_pure none
  · obtain ⟨a, -, ha⟩ := goIndex_of_range (l := list) (i := i) (by omega)
    rw [ha]
    exact ignoresType_pure (some a)

theorem sMembers_checksType : ChecksType t key typeSet (sMembers c t key) :=
  (readAs_checksType t key typeSet c.decodeStrings).map

theorem sIsMember_checksType (member : Bytes) :
    ChecksType t key typeSet (sIsMember c t key member) :=
  (readAs_checksType t key typeSet c.decodeStrings).map

/-- SRANDMEMBER reads the members first, whatever the count. -/
theorem sRandMember_checksType (count : Option Int64) :
    ChecksType t key typeSet (sRandMember c t key count) := by
  refine (sMembers_checksType c t key).bind fun members => ?_
  cases count with
  | none => exact ignoresType_pure members
  | some count =>
    dsimp only
    split_ifs with hneg hlen hle
    · exact ignoresType_pure []
    · refine ignoresType_lift fun h => ?_
      cases repeatMembers_error (List.length_pos_iff.mp (Nat.pos_of_ne_zero hlen)) h
    · exact ignoresType_pure members
    · obtain ⟨res, hres⟩ := firstMembers_ok hneg hle
      rw [hres]
      exact ignoresType_lift fun h => by cases h

end Reads

end Badis
