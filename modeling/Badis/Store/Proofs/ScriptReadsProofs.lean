import Badis.Store.Proofs.ExistenceProofs
import Badis.Store.Proofs.MultiKeyProofs
import Badis.Store.Proofs.SnapshotProofs

/-!
# What a script reads, and what a client reads

`luaRedisCall` answers GET, EXISTS and TYPE from the raw entries. EXISTS goes by the user entry as
`FSM.Exists` does. GET does not look at the type, and TYPE looks at the type entry alone, so that
each of them agrees with its method in some states only (`scriptReads_agree_iff`).
-/

namespace Badis

open Lib

section Agreement

variable (vm : LuaVM) (t : Nat) (apply : Command → Tx Result) (db : DB)

/-- `redis.call('TYPE', k)` returns what `FSM.Type` returns. -/
def TypeAgrees (k : Bytes) : Prop :=
  ∃ typ, ((fsmType t k).run db).1 = .ok typ ∧
    ((luaRedisCall vm t apply [ascii "TYPE", k]).run db).1 = .ok (.str typ)

/-- `redis.call('EXISTS', keys...)` returns what `FSM.Exists` returns. -/
def ExistsAgrees (keys : List Bytes) : Prop :=
  ∃ n : Nat, ((fsmExists t keys).run db).1 = .ok n ∧
    ((luaRedisCall vm t apply (ascii "EXISTS" :: keys)).run db).1 =
      .ok (.number (LuaNumber.ofInt n))

/-- `redis.call('GET', k)` fails if `FSM.GetString` does, and otherwise returns its bytes, nil for a
key that is absent. -/
def GetAgrees (k : Bytes) : Prop :=
  match ((getString t k).run db).1 with
  | .error _ => ∃ e, ((luaRedisCall vm t apply [ascii "GET", k]).run db).1 = .error e
  | .ok val =>
    ((luaRedisCall vm t apply [ascii "GET", k]).run db).1 =
      .ok (if DB.present t db k then .str (val.getD []) else .nil)

end Agreement

section Calls

variable {vm : LuaVM} {t : Nat} {apply : Command → Tx Result} {db : DB} {k : Bytes}

theorem luaType_run :
    ((luaRedisCall vm t apply [ascii "TYPE", k]).run db).1 =
      .ok (.str (((db.getLive t (typeKey k)).map Entry.value).getD (ascii "none"))) := by
  show (Txn.run (txnGet t (typeKey k) >>= _) db).1 = _
  rw [Txn.run_bind_ok (txnGet_run db t (typeKey k))]
  unfold DB.getLive
  cases (db.get? (typeKey k)).filter (Entry.live t) <;> rfl

theorem luaGet_run :
    ((luaRedisCall vm t apply [ascii "GET", k]).run db).1 =
      .ok (match db.getLive t (userKey k) with
        | none => .nil
        | some e => .str e.value) := by
  show (Txn.run (txnGet t (userKey k) >>= _) db).1 = _
  rw [Txn.run_bind_ok (txnGet_run db t (userKey k))]
  unfold DB.getLive
  cases (db.get? (userKey k)).filter (Entry.live t) <;> rfl

theorem luaExistsLoop_eq (keys : List Bytes) (n : Nat) :
    luaExistsLoop t keys n = existsLoop t keys n := by
  induction keys generalizing n with
  | nil => rfl
  | cons k keys ih =>
    unfold luaExistsLoop existsLoop
    congr 1
    funext item
    cases item with
    | none => exact ih n
    | some e => exact ih (n + 1)

/-- Without a key the call is refused, and the method finds none of them. -/
theorem existsAgrees_iff (keys : List Bytes) : ExistsAgrees vm t apply db keys ↔ keys ≠ [] := by
  cases keys with
  | nil =>
    refine iff_of_false ?_ (fun h => h rfl)
    rintro ⟨n, -, hcall⟩
    cases hcall
  | cons k keys =>
    refine iff_of_true ?_ (List.cons_ne_nil k keys)
    have hrun := existsLoop_run t db (k :: keys) 0
    refine ⟨_, congrArg Prod.fst hrun, ?_⟩
    show (Txn.run (luaExistsLoop t (k :: keys) 0 >>= _) db).1 = _
    rw [luaExistsLoop_eq, Txn.run_bind_ok hrun]
    rfl

/-- TYPE agrees if the two entries of the key are live or dead together. -/
theorem typeAgrees_iff (hnamed : TypesNamed db) :
    TypeAgrees vm t apply db k ↔
      (DB.present t db k = true ↔ (db.getLive t (typeKey k)).isSome = true) := by
  unfold TypeAgrees
  rw [luaType_run]
  cases huser : db.getLive t (userKey k) with
  | none =>
    rw [type_of_none huser]
    cases htype : db.getLive t (typeKey k) with
    | none => simp [DB.present, huser]
    | some e =>
      -- the type entry names a type, so it does not read "none"
      have hne : e.value ≠ ascii "none" := by
        intro hnone
        have hmem := hnamed k e (Option.filter_eq_some_iff.mp htype).1
        rw [hnone] at hmem
        exact absurd hmem (by decide)
      simpa [DB.present, huser] using hne
  | some e =>
    have hpresent := present_of_some huser
    rw [fsmType_run t k db hpresent, typ_eq_getLive]
    cases htype : db.getLive t (typeKey k) with
    | none => simp [hpresent, show ascii "none" ≠ typeString by decide]
    | some e => simp [hpresent]

/-- GET agrees unless the key holds another type. -/
theorem getAgrees_iff : GetAgrees vm t apply db k ↔ (Slot.of db k).StringOrNone t := by
  unfold GetAgrees Slot.StringOrNone
  rw [luaGet_run, show (Slot.of db k).user.filter (Entry.live t) =
    db.getLive t (userKey k) from rfl]
  cases huser : db.getLive t (userKey k) with
  | none => simp [getString_of_none huser, DB.present, huser]
  | some e =>
    rw [getString_of_some huser, present_of_some huser]
    by_cases htyp : (Slot.of db k).typ t = typeString
    · simp [htyp, Entry.valueCopy]
    · simp [htyp]

end Calls

/-- In every state of a store, at every instant and for every key: a script reads the type that a
client reads exactly if the two entries of the key are both live or both not, it reads the value
exactly if the key holds nothing or a string, and it counts existing keys as a client does unless it
names none. -/
theorem scriptReads_agree_iff (vm : LuaVM) (c : Codec) (lc : LogCodec) (db : DB)
    (h : Reachable vm c lc db) (t : Nat) (apply : Command → Tx Result) (k : Bytes) :
    (TypeAgrees vm t apply db k ↔
        (DB.present t db k = true ↔ (db.getLive t (typeKey k)).isSome = true)) ∧
      (∀ keys, ExistsAgrees vm t apply db keys ↔ keys ≠ []) ∧
      (GetAgrees vm t apply db k ↔ (Slot.of db k).StringOrNone t) :=
  ⟨typeAgrees_iff h.typesNamed, existsAgrees_iff, getAgrees_iff⟩

/-- A string with an expiry, before it expires: the three reads agree. -/
theorem scriptReads_agree_before_expiry :
    TypeAgrees noScripts 1700000050000000000 (applyData msgpack (Env.at 1700000050000000000))
        (setThenExpire 100000) (ascii "k") ∧
      GetAgrees noScripts 1700000050000000000 (applyData msgpack (Env.at 1700000050000000000))
        (setThenExpire 100000) (ascii "k") := by
  have hagree := scriptReads_agree_iff noScripts msgpack noLogs (setThenExpire 100000)
    (setThenExpire_reachable _) 1700000050000000000
    (applyData msgpack (Env.at 1700000050000000000)) (ascii "k")
  exact ⟨hagree.1.mpr (by decide), hagree.2.2.mpr (by decide)⟩

/-- A script reads a list as the bytes it is encoded in, and the type of a string that has
expired. -/
theorem scriptReads_disagree :
    Reachable noScripts msgpack noLogs pushedList ∧
      (luaRedisCall noScripts 1001000000000 (applyData msgpack (Env.at 1001000000000))
        [ascii "GET", ascii "l"]).run pushedList =
        (.ok (.str (msgpack.encodeStrings [ascii "x"])), pushedList) ∧
      (getString 1001000000000 (ascii "l")).run pushedList = (.error .wrongType, pushedList) ∧
      Reachable noScripts msgpack noLogs (setThenExpire 100000) ∧
      (luaRedisCall noScripts 1700000200000000000 (applyData msgpack (Env.at 1700000200000000000))
        [ascii "TYPE", ascii "k"]).run (setThenExpire 100000) =
        (.ok (.str typeString), setThenExpire 100000) ∧
      (fsmType 1700000200000000000 (ascii "k")).run (setThenExpire 100000) =
        (.ok (ascii "none"), setThenExpire 100000) := by
  refine ⟨pushedList_reachable _, by decide, by decide, setThenExpire_reachable _, by decide,
    by decide⟩

end Badis
