import Badis.Store.Proofs.ActionProofs
import Badis.Store.Proofs.ExpiryProofs
import Badis.Store.Proofs.FailureProofs
import Badis.Store.Proofs.GlobLanguageProofs
import Badis.Store.Proofs.IsolationProofs
import Badis.Store.Proofs.MutationProofs
import Badis.Store.Proofs.TypeProofs

/-!
# Five ways to ask whether a key exists

EXISTS, TYPE and KEYS go by the liveness test of badger, which compares unsigned seconds. TTL and
PTTL test that too, and then answer from a signed time difference. An expiry of `2 ^ 63` or more
lies in the far future for the first test and in the past for the second, and only then the five
disagree (`views_agree_iff`). That TYPE never answers `none` for a key that exists rests on an
invariant of the store: a type entry names one of the four types (`Reachable.typesNamed`).
-/

namespace Badis

open Lib

/-! ## Type entries -/

/-- The types a key can have. -/
def typeNames : List Bytes := [typeString, typeList, typeHash, typeSet]

/-- Every type entry names a type. -/
def TypesNamed (db : DB) : Prop := ∀ k e, db.get? (typeKey k) = some e → e.value ∈ typeNames

section TypesNamed

variable {db : DB} {vm : LuaVM} {c : Codec} {lc : LogCodec}

theorem Value.typ_mem {v : Value} (h : v.proper = true) : v.typ ∈ typeNames := by
  cases v with
  | string b => simp [Value.typ, typeNames]
  | list l => simp [Value.typ, typeNames]
  | hash m => simp [Value.typ, typeNames]
  | set m => simp [Value.typ, typeNames]
  | raw typ b => cases h

theorem value_withTTLMs (t : Nat) (ttlMs : Int64) (e : Entry) :
    (withTTLMs t ttlMs e).value = e.value := by
  unfold withTTLMs Entry.withTTL
  split_ifs <;> rfl

/-- A missing type entry counts as `string`, so that every key has one of the four types. -/
theorem Slot.typ_mem {s : Slot} (h : ∀ e, s.type = some e → e.value ∈ typeNames) (t : Nat) :
    s.typ t ∈ typeNames := by
  unfold Slot.typ
  cases htype : s.type.filter (Entry.live t) with
  | none => simp [typeNames]
  | some e => exact h e (filter_live_eq_some htype)

/-- A command writes a type entry with the value it writes, or rewrites the type that was there. -/
theorem acts_typesNamed {env : Env} {cmd : Command} {k : Bytes} {x : View} {act : KeyAct}
    (hact : Acts env cmd k x act) {s : Slot} (h : ∀ e, s.type = some e → e.value ∈ typeNames) :
    ∀ e, (act.onSlot c env s).type = some e → e.value ∈ typeNames := by
  intro e he
  cases hact with
  | keep => exact h e he
  | put v hv htyp hold =>
    cases he
    rw [value_withTTLMs]
    exact Value.typ_mem hv
  | expire hop hk hx => exact h e he
  | persist hop hk p hx hexp =>
    cases he
    exact Slot.typ_mem h env.clock.now
  | drop hop => cases he
  | unset hop => exact h e he
  | flush hop => exact h e (Option.filter_eq_some_iff.mp he).1

/-- Data commands write type entries with the name of a type. -/
theorem applyData_typesNamed (env : Env) (cmd : Command) :
    Txn.Respects (fun db db' => TypesNamed db → TypesNamed db') (applyData c env cmd) := by
  intro db h
  obtain ⟨r, db', hrun, -, hslot⟩ := applyData_run c env cmd db
  rw [hrun]
  intro k e he
  have hact := keyAct_acts env cmd k (DB.view c env.clock.now db k)
  have hnamed := acts_typesNamed (c := c) (s := Slot.of db k) hact (h k)
  rw [← hslot k] at hnamed
  exact hnamed e he

/-- An entry under any other key says nothing about types. -/
theorem TypesNamed.insert (h : TypesNamed db) {key : Bytes} (hkey : ∀ k, key ≠ typeKey k)
    (e : Entry) :
    TypesNamed (db.insert key e) := by
  intro k e' he'
  rw [OrdMap.get?_insert_of_ne db e (hkey k)] at he'
  exact h k e' he'

theorem TypesNamed.erase (h : TypesNamed db) (key : Bytes) : TypesNamed (db.erase key) := by
  intro k e he
  rw [OrdMap.get?_erase] at he
  split_ifs at he
  exact h k e he

theorem scriptLoad_typesNamed (cmd : Command) :
    Txn.Respects (fun db db' => TypesNamed db → TypesNamed db') (scriptLoad cmd) := by
  unfold scriptLoad
  split
  · intro db h
    exact h.insert (fun k hk => by cases hk) _
  · exact Txn.respects_throw (fun _ h => h) _

theorem scriptFlush_typesNamed (t : Nat) :
    Txn.Respects (fun db db' => TypesNamed db → TypesNamed db') (scriptFlush t) := by
  intro db h k e he
  rw [scriptFlush_run, OrdMap.get?_foldl_erase] at he
  split_ifs at he
  exact h k e he

theorem TypesNamed.apply (h : TypesNamed db) (fuel : Nat) (envs : List Nat → Env) (cmd : Command) :
    TypesNamed (fsmApply vm c fuel envs cmd db).2 := by
  have htxn := applyCmdInTxn_respects vm (R := fun db db' => TypesNamed db → TypesNamed db')
    (fun _ h => h) (fun _ _ _ h h' hdb => h' (h hdb)) scriptLoad_typesNamed scriptFlush_typesNamed c
    applyData_typesNamed fuel envs cmd
  exact htxn.atomically (fun _ h => h) db h

/-- In a reachable store every type entry holds the name of a type. -/
theorem Reachable.typesNamed (h : Reachable vm c lc db) : TypesNamed db := by
  induction h with
  | empty => exact fun k e he => by cases he
  | apply h fuel envs cmd ih => exact ih.apply fuel envs cmd
  | storeLogs h lim logs ih =>
    exact storeLogs_induct lim lc logs (fun db i val hdb => hdb.insert (fun k hk => by cases hk) _)
      ih
  | deleteRange h lim min max ih =>
    exact deleteRange_induct lim min max (fun db i hdb => hdb.erase (logKey i)) ih
  | set h name val hname ih => exact ih.insert (fun k hk => by cases hk) _
  | @restore src db hsrc h t ihsrc ih =>
    intro k e he
    rw [get?_restore] at he
    cases hlive : src.getLive t (typeKey k) with
    | none =>
      rw [hlive] at he
      exact ih k e he
    | some e' =>
      rw [hlive] at he
      cases he
      exact ihsrc k e (Option.filter_eq_some_iff.mp hlive).1

end TypesNamed

/-! ## The views -/

/-- At the clock reading `t` the five reads agree whether `k` exists, and TTL and PTTL both answer
`-1` exactly for an entry without expiry. -/
structure ViewsAgree (t : Nat) (db : DB) (k : Bytes) : Prop where
  type : ((fsmExists t [k]).run db).1 = .ok 1 ↔ ((fsmType t k).run db).1 ≠ .ok (ascii "none")
  ttl : ((fsmExists t [k]).run db).1 = .ok 1 ↔ ((fsmTTL t k).run db).1 ≠ .ok (-2)
  pttl : ((fsmExists t [k]).run db).1 = .ok 1 ↔ ((fsmPTTL t k).run db).1 ≠ .ok (-2)
  keys : ((fsmExists t [k]).run db).1 = .ok 1 ↔
    ∃ keys, ((fsmKeysChecked t (ascii "*")).run db).1 = .ok keys ∧ k ∈ keys
  ttl_permanent : ((fsmTTL t k).run db).1 = .ok (-1) ↔ ((fsmPTTL t k).run db).1 = .ok (-1)
  pttl_permanent : ((fsmPTTL t k).run db).1 = .ok (-1) ↔
    ∃ e, db.get? (userKey k) = some e ∧ e.expiresAt = 0

section Views

variable {t : Nat} {db : DB} {k : Bytes}

/-- EXISTS of one key looks at its user entry. -/
theorem fsmExists_one_run :
    (fsmExists t [k]).run db = (.ok (if DB.present t db k then 1 else 0), db) := by
  unfold fsmExists existsLoop
  rw [Txn.run_bind_ok (txnGet_run db t (userKey k))]
  unfold DB.present DB.getLive
  cases (db.get? (userKey k)).filter (Entry.live t) <;> rfl

theorem exists_eq_one_iff : ((fsmExists t [k]).run db).1 = .ok 1 ↔ DB.present t db k = true := by
  rw [fsmExists_one_run]
  cases DB.present t db k <;> simp

theorem timeToLive_of_none (unit : Int → Int) (h : db.getLive t (userKey k) = none) :
    ((timeToLive unit t k).run db).1 = .ok (-2) := by
  unfold timeToLive
  rw [Txn.run_bind_ok (txnGet_run db t (userKey k)), show Option.filter _ _ = none from h]
  rfl

/-- TTL and PTTL of a live key: -1 without an expiry, and -2 if the difference to the expiry has
come out negative. -/
theorem timeToLive_of_some (unit : Int → Int) {e : Entry} (h : db.getLive t (userKey k) = some e) :
    ((timeToLive unit t k).run db).1 =
      .ok (if e.expiresAt = 0 then -1
        else if unit (timeUntil t e.expiresAt) < 0 then -2
          else unit (timeUntil t e.expiresAt)) := by
  unfold timeToLive
  rw [Txn.run_bind_ok (txnGet_run db t (userKey k)), show Option.filter _ _ = some e from h]
  dsimp only
  split_ifs <;> rfl

/-- A live entry with an expiry that is not negative as a signed number has time left. -/
theorem timeUntil_pos {e : Entry} (hlive : e.live t = true) (hexp : e.expiresAt ≠ 0)
    (hlt : e.expiresAt.toNat < 2 ^ 63) : 0 < timeUntil t e.expiresAt := by
  have hnow : unixNow t < e.expiresAt.toNat := by
    simpa [Entry.live, hexp] using hlive
  unfold unixNow at hnow
  unfold timeUntil
  rw [toInt_toInt64, if_pos hlt]
  omega

/-- An expiry that is negative as a signed number is over a second past. -/
theorem timeUntil_of_ge {exp : UInt64} (h : 2 ^ 63 ≤ exp.toNat) :
    timeUntil t exp ≤ -1000000000 := by
  have := exp.toNat_lt
  unfold timeUntil
  rw [toInt_toInt64, if_neg (by omega)]
  omega

theorem durationSeconds_nonneg {d : Int} (h : 0 < d) : 0 ≤ durationSeconds d := by
  unfold durationSeconds
  refine Int.mul_nonneg ?_ (Int.natCast_nonneg _)
  rw [Int.sign_eq_one_of_pos h]
  decide

/-- The pattern `*` is accepted and matches every live key. -/
theorem keys_star_run (t : Nat) (db : DB) :
    ∃ keys, ((fsmKeysChecked t (ascii "*")).run db).1 = .ok keys ∧
      ∀ k, k ∈ keys ↔ DB.present t db k = true := by
  have hall : ∀ text, redisGlobMatch (ascii "*") text = .ok ((fun _ => true) text) := fun _ => rfl
  refine ⟨_, by rw [fsmKeys_run hall t db], fun k => ?_⟩
  rw [List.filter_true]
  exact mem_userKeys_iff t db k

/-- TYPE of a live key is never `none`. -/
theorem type_ne_none (hnamed : TypesNamed db) (h : DB.present t db k = true) :
    ((fsmType t k).run db).1 ≠ .ok (ascii "none") := by
  rw [fsmType_run t k db h]
  intro hnone
  have hmem := Slot.typ_mem (s := Slot.of db k) (hnamed k) t
  rw [Except.ok.inj hnone] at hmem
  exact absurd hmem (by decide)

theorem type_of_none (h : db.getLive t (userKey k) = none) :
    ((fsmType t k).run db).1 = .ok (ascii "none") := by
  unfold fsmType
  rw [Txn.run_bind_ok (txnGet_run db t (userKey k)), show Option.filter _ _ = none from h]
  rfl

theorem present_of_some {e : Entry} (h : db.getLive t (userKey k) = some e) :
    DB.present t db k = true := by
  rw [DB.present, h]
  rfl

theorem getLive_of_permanent {e : Entry} (he : db.get? (userKey k) = some e)
    (hexp : e.expiresAt = 0) :
    db.getLive t (userKey k) = some e :=
  Option.filter_eq_some_iff.mpr ⟨he, by simp [Entry.live, hexp]⟩

theorem viewsAgree_of_none (h : db.getLive t (userKey k) = none) : ViewsAgree t db k := by
  obtain ⟨keys, hkeys, hmem⟩ := keys_star_run t db
  have habsent : ¬ DB.present t db k = true := by simp [DB.present, h]
  have httl : ((fsmTTL t k).run db).1 = .ok (-2) := timeToLive_of_none _ h
  have hpttl : ((fsmPTTL t k).run db).1 = .ok (-2) := timeToLive_of_none _ h
  constructor
  · simp [exists_eq_one_iff, habsent, type_of_none h]
  · simp [exists_eq_one_iff, habsent, httl]
  · simp [exists_eq_one_iff, habsent, hpttl]
  · simp [exists_eq_one_iff, hkeys, hmem]
  · simp [httl, hpttl]
  · rw [hpttl]
    constructor
    · intro heq
      cases heq
    · rintro ⟨e, he, hexp⟩
      rw [getLive_of_permanent he hexp] at h
      cases h

/-- The answers agree about a live key whose expiry is one that `time.Unix` takes as it is. -/
theorem viewsAgree_of_some (hnamed : TypesNamed db) {e : Entry}
    (h : db.getLive t (userKey k) = some e) (hlt : e.expiresAt.toNat < 2 ^ 63) :
    ViewsAgree t db k := by
  obtain ⟨keys, hkeys, hmem⟩ := keys_star_run t db
  have hpresent := present_of_some h
  obtain ⟨he, hlive⟩ := Option.filter_eq_some_iff.mp h
  -- a duration in either unit is not negative
  have hsecs : e.expiresAt ≠ 0 → 0 ≤ durationSeconds (timeUntil t e.expiresAt) := fun hexp =>
    durationSeconds_nonneg (timeUntil_pos hlive hexp hlt)
  have hms : e.expiresAt ≠ 0 → 0 ≤ (timeUntil t e.expiresAt).tdiv 1000000 := fun hexp =>
    Int.tdiv_nonneg (timeUntil_pos hlive hexp hlt).le (by decide)
  have hanswer : ∀ (unit : Int → Int), (e.expiresAt ≠ 0 → 0 ≤ unit (timeUntil t e.expiresAt)) →
      ((timeToLive unit t k).run db).1 ≠ .ok (-2) ∧
        (((timeToLive unit t k).run db).1 = .ok (-1) ↔ e.expiresAt = 0) := by
    intro unit hunit
    rw [timeToLive_of_some unit h]
    by_cases hexp : e.expiresAt = 0
    · simp [hexp]
    · have := hunit hexp
      simp only [hexp, if_false, if_neg (not_lt.mpr this), ne_eq, Except.ok.injEq, iff_false]
      omega
  obtain ⟨httl, httl'⟩ := hanswer durationSeconds hsecs
  obtain ⟨hpttl, hpttl'⟩ := hanswer (fun d => d.tdiv 1000000) hms
  constructor
  · exact iff_of_true (exists_eq_one_iff.mpr hpresent) (type_ne_none hnamed hpresent)
  · exact iff_of_true (exists_eq_one_iff.mpr hpresent) httl
  · exact iff_of_true (exists_eq_one_iff.mpr hpresent) hpttl
  · exact iff_of_true (exists_eq_one_iff.mpr hpresent) ⟨keys, hkeys, (hmem k).mpr hpresent⟩
  · exact httl'.trans hpttl'.symm
  · refine hpttl'.trans ⟨fun hexp => ⟨e, he, hexp⟩, ?_⟩
    rintro ⟨e', he', hexp⟩
    rw [he] at he'
    cases he'
    exact hexp

end Views

/-- In every state of a store and at every instant, the views of a key agree exactly if the key is
absent or its expiry is below `2 ^ 63`. -/
theorem views_agree_iff (vm : LuaVM) (c : Codec) (lc : LogCodec) (db : DB)
    (h : Reachable vm c lc db) (t : Nat) (k : Bytes) :
    ViewsAgree t db k ↔ ∀ e, db.getLive t (userKey k) = some e → e.expiresAt.toNat < 2 ^ 63 := by
  cases hlive : db.getLive t (userKey k) with
  | none => exact iff_of_true (viewsAgree_of_none hlive) (fun e he => by cases he)
  | some e =>
    constructor
    · rintro hagree e' ⟨⟩
      by_contra hge
      have hneg := timeUntil_of_ge (t := t) (not_lt.mp hge)
      have hpttl := hagree.pttl.mp (exists_eq_one_iff.mpr (present_of_some hlive))
      refine hpttl ((timeToLive_of_some _ hlive).trans ?_)
      rw [if_neg, if_pos]
      · show (timeUntil t e.expiresAt).tdiv 1000000 < 0
        rw [tdiv_million]
        omega
      · intro hexp
        rw [hexp] at hge
        exact hge (by decide)
    · intro hlt
      exact viewsAgree_of_some h.typesNamed hlive (hlt e rfl)

/-- What `SET k v` and then `EXPIRE k` with this many milliseconds leave. -/
def setThenExpire (ttlMs : Int64) : DB :=
  (fsmApply noScripts msgpack 0 (fun _ => Env.at 1700000001000000000)
    { op := .expire, key := ascii "k", ttlMs := ttlMs }
    (fsmApply noScripts msgpack 0 (fun _ => Env.at 1700000000000000000)
      { op := .set, key := ascii "k", args := [ascii "v"] } OrdMap.empty).2).2

theorem setThenExpire_reachable (ttlMs : Int64) :
    Reachable noScripts msgpack noLogs (setThenExpire ttlMs) :=
  .apply (.apply .empty 0 _ _) 0 _ _

/-- With half of a hundred seconds left the views agree. -/
theorem setThenExpire_views_agree :
    ViewsAgree 1700000050500000000 (setThenExpire 100000) (ascii "k") ∧
      ((fsmTTL 1700000050500000000 (ascii "k")).run (setThenExpire 100000)).1 = .ok 50 := by
  have hexp : ∀ e ∈ (setThenExpire 100000).getLive 1700000050500000000 (userKey (ascii "k")),
      e.expiresAt.toNat < 2 ^ 63 := by decide
  exact ⟨(views_agree_iff noScripts msgpack noLogs _ (setThenExpire_reachable _) _ _).mpr hexp,
    by decide⟩

/-- `EXPIRE k -1800000000` puts the expiry before 1970, which wraps: the key exists and is live for
ever, and TTL and PTTL answer that it does not exist. -/
theorem setThenExpire_views_disagree :
    Reachable noScripts msgpack noLogs (setThenExpire (-1800000000000)) ∧
      ((fsmExists 1700000002000000000 [ascii "k"]).run (setThenExpire (-1800000000000))).1 = .ok 1 ∧
      ((fsmType 1700000002000000000 (ascii "k")).run (setThenExpire (-1800000000000))).1 =
        .ok typeString ∧
      ((fsmTTL 1700000002000000000 (ascii "k")).run (setThenExpire (-1800000000000))).1 = .ok (-2) ∧
      ((fsmPTTL 1700000002000000000 (ascii "k")).run (setThenExpire (-1800000000000))).1 =
        .ok (-2) :=
  ⟨setThenExpire_reachable _, by decide, by decide, by decide, by decide⟩

end Badis
