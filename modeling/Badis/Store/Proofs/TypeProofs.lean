import Badis.Store.Encoding
import Badis.Store.Log
import Badis.Store.Reads
import Badis.Store.Proofs.StepProofs

/-!
# A live key keeps its type

The type of a key is an entry of its own with an expiry of its own. Every write of a value writes
both entries, but an EXPIRE can make a value outlive its type entry; the value then reads as a
string. `type_kept` is the invariant of the runs without such an EXPIRE: what is read as the type of
a visible key is the type under which its value was last written.
-/

namespace Badis

open Lib

/-! ## The type last written -/

/-- The type noted after a command with the reply `r` that writes values under the type
`written`. -/
def noteType (r : Except Err Result) (written typ : Option Bytes) : Option Bytes :=
  match r, written with
  | .ok _, some written => some written
  | _, _ => typ

/-- The type under which the value of `k` was last written: that of the last command that succeeded
and writes values under a type. -/
def lastType (c : Codec) (k : Bytes) : List Step → DB → Option Bytes → Option Bytes
  | [], _, typ => typ
  | (env, cmd) :: rest, db, typ =>
    lastType c k rest (applyCmd c env cmd db).2
      (noteType (applyCmd c env cmd db).1 (typeWritten cmd k) typ)

section Success

variable {env : Env} {cmd : Command} {v : Value} {exp : UInt64} {p : Result × KeyAct}

theorem typ_of_read_ok {α : Type} {as : Value → Except Err α} {typ : Bytes}
    {f : Option (α × Int64) → Plan} (has : ∀ w a, as w = .ok a → w.typ = typ)
    (h : readView env as (some (v, exp)) >>= f = .ok p) : v.typ = typ := by
  cases hv : as v with
  | error e =>
    simp only [readView, hv] at h
    cases h
  | ok a => exact has v a hv

/-- A command that succeeds on a key found it missing, or of the type it writes. -/
theorem typ_of_plan_ok {typ : Bytes} (h : plan env cmd (some (v, exp)) = .ok p)
    (hw : typeWritten cmd cmd.key = some typ) : v.typ = typ := by
  have hlist : ∀ w a, Value.asList w = .ok a → w.typ = typeList := fun w a hw => by
    rw [typ_of_asList hw]
    rfl
  have hhash : ∀ w a, Value.asHash w = .ok a → w.typ = typeHash := fun w a hw => by
    rw [typ_of_asHash hw]
    rfl
  have hset : ∀ w a, Value.asSet w = .ok a → w.typ = typeSet := fun w a hw => by
    rw [typ_of_asSet hw]
    rfl
  unfold plan at h
  cases hop : cmd.op <;> rw [hop] at h <;> simp only [typeWritten, hop, if_true] at hw
  case set | getset | append =>
    cases hw
    unfold planSet at h
    cases hargs : cmd.args <;> rw [hargs] at h
    · cases h
    · cases v <;> cases h
      rfl
  case incr | decr | incrby | decrby =>
    cases hw
    cases v <;> first | cases h | rfl
  case hset | hsetnx =>
    cases hw
    unfold planHSet at h
    split_ifs at h
    exact typ_of_read_ok hhash h
  case hdel => cases hw; exact typ_of_read_ok hhash h
  case lpush | rpush | lpushx | rpushx => cases hw; exact typ_of_read_ok hlist h
  case lpop | rpop => cases hw; exact typ_of_read_ok hlist h
  case ltrim => cases hw; exact typ_of_read_ok hlist h
  case lrem => cases hw; exact typ_of_read_ok hlist h
  case sadd => cases hw; exact typ_of_read_ok hset h
  case srem | spop => cases hw; exact typ_of_read_ok hset h
  all_goals first | cases hw | cases h

end Success

section Step

variable {c : Codec} {env : Env} {cmd : Command} {db : DB} {k : Bytes} {e : Entry}

theorem keyAct_eq_put_of_mset (hop : cmd.op = .mset) {views : Bytes → View} {r : Result}
    {typ : Bytes} (hr : reply env cmd views = .ok r) (hw : typeWritten cmd k = some typ) :
    ∃ v, keyAct env cmd k (views k) = .put (.string v) 0 := by
  have heven : ¬ cmd.args.length % 2 ≠ 0 := by
    intro hodd
    simp only [reply, hop, if_pos hodd] at hr
    cases hr
  simp only [typeWritten, hop] at hw
  split_ifs at hw with hval
  obtain ⟨v, hv⟩ := Option.isSome_iff_exists.mp hval
  refine ⟨v, ?_⟩
  simp only [keyAct, hop, if_neg heven, hv]

/-- A command that succeeds without touching a visible key whose type it writes found that type. -/
theorem typ_of_kept {r : Result} {typ : Bytes}
    (hr : reply env cmd (DB.view c env.clock.now db) = .ok r) (hw : typeWritten cmd k = some typ)
    (hkeep : keyAct env cmd k (DB.view c env.clock.now db k) = .keep)
    (he : (Slot.of db k).user = some e) (hlive : e.live env.clock.now = true) :
    (Slot.of db k).typ env.clock.now = typ := by
  have hview : DB.view c env.clock.now db k =
      some (Value.decode c ((Slot.of db k).typ env.clock.now) e.value, e.expiresAt) :=
    Slot.view_of_live he hlive
  cases hmulti : cmd.op.multi with
  | true =>
    cases hop : cmd.op <;> rw [hop] at hmulti
    case mset =>
      obtain ⟨v, hput⟩ := keyAct_eq_put_of_mset hop hr hw
      rw [hkeep] at hput
      cases hput
    case del => simp [typeWritten, hop] at hw
    case flushdb => simp [typeWritten, hop] at hw
    all_goals cases hmulti
  | false =>
    have hk : cmd.key = k := by
      by_contra hk
      unfold typeWritten at hw
      cases hop :
        cmd.op <;> simp only [hop, if_neg hk] at hw hmulti <;> first | cases hw | cases hmulti
    subst hk
    rw [reply_of_single env cmd hmulti] at hr
    cases hplan : plan env cmd (DB.view c env.clock.now db cmd.key) with
    | error err => rw [hplan] at hr; cases hr
    | ok p =>
      rw [hview] at hplan
      rw [← typ_of_plan_ok hplan hw, Value.typ_decode]

/-- After a command that succeeds and writes under a type, a visible key has that type. -/
theorem typ_of_written (hsafe : ExpireSafe env cmd db) {r : Result} {typ : Bytes}
    (hr : (applyCmd c env cmd db).1 = .ok r) (hw : typeWritten cmd k = some typ)
    (he : (Slot.of (applyCmd c env cmd db).2 k).user = some e)
    (hlive : e.live env.clock.now = true) :
    (Slot.of (applyCmd c env cmd db).2 k).typ env.clock.now = typ := by
  have hact := keyAct_safe c hsafe k
  have hacts := keyAct_acts env cmd k (DB.view c env.clock.now db k)
  rw [reply_applyCmd] at hr
  rw [slot_applyCmd] at he ⊢
  cases hkeep : keyAct env cmd k (DB.view c env.clock.now db k) with
  | put v ttlMs =>
    rw [hkeep] at hact hacts he
    rw [typ_onSlot_put c env hact he hlive]
    cases hacts with
    | put v hv htyp hold => exact Option.some.inj (htyp.symm.trans hw)
  | keep =>
    rw [hkeep] at he
    exact typ_of_kept hr hw hkeep he hlive
  | expire ttlMs =>
    rw [hkeep] at hacts
    cases hacts with
    | expire hop hk hx => simp [typeWritten, hop] at hw
  | persist =>
    rw [hkeep] at hacts
    cases hacts with
    | persist hop hk p hx hexp => simp [typeWritten, hop] at hw
  | drop => rw [hkeep] at he; cases he
  | unset => rw [hkeep] at he; cases he
  | flush =>
    rw [hkeep] at he
    rw [dead_onSlot_flush c env he] at hlive
    cases hlive

/-- A command that fails or writes under no type leaves a visible key the type it had. -/
theorem typ_of_not_written
    (hw : (∃ err, (applyCmd c env cmd db).1 = .error err) ∨ typeWritten cmd k = none)
    (he : (Slot.of (applyCmd c env cmd db).2 k).user = some e)
    (hlive : e.live env.clock.now = true) :
    (∃ e0, (Slot.of db k).user = some e0 ∧ e0.live env.clock.now = true) ∧
      (Slot.of (applyCmd c env cmd db).2 k).typ env.clock.now =
        (Slot.of db k).typ env.clock.now := by
  have hacts := keyAct_acts env cmd k (DB.view c env.clock.now db k)
  rw [slot_applyCmd] at he ⊢
  have herr : (∃ err, (applyCmd c env cmd db).1 = .error err) →
      keyAct env cmd k (DB.view c env.clock.now db k) = .keep := by
    rintro ⟨err, herr⟩
    rw [reply_applyCmd] at herr
    exact keyAct_of_error env cmd k herr
  cases hact : keyAct env cmd k (DB.view c env.clock.now db k) with
  | keep =>
    rw [hact] at he
    exact ⟨⟨e, he, hlive⟩, rfl⟩
  | put v ttlMs =>
    rw [hact] at hacts
    cases hacts with
    | put v hv htyp hold =>
      rcases hw with hw | hw
      · rw [herr hw] at hact; cases hact
      · rw [hw] at htyp; cases htyp
  | expire ttlMs =>
    rw [hact] at hacts
    cases hacts with
    | expire hop hk hx =>
      obtain ⟨⟨v, exp⟩, hx⟩ := Option.isSome_iff_exists.mp hx
      obtain ⟨e0, he0, hlive0, -, -⟩ := Slot.view_eq_some hx
      exact ⟨⟨e0, he0, hlive0⟩, rfl⟩
  | persist =>
    rw [hact] at hacts
    cases hacts with
    | persist hop hk p hx hexp =>
      obtain ⟨v, exp⟩ := p
      obtain ⟨e0, he0, hlive0, -, -⟩ := Slot.view_eq_some hx
      refine ⟨⟨e0, he0, hlive0⟩, ?_⟩
      simp [Slot.typ, KeyAct.onSlot, Option.filter, Entry.live, newEntry]
  | drop => rw [hact] at he; cases he
  | unset => rw [hact] at he; cases he
  | flush =>
    rw [hact] at he
    rw [dead_onSlot_flush c env he] at hlive
    cases hlive

end Step

/-! ## Runs -/

/-- What is read as the type of `k`, if it is visible, is `typ`. -/
def TypeIs (t : Nat) (db : DB) (k : Bytes) (typ : Option Bytes) : Prop :=
  ∀ e, (Slot.of db k).user = some e → e.live t = true → typ = some ((Slot.of db k).typ t)

theorem TypeIs.mono {t t' : Nat} {db : DB} {k : Bytes} {typ : Option Bytes} (ht : t ≤ t')
    (hs : db.Steady t) (h : TypeIs t db k typ) : TypeIs t' db k typ := by
  intro e he hlive
  rw [(hs k).typ_eq ht he hlive]
  exact h e he (live_mono ht hlive)

theorem typeIs_lastType (c : Codec) (k : Bytes) {steps : List Step} {db : DB} {t : Nat}
    {typ : Option Bytes} (hord : Ordered t steps) (hsafe : Along c ExpireSafe steps db)
    (hs : db.Steady t) (h : TypeIs t db k typ) :
    (applyLog c steps db).2.Steady (lastReading t steps) ∧
      TypeIs (lastReading t steps) (applyLog c steps db).2 k (lastType c k steps db typ) := by
  induction steps generalizing db t typ with
  | nil => exact ⟨hs, h⟩
  | cons s rest ih =>
    obtain ⟨env, cmd⟩ := s
    obtain ⟨ht, hord⟩ := hord
    obtain ⟨hsafe, hrest⟩ := hsafe
    have hs' := steady_applyCmd c ht hsafe hs
    have hnow : env.clock.now ≤ env.clock.ttlType :=
      (env.clock.now_le.trans env.clock.remaining_le).trans env.clock.ttl_le
    have h0 : TypeIs env.clock.now db k typ := h.mono ht hs
    rw [applyLog_cons]
    refine ih hord hrest (fun k => (hs' k).mono hnow) (TypeIs.mono hnow hs' ?_)
    intro e he hlive
    cases hr : (applyCmd c env cmd db).1 with
    | ok r =>
      cases hw : typeWritten cmd k with
      | some written =>
        rw [typ_of_written hsafe hr hw he hlive]
        rfl
      | none =>
        obtain ⟨⟨e0, he0, hlive0⟩, htyp⟩ := typ_of_not_written (Or.inr hw) he hlive
        rw [htyp]
        exact h0 e0 he0 hlive0
    | error err =>
      obtain ⟨⟨e0, he0, hlive0⟩, htyp⟩ := typ_of_not_written (Or.inl ⟨err, hr⟩) he hlive
      rw [htyp]
      exact h0 e0 he0 hlive0

theorem fsmType_run (t : Nat) (k : Bytes) (db : DB) (h : (db.getLive t (userKey k)).isSome) :
    (fsmType t k).run db = (.ok ((Slot.of db k).typ t), db) := by
  obtain ⟨e, he⟩ := Option.isSome_iff_exists.mp h
  unfold DB.getLive at he
  rw [fsmType, Txn.run_bind_ok (txnGet_run db _ _), he]
  simp only
  rw [Txn.run_bind_ok (txnGet_run db _ _)]
  unfold Slot.typ Slot.of
  cases (db.get? (typeKey k)).filter (Entry.live t) <;> rfl

/-- In every run from the empty database whose EXPIREs are safe, at every later instant, the type of
a visible key is the one under which its value was last written. -/
theorem type_kept (c : Codec) (steps : List Step) (hord : Ordered 0 steps)
    (hsafe : Along c ExpireSafe steps OrdMap.empty) (k : Bytes) (t : Nat)
    (ht : lastReading 0 steps ≤ t)
    (hlive : ((applyLog c steps OrdMap.empty).2.getLive t (userKey k)).isSome) :
    ∃ typ, lastType c k steps OrdMap.empty none = some typ ∧
      ((fsmType t k).run (applyLog c steps OrdMap.empty).2).1 = .ok typ ∧
      ((getExistingType t k).run (applyLog c steps OrdMap.empty).2).1 = .ok typ := by
  have hempty : DB.Steady 0 OrdMap.empty := fun k e te he => by cases he
  have hnone : TypeIs 0 OrdMap.empty k none := fun e he => by cases he
  obtain ⟨hs, htyp⟩ := typeIs_lastType c k hord hsafe hempty hnone
  obtain ⟨e, he⟩ := Option.isSome_iff_exists.mp hlive
  obtain ⟨huser, hl⟩ := Option.filter_eq_some_iff.mp he
  refine ⟨_, TypeIs.mono ht hs htyp e huser hl, ?_, ?_⟩
  · rw [fsmType_run t k _ hlive]
  · rw [getExistingType_run]

/-- A hash that gets an expiry, is written again (now both of its entries expire at second 1010) and
has its life prolonged to second 1100. -/
def prolongedHash : List Step :=
  [(Env.at 1000000000000, ⟨.hset, [107], [[102], [49]], 0, .always, false⟩),
   (Env.at 1000000000000, ⟨.expire, [107], [], 10000, .always, false⟩),
   (Env.at 1000000000000, ⟨.hset, [107], [[102], [50]], 0, .always, false⟩),
   (Env.at 1000000000000, ⟨.expire, [107], [], 100000, .always, false⟩)]

theorem prolongedHash_reads_as_string :
    Ordered 0 prolongedHash ∧ lastReading 0 prolongedHash ≤ 1050000000000 ∧
    ((applyLog msgpack prolongedHash OrdMap.empty).2.getLive 1050000000000 (userKey [107])).isSome ∧
    lastType msgpack [107] prolongedHash OrdMap.empty none = some typeHash ∧
    ((fsmType 1050000000000 [107]).run (applyLog msgpack prolongedHash OrdMap.empty).2).1 =
      .ok typeString ∧
    ((getExistingType 1050000000000 [107]).run (applyLog msgpack prolongedHash OrdMap.empty).2).1 =
      .ok typeString := by
  decide

/-- The same hash with its life cut to second 1005 instead. -/
def shortenedHash : List Step :=
  [(Env.at 1000000000000, ⟨.hset, [107], [[102], [49]], 0, .always, false⟩),
   (Env.at 1000000000000, ⟨.expire, [107], [], 10000, .always, false⟩),
   (Env.at 1000000000000, ⟨.hset, [107], [[102], [50]], 0, .always, false⟩),
   (Env.at 1000000000000, ⟨.expire, [107], [], 5000, .always, false⟩)]

theorem shortenedHash_keeps_its_type :
    ∃ typ, lastType msgpack [107] shortenedHash OrdMap.empty none = some typ ∧
      ((fsmType 1004000000000 [107]).run (applyLog msgpack shortenedHash OrdMap.empty).2).1 =
        .ok typ ∧
      ((getExistingType 1004000000000 [107]).run
        (applyLog msgpack shortenedHash OrdMap.empty).2).1 =
        .ok typ :=
  type_kept msgpack shortenedHash (by decide) (by decide) [107] 1004000000000
    (by decide) (by decide)

end Badis
