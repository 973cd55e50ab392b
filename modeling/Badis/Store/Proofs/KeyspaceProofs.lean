import Badis.Store.Keyspace
import Badis.Store.Proofs.ReadsProofs
import Badis.Store.Proofs.TypeProofs

/-!
# The store is a keyspace

Runs whose EXPIREs leave the type entries visible for as long as they are needed reply what the
keyspace replies, and the reads afterwards answer by what the keyspace holds. One step is
`view_applyCmd`.
-/

namespace Badis

open Lib

/-! ## The reads -/

section Reads

variable (c : Codec) (t : Nat) (key : Bytes) (db : DB)

/-- The entry of a key that holds a value. -/
theorem view_cases :
    (db.getLive t (userKey key) = none ∧ DB.view c t db key = none) ∨
      ∃ e, db.getLive t (userKey key) = some e ∧
        DB.view c t db key =
          some (Value.decode c ((Slot.of db key).typ t) e.value, e.expiresAt) := by
  unfold DB.view Slot.view DB.getLive
  show (_ ∧ ((db.get? (userKey key)).filter _).map _ = none) ∨ _
  cases hget : (db.get? (userKey key)).filter (Entry.live t) with
  | none => exact .inl ⟨rfl, rfl⟩
  | some e =>
    refine .inr ⟨e, rfl, ?_⟩
    show ((db.get? (userKey key)).filter _).map _ = _
    rw [hget]
    rfl

theorem fsmType_eq : ((fsmType t key).run db).1 = .ok (View.type (DB.view c t db key)) := by
  rcases view_cases c t key db with ⟨hget, hview⟩ | ⟨e, hget, hview⟩
  · have hnone : (txnGet t (userKey key) : Tx (Option Entry)).run db = (.ok none, db) := by
      rw [txnGet_run]
      exact congrArg (fun o => (Except.ok o, db)) hget
    rw [hview, fsmType, Txn.run_bind_ok hnone]
    rfl
  · rw [hview, fsmType_run t key db (by rw [hget]; rfl)]
    exact congrArg Except.ok (Value.typ_decode c _ _).symm

theorem fsmExists_eq :
    ((fsmExists t [key]).run db).1 = .ok (if (DB.view c t db key).isSome then 1 else 0) := by
  rw [fsmExists, existsLoop_run]
  rcases view_cases c t key db with ⟨hget, hview⟩ | ⟨e, hget, hview⟩
  · simp [hget, hview]
  · simp [hget, hview]

theorem timeToLive_eq (unit : Int → Int) :
    ((timeToLive unit t key).run db).1 = .ok (View.timeToLive unit t (DB.view c t db key)) := by
  have hread : (txnGet t (userKey key) : Tx (Option Entry)).run db =
    (.ok (db.getLive t (userKey key)), db) := rfl
  rw [timeToLive, Txn.run_bind_ok hread]
  rcases view_cases c t key db with ⟨hget, hview⟩ | ⟨e, hget, hview⟩
  · rw [hget, hview]
    rfl
  · rw [hget, hview]
    unfold View.timeToLive
    dsimp only
    split_ifs <;> rfl

theorem readAs_eq {α : Type} {want : Bytes} {decode : Bytes → Option α} {as : Value → Except Err α}
    (has : ReadsAs c as want decode) :
    (readAs t key want decode).run db = (View.read as (DB.view c t db key), db) := by
  rcases view_cases c t key db with ⟨hget, hview⟩ | ⟨e, hget, hview⟩
  · rw [hview]
    exact readAs_of_none c t key db hview
  · rw [readAs_run, show (db.get? (userKey key)).filter (Entry.live t) = some e from hget, hview]
    unfold View.read
    dsimp only
    rw [has]
    split_ifs
    · cases decode e.value <;> rfl
    · rfl

/-- Reading the members and making a set of them is reading the set. -/
theorem readAs_map {α β : Type} (want : Bytes) (decode : Bytes → Option α) (f : α → β) :
    ((readAs t key want fun b => (decode b).map f).run db).1 =
      ((readAs t key want decode).run db).1.map (Option.map f) := by
  rw [readAs_run, readAs_run]
  cases (db.get? (userKey key)).filter (Entry.live t) with
  | none => rfl
  | some item =>
    dsimp only
    split_ifs
    · cases decode item.value <;> rfl
    · rfl

theorem sIsMember_eq (m : Bytes) : ((sIsMember c t key m).run db).1 =
    (View.read Value.asSet (DB.view c t db key)).map fun s =>
      if (s.getD OrdMap.empty).contains m then 1 else 0 := by
  have hset := readAs_eq c t key db (asSet_reads c)
  have hmap := readAs_map t key db typeSet c.decodeStrings toSet
  rw [show (fun b => (c.decodeStrings b).map toSet) = decodeSet c from rfl, hset] at hmap
  dsimp only at hmap
  rw [hmap, sIsMember, Txn.run_bind]
  generalize (readAs t key typeSet c.decodeStrings).run db = out
  obtain ⟨r, db'⟩ := out
  cases r with
  | error e => rfl
  | ok members =>
    cases members with
    | none => rfl
    | some l =>
      refine congrArg Except.ok ?_
      have hcontains : (toSet l).contains m = decide (m ∈ l) := by
        unfold OrdMap.contains
        rw [get?_toSet]
        split_ifs with hm
        · simp [hm]
        · simp [hm]
      simp only [Option.map_some, Option.getD_some, hcontains, decide_eq_true_eq]

theorem reads_from_view : ReadsFrom c t db key (DB.view c t db key) where
  getString := by
    rw [getString_run c]
    rcases DB.view c t db key with _ | ⟨v, exp⟩
    · rfl
    · cases v <;> rfl
  type := fsmType_eq c t key db
  present := fsmExists_eq c t key db
  ttl := timeToLive_eq c t key db _
  pttl := timeToLive_eq c t key db _
  hGetAll := by
    rw [hGetAll, Txn.run_bind, readAs_eq c t key db (asHash_reads c)]
    cases View.read Value.asHash (DB.view c t db key) <;> rfl
  lRange start stop := by
    rw [lRange, Txn.run_bind, readAs_eq c t key db (asList_reads c)]
    cases View.read Value.asList (DB.view c t db key) <;> rfl
  sIsMember m := sIsMember_eq c t key db m

end Reads

/-! ## Runs -/

theorem View.at_at {t t' : Nat} (ht : t ≤ t') (x : View) :
    View.at t' (View.at t x) = View.at t' x := by
  cases x with
  | none => rfl
  | some p =>
    unfold View.at
    by_cases hlive : Entry.live t ⟨[], p.2⟩ = true
    · simp [Option.filter, hlive]
    · have hdead : ¬ Entry.live t' ⟨[], p.2⟩ = true := fun hl => hlive (live_mono ht hl)
      simp [Option.filter, hlive, hdead]

theorem View.at_of_timeless {x : View} (hx : x.timeless = true) (t : Nat) : View.at t x = x := by
  cases x with
  | none => rfl
  | some p =>
    obtain ⟨v, exp⟩ := p
    obtain rfl : exp = 0 := by simpa [View.timeless] using hx
    simp [View.at, Option.filter, live_of_no_expiry]

theorem Holds.mono {c : Codec} {t t' : Nat} (ht : t ≤ t') {db : DB} {k : Bytes} {x : View}
    (h : Holds c t db k x) :
    Holds c t' db k x := fun t'' ht' => h t'' (ht.trans ht')

/-- A command leaves a key holding what its action says. -/
theorem Holds.apply {c : Codec} (hc : c.Lawful) {env : Env} {cmd : Command} {db : DB} {k : Bytes}
    {x : View} (hsafe : ExpireSafe env cmd db) (h : Holds c env.clock.now db k x) :
    let now := View.at env.clock.now x
    Holds c env.clock.now (applyCmd c env cmd db).2 k
      ((keyAct env cmd k now).onView env.clock now) := by
  intro now t ht
  have hnow : DB.view c env.clock.now db k = now := h _ le_rfl
  rw [view_applyCmd hc hsafe k ht, hnow]
  split_ifs with hkeep
  · rw [hkeep, h t ht]
    exact (View.at_at ht x).symm
  · rfl

theorem represents_empty (c : Codec) : Represents c 0 OrdMap.empty fun _ => none := fun _ _ _ => rfl

/-- A command does to the database what it does to the keyspace. -/
theorem Represents.apply {c : Codec} (hc : c.Lawful) {env : Env} {cmd : Command} {db : DB}
    {ks : Keyspace} (hsafe : ExpireSafe env cmd db) (h : Represents c env.clock.now db ks) :
    (applyCmd c env cmd db).1 = (Keyspace.apply env cmd ks).1 ∧
      Represents c env.clock.now (applyCmd c env cmd db).2 (Keyspace.apply env cmd ks).2 := by
  have hnow : DB.view c env.clock.now db = Keyspace.at env.clock.now ks :=
    funext fun k => h k _ le_rfl
  refine ⟨?_, fun k => (h k).apply hc hsafe⟩
  rw [reply_applyCmd, hnow]
  rfl

/-- The store refines the keyspace: in any run in which the clock does not go back and no EXPIRE
lets a value outlive its type entry, every command replies what it replies on the keyspace, and from
then on every read answers by what its key holds there. -/
theorem store_refines_keyspace {c : Codec} (hc : c.Lawful) {steps : List Step} {t : Nat} {db : DB}
    {ks : Keyspace} (hord : Ordered t steps) (hsafe : Along c ExpireSafe steps db)
    (h : Represents c t db ks) :
    (applyLog c steps db).1 = (Keyspace.applyLog steps ks).1 ∧
      ∀ t' ≥ lastReading t steps, ∀ k,
        ReadsFrom c t' (applyLog c steps db).2 k
          (View.at t' ((Keyspace.applyLog steps ks).2 k)) := by
  induction steps generalizing t db ks with
  | nil =>
    refine ⟨rfl, fun t' ht k => ?_⟩
    have hview : DB.view c t' db k = View.at t' (ks k) := h k t' ht
    show ReadsFrom c t' db k (View.at t' (ks k))
    rw [← hview]
    exact reads_from_view c t' k db
  | cons s rest ih =>
    obtain ⟨env, cmd⟩ := s
    obtain ⟨hreply, hdb⟩ := Represents.apply hc hsafe.1 fun k => (h k).mono hord.1
    obtain ⟨hreplies, hreads⟩ := ih hord.2 hsafe.2 fun k => (hdb k).mono env.clock.now_le_ttlType
    exact ⟨congrArg₂ List.cons hreply hreplies, hreads⟩

/-- A hash, pushed to as a list, and a string that expires before it is appended to. -/
theorem store_refines_keyspace_expired :
    let steps : List Step := [
      (Env.at 1000000000000, { op := .hset, key := [104], args := [[102], [118]] }),
      (Env.at 1000000000000, { op := .set, key := [107], args := [[118]], ttlMs := 1000 }),
      (Env.at 1001000000000, { op := .lpush, key := [104], args := [[120]] }),
      (Env.at 1002000000000, { op := .append, key := [107], args := [[120]] })]
    Ordered 0 steps ∧ Along msgpack ExpireSafe steps OrdMap.empty ∧
      (applyLog msgpack steps OrdMap.empty).1 = (Keyspace.applyLog steps fun _ => none).1 := by
  intro steps
  have hord : Ordered 0 steps := by decide +kernel
  have hsafe : Along msgpack ExpireSafe steps OrdMap.empty := by decide +kernel
  exact ⟨hord, hsafe,
    (store_refines_keyspace msgpack_lawful hord hsafe (represents_empty msgpack)).1⟩

end Badis
