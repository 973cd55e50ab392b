import Badis.Store.Proofs.ActionProofs

/-!
# One step

What one `Apply` preserves and what it leaves behind, key by key. EXPIRE moves the expiry of the
user entry alone, so it can make a value outlive its type entry; a step without such an EXPIRE
(`ExpireSafe`) keeps every type entry visible for as long as it is needed, and leaves every key
holding what the command's action says (`view_applyCmd`). The clock and the map orders enter only
where `plan_eq_of_clock` and `plan_eq_of_timeless` do not exclude it.
-/

namespace Badis

open Lib

/-! ## The type entry lives as long as it is needed -/

/-- An EXPIRE of a visible key that is not a string gives it an expiry that the key's type entry
outlives. -/
def ExpireSafe (env : Env) (cmd : Command) (db : DB) : Prop :=
  cmd.op = .expire → (db.getLive env.clock.now (userKey cmd.key)).isSome →
    ∀ te ∈ db.getLive env.clock.now (typeKey cmd.key), te.value ≠ typeString →
      Outlives te.expiresAt (expireAt env.clock.ttl cmd.ttlMs)

instance (env : Env) (cmd : Command) (db : DB) : Decidable (ExpireSafe env cmd db) := by
  unfold ExpireSafe
  infer_instance

/-- Only a string is written with a time to live of the client's own. -/
theorem ttlWritten_le (env : Env) {cmd : Command} {k typ : Bytes} (x : View)
    (h : typeWritten cmd k = some typ) (htyp : typ ≠ typeString) :
    (ttlWritten env cmd x).toInt ≤ maxTTLMs := by
  have hold : (oldTTLMs env x).toInt ≤ maxTTLMs := by
    cases x with
    | none => exact show (0 : Int64).toInt ≤ maxTTLMs by decide
    | some p => exact remainingTTLMs_le env p.2
  unfold typeWritten at h
  unfold ttlWritten
  cases hop : cmd.op <;> simp only [hop] at h ⊢
  case set | getset | append =>
    split_ifs at h
    exact absurd (Option.some.inj h).symm htyp
  case mset =>
    split_ifs at h
    exact absurd (Option.some.inj h).symm htyp
  all_goals exact hold

theorem keyAct_safe (c : Codec) {env : Env} {cmd : Command} {db : DB}
    (hsafe : ExpireSafe env cmd db) (k : Bytes) :
    (keyAct env cmd k (DB.view c env.clock.now db k)).Safe env.clock (Slot.of db k) := by
  have hacts := keyAct_acts env cmd k (DB.view c env.clock.now db k)
  generalize keyAct env cmd k (DB.view c env.clock.now db k) = act at hacts
  cases hacts with
  | put v hv htyp hold =>
    by_cases hstr : v.typ = typeString
    · exact Or.inl hstr
    · exact Or.inr (outlives_expiryOf env.clock (ttlWritten_le env _ htyp hstr))
  | expire hop hk hx =>
    subst hk
    rw [isSome_view] at hx
    intro te hte hlive hne
    exact hsafe hop hx te (Option.filter_eq_some_iff.mpr ⟨hte, hlive⟩) hne
  | keep => trivial
  | persist hop hk p hx hexp => trivial
  | drop hop => trivial
  | unset hop => trivial
  | flush hop => trivial

/-- While a key that is not a string is visible, so is its type entry. -/
def DB.Steady (t : Nat) (db : DB) : Prop := ∀ k, (Slot.of db k).Steady t

/-- A command whose EXPIRE is safe keeps the two entries of every key in step. -/
theorem steady_applyCmd (c : Codec) {env : Env} {cmd : Command} {db : DB} {t : Nat}
    (ht : t ≤ env.clock.now) (hsafe : ExpireSafe env cmd db) (hs : db.Steady t) :
    (applyCmd c env cmd db).2.Steady env.clock.now := by
  intro k
  rw [slot_applyCmd]
  exact steady_onSlot c env (keyAct_safe c hsafe k) fun _ => (hs k).mono ht

/-- What a key holds from the clock reading of a step on. -/
theorem view_applyCmd {c : Codec} (hc : c.Lawful) {env : Env} {cmd : Command} {db : DB}
    (hsafe : ExpireSafe env cmd db) (k : Bytes) {t : Nat} (ht : env.clock.now ≤ t) :
    DB.view c t (applyCmd c env cmd db).2 k =
      if keyAct env cmd k (DB.view c env.clock.now db k) = .keep then DB.view c t db k
      else View.at t ((keyAct env cmd k (DB.view c env.clock.now db k)).onView env.clock
        (DB.view c env.clock.now db k)) := by
  have hact := keyAct_safe c hsafe k
  have hacts := keyAct_acts env cmd k (DB.view c env.clock.now db k)
  rw [DB.view, slot_applyCmd]
  generalize keyAct env cmd k (DB.view c env.clock.now db k) = act at hact hacts
  by_cases hkeep : act = .keep
  · rw [if_pos hkeep, hkeep]
    rfl
  · rw [if_neg hkeep]
    refine view_onSlot hc env ht hkeep ?_ ?_ hact
    · rintro v ttlMs rfl
      cases hacts with
      | put v hv htyp hold => exact hv
    · rintro (⟨ttlMs, rfl⟩ | rfl)
      · cases hacts with
        | expire hop hk hx => exact hx
      · cases hacts with
        | persist hop hk p hx hexp =>
          change (DB.view c env.clock.now db k).isSome
          rw [hx]
          rfl

/-! ## What a plan reads of the environment -/

section Env

/-- Whatever order SPOP visits the members in, the same ones are popped in the same order: there is
at most one, or none is asked for. -/
def popFree (cmd : Command) (x : View) : Bool :=
  cmd.op ≠ .spop ||
    match x with
    | some (.set set, _) => set.entries.length ≤ 1 || spopCount cmd ≤ 0
    | _ => true

theorem spopLoop_of_nonpos {count : Int} (h : count ≤ 0) (l : List Bytes) (set : GoSet) :
    spopLoop count l set [] = (set, []) := by
  cases l with
  | nil => rfl
  | cons m rest => simp [spopLoop, h]

/-- A map with one key has one iteration order. -/
theorem visit_eq_of_length_le_one (o o' : RangeOrder) {l : List Bytes} (h : l.length ≤ 1) :
    o.visit l = o'.visit l := by
  have hself : ∀ o : RangeOrder, o.visit l = l := by
    intro o
    have hperm := o.perm l
    match l, h with
    | [], _ => exact hperm.eq_nil
    | [a], _ => exact List.perm_singleton.mp hperm
  rw [hself o, hself o']

/-- SPOP of no members, or from a set with at most one, does not depend on the iteration order. -/
theorem planSRem_eq_of_popFree {env env' : Env} {cmd : Command} {x : View}
    (hclock : env.clock = env'.clock) (hop : cmd.op = .spop) (hpop : popFree cmd x = true) :
    planSRem env cmd x = planSRem env' cmd x := by
  obtain ⟨clock, pop, members, encode⟩ := env
  obtain ⟨clock', pop', members', encode'⟩ := env'
  obtain rfl : clock = clock' := hclock
  cases x with
  | none => rfl
  | some p =>
    obtain ⟨v, exp⟩ := p
    cases v with
    | set set =>
      have hloop : spopLoop (spopCount cmd) (pop.visit set.keys) set [] =
          spopLoop (spopCount cmd) (pop'.visit set.keys) set [] := by
        have hor : set.entries.length ≤ 1 ∨ spopCount cmd ≤ 0 := by
          simpa [popFree, hop] using hpop
        rcases hor with h | h
        · rw [visit_eq_of_length_le_one pop pop' (by simpa [OrdMap.keys] using h)]
        · rw [spopLoop_of_nonpos h, spopLoop_of_nonpos h]
      have hne : ¬ Op.spop = Op.srem := by decide
      unfold planSRem
      simp only [readView, Value.asSet, bind, Except.bind, hop, if_neg hne, hloop]
      rfl
    | string b => rfl
    | list l => rfl
    | hash h => rfl
    | raw typ b => rfl

/-- A plan reads the clock, and the iteration order only where SPOP chooses between members. -/
theorem plan_eq_of_clock {env env' : Env} {cmd : Command} {x : View}
    (hclock : env.clock = env'.clock) (hpop : popFree cmd x = true) :
    plan env cmd x = plan env' cmd x := by
  by_cases hop : cmd.op = .spop
  · simp only [plan, hop]
    exact planSRem_eq_of_popFree hclock hop hpop
  · obtain ⟨clock, pop, members, encode⟩ := env
    obtain ⟨clock', pop', members', encode'⟩ := env'
    obtain rfl : clock = clock' := hclock
    unfold plan
    cases hop' : cmd.op
    case spop => exact absurd hop' hop
    case srem =>
      simp only
      unfold planSRem
      simp only [hop', if_true]
      rfl
    all_goals rfl

/-- A view without an expiry. -/
def View.timeless (x : View) : Bool := x.all fun p => p.2 = 0

theorem live_of_no_expiry {e : Entry} (h : e.expiresAt = 0) (t : Nat) : e.live t = true :=
  Entry.live_iff.mpr (Or.inl h)

theorem filter_live_of_no_expiry {o : Option Entry} (h : ∀ e, o = some e → e.expiresAt = 0)
    (t : Nat) :
    o.filter (Entry.live t) = o := by
  cases o with
  | none => rfl
  | some e => simp [Option.filter, live_of_no_expiry (h e rfl) t]

theorem filter_dead_of_no_expiry {o : Option Entry} (h : ∀ e, o = some e → e.expiresAt = 0)
    (t : Nat) :
    o.filter (fun e => !e.live t) = none := by
  cases o with
  | none => rfl
  | some e => simp [Option.filter, live_of_no_expiry (h e rfl) t]

/-- Neither entry of a key has an expiry. -/
def Slot.Permanent (s : Slot) : Prop :=
  (∀ e, s.user = some e → e.expiresAt = 0) ∧ ∀ e, s.type = some e → e.expiresAt = 0

/-- Entries without expiry look the same at any reading. -/
theorem Slot.Permanent.view_eq (c : Codec) {s : Slot} (h : s.Permanent) (t t' : Nat) :
    s.view c t = s.view c t' := by
  unfold Slot.view Slot.typ
  rw [filter_live_of_no_expiry h.1, filter_live_of_no_expiry h.1, filter_live_of_no_expiry h.2,
    filter_live_of_no_expiry h.2]

theorem Slot.Permanent.view_timeless (c : Codec) {s : Slot} (h : s.Permanent) (t : Nat) :
    View.timeless (s.view c t) = true := by
  cases hx : s.view c t with
  | none => rfl
  | some p =>
    obtain ⟨v, exp⟩ := p
    obtain ⟨e, he, -, rfl, -⟩ := Slot.view_eq_some hx
    simp [View.timeless, h.1 e he]

theorem oldTTLMs_of_timeless {x : View} (hx : x.timeless = true) (env : Env) :
    oldTTLMs env x = 0 := by
  cases x with
  | none => rfl
  | some p =>
    obtain ⟨v, exp⟩ := p
    obtain rfl : exp = 0 := by simpa [View.timeless] using hx
    rfl

/-- A read of a key without expiry does not depend on the clock. -/
theorem readView_of_timeless {α : Type} (as : Value → Except Err α) {x : View}
    (hx : x.timeless = true) (env env' : Env) : readView env as x = readView env' as x := by
  cases x with
  | none => rfl
  | some p =>
    obtain ⟨v, exp⟩ := p
    obtain rfl : exp = 0 := by simpa [View.timeless] using hx
    rfl

theorem planSet_of_timeless {cmd : Command} {x : View} (hx : x.timeless = true) (env env' : Env) :
    planSet env cmd x = planSet env' cmd x := by
  unfold planSet
  cases cmd.args with
  | nil => rfl
  | cons arg rest =>
    cases x with
    | none => rfl
    | some p =>
      obtain ⟨v, exp⟩ := p
      obtain rfl : exp = 0 := by simpa [View.timeless] using hx
      cases v <;> rfl

/-- On a key without an expiry, a plan does not read the clock. -/
theorem plan_eq_of_timeless {env env' : Env} {cmd : Command} {x : View} (hx : x.timeless = true)
    (hpop : cmd.op = .spop → env.pop = env'.pop) : plan env cmd x = plan env' cmd x := by
  have hold : oldTTLMs env x = oldTTLMs env' x := by
    rw [oldTTLMs_of_timeless hx, oldTTLMs_of_timeless hx]
  have hlist := readView_of_timeless Value.asList hx env env'
  have hhash := readView_of_timeless Value.asHash hx env env'
  have hset := readView_of_timeless Value.asSet hx env env'
  unfold plan
  cases hop : cmd.op
  case set | getset | append => exact planSet_of_timeless hx env env'
  case incr | decr | incrby | decrby =>
    simp only
    unfold planIncr
    rw [hold]
  case hset | hsetnx =>
    simp only
    unfold planHSet
    rw [hhash]
  case hdel =>
    simp only
    unfold planHDel
    rw [hhash]
  case lpush | rpush | lpushx | rpushx =>
    simp only
    unfold planPush
    rw [hlist]
  case lpop | rpop =>
    simp only
    unfold planPop
    rw [hlist]
  case ltrim =>
    simp only
    unfold planLTrim
    rw [hlist]
  case lrem =>
    simp only
    unfold planLRem
    rw [hlist]
  case sadd =>
    simp only
    unfold planSAdd
    rw [hset]
  case srem =>
    simp only
    unfold planSRem
    rw [hset]
    simp only [hop, if_true]
  case spop =>
    simp only
    unfold planSRem
    rw [hset, hpop hop]
  all_goals rfl

/-- A key without expiry keeps none, unless the command gives one. -/
theorem not_pos_ttlWritten {env : Env} {cmd : Command} {x : View} (hx : x.timeless = true)
    (hcmd : cmd.op = .set ∨ cmd.op = .getset ∨ cmd.op = .append → ¬ 0 < cmd.ttlMs) :
    ¬ 0 < ttlWritten env cmd x := by
  have hold : ¬ (0 : Int64) < oldTTLMs env x := by
    rw [oldTTLMs_of_timeless hx]
    decide
  unfold ttlWritten
  cases hop : cmd.op <;> simp only [hop] at hcmd ⊢
  case set | getset => exact hcmd (by simp)
  case append =>
    split_ifs
    · exact hold
    · exact hcmd (by simp)
  case mset => decide
  all_goals exact hold

/-- Commands on several keys do not depend on the clock at all. -/
theorem keyAct_eq_of_plan {env env' : Env} {cmd : Command} {k : Bytes} {x : View}
    (h : cmd.op.multi = false → cmd.key = k → plan env cmd x = plan env' cmd x) :
    keyAct env cmd k x = keyAct env' cmd k x := by
  cases hmulti : cmd.op.multi with
  | true =>
    unfold keyAct
    cases hop : cmd.op <;> rw [hop] at hmulti <;> cases hmulti
  | false =>
    rw [keyAct_of_single env cmd k hmulti, keyAct_of_single env' cmd k hmulti]
    split_ifs with hk
    · rw [h hmulti hk]
    · rfl

theorem reply_eq_of_plan {env env' : Env} {cmd : Command} {views : Bytes → View}
    (h : cmd.op.multi = false → plan env cmd (views cmd.key) = plan env' cmd (views cmd.key)) :
    reply env cmd views = reply env' cmd views := by
  cases hmulti : cmd.op.multi with
  | true =>
    unfold reply
    cases hop : cmd.op <;> rw [hop] at hmulti <;> cases hmulti
  | false => rw [reply_of_single env cmd hmulti, reply_of_single env' cmd hmulti, h hmulti]

end Env

end Badis
