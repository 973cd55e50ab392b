import Badis.Store.Proofs.AgreementProofs

/-!
# Applying and the clock

An expiry is a duration in the command and becomes an absolute second when the command is applied,
by the clock of the replica that applies it; and whether a key is there is asked of that clock. So
two replicas agree at a step when they read the same clock, or when the step neither stores an
expiry nor looks at a key that has one (`Timeless`). In a run of such steps the replicas stay equal
to the byte (`clock_independent`).
-/

namespace Badis

open Lib

/-- Whether what a command does or replies depends on what `k` holds. -/
def Command.reads (cmd : Command) (k : Bytes) : Bool :=
  match cmd.op with
  | .mset => false
  | .del => k ∈ cmd.args || cmd.args = [] && cmd.key = k
  | .flushdb => true
  | _ => cmd.key = k

/-- Whether a command depends on the entry under `raw`. -/
def Command.readsEntry (cmd : Command) (raw : Bytes) : Bool :=
  match raw with
  | [] => false
  | p :: k => (p = 75 || p = 84) && cmd.reads k

/-- Whether a command gives an entry an expiry; a script may do so. -/
def Command.storesExpiry (cmd : Command) (db : DB) : Bool :=
  match cmd.op with
  | .set | .getset | .append => 0 < cmd.ttlMs
  | .expire => (db.get? (userKey cmd.key)).isSome
  | op => op.script

/-- The command stores no expiry, and no entry that it depends on has one. -/
def Timeless (cmd : Command) (db : DB) : Prop :=
  cmd.storesExpiry db = false ∧ ∀ e ∈ db.entries, cmd.readsEntry e.1 = true → e.2.expiresAt = 0

instance (cmd : Command) (db : DB) : Decidable (Timeless cmd db) := by
  unfold Timeless
  infer_instance

/-! ## One step -/

section Step

variable {cmd : Command} {db : DB} {k : Bytes}

theorem Timeless.slot (h : Timeless cmd db) (hk : cmd.reads k = true) :
    (Slot.of db k).Permanent := by
  constructor
  · intro e he
    exact h.2 (userKey k, e) (OrdMap.get?_eq_some_iff.mp he)
      (by simpa [Command.readsEntry, userKey] using hk)
  · intro e he
    exact h.2 (typeKey k, e) (OrdMap.get?_eq_some_iff.mp he)
      (by simpa [Command.readsEntry, typeKey] using hk)

/-- A command does nothing to a key it does not depend on, or does it blindly. -/
theorem keyAct_of_not_reads (env : Env) (hk : cmd.reads k = false) (x : View) :
    keyAct env cmd k x = keyAct env cmd k none := by
  unfold Command.reads at hk
  cases hmulti : cmd.op.multi with
  | true =>
    unfold keyAct
    cases hop : cmd.op <;> rw [hop] at hmulti hk
    case del =>
      simp only [Bool.or_eq_false_iff, Bool.and_eq_false_iff, decide_eq_false_iff_not] at hk
      have hunset : ¬ (cmd.args = [] ∧ cmd.key ≠ [] ∧ cmd.key = k) := by
        rintro ⟨hargs, -, hkey⟩
        rcases hk.2 with h | h
        · exact h hargs
        · exact h hkey
      simp only [if_neg hk.1, if_neg hunset, ite_self]
    all_goals cases hmulti
  | false =>
    have hkey : cmd.key ≠ k := by
      cases hop : cmd.op <;> rw [hop] at hmulti hk <;>
        first | exact of_decide_eq_false hk | cases hmulti
    rw [keyAct_of_single env cmd k hmulti, keyAct_of_single env cmd k hmulti, if_neg hkey,
      if_neg hkey]

/-- The orders of map iteration are the same. -/
def SameOrders (env env' : Env) : Prop :=
  env.pop = env'.pop ∧ env.members = env'.members ∧ env.encode = env'.encode

theorem encode_of_sameOrders {env env' : Env} (ho : SameOrders env env') (c : Codec) (v : Value) :
    v.encode c env = v.encode c env' := by
  obtain ⟨-, hm, he⟩ := ho
  cases v <;> simp [Value.encode, encodeHash, encodeSet, hm, he]

theorem Timeless.not_pos_ttl (h : Timeless cmd db) :
    cmd.op = .set ∨ cmd.op = .getset ∨ cmd.op = .append → ¬ 0 < cmd.ttlMs := by
  have hstores := h.1
  unfold Command.storesExpiry at hstores
  rintro (hop | hop | hop) <;> simpa [hop] using hstores

/-- What a timeless command does to a key that holds `x`, it does to it whenever it is applied. -/
theorem Timeless.act_eq (c : Codec) {env env' : Env} (h : Timeless cmd db)
    (ho : SameOrders env env') {x : View} (hx : x.timeless = true)
    (huser : x.isSome → (Slot.of db k).user.isSome)
    (hflush : cmd.op = .flushdb → (Slot.of db k).Permanent) :
    (keyAct env cmd k x).onSlot c env (Slot.of db k) =
      (keyAct env' cmd k x).onSlot c env' (Slot.of db k) := by
  have hact : keyAct env cmd k x = keyAct env' cmd k x :=
    keyAct_eq_of_plan fun _ _ => plan_eq_of_timeless hx fun _ => ho.1
  have hacts := keyAct_acts env cmd k x
  rw [← hact]
  generalize keyAct env cmd k x = act at hacts
  cases hacts with
  | put v hv htyp hold =>
    have hpos : ¬ 0 < ttlWritten env cmd x := not_pos_ttlWritten hx h.not_pos_ttl
    simp only [KeyAct.onSlot, withTTLMs_newEntry, expiryOf_of_nonpos hpos, encode_of_sameOrders ho]
  | flush hop =>
    obtain ⟨hu, ht⟩ := hflush hop
    simp only [KeyAct.onSlot]
    rw [filter_dead_of_no_expiry hu, filter_dead_of_no_expiry hu, filter_dead_of_no_expiry ht,
      filter_dead_of_no_expiry ht]
  | expire hop hk hsome =>
    -- an EXPIRE of a key that exists stores an expiry
    have hstores := h.1
    simp only [Command.storesExpiry, hop] at hstores
    rw [hk] at hstores
    have hsome' : (db.get? (userKey k)).isSome = true := huser hsome
    rw [hsome'] at hstores
    cases hstores
  | persist hop hk p hp hexp =>
    rw [hp] at hx
    exact absurd (by simpa [View.timeless] using hx) hexp
  | keep => rfl
  | drop hop => rfl
  | unset hop => rfl

/-- A command that is timeless in the database it finds has the same effect on every key whenever it
is applied. -/
theorem Timeless.onSlot_eq (c : Codec) {env env' : Env} (h : Timeless cmd db)
    (ho : SameOrders env env') (k : Bytes) :
    (keyAct env cmd k (DB.view c env.clock.now db k)).onSlot c env (Slot.of db k) =
      (keyAct env' cmd k (DB.view c env'.clock.now db k)).onSlot c env' (Slot.of db k) := by
  cases hk : cmd.reads k with
  | false =>
    -- the command does not look at `k`: it leaves it alone, or MSET writes it
    rw [keyAct_of_not_reads env hk, keyAct_of_not_reads env' hk]
    refine h.act_eq c ho rfl (fun hsome => by cases hsome) fun hop => ?_
    simp [Command.reads, hop] at hk
  | true =>
    have hview : DB.view c env'.clock.now db k = DB.view c env.clock.now db k :=
      (h.slot hk).view_eq c _ _
    rw [hview]
    refine h.act_eq c ho ((h.slot hk).view_timeless c _) (fun hsome => ?_) fun _ => h.slot hk
    obtain ⟨⟨v, exp⟩, hp⟩ := Option.isSome_iff_exists.mp hsome
    obtain ⟨e, he, -⟩ := Slot.view_eq_some hp
    rw [he]
    rfl

theorem Timeless.reply_eq (c : Codec) {env env' : Env} (h : Timeless cmd db)
    (ho : SameOrders env env') :
    reply env cmd (DB.view c env.clock.now db) = reply env' cmd (DB.view c env'.clock.now db) := by
  have hview : ∀ k, cmd.reads k = true →
      DB.view c env.clock.now db k = DB.view c env'.clock.now db k := fun k hk =>
    (h.slot hk).view_eq c _ _
  cases hmulti : cmd.op.multi with
  | true =>
    unfold reply
    cases hop : cmd.op <;> rw [hop] at hmulti
    case del =>
      have hcount : delCount (fun k => (DB.view c env.clock.now db k).isSome) cmd.args =
          delCount (fun k => (DB.view c env'.clock.now db k).isSome) cmd.args :=
        delCount_congr fun k hk => by rw [hview k (by simp [Command.reads, hop, hk])]
      simp only [hcount]
      by_cases hargs : cmd.args = []
      · rw [hview cmd.key (by simp [Command.reads, hop, hargs])]
      · simp [hargs]
    all_goals cases hmulti
  | false =>
    have hkey : cmd.reads cmd.key = true := by
      unfold Command.reads
      cases hop : cmd.op <;> rw [hop] at hmulti <;> first | exact decide_eq_true rfl | cases hmulti
    have hx : (DB.view c env.clock.now db cmd.key).timeless = true :=
      (h.slot hkey).view_timeless c _
    rw [reply_of_single env cmd hmulti, reply_of_single env' cmd hmulti, ← hview cmd.key hkey,
      plan_eq_of_timeless hx fun _ => ho.1]

theorem applyCmd_eq_of_timeless (c : Codec) {env env' : Env} (h : Timeless cmd db)
    (ho : SameOrders env env') : applyCmd c env cmd db = applyCmd c env' cmd db := by
  apply Prod.ext
  · rw [reply_applyCmd, reply_applyCmd]
    exact h.reply_eq c ho
  · apply applyCmd_ext
    intro k
    rw [slot_applyCmd, slot_applyCmd]
    exact h.onSlot_eq c ho k

end Step

/-! ## Runs -/

/-- Every step of two replicas that find the same database meets `P`. -/
def AlongPair (c : Codec) (P : Env → Env → Command → DB → Prop) : List PairStep → DB → Prop
  | [], _ => True
  | (env, env', cmd) :: rest, db => P env env' cmd db ∧ AlongPair c P rest (applyCmd c env cmd db).2

instance AlongPair.decidable (c : Codec) (P : Env → Env → Command → DB → Prop)
    [∀ env env' cmd db, Decidable (P env env' cmd db)] :
    (steps : List PairStep) → (db : DB) → Decidable (AlongPair c P steps db)
  | [], _ => isTrue trivial
  | (env, env', cmd) :: rest, db =>
    have := AlongPair.decidable c P rest (applyCmd c env cmd db).2
    inferInstanceAs (Decidable (P env env' cmd db ∧ AlongPair c P rest (applyCmd c env cmd db).2))

/-- The replicas read the same clock, or the step does not depend on it. -/
def ClockFree (env env' : Env) (cmd : Command) (db : DB) : Prop :=
  env.clock = env'.clock ∨ Timeless cmd db

instance (env env' : Env) (cmd : Command) (db : DB) : Decidable (ClockFree env env' cmd db) := by
  unfold ClockFree
  infer_instance

theorem applyCmd_eq_of_clockFree (c : Codec) {env env' : Env} {cmd : Command} {db : DB}
    (ho : SameOrders env env') (h : ClockFree env env' cmd db) :
    applyCmd c env cmd db = applyCmd c env' cmd db := by
  rcases h with hclock | htimeless
  · obtain ⟨clock, pop, members, encode⟩ := env
    obtain ⟨clock', pop', members', encode'⟩ := env'
    obtain ⟨hp, hm, he⟩ := ho
    cases hclock
    cases hp
    cases hm
    cases he
    rfl
  · exact applyCmd_eq_of_timeless c htimeless ho

/-- Two replicas that start from the same database and apply the same log, each by its own clock, in
steps that do not depend on it, give the same replies and hold the same database. -/
theorem clock_independent (c : Codec) (steps : List PairStep) (db : DB)
    (horders : ∀ s ∈ steps, SameOrders s.1 s.2.1) (hfree : AlongPair c ClockFree steps db) :
    applyLog c (leftSteps steps) db = applyLog c (rightSteps steps) db := by
  induction steps generalizing db with
  | nil => rfl
  | cons s rest ih =>
    obtain ⟨env, env', cmd⟩ := s
    have hstep := applyCmd_eq_of_clockFree c (horders _ List.mem_cons_self) hfree.1
    have hrest := ih (applyCmd c env cmd db).2 (fun s hs => horders s (List.mem_cons_of_mem _ hs))
      hfree.2
    show applyLog c ((env, cmd) :: leftSteps rest) db =
      applyLog c ((env', cmd) :: rightSteps rest) db
    rw [applyLog_cons, applyLog_cons, ← hstep, hrest]

/-- A key that lives ten seconds, and a SET NX that one replica applies after five seconds and the
other after twenty. -/
def lateReplica : List PairStep :=
  [(Env.at 1000000000000, Env.at 1000000000000, ⟨.set, [107], [[49]], 10000, .always, false⟩),
   (Env.at 1005000000000, Env.at 1020000000000, ⟨.set, [107], [[50]], 0, .nx, false⟩)]

/-- Whether a reply is OK. -/
def isOK : Except Err Result → Bool
  | .ok (.str s) => s = ascii "OK"
  | _ => false

theorem lateReplica_diverges :
    Ordered 0 (leftSteps lateReplica) ∧ Ordered 0 (rightSteps lateReplica) ∧
    (applyLog msgpack (leftSteps lateReplica) OrdMap.empty).1.map isOK = [true, false] ∧
    (applyLog msgpack (rightSteps lateReplica) OrdMap.empty).1.map isOK = [true, true] ∧
    DB.view msgpack 1021000000000 (applyLog msgpack (leftSteps lateReplica) OrdMap.empty).2 [107] =
      none ∧
    DB.view msgpack 1021000000000 (applyLog msgpack (rightSteps lateReplica) OrdMap.empty).2 [107] =
      some (.string [50], 0) := by
  decide

/-- A key that lives ten seconds, set at the same instant, and a counter that the replicas change at
different instants. -/
def laggingReplica : List PairStep :=
  [(Env.at 1000000000000, Env.at 1000000000000, ⟨.set, [107], [[49]], 10000, .always, false⟩),
   (Env.at 1005000000000, Env.at 1020000000000, ⟨.incr, [110], [], 0, .always, false⟩),
   (Env.at 1006000000000, Env.at 1021000000000, ⟨.incr, [110], [], 0, .always, false⟩)]

theorem laggingReplica_agrees :
    applyLog msgpack (leftSteps laggingReplica) OrdMap.empty =
      applyLog msgpack (rightSteps laggingReplica) OrdMap.empty :=
  clock_independent msgpack laggingReplica OrdMap.empty
    (by simp [laggingReplica, SameOrders, Env.at]) (by decide)

end Badis
