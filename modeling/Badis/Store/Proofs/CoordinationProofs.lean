import Badis.Store.Coordination
import Badis.Store.Proofs.BatchProofs
import Badis.Store.Proofs.CommuteProofs
import Badis.Store.Proofs.KeyspaceProofs
import Badis.Store.Proofs.NumeralProofs

/-!
# Locks, counters and queues

A key's own commands decide what the key holds and what they reply, whatever commands on other keys
come between them (`localRun`). Runs of the commands on one key are then followed on what the key
holds (`Holds`).
-/

namespace Badis

open Lib

/-! ## The history of a key -/

section Local

variable (c : Codec) {k : Bytes}

theorem OnlyAt.of_mem {P : Command → Prop} {steps : List Step} (h : OnlyAt k P steps) {s : Step}
    (hs : s ∈ stepsAt k steps) : P s.2 := by
  obtain ⟨hmem, htouch⟩ := List.mem_filter.mp hs
  exact (h s hmem).2 htouch

/-- Steps of a kind that works on one key work on `k`. -/
theorem OnlyAt.key {P : Command → Prop} (hP : ∀ cmd, P cmd → cmd.op.multi = false)
    {steps : List Step} (h : OnlyAt k P steps) {s : Step} (hs : s ∈ stepsAt k steps) :
    s.2.key = k :=
  key_of_touches (hP s.2 (h.of_mem hs)) (List.mem_filter.mp hs).2

theorem repliesAt_cons (env : Env) (cmd : Command) (rest : List Step) (db : DB) :
    repliesAt c k ((env, cmd) :: rest) db =
      if cmd.touches k then
        (applyCmd c env cmd db).1 :: repliesAt c k rest (applyCmd c env cmd db).2
      else repliesAt c k rest (applyCmd c env cmd db).2 := by
  unfold repliesAt
  rw [applyLog_cons, List.zip_cons_cons, List.filter_cons]
  split_ifs
  · rfl
  · rfl

/-- A command on `k` alone replies by the entries of `k`. -/
theorem reply_of_slot {env : Env} {cmd : Command} {db db' : DB} (hmulti : cmd.op.multi = false)
    (hkey : cmd.key = k) (h : Slot.of db k = Slot.of db' k) :
    (applyCmd c env cmd db).1 = (applyCmd c env cmd db').1 ∧
      Slot.of (applyCmd c env cmd db).2 k = Slot.of (applyCmd c env cmd db').2 k := by
  have hview : DB.view c env.clock.now db k = DB.view c env.clock.now db' k :=
    congrArg (Slot.view c env.clock.now) h
  constructor
  · rw [reply_applyCmd, reply_applyCmd, reply_of_single env cmd hmulti,
      reply_of_single env cmd hmulti, hkey, hview]
  · rw [slot_applyCmd, slot_applyCmd, h, hview]

/-- The steps at `k` reply, and leave `k`, as they do on their own. -/
theorem localRun {steps : List Step}
    (hsingle : ∀ s ∈ steps, s.2.touches k = true → s.2.op.multi = false) {db db' : DB}
    (h : Slot.of db k = Slot.of db' k) :
    repliesAt c k steps db = (applyLog c (stepsAt k steps) db').1 ∧
      Slot.of (applyLog c steps db).2 k = Slot.of (applyLog c (stepsAt k steps) db').2 k := by
  induction steps generalizing db db' with
  | nil => exact ⟨rfl, h⟩
  | cons s rest ih =>
    obtain ⟨env, cmd⟩ := s
    have hrest : ∀ s ∈ rest, s.2.touches k = true → s.2.op.multi = false := fun s hs =>
      hsingle s (List.mem_cons_of_mem _ hs)
    unfold stepsAt
    rw [repliesAt_cons, applyLog_cons, List.filter_cons]
    cases htouch : cmd.touches k with
    | true =>
      have hmulti := hsingle _ List.mem_cons_self htouch
      obtain ⟨hreply, hslot⟩ := reply_of_slot c hmulti (key_of_touches hmulti htouch) h
      obtain ⟨hreplies, hslots⟩ := ih hrest hslot
      exact ⟨congrArg₂ List.cons hreply hreplies, hslots⟩
    | false => exact ih hrest ((slot_of_not_touches c htouch env db).trans h)

end Local

/-! ## What a key holds -/

namespace Holds

variable {c : Codec} {t : Nat} {db : DB} {k : Bytes} {x : View}

theorem of_permanent (h : (Slot.of db k).Permanent) (t : Nat) :
    Holds c t db k (DB.view c t db k) := by
  intro t' _
  have htimeless : View.timeless (DB.view c t db k) = true := h.view_timeless c t
  rw [View.at_of_timeless htimeless]
  exact h.view_eq c t' t

/-- A key that holds nothing stays empty. -/
theorem of_none (h : DB.view c t db k = none) : Holds c t db k none := by
  intro t' ht
  show DB.view c t' db k = none
  unfold DB.view Slot.view at h ⊢
  cases huser : (Slot.of db k).user with
  | none => rfl
  | some e =>
    rw [huser] at h
    by_cases hlive : e.live t' = true
    · simp [Option.filter, live_mono ht hlive] at h
    · simp [Option.filter, hlive]

/-- A command on the key alone. -/
theorem step (hc : c.Lawful) {env : Env} {cmd : Command} (hmulti : cmd.op.multi = false)
    (hexpire : cmd.op ≠ .expire) (hkey : cmd.key = k) (h : Holds c env.clock.now db k x) :
    let now := View.at env.clock.now x
    (applyCmd c env cmd db).1 = (plan env cmd now).map Prod.fst ∧
      Holds c env.clock.now (applyCmd c env cmd db).2 k
        ((Batch.planned (plan env cmd now)).onView env.clock now) := by
  intro now
  subst hkey
  have hnow : DB.view c env.clock.now db cmd.key = now := h _ le_rfl
  have hact : keyAct env cmd cmd.key now = Batch.planned (plan env cmd now) :=
    (keyAct_of_single env cmd cmd.key hmulti now).trans (if_pos rfl)
  have hsafe : ExpireSafe env cmd db := fun hop => absurd hop hexpire
  refine ⟨?_, hact ▸ h.apply hc hsafe⟩
  rw [reply_applyCmd, reply_of_single env cmd hmulti, hnow]

end Holds

theorem Ordered.mono {t t' : Nat} {steps : List Step} (h : Ordered t' steps) (ht : t ≤ t') :
    Ordered t steps := by
  cases steps with
  | nil => trivial
  | cons s rest => exact ⟨ht.trans h.1, h.2⟩

theorem Ordered.stepsAt {t : Nat} {steps : List Step} (h : Ordered t steps) (k : Bytes) :
    Ordered t (stepsAt k steps) := by
  induction steps generalizing t with
  | nil => trivial
  | cons s rest ih =>
    obtain ⟨env, cmd⟩ := s
    unfold Badis.stepsAt
    rw [List.filter_cons]
    split_ifs
    · exact ⟨h.1, ih h.2⟩
    · exact (ih h.2).mono (h.1.trans env.clock.now_le_ttlType)

theorem lastReading_mono {t t' : Nat} (ht : t ≤ t') (steps : List Step) :
    lastReading t steps ≤ lastReading t' steps := by
  cases steps with
  | nil => exact ht
  | cons s rest => exact le_rfl

theorem lastReading_stepsAt {t : Nat} {steps : List Step} (h : Ordered t steps) (k : Bytes) :
    lastReading t (stepsAt k steps) ≤ lastReading t steps := by
  induction steps generalizing t with
  | nil => exact le_rfl
  | cons s rest ih =>
    obtain ⟨env, cmd⟩ := s
    unfold stepsAt
    rw [List.filter_cons]
    split_ifs
    · exact ih h.2
    · exact (lastReading_mono (h.1.trans env.clock.now_le_ttlType) _).trans (ih h.2)

/-! ## A lock with a lease -/

/-- What a lock can hold: nothing, or a token. -/
def IsLock (x : View) : Prop := x = none ∨ ∃ b exp, x = some (.string b, exp)

theorem IsLock.at {x : View} (h : IsLock x) (t : Nat) : IsLock (View.at t x) := by
  rcases h with rfl | ⟨b, exp, rfl⟩
  · exact .inl rfl
  · unfold View.at Option.filter
    dsimp only
    split_ifs
    · exact .inr ⟨b, exp, rfl⟩
    · exact .inl rfl

section Lock

variable {env : Env} {cmd : Command} {k : Bytes}

/-- A free lock is taken, one that is held is left alone. -/
theorem plan_acquire (hcmd : cmd.Acquires k) {y : View} (hy : IsLock y) :
    plan env cmd y = if y = none then
      .ok (.str (ascii "OK"), .put (.string (cmd.args.headD [])) cmd.ttlMs)
      else .ok (.nil, .keep) := by
  obtain ⟨arg, rest, hargs⟩ := List.exists_cons_of_ne_nil hcmd.value
  have hplan : plan env cmd y = planSet env cmd y := by rw [plan, hcmd.op]
  unfold planSet at hplan
  rw [hplan, hargs]
  rcases hy with rfl | ⟨b, exp, rfl⟩
  · simp [setPlan, setReply, setKey, setNewVal, setTTLMs, hcmd.op, hcmd.condition, hcmd.returnOld]
  · simp [setPlan, setReply, setKey, hcmd.op, hcmd.condition, hcmd.returnOld]

/-- A token is gone from the end of its lease on. -/
theorem at_leased (hcmd : cmd.Acquires k) (v : Value) (t : Nat) :
    View.at t (some (v, expiryOf env.clock.ttl cmd.ttlMs)) = none ↔
      leaseEnd (env, cmd) ≤ unixNow t := by
  have hpos : 0 < cmd.ttlMs.toInt := Int64.lt_iff_toInt_lt.mp hcmd.positive
  have hbound : env.clock.ttl < 2 ^ 62 * 1000000000 := env.clock.ttl_le.trans_lt env.clock.bound
  have hexpiry := toNat_expiryOf hbound hpos hcmd.fits
  have hend : (expiryOf env.clock.ttl cmd.ttlMs).toNat = leaseEnd (env, cmd) := by
    unfold leaseEnd
    dsimp only
    omega
  have hstart : 0 < leaseEnd (env, cmd) := by
    have := env.clock.start
    have := env.clock.now_le.trans env.clock.remaining_le
    unfold leaseEnd
    dsimp only
    omega
  have hne : expiryOf env.clock.ttl cmd.ttlMs ≠ 0 := by
    intro h0
    rw [h0] at hend
    exact hstart.ne hend
  unfold View.at
  rw [Option.filter_some, ← hend]
  simp [Entry.live, hne]

/-- One attempt to take a lock that holds `x`. -/
theorem lock_step {c : Codec} (hc : c.Lawful) (hcmd : cmd.Acquires k) {db : DB} {x : View}
    (hx : IsLock x) (h : Holds c env.clock.now db k x) :
    if View.at env.clock.now x = none then
      (applyCmd c env cmd db).1 = granted ∧ Holds c env.clock.now (applyCmd c env cmd db).2 k
        (some (.string (cmd.args.headD []), expiryOf env.clock.ttl cmd.ttlMs))
    else (applyCmd c env cmd db).1 = .ok .nil ∧
      Holds c env.clock.now (applyCmd c env cmd db).2 k (View.at env.clock.now x) := by
  have hmulti : cmd.op.multi = false := by rw [hcmd.op]; rfl
  have hexpire : cmd.op ≠ .expire := by rw [hcmd.op]; decide
  obtain ⟨hreply, hafter⟩ := h.step hc hmulti hexpire hcmd.key
  rw [plan_acquire hcmd (hx.at _)] at hreply hafter
  split_ifs at hreply hafter ⊢
  · exact ⟨hreply, hafter⟩
  · exact ⟨hreply, hafter⟩

/-- Along attempts to take a lock that holds `x`: an attempt is granted if and only if the token
that the lock held is gone, and every lease that was granted on the way has ended. -/
theorem granted_along {c : Codec} (hc : c.Lawful) {steps : List Step}
    (hsteps : ∀ s ∈ steps, s.2.Acquires k) {t : Nat} (hord : Ordered t steps) {db : DB} {x : View}
    (hx : IsLock x) (h : Holds c t db k x) {i : Nat} {s : Step} (hs : steps[i]? = some s) :
    (applyLog c steps db).1[i]? = some granted ↔ View.at s.1.clock.now x = none ∧
      ∀ j < i, ∀ g, steps[j]? = some g → (applyLog c steps db).1[j]? = some granted →
        leaseEnd g ≤ unixNow s.1.clock.now := by
  induction steps generalizing t db x i with
  | nil => cases hs
  | cons first rest ih =>
    obtain ⟨env, cmd⟩ := first
    have hcmd : cmd.Acquires k := hsteps _ List.mem_cons_self
    have hrest : ∀ s ∈ rest, s.2.Acquires k := fun s hs => hsteps s (List.mem_cons_of_mem _ hs)
    have hlater : ∀ s ∈ rest, env.clock.now ≤ s.1.clock.now := fun s hs =>
      env.clock.now_le_ttlType.trans (hord.2.le_of_mem hs)
    have hstep := lock_step hc hcmd hx (h.mono hord.1)
    have hne : some (.ok .nil) ≠ some granted := by simp [granted]
    rw [applyLog_cons]
    cases i with
    | zero =>
      obtain rfl : (env, cmd) = s := Option.some.inj hs
      split_ifs at hstep with hfree
      · rw [hstep.1]
        exact iff_of_true rfl ⟨hfree, fun j hj => absurd hj j.not_lt_zero⟩
      · rw [hstep.1]
        exact iff_of_false hne fun hgranted => hfree hgranted.1
    | succ i =>
      rw [Nat.forall_lt_succ_left]
      -- what the first attempt leaves, seen by the later one
      have hsince := View.at_at (hlater s (List.mem_of_getElem? hs)) x
      split_ifs at hstep with hfree
      · have hiff := ih hrest hord.2 (.inr ⟨_, _, rfl⟩) (hstep.2.mono env.clock.now_le_ttlType) hs
        rw [at_leased hcmd] at hiff
        rw [hfree] at hsince
        rw [hstep.1]
        refine hiff.trans ⟨fun hend => ⟨hsince.symm, ?_, hend.2⟩, fun hend =>
          ⟨hend.2.1 _ rfl rfl, hend.2.2⟩⟩
        rintro g hg -
        obtain rfl : (env, cmd) = g := Option.some.inj hg
        exact hend.1
      · have hiff := ih hrest hord.2 (hx.at _) (hstep.2.mono env.clock.now_le_ttlType) hs
        rw [hsince] at hiff
        rw [hstep.1]
        exact hiff.trans ⟨fun hend => ⟨hend.1, fun g _ hgranted => absurd hgranted hne, hend.2⟩,
          fun hend => ⟨hend.1, hend.2.2⟩⟩

/-- A lock with a lease is exact, to the second. In a log without scripts whose clock does not go
back, and in which only attempts to take the lock work on the free key `k`, an attempt is granted if
and only if for every lease granted before it the second in which that lease runs out has begun. -/
theorem lease_exact {c : Codec} (hc : c.Lawful) {steps : List Step} {t : Nat}
    (hord : Ordered t steps) (hsteps : OnlyAt k (fun cmd => cmd.Acquires k) steps) {db : DB}
    (hfree : DB.view c t db k = none) {i : Nat} {s : Step} (hs : (stepsAt k steps)[i]? = some s) :
    (repliesAt c k steps db)[i]? = some granted ↔
      ∀ j < i, ∀ g, (stepsAt k steps)[j]? = some g → (repliesAt c k steps db)[j]? = some granted →
        leaseEnd g ≤ unixNow s.1.clock.now := by
  have hsingle : ∀ s ∈ steps, s.2.touches k = true → s.2.op.multi = false := by
    intro s hs htouch
    rw [((hsteps s hs).2 htouch).op]
    rfl
  have hacquires : ∀ s ∈ stepsAt k steps, s.2.Acquires k := fun s => hsteps.of_mem
  rw [(localRun c hsingle rfl).1, granted_along hc hacquires (hord.stepsAt k) (.inl rfl)
    (.of_none hfree) hs]
  exact and_iff_right rfl

/-- An attempt of a client with the token `token`, with a lease of one and a half seconds. -/
def attempt (token : Bytes) : Command :=
  { op := .set, key := ascii "k", args := [token], condition := .nx, ttlMs := 1500 }

/-- Three attempts, the third one a second after the first, and a command on another key. The first
lease, of one and a half seconds, ends as that second begins. -/
def attempts : List Step :=
  [(Env.at 1000000000000, attempt (ascii "a")),
    (Env.at 1000000000000, { op := .lpush, key := ascii "l", args := [ascii "x"] }),
    (Env.at 1000000000000, attempt (ascii "b")), (Env.at 1001000000000, attempt (ascii "c"))]

theorem lease_exact_three :
    (repliesAt msgpack (ascii "k") attempts OrdMap.empty)[2]? = some granted ↔
      ∀ j < 2, ∀ g, (stepsAt (ascii "k") attempts)[j]? = some g →
        (repliesAt msgpack (ascii "k") attempts OrdMap.empty)[j]? = some granted →
          leaseEnd g ≤ 1001 := by
  have hord : Ordered 0 attempts := by decide
  have hs : (stepsAt (ascii "k") attempts)[2]? = some (Env.at 1001000000000, attempt (ascii "c")) :=
    rfl
  have hfree : DB.view msgpack 0 OrdMap.empty (ascii "k") = none := rfl
  have hattempt : ∀ token, (attempt token).Acquires (ascii "k") := fun token =>
    ⟨rfl, rfl, rfl, rfl, List.cons_ne_nil _ _, by show (0 : Int64) < 1500; decide,
      by show (1500 : Int64).toInt ≤ maxTTLMs; decide⟩
  refine lease_exact msgpack_lawful hord (fun s hs => ?_) hfree hs
  simp only [attempts, List.mem_cons, List.not_mem_nil, or_false] at hs
  rcases hs with rfl | rfl | rfl | rfl
  · exact ⟨rfl, fun _ => hattempt _⟩
  · exact ⟨rfl, fun htouch => absurd htouch (by decide)⟩
  · exact ⟨rfl, fun _ => hattempt _⟩
  · exact ⟨rfl, fun _ => hattempt _⟩

end Lock

/-! ## Numbers -/

section Numbers

variable {env : Env} {cmd : Command} {k : Bytes}

/-- One `INCR`. -/
theorem incr_step {c : Codec} (hc : c.Lawful) (hop : cmd.op = .incr) (hkey : cmd.key = k) {db : DB}
    {x : View} (htimeless : x.timeless = true) {v : Int64} (hx : counterOf x = .ok v)
    (h : Holds c env.clock.now db k x) :
    (applyCmd c env cmd db).1 = .ok (.int64 (v + 1)) ∧
      Holds c env.clock.now (applyCmd c env cmd db).2 k
        (some (.string (formatInt (v + 1)), 0)) := by
  have hmulti : cmd.op.multi = false := by rw [hop]; rfl
  have hexpire : cmd.op ≠ .expire := by rw [hop]; decide
  have hplan : plan env cmd x = .ok (.int64 (v + 1), .put (.string (formatInt (v + 1))) 0) := by
    have hincr : plan env cmd x = planIncr env cmd x := by rw [plan, hop]
    have hdelta : incrDelta cmd = .ok 1 := if_neg (by rw [hop]; decide)
    rw [hincr, planIncr, hx, oldTTLMs_of_timeless htimeless, hdelta]
    simp [bind, Except.bind, pure, Except.pure, hop]
  obtain ⟨hreply, hafter⟩ := h.step hc hmulti hexpire hkey
  rw [View.at_of_timeless htimeless, hplan] at hreply hafter
  exact ⟨hreply, hafter⟩

/-- Along `INCR`s of a key that holds the number `v`. -/
theorem incr_along {c : Codec} (hc : c.Lawful) {steps : List Step}
    (hsteps : ∀ s ∈ steps, s.2.op = .incr ∧ s.2.key = k) {t : Nat} (hord : Ordered t steps)
    {db : DB} {x : View} (htimeless : x.timeless = true) {v : Int64} (hx : counterOf x = .ok v)
    (h : Holds c t db k x) :
    (applyLog c steps db).1 =
      (List.range steps.length).map (fun i => .ok (.int64 (v + Int64.ofNat (i + 1)))) ∧
      ∀ t' ≥ lastReading t steps,
        counterOf (DB.view c t' (applyLog c steps db).2 k) =
          .ok (v + Int64.ofNat steps.length) := by
  induction steps generalizing t db x v with
  | nil =>
    refine ⟨rfl, fun t' ht => ?_⟩
    show counterOf (DB.view c t' db k) = _
    rw [h t' ht, View.at_of_timeless htimeless, hx]
    simp
  | cons s rest ih =>
    obtain ⟨env, cmd⟩ := s
    obtain ⟨hop, hkey⟩ := hsteps _ List.mem_cons_self
    obtain ⟨hreply, hafter⟩ := incr_step hc hop hkey htimeless hx (h.mono hord.1)
    have hnext : counterOf (some (.string (formatInt (v + 1)), 0)) = .ok (v + 1) := by
      simp [counterOf, parseInteger, parseInt_formatInt]
    obtain ⟨hreplies, hcounter⟩ :=
      ih (fun s hs => hsteps s (List.mem_cons_of_mem _ hs)) hord.2 rfl hnext
      (hafter.mono env.clock.now_le_ttlType)
    have hadd : ∀ n, v + 1 + Int64.ofNat n = v + Int64.ofNat (n + 1) := by
      intro n
      rw [Int64.ofNat_add, Int64.add_assoc, Int64.add_comm 1]
      rfl
    rw [applyLog_cons, hreply, hreplies]
    refine ⟨?_, fun t' ht => ?_⟩
    · rw [List.length_cons, List.range_succ_eq_map, List.map_cons, List.map_map]
      simp only [Function.comp_def, hadd]
      rfl
    · rw [List.length_cons, ← hadd]
      exact hcounter t' ht

/-- `INCR` hands out every number once. In a log without scripts whose clock does not go back, and
in which only `INCR`s work on the key `k`, which holds `v` without expiry, they reply the numbers
after `v` in order, all of them different unless there are more than an int64 can hold, and the key
is left with the last one. -/
theorem incr_tickets {c : Codec} (hc : c.Lawful) {steps : List Step} {t : Nat}
    (hord : Ordered t steps) (hsteps : OnlyAt k (fun cmd => cmd.op = .incr) steps) {db : DB}
    (hperm : (Slot.of db k).Permanent) {v : Int64} (hv : counterOf (DB.view c t db k) = .ok v) :
    let n := (stepsAt k steps).length
    repliesAt c k steps db = (List.range n).map (fun i => .ok (.int64 (v + Int64.ofNat (i + 1)))) ∧
      (n < 2 ^ 64 → (repliesAt c k steps db).Nodup) ∧
      ∀ t' ≥ lastReading t steps, counterOf (DB.view c t' (applyLog c steps db).2 k) =
        .ok (v + Int64.ofNat n) := by
  intro n
  have hmulti : ∀ cmd : Command, cmd.op = .incr → cmd.op.multi = false :=
    fun cmd hop => by rw [hop]; rfl
  have hsingle : ∀ s ∈ steps, s.2.touches k = true → s.2.op.multi = false := fun s hs htouch =>
    hmulti s.2 ((hsteps s hs).2 htouch)
  have hincr : ∀ s ∈ stepsAt k steps, s.2.op = .incr ∧ s.2.key = k := fun s hs =>
    ⟨hsteps.of_mem hs, hsteps.key hmulti hs⟩
  have htimeless : View.timeless (DB.view c t db k) = true := hperm.view_timeless c t
  obtain ⟨hreplies, hslot⟩ := localRun c hsingle (rfl : Slot.of db k = Slot.of db k)
  obtain ⟨hnumbers, hcounter⟩ :=
    incr_along hc hincr (hord.stepsAt k) htimeless hv (.of_permanent hperm t)
  rw [hreplies, hnumbers]
  refine ⟨rfl, fun hn => ?_, fun t' ht => ?_⟩
  · refine List.Nodup.map_on (fun i hi j hj heq => ?_) List.nodup_range
    have hnumber : v + Int64.ofNat (i + 1) = v + Int64.ofNat (j + 1) :=
      Result.int64.inj (Except.ok.inj heq)
    have hbits := congrArg (fun m => m.toBitVec.toNat) ((Int64.add_right_inj v).mp hnumber)
    simp only [Int64.toBitVec_ofNat', BitVec.toNat_ofNat] at hbits
    have hi' : i < n := List.mem_range.mp hi
    have hj' : j < n := List.mem_range.mp hj
    omega
  · rw [← hcounter t' ((lastReading_stepsAt hord k).trans ht)]
    exact congrArg (fun s => counterOf (Slot.view c t' s)) hslot

/-- Two clients that count from 41, and a command on another key. -/
theorem incr_tickets_two :
    let db := (applyCmd msgpack (Env.at 1000000000000)
      { op := .set, key := ascii "k", args := [ascii "41"] } OrdMap.empty).2
    let steps : List Step := [(Env.at 1001000000000, { op := .incr, key := ascii "k" }),
      (Env.at 1001000000000, { op := .sadd, key := ascii "s", args := [ascii "x"] }),
      (Env.at 1001000000000, { op := .incr, key := ascii "k" })]
    repliesAt msgpack (ascii "k") steps db = [.ok (.int64 42), .ok (.int64 43)] := by
  intro db steps
  have hord : Ordered 1001000000000 steps := by decide
  have hperm : DB.Permanent db := permanent_applyCmd msgpack (by decide) fun k =>
    ⟨fun e he => (by cases he), fun e he => (by cases he)⟩
  have hv : counterOf (DB.view msgpack 1001000000000 db (ascii "k")) = .ok 41 := by
    rfl
  refine (incr_tickets msgpack_lawful hord (fun s hs => ?_) (hperm _) hv).1
  simp only [steps, List.mem_cons, List.not_mem_nil, or_false] at hs
  rcases hs with rfl | rfl | rfl
  · exact ⟨rfl, fun _ => rfl⟩
  · exact ⟨rfl, fun htouch => absurd htouch (by decide)⟩
  · exact ⟨rfl, fun _ => rfl⟩

end Numbers

/-! ## A queue -/

section Queue

variable {env : Env} {cmd : Command} {k : Bytes}

theorem pushLoop_right (args l : List Bytes) : pushLoop false args l = l ++ args := by
  induction args generalizing l with
  | nil => exact (List.append_nil l).symm
  | cons a args ih => exact (ih (l ++ [a])).trans (List.append_assoc l [a] args)

theorem queueView_cases {x : View} {l : List Bytes} (hx : queueView x = some l) :
    x = none ∧ l = [] ∨ x = some (.list l, 0) := by
  rcases x with - | ⟨v, exp⟩
  · exact .inl ⟨rfl, (Option.some.inj hx).symm⟩
  · cases v with
    | list l' =>
      simp only [queueView] at hx
      split_ifs at hx with hexp
      rw [hexp, Option.some.inj hx]
      exact .inr rfl
    | string b => cases hx
    | hash h => cases hx
    | set s => cases hx
    | raw typ bytes => cases hx

theorem timeless_of_queue {x : View} {l : List Bytes} (hx : queueView x = some l) :
    x.timeless = true := by
  rcases queueView_cases hx with ⟨rfl, -⟩ | rfl <;> rfl

/-- What the list cases read from a queue. -/
theorem readView_queue {x : View} {l : List Bytes} (hx : queueView x = some l) (env : Env) :
    ∃ old, readView env Value.asList x = .ok old ∧ old.getD ([], 0) = (l, 0) := by
  rcases queueView_cases hx with ⟨rfl, rfl⟩ | rfl
  · exact ⟨none, rfl, rfl⟩
  · exact ⟨some (l, 0), rfl, rfl⟩

theorem queueView_putList (clock : Clock) (x : View) (l : List Bytes) :
    queueView ((putList l 0).onView clock x) = some l := by
  unfold putList
  split_ifs with hl
  · rw [hl]
    rfl
  · rfl

/-- The elements in the reply of a pop from a list that is not empty. -/
theorem handedOut_popReply {l : List Bytes} (hl : l ≠ []) {n : Nat} (hn : popCount cmd = .ok n) :
    handedOut (.ok (popReply cmd (l.take (min n l.length)))) = l.take (min n l.length) := by
  unfold popCount at hn
  unfold popReply
  cases hargs : cmd.args with
  | nil =>
    rw [hargs] at hn
    obtain rfl : 1 = n := Except.ok.inj hn
    obtain ⟨a, rest, rfl⟩ := List.exists_cons_of_ne_nil hl
    simp [handedOut]
  | cons arg rest => rfl

/-- What an `RPUSH` or an `LPOP` does to the list: what was pushed comes out at the front, in
order. -/
theorem plan_queue (hop : cmd.op = .rpush ∨ cmd.op = .lpop) {x : View} {l : List Bytes}
    (hx : queueView x = some l) :
    ∃ l', queueView ((Batch.planned (plan env cmd x)).onView env.clock x) = some l' ∧
      l ++ enqueued [(env, cmd)] = dequeued [(env, cmd)] [(plan env cmd x).map Prod.fst] ++ l' := by
  obtain ⟨old, hread, hold⟩ := readView_queue hx env
  rcases hop with hop | hop
  · have hplan :
        plan env cmd x = .ok (.int (l ++ cmd.args).length, .put (.list (l ++ cmd.args)) 0) := by
      have hpush : plan env cmd x = planPush env cmd x := by rw [plan, hop]
      rw [hpush, planPush, hread]
      simp [bind, Except.bind, pure, Except.pure, hop, hold, pushLoop_right]
    rw [hplan]
    refine ⟨l ++ cmd.args, rfl, ?_⟩
    simp [enqueued, dequeued, hop]
  · have hpop : plan env cmd x = planPop env cmd x := by rw [plan, hop]
    have hnone : enqueued [(env, cmd)] = [] := by simp [enqueued, hop]
    have hout : ∀ r, dequeued [(env, cmd)] [r] = handedOut r := by simp [dequeued, hop]
    rw [hpop, planPop, hread, hnone, List.append_nil, hout]
    simp only [bind, Except.bind, hold]
    by_cases hl : l = []
    · rw [if_pos hl]
      exact ⟨l, hx, rfl⟩
    · rw [if_neg hl]
      cases hcount : popCount cmd with
      | error e => exact ⟨l, hx, rfl⟩
      | ok n =>
        refine ⟨l.drop (min n l.length), ?_, ?_⟩
        · simp only [popList, hop, if_true]
          exact queueView_putList env.clock x _
        · simp only [popList, hop, if_true]
          show l = handedOut (.ok (popReply cmd (l.take (min n l.length)))) ++ _
          rw [handedOut_popReply hl hcount, List.take_append_drop]

/-- Along pushes and pops of a key that holds the list `l`. -/
theorem queue_along {c : Codec} (hc : c.Lawful) {steps : List Step}
    (hsteps : ∀ s ∈ steps, (s.2.op = .rpush ∨ s.2.op = .lpop) ∧ s.2.key = k) {t : Nat}
    (hord : Ordered t steps) {db : DB} {x : View} {l : List Bytes} (hx : queueView x = some l)
    (h : Holds c t db k x) :
    ∃ l',
      (∀ t' ≥ lastReading t steps, queueView (DB.view c t' (applyLog c steps db).2 k) = some l') ∧
      l ++ enqueued steps = dequeued steps (applyLog c steps db).1 ++ l' := by
  induction steps generalizing t db x l with
  | nil =>
    refine ⟨l, fun t' ht => ?_, List.append_nil l⟩
    show queueView (DB.view c t' db k) = some l
    rw [h t' ht, View.at_of_timeless (timeless_of_queue hx), hx]
  | cons s rest ih =>
    obtain ⟨env, cmd⟩ := s
    obtain ⟨hop, hkey⟩ := hsteps _ List.mem_cons_self
    have hmulti : cmd.op.multi = false := by rcases hop with hop | hop <;> rw [hop] <;> rfl
    have hexpire : cmd.op ≠ .expire := by rcases hop with hop | hop <;> rw [hop] <;> decide
    obtain ⟨hreply, hafter⟩ := (h.mono hord.1).step hc hmulti hexpire hkey
    rw [View.at_of_timeless (timeless_of_queue hx)] at hreply hafter
    obtain ⟨l₁, hx₁, hfirst⟩ := plan_queue hop hx
    obtain ⟨l', hview, hrest⟩ := ih (fun s hs => hsteps s (List.mem_cons_of_mem _ hs)) hord.2 hx₁
      (hafter.mono env.clock.now_le_ttlType)
    refine ⟨l', hview, ?_⟩
    rw [applyLog_cons, hreply]
    calc l ++ enqueued ((env, cmd) :: rest)
        = (l ++ enqueued [(env, cmd)]) ++ enqueued rest := by simp [enqueued]
      _ = dequeued [(env, cmd)] [(plan env cmd x).map Prod.fst] ++ (l₁ ++ enqueued rest) := by
        rw [hfirst, List.append_assoc]
      _ = _ := by
        rw [hrest]
        simp [dequeued]

/-- Nothing is lost or handed out twice by a queue. In a log without scripts whose clock does not go
back, and in which only `RPUSH` and `LPOP` work on the key `k`, which holds a list without expiry or
nothing, the elements that the pops handed out, followed by those that are left, are those that the
list held, followed by those that were pushed, in the order of the log. -/
theorem queue_fifo {c : Codec} (hc : c.Lawful) {steps : List Step} {t : Nat}
    (hord : Ordered t steps) (hsteps : OnlyAt k (fun cmd => cmd.op = .rpush ∨ cmd.op = .lpop) steps)
    {db : DB} (hperm : (Slot.of db k).Permanent) {l : List Bytes}
    (hl : queueView (DB.view c t db k) = some l) :
    ∃ l',
      (∀ t' ≥ lastReading t steps, queueView (DB.view c t' (applyLog c steps db).2 k) = some l') ∧
      l ++ enqueued (stepsAt k steps) = dequeued (stepsAt k steps) (repliesAt c k steps db) ++
        l' := by
  have hmulti : ∀ cmd : Command, cmd.op = .rpush ∨ cmd.op = .lpop → cmd.op.multi = false := by
    rintro cmd (hop | hop) <;> rw [hop] <;> rfl
  have hsingle : ∀ s ∈ steps, s.2.touches k = true → s.2.op.multi = false := fun s hs htouch =>
    hmulti s.2 ((hsteps s hs).2 htouch)
  have hqueue : ∀ s ∈ stepsAt k steps, (s.2.op = .rpush ∨ s.2.op = .lpop) ∧ s.2.key = k :=
    fun s hs =>
    ⟨hsteps.of_mem hs, hsteps.key hmulti hs⟩
  obtain ⟨hreplies, hslot⟩ := localRun c hsingle (rfl : Slot.of db k = Slot.of db k)
  obtain ⟨l', hview, heq⟩ := queue_along hc hqueue (hord.stepsAt k) hl (.of_permanent hperm t)
  refine ⟨l', fun t' ht => ?_, ?_⟩
  · rw [← hview t' ((lastReading_stepsAt hord k).trans ht)]
    exact congrArg (fun s => queueView (Slot.view c t' s)) hslot
  · rw [hreplies]
    exact heq

/-- Two producers and two consumers, and a command on another key. -/
theorem queue_fifo_four :
    let steps : List Step :=
      [(Env.at 1000000000000, { op := .rpush, key := ascii "q", args := [ascii "a", ascii "b"] }),
      (Env.at 1000000000000, { op := .lpop, key := ascii "q" }),
      (Env.at 1000000000000, { op := .incr, key := ascii "n" }),
      (Env.at 1001000000000, { op := .rpush, key := ascii "q", args := [ascii "c"] }),
      (Env.at 1001000000000, { op := .lpop, key := ascii "q", args := [ascii "5"] })]
    ∃ l', (∀ t' ≥ lastReading 0 steps, queueView
      (DB.view msgpack t' (applyLog msgpack steps OrdMap.empty).2 (ascii "q")) =
        some l') ∧
      [ascii "a", ascii "b", ascii "c"] =
        dequeued (stepsAt (ascii "q") steps) (repliesAt msgpack (ascii "q") steps OrdMap.empty) ++
          l' := by
  intro steps
  have hord : Ordered 0 steps := by decide
  have hperm : (Slot.of OrdMap.empty (ascii "q")).Permanent := DB.permanent_empty _
  have hl : queueView (DB.view msgpack 0 OrdMap.empty (ascii "q")) = some [] := rfl
  refine queue_fifo msgpack_lawful hord (fun s hs => ?_) hperm hl
  simp only [steps, List.mem_cons, List.not_mem_nil, or_false] at hs
  rcases hs with rfl | rfl | rfl | rfl | rfl
  · exact ⟨rfl, fun _ => .inl rfl⟩
  · exact ⟨rfl, fun _ => .inr rfl⟩
  · exact ⟨rfl, fun htouch => absurd htouch (by decide)⟩
  · exact ⟨rfl, fun _ => .inl rfl⟩
  · exact ⟨rfl, fun _ => .inr rfl⟩

end Queue

end Badis
