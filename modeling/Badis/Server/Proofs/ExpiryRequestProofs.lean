import Badis.Server.Expiry
import Badis.Server.Proofs.SetGrammarProofs
import Badis.Store.Proofs.ExpiryProofs

/-!
# Proofs: requests that set an expiry

The user entry that SET and EXPIRE write has the second of `t + d` as its expiry, where `d` is the
product of the units modulo `2 ^ 64` (`toNat_second`). What a reader then sees at any instant is a
comparison with that second (`present_after`), so that both questions are about one integer.
-/

namespace Badis

open Lib

/-! ## The entry that is written -/

section Entries

variable {c : Codec} {env : Env} {cmd : Command} {db : DB}

theorem user_of_expire (hop : cmd.op = .expire) (h : TakesEffect c env cmd db) :
    ∃ b, (Slot.of (applyCmd c env cmd db).2 cmd.key).user =
      some ((newEntry b).withTTL env.clock.ttl (cmd.ttlMs * 1000000)) := by
  obtain ⟨-, hlive⟩ := h
  rw [if_pos hop, DB.present] at hlive
  obtain ⟨e, he⟩ := Option.isSome_iff_exists.mp hlive
  have hget : (Slot.of db cmd.key).user = some e := (Option.filter_eq_some_iff.mp he).1
  have hview : ∃ p, DB.view c env.clock.now db cmd.key = some p := by
    refine Option.isSome_iff_exists.mp ?_
    rw [isSome_view, DB.present, he]
    rfl
  obtain ⟨p, hp⟩ := hview
  have hmulti : cmd.op.multi = false := by
    rw [hop]
    rfl
  have hact : keyAct env cmd cmd.key (some p) = .expire cmd.ttlMs := by
    rw [keyAct_of_single _ _ _ hmulti, if_pos rfl, plan, hop]
    rfl
  refine ⟨e.value, ?_⟩
  rw [slot_applyCmd, hp, hact, KeyAct.onSlot, hget]
  rfl

theorem user_of_set (hop : cmd.op = .set) (h : TakesEffect c env cmd db) :
    ∃ b, (Slot.of (applyCmd c env cmd db).2 cmd.key).user =
      some (withTTLMs env.clock.ttl cmd.ttlMs (newEntry b)) := by
  obtain ⟨⟨r, hr⟩, hkey⟩ := h
  have hne : cmd.op ≠ .expire := by
    rw [hop]
    decide
  have hmulti : cmd.op.multi = false := by
    rw [hop]
    rfl
  rw [if_neg hne, ← isSome_view c] at hkey
  rw [reply_applyCmd, reply_of_single _ _ hmulti] at hr
  rw [slot_applyCmd, keyAct_of_single _ _ _ hmulti, if_pos rfl]
  have hplan : ∀ x, plan env cmd x = planSet env cmd x := by
    intro x
    rw [plan, hop]
  rw [hplan] at hr ⊢
  have httl : ∀ item, setTTLMs env cmd item = cmd.ttlMs := by
    intro item
    simp [setTTLMs, hop]
  cases hargs : cmd.args with
  | nil =>
    simp only [planSet, hargs] at hr
    cases hr
  | cons arg rest =>
    rcases hview : DB.view c env.clock.now db cmd.key with _ | ⟨v, exp⟩
    · rw [hview] at hkey
      have hset : setKey cmd false = true := hkey
      exact ⟨setNewVal cmd arg none,
        by simp [planSet, hargs, setPlan, hset, httl, KeyAct.onSlot, Value.encode]⟩
    · rw [hview] at hkey hr
      have hset : setKey cmd true = true := hkey
      cases v with
      | string b =>
        exact ⟨setNewVal cmd arg (some ⟨b, exp⟩), by
          simp [planSet, hargs, setPlan, hset, httl, KeyAct.onSlot, Value.encode]⟩
      | _ =>
        simp only [planSet, hargs] at hr
        cases hr

end Entries

/-! ## The second of the expiry -/

section Second

variable {t : Nat} {d : Int}

theorem toNat_second (ht : t < 2 ^ 62 * 1000000000) (hd : Fits64 d) :
    ((UInt64.ofInt ((t + d) / 1000000000)).toNat : Int) =
      if 0 ≤ t + d then (t + d) / 1000000000 else (t + d) / 1000000000 + 2 ^ 64 := by
  obtain ⟨hlow, hhigh⟩ := hd
  rw [toNat_ofInt]
  split_ifs with hneg <;> omega

theorem toNat_eq_zero_iff (E : UInt64) : E = 0 ↔ E.toNat = 0 :=
  ⟨fun h => by rw [h]; rfl, fun h => UInt64.toNat_inj.mp h⟩

/-- Milliseconds into nanoseconds. -/
theorem toInt_nanos (ms : Int64) (x : Int) (hms : ms.toInt = x.bmod (2 ^ 64)) :
    (ms * 1000000).toInt = wrappedNanos 1000000 x := by
  have h : (1000000 : Int64).toInt = 1000000 := by decide
  rw [Int64.toInt_mul, h, hms, Int.bmod_mul_bmod, wrappedNanos, Int.mul_comm]

theorem toInt_seconds (s : Int64) : (s * 1000).toInt = (1000 * s.toInt).bmod (2 ^ 64) := by
  have h : (1000 : Int64).toInt = 1000 := by decide
  rw [Int64.toInt_mul, h, Int.mul_comm]

theorem toInt_seconds_nanos (s : Int64) :
    (s * 1000 * 1000000).toInt = wrappedNanos 1000000000 s.toInt := by
  rw [toInt_nanos _ _ (toInt_seconds s), wrappedNanos, wrappedNanos, ← Int.mul_assoc]
  rfl

/-- What is read of a key afterwards. -/
theorem present_after {db : DB} {k : Bytes} {e : Entry} (h : (Slot.of db k).user = some e)
    (u : Nat) :
    DB.present u db k = true ↔ e.expiresAt.toNat = 0 ∨ u / 1000000000 < e.expiresAt.toNat := by
  have hget : db.get? (userKey k) = some e := h
  rw [DB.present, DB.getLive, hget, Option.filter_some, ← toNat_eq_zero_iff]
  have hlive := Entry.live_iff (t := u) (e := e)
  unfold unixNow at hlive
  rw [← hlive]
  cases e.live u <;> simp

/-- The expiry second decides whether the key runs out as it should. -/
theorem runsOut_iff {live : Nat → Bool} {n : Nat} (ht : 0 < t) (s : Int)
    (hlive : ∀ u, live u = true ↔ n = 0 ∨ u / 1000000000 < n) :
    RunsOut t s live ↔
      if 0 < s then n ≠ 0 ∧ (n : Int) ≤ t / 1000000000 + s ∧
        (t + (s - 1) * 1000000000 - 1) / 1000000000 < (n : Int)
      else n ≠ 0 ∧ (n : Int) ≤ t / 1000000000 := by
  have hdead : ∀ u, live u = false ↔ n ≠ 0 ∧ n ≤ u / 1000000000 := by
    intro u
    rw [← Bool.not_eq_true, hlive]
    omega
  unfold RunsOut
  simp only [hlive, hdead]
  split_ifs with hs
  · constructor
    · rintro ⟨hbefore, hafter⟩
      have hlast := hbefore (t + (s - 1) * 1000000000 - 1).toNat (by omega)
      have hfirst := hafter (t + s * 1000000000).toNat (by omega)
      omega
    · rintro ⟨hne, hle, hlt⟩
      exact ⟨fun u hu => by omega, fun u hu => by omega⟩
  · constructor
    · intro h
      have hfirst := h t le_rfl
      omega
    · rintro ⟨hne, hle⟩ u hu
      omega

end Second

/-! ## Seconds -/

section Seconds

variable {t n : Nat} {s : Int}

/-- The second that the nanoseconds of `s` give is right if and only if `s` fits. -/
theorem second_right_iff (ht : t < 2 ^ 62 * 1000000000) (hs : Fits64 s)
    (hn : (n : Int) = if 0 ≤ t + wrappedNanos 1000000000 s
      then (t + wrappedNanos 1000000000 s) / 1000000000
      else (t + wrappedNanos 1000000000 s) / 1000000000 + 2 ^ 64) :
    (if 0 < s then n ≠ 0 ∧ (n : Int) ≤ t / 1000000000 + s ∧
        (t + (s - 1) * 1000000000 - 1) / 1000000000 < (n : Int)
      else n ≠ 0 ∧ (n : Int) ≤ t / 1000000000) ↔ SecondsFit t s := by
  unfold SecondsFit
  obtain ⟨hlow, hhigh⟩ := fits64_bmod (1000000000 * s)
  obtain ⟨k, hk⟩ := exists_bmod_eq (1000000000 * s)
  have hself : Fits64 (1000000000 * s) → (1000000000 * s).bmod (2 ^ 64) = 1000000000 * s :=
    Fits64.bmod_eq
  obtain ⟨hslow, hshigh⟩ := hs
  unfold Fits64 at hself
  unfold wrappedNanos at hn ⊢
  generalize (1000000000 * s).bmod (2 ^ 64) = d at *
  split_ifs at hn ⊢ <;> omega

theorem not_fit_of_wrapped (hs : 0 < s) (hms : (1000 * s).bmod (2 ^ 64) ≤ 0) :
    ¬ SecondsFit t s := by
  unfold SecondsFit
  rw [if_pos hs]
  intro hle
  have hfits : Fits64 (1000 * s) := by
    unfold Fits64
    omega
  rw [hfits.bmod_eq] at hms
  omega

end Seconds

/-- The expiry of an entry that SET or EXPIRE wrote for `s` seconds, as the code computes it. -/
inductive SecondsEntry (t : Nat) (s : Int64) : Entry → Prop where
  | expire (b : Bytes) : SecondsEntry t s ((newEntry b).withTTL t (s * 1000 * 1000000))
  | set (b : Bytes) (hpos : 0 < s) : SecondsEntry t s (withTTLMs t (s * 1000) (newEntry b))

theorem SecondsEntry.runsOut_iff {t : Nat} {s : Int64} {e : Entry} (h : SecondsEntry t s e)
    (ht : 0 < t ∧ t < 2 ^ 62 * 1000000000) {db : DB} {k : Bytes}
    (huser : (Slot.of db k).user = some e) :
    RunsOut t s.toInt (fun u => DB.present u db k) ↔ SecondsFit t s.toInt := by
  have hsecond : ((UInt64.ofInt ((t + (s * 1000 * 1000000).toInt) / 1000000000)).toNat : Int) =
      if 0 ≤ t + wrappedNanos 1000000000 s.toInt then
        (t + wrappedNanos 1000000000 s.toInt) / 1000000000
      else (t + wrappedNanos 1000000000 s.toInt) / 1000000000 + 2 ^ 64 := by
    rw [toInt_seconds_nanos]
    exact toNat_second ht.2 (fits64_bmod _)
  rw [Badis.runsOut_iff ht.1 s.toInt (present_after huser)]
  cases h with
  | expire b => exact second_right_iff ht.2 (fits64_toInt s) hsecond
  | set b hpos =>
    by_cases hms : 0 < s * 1000
    · rw [withTTLMs, if_pos hms]
      exact second_right_iff ht.2 (fits64_toInt s) hsecond
    · have hpos' : 0 < s.toInt := Int64.lt_iff_toInt_lt.mp hpos
      have hms' : (1000 * s.toInt).bmod (2 ^ 64) ≤ 0 := by
        rw [← toInt_seconds]
        exact not_lt.mp fun hlt => hms (Int64.lt_iff_toInt_lt.mpr hlt)
      rw [withTTLMs, if_neg hms, if_pos hpos']
      refine iff_of_false (fun h => h.1 rfl) (not_fit_of_wrapped hpos' hms')

/-- The command of a request for `s` seconds, and the entry it writes. -/
theorem AsksSeconds.writes {srv : Server} {views : Nat → ReadView} {key : Bytes} {s : Int64}
    {act : Except Err Action} (h : AsksSeconds srv views key s act) :
    ∃ cmd, requestCommand act = some cmd ∧ cmd.key = key ∧ ∀ c env db, TakesEffect c env cmd db →
      ∃ e, SecondsEntry env.clock.ttl s e ∧ (Slot.of (applyCmd c env cmd db).2 key).user =
        some e := by
  cases h with
  | @setex name secs val hsecs hpos =>
    have hunfold : handleSetEx srv [name, key, secs, val] =
        if (parseInt secs).2 = false ∨ (parseInt secs).1 ≤ 0 then
          refuse (ascii "ERR invalid expire time in 'setex' command")
        else
          applyCommand srv
            { op := .set, key := key, args := [val], ttlMs := (parseInt secs).1 * 1000 } := rfl
    have haccepted : ¬ ((parseInt secs).2 = false ∨ (parseInt secs).1 ≤ 0) := by
      rw [hsecs]
      rintro (h | h)
      · cases h
      · exact absurd hpos (Int64.not_lt.mpr h)
    rw [hunfold, if_neg haccepted, hsecs, requestCommand_applyCommand]
    refine ⟨_, rfl, rfl, fun c env db htakes => ?_⟩
    obtain ⟨b, hb⟩ := user_of_set rfl htakes
    exact ⟨_, .set b hpos, hb⟩
  | @set name val words options hwords hlast hpos =>
    have hreq : SetRequest srv.upper (name :: key :: val :: words) options :=
      ⟨_, _, _, _, rfl, hwords⟩
    have hcommand : optionsCommand (views 0).now (name :: key :: val :: words) options =
        { optionsCommand (views 0).now (name :: key :: val :: words) options with
          op := .set, key := key, ttlMs := s * 1000 } := by
      rw [optionsCommand, applyOptions_eq, hlast]
      rfl
    refine ⟨_, hreq.command views, by rw [hcommand], fun c env db htakes => ?_⟩
    rw [hcommand] at htakes ⊢
    obtain ⟨b, hb⟩ := user_of_set rfl htakes
    exact ⟨_, .set b hpos, hb⟩
  | @expire name secs hsecs =>
    rw [handleExpire_eq, hsecs, if_neg Bool.false_ne_true.symm, requestCommand_applyCommand]
    refine ⟨_, rfl, rfl, fun c env db htakes => ?_⟩
    obtain ⟨b, hb⟩ := user_of_expire rfl htakes
    exact ⟨_, .expire b, hb⟩

/-- A request for `s` seconds is never rejected, and when its command takes effect, the key runs out
as it should if and only if `s` survives the arithmetic. -/
theorem seconds_run_out_iff {srv : Server} {views : Nat → ReadView} {key : Bytes} {s : Int64}
    {act : Except Err Action} (h : AsksSeconds srv views key s act) :
    ∃ cmd, requestCommand act = some cmd ∧ cmd.key = key ∧ ∀ c env db, TakesEffect c env cmd db →
      (RunsOut env.clock.ttl s.toInt (fun u => DB.present u (applyCmd c env cmd db).2 key) ↔
        SecondsFit env.clock.ttl s.toInt) := by
  obtain ⟨cmd, hcmd, hkey, hwrites⟩ := h.writes
  refine ⟨cmd, hcmd, hkey, fun c env db htakes => ?_⟩
  obtain ⟨e, he, huser⟩ := hwrites c env db htakes
  have hstart := env.clock.start
  have hnow := env.clock.now_le
  have hremaining := env.clock.remaining_le
  have httl := env.clock.ttl_le
  have hbound := env.clock.bound
  exact he.runsOut_iff ⟨by omega, by omega⟩ huser

/-- SETEX for ten seconds on an empty store. -/
theorem setex_ten_runs_out :
    ∃ cmd, requestCommand
      (handleSetEx asciiServer [ascii "SETEX", ascii "k", ascii "10", ascii "v"]) = some cmd ∧
      RunsOut 1000000000000 10 fun u =>
        DB.present u (applyCmd msgpack (Env.at 1000000000000) cmd OrdMap.empty).2 (ascii "k") := by
  have hasks : AsksSeconds asciiServer (viewOf OrdMap.empty) (ascii "k") 10
      (handleSetEx asciiServer [ascii "SETEX", ascii "k", ascii "10", ascii "v"]) :=
        .setex rfl (by decide)
  obtain ⟨cmd, hcmd, -, hiff⟩ := seconds_run_out_iff hasks
  refine ⟨cmd, hcmd, (hiff msgpack (Env.at 1000000000000) OrdMap.empty ?_).mpr ?_⟩
  · cases hcmd
    exact ⟨⟨_, rfl⟩, rfl⟩
  · show (10 : Int) ≤ 9223372036
    decide

/-- SETEX for 18446744074 seconds, some 580 years: the nanoseconds wrap, and a second later the key
is gone. -/
theorem setex_wraps :
    ∃ cmd, requestCommand (handleSetEx asciiServer
        [ascii "SETEX", ascii "k", ascii "18446744074", ascii "v"]) = some cmd ∧
      DB.present 1001000000000 (applyCmd msgpack (Env.at 1000000000000) cmd OrdMap.empty).2
        (ascii "k") = false ∧
      ¬ RunsOut 1000000000000 18446744074 fun u =>
        DB.present u (applyCmd msgpack (Env.at 1000000000000) cmd OrdMap.empty).2 (ascii "k") := by
  have hgone : DB.present 1001000000000 (applyCmd msgpack (Env.at 1000000000000)
      { op := .set, key := ascii "k", args := [ascii "v"], ttlMs := 18446744074000 } OrdMap.empty).2
      (ascii "k") = false := by decide
  refine ⟨{ op := .set, key := ascii "k", args := [ascii "v"], ttlMs := 18446744074000 }, by decide,
    hgone, ?_⟩
  intro h
  exact absurd (h.1 1001000000000 (by decide)) (Bool.eq_false_iff.mp hgone)

/-! ## Permanent keys -/

theorem expiryOf_ne_zero_iff {t : Nat} (ht : t < 2 ^ 62 * 1000000000) (ms : Int64) :
    expiryOf t ms ≠ 0 ↔ GivesExpiry t ms.toInt := by
  unfold GivesExpiry
  by_cases hpos : 0 < ms
  · have hpos' : 0 < ms.toInt := Int64.lt_iff_toInt_lt.mp hpos
    have hnanos := toInt_nanos ms ms.toInt (fits64_toInt ms).bmod_eq.symm
    have hfits : Fits64 (wrappedNanos 1000000 ms.toInt) := fits64_bmod _
    have hsecond := toNat_second ht hfits
    have hexpiry :
        expiryOf t ms = UInt64.ofInt ((t + wrappedNanos 1000000 ms.toInt) / 1000000000) := by
      rw [← hnanos, expiryOf, withTTLMs, if_pos hpos]
      rfl
    rw [hexpiry, Ne, toNat_eq_zero_iff]
    obtain ⟨hlow, hhigh⟩ := hfits
    split_ifs at hsecond <;> omega
  · refine iff_of_false (fun h => h (expiryOf_of_nonpos hpos)) fun h => hpos ?_
    exact Int64.lt_iff_toInt_lt.mpr h.1

/-- A SET with a time that writes its key gives it an expiry if and only if the milliseconds of the
last time are positive and do not wrap into the first second of 1970. -/
theorem set_gives_expiry_iff {srv : Server} {views : Nat → ReadView} {args : List Bytes}
    {cmd : Command} (hcmd : requestCommand (handleSet srv views args) = some cmd)
    {options : List SetOption} (hreq : SetRequest srv.upper args options) (c : Codec) (env : Env)
    (db : DB) (htakes : TakesEffect c env cmd db) :
    (∃ e, (applyCmd c env cmd db).2.get? (userKey cmd.key) = some e ∧ e.expiresAt ≠ 0) ↔
      GivesExpiry env.clock.ttl (lastTtlMs (views 0).now options).toInt := by
  have hcmd' : cmd = optionsCommand (views 0).now args options :=
    Option.some.inj (hcmd.symm.trans (hreq.command views))
  have hop : cmd.op = .set := by
    rw [hcmd', optionsCommand, applyOptions_eq]
  have httlMs : cmd.ttlMs = lastTtlMs (views 0).now options := by
    rw [hcmd', optionsCommand, applyOptions_ttlMs, lastTtlMs]
  obtain ⟨b, hb⟩ := user_of_set hop htakes
  have hget : (applyCmd c env cmd db).2.get? (userKey cmd.key) =
      some ⟨b, expiryOf env.clock.ttl cmd.ttlMs⟩ :=
        hb.trans (congrArg some (withTTLMs_newEntry _ _ _))
  have hbound : env.clock.ttl < 2 ^ 62 * 1000000000 :=
    lt_of_le_of_lt env.clock.ttl_le env.clock.bound
  rw [hget, ← httlMs, ← expiryOf_ne_zero_iff hbound]
  constructor
  · rintro ⟨e, he, hne⟩
    cases he
    exact hne
  · exact fun hne => ⟨_, rfl, hne⟩

/-- `SET k v EX 10` on an empty store gives the key an expiry. -/
theorem set_ex_ten_gives_expiry :
    ∃ cmd, requestCommand (handleSet asciiServer (viewOf OrdMap.empty)
        [ascii "SET", ascii "k", ascii "v", ascii "EX", ascii "10"]) = some cmd ∧
      ∃ e, (applyCmd msgpack (Env.at 1000000000000) cmd OrdMap.empty).2.get? (userKey cmd.key) =
        some e ∧
        e.expiresAt ≠ 0 := by
  have hreq :
    SetRequest asciiServer.upper [ascii "SET", ascii "k", ascii "v", ascii "EX", ascii "10"]
      [.timed .ex 10] := ⟨_, _, _, _, rfl, .timed rfl rfl .nil⟩
  have hcmd := hreq.command (viewOf OrdMap.empty)
  refine ⟨_, hcmd,
    (set_gives_expiry_iff hcmd hreq msgpack (Env.at 1000000000000) OrdMap.empty ?_).mpr ?_⟩
  · exact ⟨⟨_, rfl⟩, rfl⟩
  · unfold GivesExpiry wrappedNanos
    decide

/-- `SET k v EX 0`, and `SET k v PXAT n` where `n` is the millisecond of the clock, write a
permanent key. -/
theorem set_ex_zero_is_permanent :
    ∃ cmd, requestCommand (handleSet asciiServer (viewOf OrdMap.empty)
        [ascii "SET", ascii "k", ascii "v", ascii "EX", ascii "0"]) = some cmd ∧
      requestCommand (handleSet asciiServer (viewOf OrdMap.empty)
        [ascii "SET", ascii "k", ascii "v", ascii "PXAT", ascii "1000000"]) = some cmd ∧
      (applyCmd msgpack (Env.at 1000000000000) cmd OrdMap.empty).2.get? (userKey (ascii "k")) =
        some ⟨ascii "v", 0⟩ :=
  ⟨{ op := .set, key := ascii "k", args := [ascii "v"] }, by decide, by decide, by decide⟩

end Badis
