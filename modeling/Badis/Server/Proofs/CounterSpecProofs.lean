import Mathlib.Algebra.BigOperators.Group.List.Basic
import Badis.Server.CounterSpec
import Badis.Server.Proofs.SessionProofs
import Badis.Store.Proofs.NumeralProofs
import Badis.Store.Proofs.ReadsProofs

/-!
# Proofs: counters

INCR, DECR, INCRBY and DECRBY read the number that was last written (`parseInt_formatInt`), add in
an int64, and write the sum. The sum is the integer one if and only if that is an int64, and
otherwise the reply is a number all the same, so a run is exact if and only if no sum of it is out
of range (`counters_exact_iff`).
-/

namespace Badis

open Lib

/-! ## One command -/

theorem counterOf_ofString (o : Option Int64) :
    counterOf (ofString (o.map formatInt)) = .ok (o.getD 0) := by
  cases o with
  | none => rfl
  | some v =>
    show parseInteger (formatInt v) = .ok v
    rw [parseInteger, parseInt_formatInt]

/-- The sum that the code computes. -/
def codeSum (cmd : Command) (val delta : Int64) : Int64 :=
  if cmd.op = .incr ∨ cmd.op = .incrby then val + delta else val - delta

theorem planIncr_ofString (env : Env) {cmd : Command} {o : Option Int64} {delta : Int64}
    (hdelta : incrDelta cmd = .ok delta) :
    planIncr env cmd (ofString (o.map formatInt)) =
      .ok (.int64 (codeSum cmd (o.getD 0) delta),
        .put (.string (formatInt (codeSum cmd (o.getD 0) delta))) 0) := by
  have httl : oldTTLMs env (ofString (o.map formatInt)) = 0 := by cases o <;> rfl
  rw [planIncr, counterOf_ofString, hdelta, httl]
  rfl

section Step

variable (vm : LuaVM) (fuel : Nat) {srv : Server} (hc : srv.codec.Lawful) {start : Nat}
  {K : Bytes → Prop} {m : Bytes → Option Int64} {db : DB} {a : Arrival CounterRequest}
  (hallowed : a.Allowed srv start K) (hR : HoldsCounters srv.codec start K m db)

include hallowed hR

theorem counterGet_gives {key : Bytes} (hreq : a.request = .get key) :
    a.Gives vm fuel srv db (writeBulk ((m key).map formatInt))
      (fun o => Shows srv.codec start (ofString (o.map formatInt))) K m := by
  obtain ⟨request, name, conn, env, now, order⟩ := a
  obtain rfl : request = _ := hreq
  have hview : DB.view srv.codec now db key = ofString ((m key).map formatInt) :=
    hR key (hallowed.keys key List.mem_cons_self) _ hallowed.read
  refine gives_answer vm fuel hallowed.named ?_ hR
  show Except.ok (Action.write (handleGet srv.codecText now [name, key] db)) = _
  rw [handleGet_ofString srv.codec srv.codecText name hview]

include hc

theorem incr_held {cmd : Command} (hk : K cmd.key)
    (hop : cmd.op = .incr ∨ cmd.op = .decr ∨ cmd.op = .incrby ∨ cmd.op = .decrby) {delta : Int64}
    (hdelta : incrDelta cmd = .ok delta) :
    (applyCmd srv.codec a.env cmd db).1 = .ok (.int64 (codeSum cmd ((m cmd.key).getD 0) delta)) ∧
      HoldsCounters srv.codec start K
        (Function.update m cmd.key (some (codeSum cmd ((m cmd.key).getD 0) delta)))
        (applyCmd srv.codec a.env cmd db).2 := by
  have hmulti : cmd.op.multi = false := by rcases hop with h | h | h | h <;> rw [h] <;> rfl
  have hview : DB.view srv.codec a.env.clock.now db cmd.key =
      ofString ((m cmd.key).map formatInt) :=
    hR _ hk _ hallowed.applied
  have hplan : plan a.env cmd (DB.view srv.codec a.env.clock.now db cmd.key) =
      .ok (.int64 (codeSum cmd ((m cmd.key).getD 0) delta),
        .put (.string (formatInt (codeSum cmd ((m cmd.key).getD 0) delta))) 0) := by
    rw [hview, ← planIncr_ofString a.env hdelta]
    rcases hop with h | h | h | h <;> simp only [plan, h]
  exact Held.of_plan hR hmulti hplan (shows_put hc a.env rfl _)

/-- An adding request is answered with the sum modulo `2 ^ 64`, and that number is written. -/
theorem add_serves (hreq : ∀ key, a.request ≠ .get key) :
    ∃ n : Int64, n.toInt = (counterValue m a.request.key + a.request.delta).bmod (2 ^ 64) ∧
      a.Gives vm fuel srv db [.int n.toInt] (fun o =>
        Shows srv.codec start (ofString (o.map formatInt))) K
        (Function.update m a.request.key (some n)) := by
  obtain ⟨request, name, conn, env, now, order⟩ := a
  have hk : K request.key := by
    refine hallowed.keys _ ?_
    cases request <;> exact List.mem_cons_self
  cases request with
  | incr key =>
    have hhandler : handleIncr srv [name, key] = applyCommand srv { op := .incr, key := key } := rfl
    refine ⟨(m key).getD 0 + 1, Int64.toInt_add _ _, ?_⟩
    exact gives_command vm fuel hallowed.named hhandler rfl
      (incr_held hc hallowed hR hk (.inl rfl) rfl)
  | decr key =>
    have hhandler : handleDecr srv [name, key] = applyCommand srv { op := .decr, key := key } := rfl
    refine ⟨(m key).getD 0 - 1, Int64.toInt_sub _ _, ?_⟩
    exact gives_command vm fuel hallowed.named hhandler rfl
      (incr_held hc hallowed hR hk (.inr (.inl rfl)) rfl)
  | incrby key delta =>
    have hhandler : handleIncrBy srv [name, key, delta.text] =
      applyCommand srv { op := .incrby, key := key, args := [delta.text] } := rfl
    refine ⟨(m key).getD 0 + (parseInt delta.text).1, Int64.toInt_add _ _, ?_⟩
    exact gives_command vm fuel hallowed.named hhandler rfl
      (incr_held hc hallowed hR hk (.inr (.inr (.inl rfl))) delta.parseInteger_eq)
  | decrby key delta =>
    have hhandler : handleDecrBy srv [name, key, delta.text] =
      applyCommand srv { op := .decrby, key := key, args := [delta.text] } := rfl
    refine ⟨(m key).getD 0 - (parseInt delta.text).1, Int64.toInt_sub _ _, ?_⟩
    exact gives_command vm fuel hallowed.named hhandler rfl
      (incr_held hc hallowed hR hk (.inr (.inr (.inr rfl))) delta.parseInteger_eq)
  | get key => exact absurd rfl (hreq key)

end Step

/-! ## Runs -/

theorem CounterRequest.step_of_ne_get {r : CounterRequest} (h : ∀ key, r ≠ .get key)
    (overflow : Bytes) (m : Bytes → Option Int64) :
    r.step overflow m =
      if r.InRange m then
        ([.int (counterValue m r.key + r.delta)],
          Function.update m r.key (some (Int64.ofInt (counterValue m r.key + r.delta))))
      else ([.error overflow], m) := by
  cases r with
  | get key => exact absurd rfl (h key)
  | _ => rfl

/-- A request on counters is answered as the reference answers it if and only if its sum is an
int64. -/
theorem counterRequest_follows (vm : LuaVM) (fuel : Nat) {srv : Server} (hc : srv.codec.Lawful)
    (start : Nat) (K : Bytes → Prop) (overflow : Bytes) :
    Follows (Arrival.Allowed srv start K) (fun a m => a.request.InRange m)
      (Arrival.serve vm fuel srv)
      (Arrival.reference (CounterRequest.step overflow)) (HoldsCounters srv.codec start K) where
  keeps a m db hallowed hR hrange := by
    by_cases hget : ∃ key, a.request = .get key
    · obtain ⟨key, hreq⟩ := hget
      have hgives := counterGet_gives vm fuel hallowed hR hreq
      unfold Arrival.reference
      rw [hreq]
      exact hgives
    · rw [not_exists] at hget
      obtain ⟨n, hn, hgives⟩ := add_serves vm fuel hc hallowed hR hget
      rw [hrange.bmod_eq] at hn
      unfold Arrival.reference
      rw [CounterRequest.step_of_ne_get hget, if_pos hrange, ← hn, Int64.ofInt_toInt]
      exact hgives
  leaves a m db hallowed hR hrange := by
    by_cases hget : ∃ key, a.request = .get key
    · obtain ⟨key, hreq⟩ := hget
      rw [hreq] at hrange
      refine absurd ?_ hrange
      show Fits64 (((m key).getD 0).toInt + 0)
      rw [Int.add_zero]
      exact fits64_toInt _
    · rw [not_exists] at hget
      obtain ⟨n, -, hgives⟩ := add_serves vm fuel hc hallowed hR hget
      unfold Arrival.reference
      rw [hgives.1, CounterRequest.step_of_ne_get hget, if_neg hrange]
      exact fun heq => nomatch heq

theorem counterValue_update (m : Bytes → Option Int64) (k : Bytes) (v : Int64) (key : Bytes) :
    counterValue (Function.update m k (some v)) key = if k = key then v.toInt
      else counterValue m key := by
  unfold counterValue
  by_cases hk : k = key
  · rw [if_pos hk, hk, Function.update_self]
    rfl
  · rw [if_neg hk, Function.update_of_ne (Ne.symm hk)]

/-- While no sum is out of range, the reference holds the sums. -/
theorem counterValue_exec {overflow : Bytes} {run : List (Arrival CounterRequest)}
    {m : Bytes → Option Int64} (h : Lib.Along (fun a m => a.request.InRange m)
      (Arrival.reference (CounterRequest.step overflow)) run m)
    (key : Bytes) :
    counterValue (exec (Arrival.reference (CounterRequest.step overflow)) run m).2 key =
      counterValue m key + totalDelta key run := by
  induction run generalizing m with
  | nil => exact (Int.add_zero _).symm
  | cons a run ih =>
    have hrange : a.request.InRange m := h.1
    have hrest : counterValue (exec (Arrival.reference (CounterRequest.step overflow)) run
        (a.request.step overflow m).2).2 key =
          counterValue (a.request.step overflow m).2 key + totalDelta key run := ih h.2
    have hstep : counterValue (a.request.step overflow m).2 key =
        counterValue m key + if a.request.key = key then a.request.delta else 0 := by
      by_cases hget : ∃ key, a.request = .get key
      · obtain ⟨key', hreq⟩ := hget
        rw [hreq]
        simp [CounterRequest.step, CounterRequest.delta]
      · rw [not_exists] at hget
        rw [CounterRequest.step_of_ne_get hget, if_pos hrange]
        dsimp only
        rw [counterValue_update, Int64.toInt_ofInt]
        split_ifs with hkey
        · rw [← hkey]
          exact Fits64.bmod_eq hrange
        · exact (Int.add_zero _).symm
    rw [hstep, Int.add_assoc] at hrest
    exact hrest

/-- A run of requests on counters is exact if and only if every sum of it is an int64: then it is
answered as the reference answers it, whatever message that has for the others, and every key holds
what it held and the sum of what was added to it. -/
theorem counters_exact_iff (vm : LuaVM) (fuel : Nat) {srv : Server} (hc : srv.codec.Lawful)
    {start : Nat} {K : Bytes → Prop} {m : Bytes → Option Int64} {db : DB}
    (hheld : HoldsCounters srv.codec start K m db) {run : List (Arrival CounterRequest)}
    (hrun : ∀ a ∈ run, a.Allowed srv start K) (overflow : Bytes) :
    let ref := Arrival.reference (CounterRequest.step overflow)
    let exact := Lib.Along (fun a m => a.request.InRange m) ref run m
    ((exec (Arrival.serve vm fuel srv) run db).1 = (exec ref run m).1 ↔ exact) ∧
      (exact →
        ∃ m', HoldsCounters srv.codec start K m' (exec (Arrival.serve vm fuel srv) run db).2 ∧
        ∀ key, counterValue m' key = counterValue m key + totalDelta key run) := by
  have hfollows := counterRequest_follows vm fuel hc start K overflow
  refine ⟨hfollows.outputs_eq_iff hrun hheld, fun hexact =>
    ⟨_, (hfollows.run hrun hheld hexact).2, ?_⟩⟩
  exact counterValue_exec hexact

/-- `INCRBY k 40` and then `DECR k` on an empty store. -/
theorem incrby_decr_exact :
    (exec (Arrival.serve noScripts 0 asciiServer)
      [sampleArrival "INCRBY" (CounterRequest.incrby (ascii "k") ⟨ascii "40", rfl⟩),
        sampleArrival "DECR" (CounterRequest.decr (ascii "k"))] OrdMap.empty).1 =
      [.ok [.int 40], .ok [.int 39]] := by
  have hheld : HoldsCounters msgpack 1000000000000 (fun _ => True) (fun _ => none) OrdMap.empty :=
    fun _ _ _ _ => rfl
  refine (counters_exact_iff noScripts 0 msgpack_lawful hheld ?_ []).1.mpr ?_
  · exact List.forall_mem_cons.mpr ⟨sampleArrival_allowed rfl,
      List.forall_mem_cons.mpr ⟨sampleArrival_allowed rfl, List.forall_mem_nil _⟩⟩
  · have hsums : Fits64 40 ∧ Fits64 39 := by decide
    exact ⟨hsums.1, hsums.2, trivial⟩

/-- INCR of the largest int64 answers the smallest one and stores it. -/
theorem incr_wraps :
    (exec (Arrival.serve noScripts 0 asciiServer)
      [sampleArrival "INCRBY"
        (CounterRequest.incrby (ascii "k") ⟨ascii "9223372036854775807", rfl⟩),
        sampleArrival "INCR" (CounterRequest.incr (ascii "k")),
        sampleArrival "GET" (CounterRequest.get (ascii "k"))] OrdMap.empty).1 =
      [.ok [.int 9223372036854775807], .ok [.int (-9223372036854775808)],
        .ok [.bulk (ascii "-9223372036854775808")]] := rfl

end Badis
