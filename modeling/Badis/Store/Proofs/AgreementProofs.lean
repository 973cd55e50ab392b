import Badis.Store.Encoding
import Badis.Store.Log
import Badis.Store.Proofs.StepProofs

/-!
# Replica agreement

Two replicas apply the same commands at the same clock readings, each with its own map iteration
orders. The orders reach the bytes in the database; they reach what the keys hold and the replies in
two places only: SPOP chooses the members it pops by them, and an EXPIRE that makes a value outlive
its type entry shows the bytes of a hash or a set as a string. `replicas_agree` covers the runs in
which neither happens.
-/

namespace Badis

open Lib

/-- Two databases hold logically equal keyspaces from the clock reading `t` on: every key holds the
same value (a set as a set, a hash as a map) with the same type and expiry. -/
def Agree (c : Codec) (t : Nat) (db db' : DB) : Prop :=
  ∀ t', t ≤ t' → ∀ k, DB.view c t' db k = DB.view c t' db' k

theorem Agree.mono {c : Codec} {t t' : Nat} (ht : t ≤ t') {db db' : DB} (h : Agree c t db db') :
    Agree c t' db db' := fun t'' ht' => h t'' (ht.trans ht')

/-- A step in which map iteration order does not show: SPOP has no choice between members, and
EXPIRE keeps type entries alive. -/
def OrderFree (c : Codec) (env : Env) (cmd : Command) (db : DB) : Prop :=
  popFree cmd (DB.view c env.clock.now db cmd.key) = true ∧ ExpireSafe env cmd db

instance (c : Codec) (env : Env) (cmd : Command) (db : DB) :
    Decidable (OrderFree c env cmd db) := by
  unfold OrderFree
  infer_instance

theorem agree_applyCmd {c : Codec} (hc : c.Lawful) {env env' : Env} {cmd : Command} {db db' : DB}
    (hclock : env.clock = env'.clock) (h : Agree c env.clock.now db db')
    (hfree : OrderFree c env cmd db) (hfree' : OrderFree c env' cmd db') :
    (applyCmd c env cmd db).1 = (applyCmd c env' cmd db').1 ∧
      Agree c env.clock.now (applyCmd c env cmd db).2 (applyCmd c env' cmd db').2 := by
  have hnow : DB.view c env.clock.now db = DB.view c env'.clock.now db' := by
    rw [← hclock]
    exact funext fun k => h _ le_rfl k
  have hplan : plan env cmd (DB.view c env.clock.now db cmd.key) =
      plan env' cmd (DB.view c env.clock.now db cmd.key) := plan_eq_of_clock hclock hfree.1
  constructor
  · rw [reply_applyCmd, reply_applyCmd, ← hnow]
    exact reply_eq_of_plan fun _ => hplan
  · intro t ht k
    have hact : keyAct env cmd k (DB.view c env.clock.now db k) =
        keyAct env' cmd k (DB.view c env'.clock.now db' k) := by
      rw [← hnow]
      exact keyAct_eq_of_plan fun _ hk => by rw [← hk]; exact hplan
    rw [view_applyCmd hc hfree.2 k ht, view_applyCmd hc hfree'.2 k (hclock ▸ ht), ← hact, ← hclock,
      ← h _ le_rfl k, h t ht k]

/-- One command as two replicas see it. -/
abbrev PairStep := Env × Env × Command

/-- The runs of the two replicas. -/
def leftSteps (steps : List PairStep) : List Step := steps.map fun s => (s.1, s.2.2)
def rightSteps (steps : List PairStep) : List Step := steps.map fun s => (s.2.1, s.2.2)

/-- Two replicas that start from logically equal keyspaces and apply the same commands at the same
clock readings, in steps in which map iteration order does not show, give the same replies and end
in logically equal keyspaces. -/
theorem replicas_agree {c : Codec} (hc : c.Lawful) (steps : List PairStep) (t : Nat) (db db' : DB)
    (hstart : Agree c t db db') (hclock : ∀ s ∈ steps, s.1.clock = s.2.1.clock)
    (hord : Ordered t (leftSteps steps)) (hfree : Along c (OrderFree c) (leftSteps steps) db)
    (hfree' : Along c (OrderFree c) (rightSteps steps) db') :
    (applyLog c (leftSteps steps) db).1 = (applyLog c (rightSteps steps) db').1 ∧
      Agree c (lastReading t (leftSteps steps)) (applyLog c (leftSteps steps) db).2
        (applyLog c (rightSteps steps) db').2 := by
  induction steps generalizing t db db' with
  | nil => exact ⟨rfl, hstart⟩
  | cons s rest ih =>
    obtain ⟨env, env', cmd⟩ := s
    have hc1 : env.clock = env'.clock := hclock _ List.mem_cons_self
    have hnow : env.clock.now ≤ env.clock.ttlType :=
      (env.clock.now_le.trans env.clock.remaining_le).trans env.clock.ttl_le
    obtain ⟨hr, hdb⟩ := agree_applyCmd hc hc1 (hstart.mono hord.1) hfree.1 hfree'.1
    obtain ⟨hrs, hdbs⟩ := ih _ _ _ (hdb.mono hnow)
      (fun s hs => hclock s (List.mem_cons_of_mem _ hs)) hord.2 hfree.2 hfree'.2
    exact ⟨congrArg₂ List.cons hr hrs, hdbs⟩

/-- A set of two members, from which the replicas pop one in opposite orders. -/
def poppedSet : List PairStep :=
  [(Env.at 1000000000000, Env.at 1000000000000, ⟨.sadd, [115], [[97], [98]], 0, .always, false⟩),
   (Env.at 1000000000000, { Env.at 1000000000000 with pop := RangeOrder.reversed },
    ⟨.spop, [115], [], 0, .always, false⟩)]

/-- The member in the reply of a pop. -/
def poppedMember : Except Err Result → Option Bytes
  | .ok (.bytes b) => b
  | _ => none

theorem poppedSet_diverges :
    (∀ s ∈ poppedSet, s.1.clock = s.2.1.clock) ∧ Ordered 0 (leftSteps poppedSet) ∧
    (applyLog msgpack (leftSteps poppedSet) OrdMap.empty).1.map poppedMember = [none, some [97]] ∧
    (applyLog msgpack (rightSteps poppedSet) OrdMap.empty).1.map poppedMember = [none, some [98]] ∧
    DB.view msgpack 1000000000000 (applyLog msgpack (leftSteps poppedSet) OrdMap.empty).2 [115] ≠
      DB.view msgpack 1000000000000 (applyLog msgpack (rightSteps poppedSet) OrdMap.empty).2
        [115] := by
  decide

/-- A set that two replicas write in opposite orders, and pop when one member is left. -/
def drainedSet : List PairStep :=
  [(Env.at 1000000000000, { Env.at 1000000000000 with members := RangeOrder.reversed },
    ⟨.sadd, [115], [[97], [98]], 0, .always, false⟩),
   (Env.at 1000000000000, { Env.at 1000000000000 with members := RangeOrder.reversed },
    ⟨.srem, [115], [[97]], 0, .always, false⟩),
   (Env.at 1000000000000, { Env.at 1000000000000 with pop := RangeOrder.reversed },
    ⟨.spop, [115], [], 0, .always, false⟩)]

theorem drainedSet_agrees :
    (applyLog msgpack (leftSteps drainedSet) OrdMap.empty).1 =
        (applyLog msgpack (rightSteps drainedSet) OrdMap.empty).1 ∧
      Agree msgpack (lastReading 0 (leftSteps drainedSet))
        (applyLog msgpack (leftSteps drainedSet) OrdMap.empty).2
        (applyLog msgpack (rightSteps drainedSet) OrdMap.empty).2 :=
  replicas_agree msgpack_lawful drainedSet 0 OrdMap.empty OrdMap.empty (fun _ _ _ => rfl)
    (by decide) (by decide) (by decide) (by decide)

end Badis
