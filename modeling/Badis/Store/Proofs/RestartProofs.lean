import Badis.Store.Encoding
import Badis.Store.Proofs.ReplayProofs

/-!
# Stopping and starting a node

In every run of commits and restarts, what a key holds is the result of some run of the whole log
(`Node.Replayed`). A restart runs the log once more on top of it, so it keeps every key for which
the log can be replayed (`restart_keeps_data`), and a counter or a list grows with every restart.
-/

namespace Badis

open Lib

/-- The data has no expiries, and every key holds the result of some run of the log. -/
structure Node.Replayed (c : Codec) (n : Node) : Prop where
  permanent : n.db.Permanent
  log_plain : ∀ cmd ∈ n.log, cmd.plain = true
  view : ∀ k, ∃ (steps : List Step) (x : View), steps.map Prod.snd = n.log ∧ x.plain = true ∧
    ∀ t, DB.view c t n.db k = viewRun k steps x

theorem map_snd_logSteps (envs : Nat → Env) (log : List Command) :
    (logSteps envs log).map Prod.snd = log := by
  apply List.ext_getElem?
  intro i
  simp [logSteps, List.getElem?_mapIdx, Function.comp_def]

theorem plain_of_map_snd {steps : List Step} {log : List Command} (h : steps.map Prod.snd = log)
    (hlog : ∀ cmd ∈ log, cmd.plain = true) : ∀ s ∈ steps, s.2.plain = true := by
  intro s hs
  exact hlog s.2 (h ▸ List.mem_map_of_mem hs)

theorem Node.Replayed.fresh (c : Codec) : Node.Replayed c Node.fresh where
  permanent := fun k => ⟨(fun e he => by cases he), (fun e he => by cases he)⟩
  log_plain := fun cmd hcmd => by cases hcmd
  view := fun k => ⟨[], none, rfl, rfl, fun t => rfl⟩

theorem Node.Replayed.step {c : Codec} (hc : c.Lawful) {n : Node} {e : Event} (hn : n.Replayed c)
    (he : e.plain = true) : (n.step c e).Replayed c := by
  cases e with
  | commit env cmd =>
    refine ⟨permanent_applyCmd c he hn.permanent, ?_, fun k => ?_⟩
    · intro cmd' hcmd'
      rcases List.mem_append.mp hcmd' with h | h
      · exact hn.log_plain cmd' h
      · rw [List.mem_singleton.mp h]
        exact he
    · obtain ⟨steps, x, hlog, hx, hview⟩ := hn.view k
      refine ⟨steps ++ [(env, cmd)], x, by rw [List.map_append, hlog]; rfl, hx, fun t => ?_⟩
      rw [viewRun_append, ← hview t]
      exact view_applyCmd_plain hc he hn.permanent t
  | restart envs =>
    have hplain := plain_of_map_snd (map_snd_logSteps envs n.log) hn.log_plain
    refine ⟨(view_applyLog hc [] hplain hn.permanent).1, hn.log_plain, fun k => ?_⟩
    obtain ⟨steps, x, hlog, hx, hview⟩ := hn.view k
    refine ⟨logSteps envs n.log, viewRun k steps x, map_snd_logSteps envs n.log,
      viewRun_plain (plain_of_map_snd hlog hn.log_plain) hx, fun t => ?_⟩
    rw [← hview t]
    exact (view_applyLog hc k hplain hn.permanent).2 t

theorem Node.Replayed.run {c : Codec} (hc : c.Lawful) {n : Node} {events : List Event}
    (hn : n.Replayed c) (hevents : ∀ e ∈ events, e.plain = true) : (n.run c events).Replayed c := by
  induction events generalizing n with
  | nil => exact hn
  | cons e rest ih =>
    exact ih (hn.step hc (hevents e List.mem_cons_self))
      fun e he => hevents e (List.mem_cons_of_mem _ he)

/-- After any run of commits of plain commands and restarts, one more restart keeps what a key
holds, if the committed log can be replayed as far as the key is concerned. -/
theorem restart_keeps_data {c : Codec} (hc : c.Lawful) (events : List Event)
    (hplain : ∀ e ∈ events, e.plain = true) (envs : Nat → Env) (k : Bytes)
    (hsafe : replaySafe k (Node.fresh.run c events).log = true) (t : Nat) :
    DB.view c t (((Node.fresh.run c events).step c (.restart envs)).db) k =
      DB.view c t (Node.fresh.run c events).db k := by
  have hn := Node.Replayed.run hc (Node.Replayed.fresh c) hplain
  generalize Node.fresh.run c events = n at hn hsafe
  obtain ⟨steps, x, hlog, hx, hview⟩ := hn.view k
  have hsame : steps.map Prod.snd = (logSteps envs n.log).map Prod.snd := by
    rw [hlog, map_snd_logSteps]
  have hreplay := (view_applyLog hc k (plain_of_map_snd (map_snd_logSteps envs n.log) hn.log_plain)
    hn.permanent).2 t
  rw [← hlog] at hsafe
  calc DB.view c t (n.step c (.restart envs)).db k
      = viewRun k (logSteps envs n.log) (DB.view c t n.db k) := hreplay
    _ = viewRun k (logSteps envs n.log) (viewRun k steps x) := by rw [hview t]
    _ = viewRun k steps x := viewRun_replay hsame (plain_of_map_snd hlog hn.log_plain) hx hsafe
    _ = DB.view c t n.db k := (hview t).symm

/-- A counter that is incremented once. -/
def countedOnce : List Event :=
  [.commit (Env.at 1000000000000) ⟨.incr, [110], [], 0, .always, false⟩]

/-- The counter holds 1 before the node stops, and 2 when it is back. -/
theorem countedOnce_counts_twice :
    (∀ e ∈ countedOnce, e.plain = true) ∧
    DB.view msgpack 1000000000000 (Node.fresh.run msgpack countedOnce).db [110] =
      some (.string [49], 0) ∧
    DB.view msgpack 1000000000000 ((Node.fresh.run msgpack countedOnce).step msgpack
      (.restart fun _ => Env.at 1000000000000)).db [110] = some (.string [50], 0) := by
  refine ⟨?_, by decide, by decide⟩
  intro e he
  rw [List.mem_singleton.mp he]
  decide

/-- A hash that is written, loses a field and is written again, on a node that was restarted. -/
def rewrittenHash : List Event :=
  [.commit (Env.at 1000000000000) ⟨.hset, [104], [[97], [49], [98], [50]], 0, .always, false⟩,
   .restart fun _ => Env.at 1001000000000,
   .commit (Env.at 1002000000000) ⟨.hdel, [104], [[97]], 0, .always, false⟩,
   .commit (Env.at 1002000000000) ⟨.hsetnx, [104], [[98], [51]], 0, .always, false⟩]

theorem rewrittenHash_survives :
    DB.view msgpack 1003000000000 ((Node.fresh.run msgpack rewrittenHash).step msgpack
        (.restart fun _ => Env.at 1003000000000)).db [104] =
      DB.view msgpack 1003000000000 (Node.fresh.run msgpack rewrittenHash).db [104] :=
  restart_keeps_data msgpack_lawful rewrittenHash
    (by simp [rewrittenHash, Event.plain, Command.plain, Op.script]) _ [104]
    (by decide) 1003000000000

end Badis
