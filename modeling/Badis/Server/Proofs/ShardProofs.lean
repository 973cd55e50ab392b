import Mathlib.Data.List.Induction
import Badis.Server.Shard
import Badis.Server.Proofs.RequestsProofs
import Badis.Store.Encoding
import Badis.Store.Proofs.ReplayProofs

/-!
# What a GET can return

In every run of a shard each node holds, of every key, the value of the last SET in the prefix of
the log it has applied (`Shard.Consistent`). So a GET on a node that has applied the acknowledged
SETs of the key returns the last of them or a later one (`get_returns_acknowledged`); on a node that
lags behind it can return an older value.
-/

namespace Badis

open Lib

/-! ## The last SET of a log -/

theorem lastSet_append (log : List Command) (key val k : Bytes) :
    lastSet k (log ++ [setCommand key val]) = if key = k then some val else lastSet k log := by
  unfold lastSet
  rw [List.foldl_append]
  rfl

/-- The value after a log that has a SET of the key is the value of that SET or of a later one. -/
theorem lastSet_eq_later {key val : Bytes} {log : List Command} {n : Nat}
    (hlog : ∀ cmd ∈ log, ∃ key val, cmd = setCommand key val)
    (hn : log[n]? = some (setCommand key val)) :
    ∃ m val', n ≤ m ∧ log[m]? = some (setCommand key val') ∧ lastSet key log = some val' := by
  induction log using List.reverseRecOn with
  | nil => cases hn
  | append_singleton log cmd ih =>
    obtain ⟨key', val', rfl⟩ := hlog cmd (by simp)
    have hlt : n < (log ++ [setCommand key' val']).length := (List.getElem?_eq_some_iff.mp hn).1
    rw [List.length_append, List.length_singleton] at hlt
    rw [lastSet_append]
    by_cases hkey : key' = key
    · -- the last entry sets the key
      subst hkey
      exact ⟨log.length, val', by omega, by simp, if_pos rfl⟩
    · have hne : n ≠ log.length := by
        rintro rfl
        have hlast : setCommand key' val' = setCommand key val := by simpa using hn
        exact hkey (congrArg Command.key hlast)
      have hold : log[n]? = some (setCommand key val) := by
        rw [List.getElem?_append_left (by omega)] at hn
        exact hn
      obtain ⟨m, v, hle, hm, hlast⟩ := ih (fun cmd hcmd => hlog cmd (by simp [hcmd])) hold
      refine ⟨m, v, hle, ?_, ?_⟩
      · rw [List.getElem?_append_left (List.getElem?_eq_some_iff.mp hm).1]
        exact hm
      · rw [if_neg hkey]
        exact hlast

/-! ## What the nodes hold -/

section Runs

variable {ι : Type} {c : Codec} {upper : Bytes → Bytes} {codecText : Bytes}

/-- A node that has applied `log` holds the last value of every key. -/
structure Replica.Holds (c : Codec) (log : List Command) (r : Replica) : Prop where
  permanent : r.db.Permanent
  view : ∀ t k, DB.view c t r.db k = ofString (lastSet k log)

/-- The log has SETs only, and every node holds what the prefix it has applied says. -/
structure Shard.Consistent (c : Codec) (s : Shard ι) : Prop where
  sets : ∀ cmd ∈ s.log, ∃ key val, cmd = setCommand key val
  applied_le : ∀ i, (s.replica i).applied ≤ s.log.length
  holds : ∀ i, (s.replica i).Holds c (s.log.take (s.replica i).applied)

theorem setCommand_plain (key val : Bytes) : (setCommand key val).plain = true := by
  simp [setCommand, Command.plain, Op.script]

theorem viewStep_setCommand (env : Env) (key val k : Bytes) (y : Option Bytes) :
    viewStep k (ofString y) (env, setCommand key val) =
      ofString (if key = k then some val else y) := by
  by_cases hkey : key = k
  · rw [if_pos hkey, viewStep_assign env (setCommand_plain key val) (Or.inl rfl) hkey rfl, if_pos]
    simp [setKey, setCommand]
  · rw [if_neg hkey]
    refine viewStep_of_not_touches ?_
    simp [Command.touches, setCommand, hkey]

theorem Replica.Holds.apply (hc : c.Lawful) {log : List Command} {r : Replica} (h : r.Holds c log)
    (env : Env) (key val : Bytes) :
    (r.apply c env (setCommand key val)).Holds c (log ++ [setCommand key val]) := by
  have hplain := setCommand_plain key val
  refine ⟨permanent_applyCmd c hplain h.permanent, fun t k => ?_⟩
  rw [lastSet_append]
  show DB.view c t (applyCmd c env (setCommand key val) r.db).2 k = _
  rw [view_applyCmd_plain hc hplain h.permanent t, h.view t k]
  exact viewStep_setCommand env key val k _

theorem Shard.Consistent.start (leader : ι) : (Shard.start leader).Consistent c where
  sets := fun cmd hcmd => by cases hcmd
  applied_le := fun i => le_rfl
  holds :=
    fun i => ⟨fun k => ⟨(fun e he => by cases he), (fun e he => by cases he)⟩, fun t k => rfl⟩

theorem Shard.Consistent.commit {s : Shard ι} (hs : s.Consistent c) (key val : Bytes) :
    Shard.Consistent c { s with log := s.log ++ [setCommand key val] } := by
  refine ⟨fun cmd hcmd => ?_, fun i => ?_, fun i => ?_⟩
  · rcases List.mem_append.mp hcmd with hold | hnew
    · exact hs.sets cmd hold
    · exact ⟨key, val, List.mem_singleton.mp hnew⟩
  · have happ := hs.applied_le i
    simp only [List.length_append]
    omega
  · show (s.replica i).Holds c ((s.log ++ [setCommand key val]).take (s.replica i).applied)
    rw [List.take_append_of_le_length (hs.applied_le i)]
    exact hs.holds i

variable [DecidableEq ι]

theorem Shard.Consistent.apply (hc : c.Lawful) {s : Shard ι} (hs : s.Consistent c) {node : ι}
    {cmd : Command} (hcmd : s.log[(s.replica node).applied]? = some cmd) (env : Env) :
    Shard.Consistent c
      { s with replica := Function.update s.replica node ((s.replica node).apply c env cmd) } := by
  obtain ⟨key, val, rfl⟩ := hs.sets cmd (List.mem_of_getElem? hcmd)
  have hlt : (s.replica node).applied < s.log.length := (List.getElem?_eq_some_iff.mp hcmd).1
  have happlied : ((s.replica node).apply c env (setCommand key val)).applied =
      (s.replica node).applied + 1 := by
    simp [Replica.applied, Replica.apply]
  have htake : s.log.take ((s.replica node).applied + 1) =
      s.log.take (s.replica node).applied ++ [setCommand key val] := by
    rw [List.take_add_one, hcmd]
    rfl
  refine ⟨hs.sets, fun i => ?_, fun i => ?_⟩
  · by_cases hi : i = node
    · subst hi
      simp only [Function.update_self, happlied]
      omega
    · simp only [Function.update_of_ne hi]
      exact hs.applied_le i
  · by_cases hi : i = node
    · subst hi
      simp only [Function.update_self, happlied, htake]
      exact (hs.holds i).apply hc env key val
    · simp only [Function.update_of_ne hi]
      exact hs.holds i

/-- What one event can do to a shard. -/
theorem Shard.step_cases {s s' : Shard ι} {e : ShardEvent ι}
    (h : s.step c upper codecText e = some s') :
    (∃ key val, s' = { s with log := s.log ++ [setCommand key val] }) ∨
    (∃ node env cmd, s.log[(s.replica node).applied]? = some cmd ∧
      s' =
        { s with replica := Function.update s.replica node ((s.replica node).apply c env cmd) }) ∨
    (∃ pos, s' = { s with acked := pos :: s.acked }) ∨
    ∃ node, s' = { s with leader := node } := by
  cases e with
  | set t key val =>
    cases h
    exact Or.inl ⟨key, val, rfl⟩
  | apply node env =>
    obtain ⟨cmd, hcmd, rfl⟩ := Option.map_eq_some_iff.mp h
    exact Or.inr (Or.inl ⟨node, env, cmd, hcmd, rfl⟩)
  | ack pos =>
    unfold Shard.step at h
    dsimp only at h
    split at h
    · split_ifs at h
      cases h
      exact Or.inr (Or.inr (Or.inl ⟨pos, rfl⟩))
    · cases h
  | elect node =>
    cases h
    exact Or.inr (Or.inr (Or.inr ⟨node, rfl⟩))

theorem Shard.Consistent.step (hc : c.Lawful) {s s' : Shard ι} {e : ShardEvent ι}
    (hs : s.Consistent c) (h : s.step c upper codecText e = some s') : s'.Consistent c := by
  rcases Shard.step_cases h with ⟨key, val, rfl⟩ | ⟨node, env, cmd, hcmd, rfl⟩ | ⟨pos, rfl⟩ |
    ⟨node, rfl⟩
  · exact hs.commit key val
  · exact hs.apply hc hcmd env
  · exact ⟨hs.sets, hs.applied_le, hs.holds⟩
  · exact ⟨hs.sets, hs.applied_le, hs.holds⟩

theorem Shard.Consistent.run (hc : c.Lawful) {events : List (ShardEvent ι)} {s s' : Shard ι}
    (hs : s.Consistent c) (h : s.run c upper codecText events = some s') : s'.Consistent c := by
  induction events generalizing s with
  | nil =>
    cases h
    exact hs
  | cons e rest ih =>
    unfold Shard.run at h
    rw [List.foldlM_cons] at h
    obtain ⟨s1, hstep, hrest⟩ := Option.bind_eq_some_iff.mp h
    exact ih (hs.step hc hstep) hrest

/-- In every run, a GET on a node that has applied the acknowledged SETs of its key returns, for
each of them, its value or the value of a SET later in the log. -/
theorem get_returns_acknowledged (hc : c.Lawful) (leader : ι) (events : List (ShardEvent ι))
    (s : Shard ι) (hrun : (Shard.start leader).run c upper codecText events = some s)
    (i : ι) (key : Bytes)
    (happlied : ∀ pos ∈ s.acked, ∀ val, s.log[pos]? = some (setCommand key val) →
      pos < (s.replica i).applied)
    (t pos : Nat) (val : Bytes) (hack : pos ∈ s.acked)
    (hset : s.log[pos]? = some (setCommand key val)) :
    ∃ pos' val', pos ≤ pos' ∧ s.log[pos']? = some (setCommand key val') ∧
      handleGet codecText t [ascii "GET", key] (s.replica i).db = [.bulk val'] := by
  have hs : s.Consistent c := (Shard.Consistent.start leader).run hc hrun
  have hlt := happlied pos hack val hset
  have htake : (s.log.take (s.replica i).applied)[pos]? = some (setCommand key val) := by
    rw [List.getElem?_take_of_lt hlt]
    exact hset
  obtain ⟨pos', val', hle, hpos', hlast⟩ :=
    lastSet_eq_later (fun cmd hcmd => hs.sets cmd (List.mem_of_mem_take hcmd)) htake
  refine ⟨pos', val', hle, ?_, ?_⟩
  · have hlt' := (List.getElem?_eq_some_iff.mp hpos').1
    rw [List.length_take] at hlt'
    rw [List.getElem?_take_of_lt (by omega)] at hpos'
    exact hpos'
  · have hview := (hs.holds i).view t key
    rw [hlast] at hview
    exact handleGet_ofString c codecText (ascii "GET") hview

end Runs

/-- Three nodes, led by node 0. The first SET is applied by all that answer; the second one is
acknowledged when only the leader has applied it. -/
def laggingFollower : List (ShardEvent (Fin 3)) :=
  [.set 1000000000000 (ascii "x") (ascii "1"),
   .apply 0 (Env.at 1000000000000), .apply 1 (Env.at 1000000000000), .ack 0,
   .set 1001000000000 (ascii "x") (ascii "2"),
   .apply 0 (Env.at 1001000000000), .ack 1]

/-- Node 1 answers a GET with the value that the acknowledged second SET has replaced. -/
theorem laggingFollower_answers_stale :
    ∃ s, (Shard.start 0).run msgpack id [] laggingFollower = some s ∧ 1 ∈ s.acked ∧
      s.log[1]? = some (setCommand (ascii "x") (ascii "2")) ∧
      handleGet [] 1002000000000 [ascii "GET", ascii "x"] (s.replica 1).db = [.bulk (ascii "1")] ∧
      ¬ ∃ pos' val', 1 ≤ pos' ∧ s.log[pos']? = some (setCommand (ascii "x") val') ∧
        handleGet [] 1002000000000 [ascii "GET", ascii "x"] (s.replica 1).db = [.bulk val'] := by
  have hfacts : ((Shard.start 0).run msgpack id [] laggingFollower).map (fun s => (s.acked, s.log,
      handleGet [] 1002000000000 [ascii "GET", ascii "x"] (s.replica 1).db)) =
      some ([1, 0], [setCommand (ascii "x") (ascii "1"), setCommand (ascii "x") (ascii "2")],
        [.bulk (ascii "1")]) := by decide
  obtain ⟨s, hs, heq⟩ := Option.map_eq_some_iff.mp hfacts
  obtain ⟨hacked, hlog, hget⟩ : s.acked = [1, 0] ∧
      s.log = [setCommand (ascii "x") (ascii "1"), setCommand (ascii "x") (ascii "2")] ∧
      handleGet [] 1002000000000 [ascii "GET", ascii "x"] (s.replica 1).db =
        [.bulk (ascii "1")] := by
    simpa using heq
  refine ⟨s, hs, by simp [hacked], by simp [hlog], hget, ?_⟩
  rintro ⟨pos', val', hpos, hset, hanswer⟩
  have hlast : pos' = 1 := by
    have hlt := (List.getElem?_eq_some_iff.mp hset).1
    simp only [hlog, List.length_cons, List.length_nil] at hlt
    omega
  rw [hlast, hlog] at hset
  have hval : ascii "2" = val' := by simpa [setCommand] using hset
  rw [hget, ← hval] at hanswer
  exact absurd hanswer (by decide)

theorem laggingFollower_leader_answers :
    ∃ s, (Shard.start 0).run msgpack id [] laggingFollower = some s ∧
      ∃ pos' val', 1 ≤ pos' ∧ s.log[pos']? = some (setCommand (ascii "x") val') ∧
        handleGet [] 1002000000000 [ascii "GET", ascii "x"] (s.replica 0).db = [.bulk val'] := by
  have hfacts : ((Shard.start 0).run msgpack id [] laggingFollower).map (fun s =>
      (s.acked, s.log[1]?, (s.replica 0).applied)) =
      some ([1, 0], some (setCommand (ascii "x") (ascii "2")), 2) := by decide
  obtain ⟨s, hs, heq⟩ := Option.map_eq_some_iff.mp hfacts
  obtain ⟨hacked, hlog, happlied⟩ : s.acked = [1, 0] ∧
      s.log[1]? = some (setCommand (ascii "x") (ascii "2")) ∧ (s.replica 0).applied = 2 := by
    simpa using heq
  refine ⟨s, hs, get_returns_acknowledged msgpack_lawful 0 laggingFollower s hs 0 (ascii "x") ?_
    1002000000000 1 (ascii "2") (by simp [hacked]) hlog⟩
  intro pos hpos val _
  rw [happlied]
  rw [hacked] at hpos
  rcases List.mem_pair.mp hpos with rfl | rfl <;> omega

end Badis
