import Badis.Server.Replication
import Badis.Store.Encoding
import Badis.Store.Proofs.KeyspaceProofs
import Badis.Store.Proofs.ReplayProofs

/-!
# What clients of a shard see

A node that has applied `n` entries holds what the first `n` entries make of the empty keyspace when
they are executed one after the other, and has the replies of that execution, whatever clock it read
(`Replica.Follows`). Entries are only added, and a node never goes back.
-/

namespace Badis

open Lib

/-! ## Commands that do not depend on the node -/

section Settled

variable {env env' : Env} {cmd : Command} {ks : Keyspace}

theorem Command.settled_iff : cmd.settled = true ↔ cmd.plain = true ∧ cmd.op ≠ .spop := by
  simp [Command.settled]

/-- Without expiries nothing is gone at any reading. -/
theorem Keyspace.at_of_timeless (hks : ∀ k, View.timeless (ks k) = true) (t : Nat) :
    Keyspace.at t ks = ks :=
  funext fun k => View.at_of_timeless (hks k) t

theorem Keyspace.apply_of_timeless (hks : ∀ k, View.timeless (ks k) = true) (env : Env)
    (cmd : Command) :
    Keyspace.apply env cmd ks = (reply env cmd ks, fun k => viewStep k (ks k) (env, cmd)) := by
  unfold Keyspace.apply
  rw [Keyspace.at_of_timeless hks]
  rfl

/-- A settled command replies and does the same in every execution. -/
theorem Keyspace.apply_eq (hcmd : cmd.settled = true) (hks : ∀ k, View.timeless (ks k) = true)
    (env env' : Env) :
    Keyspace.apply env cmd ks = Keyspace.apply env' cmd ks := by
  obtain ⟨hplain, hspop⟩ := Command.settled_iff.mp hcmd
  have hpop : ∀ k, cmd.popsFrom k = false := by
    intro k
    simp [Command.popsFrom, hspop]
  have hplan : plan env cmd (ks cmd.key) = plan env' cmd (ks cmd.key) :=
    plan_eq_of_timeless (hks cmd.key) fun hop => absurd hop hspop
  rw [Keyspace.apply_of_timeless hks, Keyspace.apply_of_timeless hks]
  refine Prod.ext ?_ (funext fun k => ?_)
  · exact reply_eq_of_plan fun _ => hplan
  · exact viewStep_eq hplain (hks k) (hpop k)

theorem Keyspace.applyLog_concat (steps : List Step) (s : Step) (ks : Keyspace) :
    Keyspace.applyLog (steps ++ [s]) ks =
      ((Keyspace.applyLog steps ks).1 ++
        [(Keyspace.apply s.1 s.2 (Keyspace.applyLog steps ks).2).1],
        (Keyspace.apply s.1 s.2 (Keyspace.applyLog steps ks).2).2) := by
  induction steps generalizing ks with
  | nil => rfl
  | cons s' steps ih =>
    exact congrArg (fun p => ((Keyspace.apply s'.1 s'.2 ks).1 :: p.1, p.2))
      (ih (Keyspace.apply s'.1 s'.2 ks).2)

end Settled

/-! ## The nodes -/

theorem getElem?_of_prefix {α : Type} {l l' : List α} {i : Nat} {a : α} (h : l <+: l')
    (ha : l[i]? = some a) :
    l'[i]? = some a := by
  obtain ⟨more, rfl⟩ := h
  rw [List.getElem?_append_left (List.getElem?_eq_some_iff.mp ha).1, ha]

/-- What the first `n` entries of a log reply and leave, executed one after the other as `envs`
says. -/
def serialRun (envs : Nat → Env) (log : List Command) (n : Nat) :
    List (Except Err Result) × Keyspace :=
  Keyspace.applyLog (logSteps envs (log.take n)) Keyspace.empty

/-- One entry more of the log. -/
theorem serialRun_succ {log : List Command} {n : Nat} {cmd : Command} (h : log[n]? = some cmd)
    (envs : Nat → Env) :
    serialRun envs log (n + 1) =
      ((serialRun envs log n).1 ++ [(Keyspace.apply (envs n) cmd (serialRun envs log n).2).1],
        (Keyspace.apply (envs n) cmd (serialRun envs log n).2).2) := by
  obtain ⟨hlt, hget⟩ := List.getElem?_eq_some_iff.mp h
  have htake : log.take (n + 1) = log.take n ++ [cmd] := by
    rw [List.take_succ_eq_append_getElem hlt, hget]
  have hlen : (log.take n).length = n := List.length_take_of_le hlt.le
  unfold serialRun logSteps
  rw [htake, List.mapIdx_concat, hlen, Keyspace.applyLog_concat]

theorem serialRun_append {log : List Command} {n : Nat} (h : n ≤ log.length) (more : List Command)
    (envs : Nat → Env) : serialRun envs (log ++ more) n = serialRun envs log n := by
  unfold serialRun
  rw [List.take_append_of_le_length h]

/-- The replies to the first entries stay as the log is applied further. -/
theorem serialRun_prefix {log : List Command} {n m : Nat} (hnm : n ≤ m) (hm : m ≤ log.length)
    (envs : Nat → Env) :
    (serialRun envs log n).1 <+: (serialRun envs log m).1 := by
  induction m, hnm using Nat.le_induction with
  | base => exact List.prefix_rfl
  | succ m hnm ih =>
    have hlt : m < log.length := hm
    rw [serialRun_succ (List.getElem?_eq_getElem hlt) envs]
    exact (ih hlt.le).trans (List.prefix_append _ _)

section Nodes

variable (c : Codec) (envs : Nat → Env) (log : List Command)

/-- The node has the replies and the keyspace of the entries that it has applied. -/
structure Replica.Follows (r : Replica) : Prop where
  applied_le : r.applied ≤ log.length
  replies : r.replies = (serialRun envs log r.applied).1
  permanent : r.db.Permanent
  view : ∀ t k, DB.view c t r.db k = (serialRun envs log r.applied).2 k

variable {c envs log} {r : Replica}

/-- A node that follows a log follows every continuation of it. -/
theorem Replica.Follows.append (h : r.Follows c envs log) (more : List Command) :
    r.Follows c envs (log ++ more) := by
  have hsame := serialRun_append h.applied_le more envs
  refine ⟨?_, ?_, h.permanent, ?_⟩
  · have hle := h.applied_le
    rw [List.length_append]
    omega
  · rw [hsame]
    exact h.replies
  · intro t k
    rw [hsame]
    exact h.view t k

/-- A node that applies the next entry at its own clock and map order has the reply and the keys of
the serial run. -/
theorem Replica.Follows.apply (hc : c.Lawful) (h : r.Follows c envs log) {cmd : Command}
    (hcmd : log[r.applied]? = some cmd) (hsettled : cmd.settled = true) (env : Env) :
    (r.apply c env cmd).Follows c envs log := by
  have hplain := (Command.settled_iff.mp hsettled).1
  have hviews : ∀ t, DB.view c t r.db = (serialRun envs log r.applied).2 :=
    fun t => funext (h.view t)
  have htimeless : ∀ k, View.timeless ((serialRun envs log r.applied).2 k) = true := by
    intro k
    rw [← h.view env.clock.now k]
    exact (h.permanent k).view_timeless c _
  have happlied : (r.apply c env cmd).applied = r.applied + 1 := by
    simp [Replica.applied, Replica.apply]
  have hrun := serialRun_succ hcmd envs
  rw [Keyspace.apply_eq hsettled htimeless (envs r.applied) env,
    Keyspace.apply_of_timeless htimeless] at hrun
  refine ⟨?_, ?_, permanent_applyCmd c hplain h.permanent, ?_⟩
  · rw [happlied]
    exact (List.getElem?_eq_some_iff.mp hcmd).1
  · rw [happlied, hrun]
    show r.replies ++ [(applyCmd c env cmd r.db).1] = _
    rw [h.replies, reply_applyCmd, hviews]
  · intro t k
    rw [happlied, hrun]
    show DB.view c t (applyCmd c env cmd r.db).2 k = _
    rw [view_applyCmd_plain hc hplain h.permanent t, h.view t k]

end Nodes

/-! ## Runs -/

namespace Replication

variable {ι : Type} {c : Codec} {s s' : Replication ι}

/-- The log and what the nodes have done only grow. -/
structure Grows (s s' : Replication ι) : Prop where
  log : s.log <+: s'.log
  replies : ∀ i, (s.replica i).replies <+: (s'.replica i).replies

theorem Grows.refl (s : Replication ι) : Grows s s := ⟨List.prefix_rfl, fun _ => List.prefix_rfl⟩

theorem Grows.trans {s'' : Replication ι} (h : Grows s s') (h' : Grows s' s'') : Grows s s'' :=
  ⟨h.log.trans h'.log, fun i => (h.replies i).trans (h'.replies i)⟩

/-- Every node follows the log, and every client was answered with a reply of the node that
answered. -/
structure Serial (c : Codec) (envs : Nat → Env) (s : Replication ι) : Prop where
  nodes : ∀ i, (s.replica i).Follows c envs s.log
  answers : ∀ i pos r, (i, pos, r) ∈ s.answers → (s.replica i).replies[pos]? = some r

theorem Serial.start (c : Codec) (envs : Nat → Env) :
    Serial c envs (Replication.start : Replication ι) where
  nodes _ := {
    applied_le := le_rfl
    replies := rfl
    permanent := DB.permanent_empty
    view := fun _ _ => rfl }
  answers i pos r h := by cases h

variable [DecidableEq ι]

/-- What an event can do. -/
theorem step_cases {e : ReplicationEvent ι} (h : s.step c e = some s') :
    (∃ cmd, s' = { s with log := s.log ++ [cmd] }) ∨
      (∃ node env cmd, s.log[(s.replica node).applied]? = some cmd ∧
        s' =
          { s with replica := Function.update s.replica node ((s.replica node).apply c env cmd) }) ∨
      ∃ node pos r, (s.replica node).replies[pos]? = some r ∧
        s' = { s with answers := (node, pos, r) :: s.answers } := by
  cases e with
  | commit cmd => exact .inl ⟨cmd, (Option.some.inj h).symm⟩
  | apply node env =>
    obtain ⟨cmd, hcmd, rfl⟩ := Option.map_eq_some_iff.mp h
    exact .inr (.inl ⟨node, env, cmd, hcmd, rfl⟩)
  | answer node pos =>
    obtain ⟨r, hr, rfl⟩ := Option.map_eq_some_iff.mp h
    exact .inr (.inr ⟨node, pos, r, hr, rfl⟩)

/-- No event takes an entry out of the log or a reply away. -/
theorem step_grows {e : ReplicationEvent ι} (h : s.step c e = some s') : Grows s s' := by
  rcases step_cases h with ⟨cmd, rfl⟩ | ⟨node, env, cmd, -, rfl⟩ | ⟨node, pos, r, -, rfl⟩
  · exact ⟨List.prefix_append _ _, fun _ => List.prefix_rfl⟩
  · refine ⟨List.prefix_rfl, ?_⟩
    -- the node that applies has one more reply, the others have what they had
    refine (Function.forall_update_iff s.replica fun i replica =>
      (s.replica i).replies <+: replica.replies).mpr ?_
    exact ⟨List.prefix_append _ _, fun _ _ => List.prefix_rfl⟩
  · exact ⟨List.prefix_rfl, fun _ => List.prefix_rfl⟩

theorem run_grows {events : List (ReplicationEvent ι)} (h : s.run c events = some s') :
    Grows s s' := by
  induction events generalizing s with
  | nil =>
    obtain rfl := Option.some.inj h
    exact Grows.refl s
  | cons e rest ih =>
    obtain ⟨s₁, hstep, hrest⟩ := Option.bind_eq_some_iff.mp h
    exact (step_grows hstep).trans (ih hrest)

/-- Every event keeps the nodes in step with the serial run. -/
theorem Serial.step (hc : c.Lawful) {envs : Nat → Env} (h : Serial c envs s)
    (hlog : ∀ cmd ∈ s.log, cmd.settled = true) {e : ReplicationEvent ι}
    (hstep : s.step c e = some s') : Serial c envs s' := by
  rcases step_cases hstep with ⟨cmd, rfl⟩ | ⟨node, env, cmd, hcmd, rfl⟩ | ⟨node, pos, r, hr, rfl⟩
  · exact ⟨fun i => (h.nodes i).append [cmd], h.answers⟩
  · refine ⟨?_, fun i pos r hmem => ?_⟩
    · refine (Function.forall_update_iff s.replica fun _ replica =>
        replica.Follows c envs s.log).mpr ?_
      exact ⟨(h.nodes node).apply hc hcmd (hlog cmd (List.mem_of_getElem? hcmd)) env, fun i _ =>
        h.nodes i⟩
    · -- a reply that the node has stays where it is
      exact getElem?_of_prefix ((step_grows hstep).replies i) (h.answers i pos r hmem)
  · refine ⟨h.nodes, fun i pos' r' hmem => ?_⟩
    rcases List.mem_cons.mp hmem with heq | hold
    · obtain ⟨rfl, rfl, rfl⟩ : i = node ∧ pos' = pos ∧ r' = r := by simpa using heq
      exact hr
    · exact h.answers i pos' r' hold

/-- So does a run whose log holds no SPOP and no expiries. -/
theorem Serial.run (hc : c.Lawful) {envs : Nat → Env} {events : List (ReplicationEvent ι)}
    (h : Serial c envs s) (hrun : s.run c events = some s')
    (hlog : ∀ cmd ∈ s'.log, cmd.settled = true) : Serial c envs s' := by
  induction events generalizing s with
  | nil =>
    obtain rfl := Option.some.inj hrun
    exact h
  | cons e rest ih =>
    obtain ⟨s₁, hstep, hrest⟩ := Option.bind_eq_some_iff.mp hrun
    have hlog' : ∀ cmd ∈ s.log, cmd.settled = true := fun cmd hcmd =>
      hlog cmd (((step_grows hstep).trans (run_grows hrest)).log.subset hcmd)
    exact ih (h.step hc hlog' hstep) hrest

/-- Clients of a shard see one execution of the log. In any run of a shard on commands that do not
depend on the node, every client is answered what its command replies when the log is executed entry
by entry, whichever nodes answer; every node answers reads by some of the first entries of the log,
never by fewer than before, and not by fewer than it has answered for. -/
theorem serializes {c : Codec} (hc : c.Lawful) {events events' : List (ReplicationEvent ι)}
    {s s' : Replication ι} (hrun : Replication.start.run c events = some s)
    (hrun' : s.run c events' = some s') (hlog : ∀ cmd ∈ s'.log, cmd.settled = true)
    (envs : Nat → Env) :
    (∀ i pos r, (i, pos, r) ∈ s'.answers → (serialRun envs s'.log s'.log.length).1[pos]? = some r) ∧
      ∀ i, ∃ n n', n ≤ n' ∧ n' ≤ s'.log.length ∧
        (∀ t k, ReadsFrom c t (s.replica i).db k ((serialRun envs s'.log n).2 k)) ∧
        (∀ t k, ReadsFrom c t (s'.replica i).db k ((serialRun envs s'.log n').2 k)) ∧
        ∀ pos r, (i, pos, r) ∈ s.answers → pos < n := by
  have hgrows := run_grows hrun'
  have hserial : Serial c envs s :=
    (Serial.start c envs).run hc hrun fun cmd hcmd => hlog cmd (hgrows.log.subset hcmd)
  have hserial' : Serial c envs s' := hserial.run hc hrun' hlog
  refine ⟨fun i pos r hmem => ?_, fun i => ?_⟩
  · have hnode := hserial'.nodes i
    have hprefix := serialRun_prefix hnode.applied_le le_rfl envs
    rw [← hnode.replies] at hprefix
    exact getElem?_of_prefix hprefix (hserial'.answers i pos r hmem)
  · have hnode := hserial.nodes i
    have hnode' := hserial'.nodes i
    refine ⟨(s.replica i).applied, (s'.replica i).applied, (hgrows.replies i).length_le,
      hnode'.applied_le, fun t k => ?_, fun t k => ?_, fun pos r hmem => ?_⟩
    · -- the entries that the node had applied are the first ones of the later log too
      obtain ⟨more, hmore⟩ := hgrows.log
      rw [← hmore, serialRun_append hnode.applied_le more envs, ← hnode.view t k]
      exact reads_from_view c t k (s.replica i).db
    · rw [← hnode'.view t k]
      exact reads_from_view c t k (s'.replica i).db
    · exact (List.getElem?_eq_some_iff.mp (hserial.answers i pos r hmem)).1

/-- A node answers for an `INCR` that the other node has not applied. -/
theorem serializes_incr :
    let incr : Command := { op := .incr, key := ascii "n" }
    let events : List (ReplicationEvent Bool) :=
      [.commit incr, .apply false (Env.at 1000000000000), .answer false 0]
    let events' : List (ReplicationEvent Bool) :=
      [.commit incr, .apply false (Env.at 1001000000000), .apply true (Env.at 1002000000000)]
    ∃ s s', start.run msgpack events = some s ∧ s.run msgpack events' = some s' ∧
      ∃ r, (false, 0, r) ∈ s'.answers ∧
      (serialRun (fun _ => Env.at 1000000000000) s'.log s'.log.length).1[0]? = some r := by
  intro incr events events'
  refine ⟨_, _, rfl, rfl, _, List.mem_cons_self, ?_⟩
  refine (serializes msgpack_lawful (show start.run msgpack events = some _ from rfl)
    (show Replication.run msgpack _ events' = some _ from rfl) ?_ _).1 false 0 _ List.mem_cons_self
  intro cmd hcmd
  rcases List.mem_pair.mp hcmd with rfl | rfl <;> rfl

end Replication

end Badis
