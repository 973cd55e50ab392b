import Badis.Store.StableStore
import Badis.Store.Proofs.LogStoreProofs

/-!
# The two stores do not meet

Every call keeps the log what the calls of the log store make it, and the term and the vote what was
set last.
-/

namespace Badis

open Lib

/-! ## Keys -/

theorem logKey_ne_stableKey (i : UInt64) (name : Bytes) : logKey i ≠ stableKey name := by
  simp [logKey, stableKey]

theorem stableKey_inj {name name' : Bytes} : stableKey name = stableKey name' ↔ name = name' := by
  simp [stableKey]

/-! ## Compaction -/

/-- An entry without expiry stays. -/
theorem get?_compact {db : DB} {key : Bytes} (h : ∀ e, db.get? key = some e → e.expiresAt = 0)
    (t : Nat) (keep : Bytes → Bool) : (db.compact t keep).get? key = db.get? key := by
  rw [DB.compact, OrdMap.get?_filter]
  cases hget : db.get? key with
  | none => rfl
  | some e => simp [Option.filter, Entry.live_iff.mpr (Or.inl (h e hget))]

/-- Compaction adds nothing. -/
theorem get?_of_compact {db : DB} {key : Bytes} {e : Entry} {t : Nat} {keep : Bytes → Bool}
    (h : (db.compact t keep).get? key = some e) : db.get? key = some e := by
  rw [DB.compact, OrdMap.get?_filter] at h
  exact (Option.filter_eq_some_iff.mp h).1

theorem StoreWF.compact {db : DB} (h : StoreWF db) (t : Nat) (keep : Bytes → Bool) :
    StoreWF (db.compact t keep) :=
  ⟨fun key e he => h.scripts key e (get?_of_compact he),
    fun key e hkey he => h.raft key e hkey (get?_of_compact he)⟩

/-! ## The invariant -/

/-- The database holds the log `m`, and under raft's names what the map `s` says. -/
structure RaftRefines (lc : LogCodec) (db : DB) (m : LogMap) (s : StableMap) : Prop where
  log : LogRefines lc db m
  stable : ∀ name ∈ stableKeys, db.get? (stableKey name) = (s name).map fun v => newEntry v.stored

namespace RaftRefines

variable {lc : LogCodec} {db : DB} {m : LogMap} {s : StableMap}

theorem empty (lc : LogCodec) : RaftRefines lc OrdMap.empty OrdMap.empty fun _ => none :=
  ⟨LogRefines.empty lc, fun _ _ => rfl⟩

/-- The calls of the log store, and the commands, leave the stable store alone. -/
theorem get?_stableKey_run (lim : TxnLimit) (vm : LuaVM) (c : Codec) (h : RaftRefines lc db m s)
    (op : LogOp) {name : Bytes} (hname : name ∈ stableKeys) :
    (op.run lim vm c lc db).2.get? (stableKey name) = db.get? (stableKey name) := by
  have hinsert : ∀ logs, (storeLogs lim lc logs db).2.get? (stableKey name) =
    db.get? (stableKey name) := fun logs =>
    storeLogs_induct (P := fun db' => db'.get? (stableKey name) = db.get? (stableKey name)) lim lc
      logs
      (fun db' i val hdb => (OrdMap.get?_insert_of_ne db' _ (logKey_ne_stableKey i name)).trans hdb)
        rfl
  cases op with
  | storeLog log => exact hinsert [log]
  | storeLogs logs => exact hinsert logs
  | deleteRange min max =>
    refine deleteRange_induct (P := fun db' => db'.get? (stableKey name) = db.get? (stableKey name))
      lim min max
      (fun db' i hdb => ?_) rfl
    rw [OrdMap.get?_erase, if_neg (logKey_ne_stableKey i name)]
    exact hdb
  | apply depth envs cmd =>
    exact (fsmApply_keepsRaft vm c depth envs cmd db h.log.wf.scripts).2
      _ (Or.inr (Or.inr ⟨name, hname, rfl⟩))

theorem logOp (lim : TxnLimit) (vm : LuaVM) (c : Codec) (hlc : lc.Lawful)
    (h : RaftRefines lc db m s) {op : LogOp} (hop : op.Valid) :
    ∃ db', op.run lim vm c lc db = (op.outcome lim lc, db') ∧
      RaftRefines lc db' (op.store lim lc m) s := by
  obtain ⟨db', hrun, hlog⟩ := h.log.run lim vm c hlc hop
  refine ⟨db', hrun, hlog, fun name hname => ?_⟩
  have hkept := h.get?_stableKey_run lim vm c op hname
  rw [hrun] at hkept
  exact hkept.trans (h.stable name hname)

/-- Setting a name leaves the log alone. -/
theorem set (h : RaftRefines lc db m s) {name : Bytes} (hname : name ∈ stableKeys)
    (v : StableValue) :
    RaftRefines lc (raftSet name v.stored db) m (Function.update s name (some v)) := by
  have hlog : ∀ i, (raftSet name v.stored db).get? (logKey i) = db.get? (logKey i) := fun i =>
    OrdMap.get?_insert_of_ne db _ (logKey_ne_stableKey i name).symm
  refine ⟨⟨?_, fun i log hget => ?_, fun i hget => ?_, h.log.pos⟩, fun name' hname' => ?_⟩
  · exact h.log.wf.insert (stableKey_not_script hname) (Or.inr ⟨name, hname, rfl⟩) _
  · rw [hlog i]
    exact h.log.present i log hget
  · rw [hlog i]
    exact h.log.absent i hget
  · by_cases heq : name = name'
    · subst heq
      rw [Function.update_self]
      exact OrdMap.get?_insert_self _ _ _
    · rw [Function.update_of_ne (Ne.symm heq), ← h.stable name' hname']
      exact OrdMap.get?_insert_of_ne db _ fun hkey => heq (stableKey_inj.mp hkey)

/-- What raft stores never expires. -/
theorem compact (h : RaftRefines lc db m s) (t : Nat) (keep : Bytes → Bool) :
    RaftRefines lc (db.compact t keep) m s := by
  have hraft : ∀ key, RaftKey key → (db.compact t keep).get? key = db.get? key := fun key hkey =>
    get?_compact (fun e he => (h.log.wf.raft key e hkey he).1) t keep
  refine ⟨⟨h.log.wf.compact t keep, fun i log hget => ?_, fun i hget => ?_, h.log.pos⟩,
    fun name hname => ?_⟩
  · rw [hraft (logKey i) (Or.inl rfl)]
    exact h.log.present i log hget
  · rw [hraft (logKey i) (Or.inl rfl)]
    exact h.log.absent i hget
  · rw [hraft (stableKey name) (Or.inr (Or.inr ⟨name, hname, rfl⟩))]
    exact h.stable name hname

/-- Every call returns its outcome and keeps the invariant. -/
theorem run (lim : TxnLimit) (vm : LuaVM) (c : Codec) (hlc : lc.Lawful) (h : RaftRefines lc db m s)
    {op : RaftOp} (hop : op.Valid) :
    ∃ db', op.run lim vm c lc db = (op.outcome lim lc, db') ∧
      RaftRefines lc db' (op.logOp.elim m fun op => op.store lim lc m)
        (s.assignAll op.assignment.toList) := by
  cases op with
  | log op => exact h.logOp lim vm c hlc hop
  | set name val => exact ⟨_, rfl, h.set hop (.bytes val)⟩
  | setUint64 name n => exact ⟨_, rfl, h.set hop (.uint64 n)⟩
  | compact t keep => exact ⟨_, rfl, h.compact t keep⟩

theorem runRaftOps (lim : TxnLimit) (vm : LuaVM) (c : Codec) (hlc : lc.Lawful)
    (h : RaftRefines lc db m s) {ops : List RaftOp} (hops : ∀ op ∈ ops, op.Valid) :
    ∃ db', Badis.runRaftOps lim vm c lc ops db = (ops.map (RaftOp.outcome lim lc), db') ∧
      RaftRefines lc db' ((ops.filterMap RaftOp.logOp).foldl (fun m op => op.store lim lc m) m)
        (s.assignAll (ops.filterMap RaftOp.assignment)) := by
  induction ops generalizing db m s with
  | nil => exact ⟨db, rfl, h⟩
  | cons op rest ih =>
    obtain ⟨db', hrun, h'⟩ := h.run lim vm c hlc (hops op List.mem_cons_self)
    obtain ⟨db'', hrest, h''⟩ := ih h' fun op' hop' => hops op' (List.mem_cons_of_mem _ hop')
    refine ⟨db'', ?_, ?_⟩
    · simp only [Badis.runRaftOps, hrun, hrest, List.map_cons]
    · cases op <;> exact h''

/-! ## The answers -/

theorem readUint64_bigEndian (n : UInt64) : readUint64 (bigEndian 8 n.toNat) = .ok n := by
  have hn : n.toNat < 256 ^ 8 := n.toNat_lt
  have hlen : (bigEndian 8 n.toNat).length = 8 := length_bigEndian 8 n.toNat
  rw [readUint64, if_pos hlen.ge, List.take_of_length_le hlen.le, fromBigEndian_bigEndian hn,
    UInt64.ofNat_toNat]

theorem get (h : RaftRefines lc db m s) (t : Nat) {name : Bytes} (hname : name ∈ stableKeys) :
    raftGet t name db = (s name).map StableValue.stored := by
  unfold raftGet DB.getLive
  rw [h.stable name hname]
  cases hv : s name with
  | none => rfl
  | some v =>
    have hlive : (newEntry v.stored).live t = true := Entry.live_iff.mpr (Or.inl rfl)
    simp only [Option.map_some, Option.filter, hlive, if_true]
    rfl

theorem getUint64 (h : RaftRefines lc db m s) (t : Nat) {name : Bytes} (hname : name ∈ stableKeys) :
    raftGetUint64 t name db =
      match s name with
      | none => .ok 0
      | some v => v.number := by
  unfold raftGetUint64
  rw [h.get t hname]
  cases s name with
  | none => rfl
  | some v =>
    cases v with
    | bytes b => rfl
    | uint64 n =>
      have hlen : (bigEndian 8 n.toNat).length ≠ 0 := by
        rw [length_bigEndian]
        decide
      exact (if_neg hlen).trans (readUint64_bigEndian n)

end RaftRefines

/-- Whatever order raft's calls, the commands and the compactions come in, the log store answers as
the calls of the log store alone would have it, and the stable store gives back for the term and the
vote what was set last. A call whose writes do not fit into one transaction reports it and counts
for nothing. -/
theorem raftStore_refines (lim : TxnLimit) (vm : LuaVM) (c : Codec) (lc : LogCodec)
    (hlc : lc.Lawful) (ops : List RaftOp) (hops : ∀ op ∈ ops, op.Valid) :
    ∃ db, runRaftOps lim vm c lc ops OrdMap.empty = (ops.map (RaftOp.outcome lim lc), db) ∧
      AnswersAs lc db (LogMap.after lim lc (ops.filterMap RaftOp.logOp)) ∧
      StableAnswersAs db (StableMap.assignAll (ops.filterMap RaftOp.assignment) fun _ => none) := by
  obtain ⟨db, hrun, h⟩ := (RaftRefines.empty lc).runRaftOps lim vm c hlc hops
  exact ⟨db, hrun, h.log.answers, fun t name => h.get t, fun t name => h.getUint64 t⟩

/-- A vote, a term and two log entries among commands that flush scripts and data, and a range that
is too big to be deleted. -/
def voteAndFlush : List RaftOp :=
  [.setUint64 (ascii "CurrentTerm") 7, .set (ascii "LastVoteCand") (ascii "node1"),
    .log (.storeLogs [sampleLog 5, sampleLog 6]),
    .log (.apply 1 (fun _ => Env.at 1000000000000) ⟨.scriptFlush, [], [], 0, .always, false⟩),
    .log (.apply 1 (fun _ => Env.at 1000000000000) ⟨.flushdb, [], [], 0, .always, false⟩),
    .compact 1002000000000 fun _ => false, .setUint64 (ascii "CurrentTerm") 8,
    .log (.deleteRange 1 104856)]

theorem voteAndFlush_answers :
    StableMap.assignAll (voteAndFlush.filterMap RaftOp.assignment) (fun _ => none)
      (ascii "CurrentTerm") =
      some (.uint64 8) ∧
    (LogMap.after TxnLimit.default sampleCodec (voteAndFlush.filterMap RaftOp.logOp)).get? 5 =
      some (sampleLog 5) ∧
    ∃ db, runRaftOps TxnLimit.default flushingVM msgpack sampleCodec voteAndFlush OrdMap.empty =
        (voteAndFlush.map (RaftOp.outcome TxnLimit.default sampleCodec), db) ∧
      AnswersAs sampleCodec db
        (LogMap.after TxnLimit.default sampleCodec (voteAndFlush.filterMap RaftOp.logOp)) ∧
      StableAnswersAs db (StableMap.assignAll (voteAndFlush.filterMap RaftOp.assignment) fun _ =>
        none) := by
  refine ⟨by decide, by decide, ?_⟩
  refine raftStore_refines TxnLimit.default flushingVM msgpack sampleCodec sampleCodec_lawful
    voteAndFlush
    fun op hop => ?_
  simp only [voteAndFlush, List.mem_cons, List.not_mem_nil, or_false] at hop
  rcases hop with rfl | rfl | rfl | rfl | rfl | rfl | rfl | rfl
  · show ascii "CurrentTerm" ∈ stableKeys
    decide
  · show ascii "LastVoteCand" ∈ stableKeys
    decide
  · show ∀ log ∈ [sampleLog 5, sampleLog 6], log.index ≠ 0
    decide
  · trivial
  · trivial
  · trivial
  · show ascii "CurrentTerm" ∈ stableKeys
    decide
  · trivial

end Badis
