import Badis.Store.Proofs.IsolationProofs

/-!
# A restore and the raft store

A snapshot streams the whole database and a restore loads the whole stream, the log, the term and
the vote of the source included. The target's raft store answers as before exactly when the source
has nothing there that the target does not have just so (`restore_keeps_raft_iff`).
-/

namespace Badis

open Lib

/-- Whatever the source holds of raft's, the target holds too. -/
structure RaftCovered (lc : LogCodec) (t : Nat) (src target : DB) : Prop where
  log : ∀ i, (src.getLive t (logKey i)).isSome → getLog lc t i src = getLog lc t i target
  stable : ∀ name ∈ stableKeys, (src.getLive t (stableKey name)).isSome →
    raftGet t name src = raftGet t name target

section Restore

variable {lc : LogCodec} {t : Nat} {src target : DB}

theorem RaftKey.log (i : UInt64) : RaftKey (logKey i) := Or.inl rfl

theorem RaftKey.stable {name : Bytes} (h : name ∈ stableKeys) : RaftKey (stableKey name) :=
  Or.inr (Or.inr ⟨name, h, rfl⟩)

/-- Raft's entries are visible at every instant. -/
theorem StoreWF.getLive_eq {db : DB} (h : StoreWF db) {key : Bytes} (hkey : RaftKey key) (t : Nat) :
    db.getLive t key = db.get? key :=
  filter_live_of_no_expiry (fun e he => (h.raft key e hkey he).1) t

theorem getLog_congr {db db' : DB} (t t' : Nat) {i : UInt64}
    (h : db'.getLive t' (logKey i) = db.getLive t (logKey i)) :
    getLog lc t' i db' = getLog lc t i db := by
  rw [getLog, getLog, h]

theorem getLog_eq_notFound_iff {db : DB} {i : UInt64} :
    getLog lc t i db = .error .logNotFound ↔ db.getLive t (logKey i) = none := by
  unfold getLog
  cases db.getLive t (logKey i) with
  | none => simp
  | some item => cases hdec : lc.decode item.value <;> simp [hdec]

theorem raftGet_congr {db db' : DB} (t t' : Nat) {name : Bytes}
    (h : db'.getLive t' (stableKey name) = db.getLive t (stableKey name)) :
    raftGet t' name db' = raftGet t name db := by
  rw [raftGet, raftGet, h]

/-- What the restored database holds of raft's, at every instant. -/
theorem getLive_restored (hsrc : StoreWF src) (htarget : StoreWF target) {key : Bytes}
    (hkey : RaftKey key) (t' : Nat) :
    (restore (persist t src) target).getLive t' key = (src.get? key <|> target.get? key) := by
  rw [(hsrc.restore htarget t).getLive_eq hkey, get?_restore, hsrc.getLive_eq hkey]

theorem getLive_restored_of_none (hsrc : StoreWF src) (htarget : StoreWF target) {key : Bytes}
    (hkey : RaftKey key) (h : src.get? key = none) (t' : Nat) :
    (restore (persist t src) target).getLive t' key = target.getLive t' key := by
  rw [getLive_restored hsrc htarget hkey, h, htarget.getLive_eq hkey]
  rfl

theorem getLive_restored_of_some (hsrc : StoreWF src) (htarget : StoreWF target) {key : Bytes}
    (hkey : RaftKey key) {e : Entry} (h : src.get? key = some e) (t' : Nat) :
    (restore (persist t src) target).getLive t' key = src.getLive t key := by
  rw [getLive_restored hsrc htarget hkey, hsrc.getLive_eq hkey, h]
  rfl

theorem covered_of_answers (hsrc : StoreWF src) (htarget : StoreWF target)
    (h : RaftAnswersKept lc target (restore (persist t src) target)) :
    RaftCovered lc t src target := by
  obtain ⟨hlog, -, -, hstable⟩ := h t
  -- what the source holds is what the target answers with after the restore
  have hown : ∀ {key : Bytes}, RaftKey key → (src.getLive t key).isSome →
      (restore (persist t src) target).getLive t key = src.getLive t key := by
    intro key hkey hsome
    obtain ⟨e, he⟩ := Option.isSome_iff_exists.mp hsome
    rw [hsrc.getLive_eq hkey] at he
    exact getLive_restored_of_some hsrc htarget hkey he t
  constructor
  · intro i hsome
    rw [← hlog i]
    exact (getLog_congr t t (hown (RaftKey.log i) hsome)).symm
  · intro name hname hsome
    rw [← (hstable name hname).1]
    exact (raftGet_congr t t (hown (RaftKey.stable hname) hsome)).symm

/-- Where the source has nothing, the target answers as before. Where it has something, the target
answers as the source does, and that is as before too. -/
theorem RaftCovered.getLog_eq (h : RaftCovered lc t src target) (hsrc : StoreWF src)
    (htarget : StoreWF target) (t' : Nat) (i : UInt64) :
    getLog lc t' i (restore (persist t src) target) = getLog lc t' i target := by
  have hkey := RaftKey.log i
  cases hget : src.get? (logKey i) with
  | none => exact getLog_congr t' t' (getLive_restored_of_none hsrc htarget hkey hget t')
  | some e =>
    have hsome : (src.getLive t (logKey i)).isSome := by rw [hsrc.getLive_eq hkey, hget]; rfl
    have htime : target.getLive t (logKey i) = target.getLive t' (logKey i) := by
      rw [htarget.getLive_eq hkey, htarget.getLive_eq hkey]
    calc getLog lc t' i (restore (persist t src) target)
        = getLog lc t i src :=
          getLog_congr t t' (getLive_restored_of_some hsrc htarget hkey hget t')
      _ = getLog lc t i target := h.log i hsome
      _ = getLog lc t' i target := getLog_congr t' t htime

theorem RaftCovered.raftGet_eq (h : RaftCovered lc t src target) (hsrc : StoreWF src)
    (htarget : StoreWF target) (t' : Nat) {name : Bytes} (hname : name ∈ stableKeys) :
    raftGet t' name (restore (persist t src) target) = raftGet t' name target := by
  have hkey := RaftKey.stable hname
  cases hget : src.get? (stableKey name) with
  | none => exact raftGet_congr t' t' (getLive_restored_of_none hsrc htarget hkey hget t')
  | some e =>
    have hsome : (src.getLive t (stableKey name)).isSome := by rw [hsrc.getLive_eq hkey, hget]; rfl
    have htime : target.getLive t (stableKey name) = target.getLive t' (stableKey name) := by
      rw [htarget.getLive_eq hkey, htarget.getLive_eq hkey]
    calc raftGet t' name (restore (persist t src) target)
        = raftGet t name src :=
          raftGet_congr t t' (getLive_restored_of_some hsrc htarget hkey hget t')
      _ = raftGet t name target := h.stable name hname hsome
      _ = raftGet t' name target := raftGet_congr t' t htime

/-- An entry of the source's log is one of the target's log, since `GetLog` finds it there. -/
theorem RaftCovered.isSome_of_log (h : RaftCovered lc t src target) {i : UInt64} {e : Entry}
    (he : src.getLive t (logKey i) = some e) : (target.getLive t (logKey i)).isSome := by
  have heq := h.log i (by rw [he]; rfl)
  by_contra hnone
  have hnone : target.getLive t (logKey i) = none := by simpa using hnone
  rw [getLog_eq_notFound_iff.mpr hnone, getLog_eq_notFound_iff, he] at heq
  cases heq

theorem RaftCovered.sameLogKeys (h : RaftCovered lc t src target) (hsrc : StoreWF src)
    (htarget : StoreWF target) : SameLogKeys target (restore (persist t src) target) := by
  intro t' key hkey
  have hraft : RaftKey key := hkey.imp_right Or.inl
  cases hget : src.get? key with
  | none => rw [getLive_restored_of_none hsrc htarget hraft hget]
  | some e =>
    have he : src.getLive t key = some e := (hsrc.getLive_eq hraft t).trans hget
    rw [getLive_restored_of_some hsrc htarget hraft hget, he, htarget.getLive_eq hraft t',
      ← htarget.getLive_eq hraft t]
    rcases (hsrc.raft key e hraft hget).2 with ⟨i, rfl⟩ | ⟨name, hname, rfl⟩
    · exact (h.isSome_of_log he).symm
    · -- a stable key is not a key the iterators of the log stop at
      rcases hkey with hkey | hkey <;> cases hkey

theorem answers_of_covered (hsrc : StoreWF src) (htarget : StoreWF target)
    (h : RaftCovered lc t src target) :
    RaftAnswersKept lc target (restore (persist t src) target) := by
  have hkeys := h.sameLogKeys hsrc htarget
  intro t'
  refine ⟨h.getLog_eq hsrc htarget t', firstIndex_eq hkeys, lastIndex_eq hkeys,
    fun name hname => ?_⟩
  have hget := h.raftGet_eq hsrc htarget t' hname
  refine ⟨hget, ?_⟩
  rw [raftGetUint64, raftGetUint64, hget]

end Restore

/-- For every source and target, the target's raft store answers after a restore as before exactly
when whatever the source holds of raft's, the target holds too. -/
theorem restore_keeps_raft_iff (vm : LuaVM) (c : Codec) (lc : LogCodec) (src target : DB) (t : Nat)
    (hsrc : Reachable vm c lc src) (htarget : Reachable vm c lc target) :
    RaftAnswersKept lc target (restore (persist t src) target) ↔ RaftCovered lc t src target :=
  ⟨covered_of_answers hsrc.wf htarget.wf, answers_of_covered hsrc.wf htarget.wf⟩

/-- A node that has voted for `cand` in `term`. -/
def voted (term : UInt64) (cand : Bytes) : DB :=
  raftSet (ascii "LastVoteCand") cand (raftSetUint64 (ascii "LastVoteTerm") term
    (raftSetUint64 (ascii "CurrentTerm") term OrdMap.empty))

/-- A node in term 5 that restores the snapshot of a node in term 3 is back in term 3, with the
other node's vote. -/
theorem restored_vote_changes :
    raftGetUint64 1000000000000 (ascii "CurrentTerm") (voted 5 (ascii "node1")) = .ok 5 ∧
    raftGet 1000000000000 (ascii "LastVoteCand") (voted 5 (ascii "node1")) = some (ascii "node1") ∧
    raftGetUint64 1000000000000 (ascii "CurrentTerm")
      (restore (persist 1000000000000 (voted 3 (ascii "node2"))) (voted 5 (ascii "node1"))) =
        .ok 3 ∧
    raftGet 1000000000000 (ascii "LastVoteCand")
      (restore (persist 1000000000000 (voted 3 (ascii "node2"))) (voted 5 (ascii "node1"))) =
        some (ascii "node2") := by
  decide

theorem voted_reachable (term : UInt64) (cand : Bytes) :
    Reachable flushingVM msgpack noLogs (voted term cand) :=
  .set (.set (.set .empty (ascii "CurrentTerm") _ (by decide)) (ascii "LastVoteTerm") _ (by decide))
    (ascii "LastVoteCand") _ (by decide)

/-- A node of `term` that has not voted, with a key of a user. -/
def inTerm (term : UInt64) : DB :=
  (fsmApply flushingVM msgpack 1 (fun _ => Env.at 1000000000000)
    { op := .set, key := ascii "k", args := [ascii "v"] }
    (raftSetUint64 (ascii "CurrentTerm") term OrdMap.empty)).2

theorem inTerm_reachable (term : UInt64) : Reachable flushingVM msgpack noLogs (inTerm term) :=
  .apply (.set .empty (ascii "CurrentTerm") _ (by decide)) 1 (fun _ => Env.at 1000000000000) _

theorem getLive_logKey_inTerm (t : Nat) (term : UInt64) (i : UInt64) :
    (inTerm term).getLive t (logKey i) = none := by
  have hrun : inTerm term = ((raftSetUint64 (ascii "CurrentTerm") term OrdMap.empty).insert
      (userKey (ascii "k")) ⟨ascii "v", 0⟩).insert (typeKey (ascii "k")) ⟨typeString, 0⟩ := rfl
  have hget : (inTerm term).get? (logKey i) = none := by
    rw [hrun, OrdMap.get?_insert_of_ne _ _ (by rintro ⟨⟩),
      OrdMap.get?_insert_of_ne _ _ (by rintro ⟨⟩)]
    exact OrdMap.get?_insert_of_ne _ _ (by rintro ⟨⟩)
  rw [DB.getLive, hget]
  rfl

/-- The snapshot of a node in the same term that has not voted leaves the vote. -/
theorem restored_vote_kept :
    raftGetUint64 1000000000000 (ascii "CurrentTerm") (inTerm 5) = .ok 5 ∧
      RaftAnswersKept noLogs (voted 5 (ascii "node1"))
        (restore (persist 1000000000000 (inTerm 5)) (voted 5 (ascii "node1"))) := by
  refine ⟨by decide,
    (restore_keeps_raft_iff flushingVM msgpack noLogs (inTerm 5) (voted 5 (ascii "node1"))
    1000000000000 (inTerm_reachable 5) (voted_reachable 5 (ascii "node1"))).mpr ⟨fun i h =>
      ?_, by decide⟩⟩
  rw [getLive_logKey_inTerm] at h
  cases h

end Badis
