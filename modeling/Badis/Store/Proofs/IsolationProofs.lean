import Badis.Store.Reads
import Badis.Store.Reachable
import Badis.Store.Encoding
import Badis.Store.Proofs.FlushProofs
import Badis.Store.Proofs.LuaProofs
import Badis.Store.Proofs.RaftStoreProofs
import Badis.Store.Proofs.SnapshotProofs

/-!
# Prefix isolation

Five families of keys share one database: user and type entries (`'K'`, `'T'`), the log (`'L'`), the
stable store (`'S'`) and, inside the family of the stable store, the scripts (`"SCRIPT:"`). Commands
write user and type entries and scripts only, with one exception: SCRIPT_FLUSH deletes what the
buffers of its iterator hold at the end, which may be other keys. Those have 47 bytes, as every
script key has (`ScriptKeys`), and raft has no key of that length.
-/

namespace Badis

open Lib

/-! ## Which keys are raft's -/

/-- Raft's keys start with `L`, `M` or `S`. -/
theorem RaftKey.ne_cons {key : Bytes} (h : RaftKey key) {b : UInt8}
    (hb : b ∉ ([76, 77, 83] : Bytes)) (k : Bytes) : key ≠ b :: k := by
  rintro rfl
  rcases h with h | h | ⟨name, -, h⟩
  · obtain rfl : b = 76 := Option.some.inj h
    exact hb (by decide)
  · obtain rfl : b = 77 := (List.cons.inj h).1
    exact hb (by decide)
  · obtain rfl : b = 83 := (List.cons.inj h).1
    exact hb (by decide)

/-- Raft's stable keys lie outside the scripts. -/
theorem stableKey_not_script {name : Bytes} (h : name ∈ stableKeys) :
    ¬ scriptPrefix <+: stableKey name := by
  have hall : ∀ name ∈ stableKeys, ¬ scriptPrefix <+: stableKey name := by decide
  exact hall name h

/-- No key of raft lies under the prefix of the scripts: the stable keys that raft uses start
differently. -/
theorem RaftKey.not_script {key : Bytes} (h : RaftKey key) : ¬ scriptPrefix <+: key := by
  rintro ⟨rest, rfl⟩
  rcases h with h | h | ⟨name, hname, h⟩
  · cases h
  · cases h
  · exact stableKey_not_script hname ⟨rest, h⟩

/-- No stable key has the length of a script key. -/
theorem length_stableKey {name : Bytes} (h : name ∈ stableKeys) : (stableKey name).length ≠ 47 := by
  have hall : ∀ name ∈ stableKeys, (stableKey name).length ≠ 47 := by decide
  exact hall name h

/-! ## Scripts -/

/-- Every script is stored under the text of a SHA-1. -/
def ScriptKeys (db : DB) : Prop :=
  ∀ key e, db.get? key = some e → scriptPrefix <+: key → key.length = 47

/-- A step keeps the script keys well formed, and what raft reads as it is. -/
def KeepsRaft (db db' : DB) : Prop := ScriptKeys db → ScriptKeys db' ∧ SameRaft db db'

theorem KeepsRaft.refl (db : DB) : KeepsRaft db db := fun h => ⟨h, fun _ _ => rfl⟩

theorem KeepsRaft.trans (db db' db'' : DB) (h : KeepsRaft db db') (h' : KeepsRaft db' db'') :
    KeepsRaft db db'' := by
  intro hs
  obtain ⟨hs', hsame⟩ := h hs
  obtain ⟨hs'', hsame'⟩ := h' hs'
  exact ⟨hs'', fun key hkey => (hsame' key hkey).trans (hsame key hkey)⟩

/-- What leaves all but the entries of keys leaves the entries of raft. -/
theorem SameElsewhere.keepsRaft {db db' : DB} (h : SameElsewhere db db') : KeepsRaft db db' := by
  intro hs
  constructor
  · intro key e he hkey
    rw [h key] at he
    · exact hs key e he hkey
    · rintro k rfl
      obtain ⟨rest, hrest⟩ := hkey
      cases hrest
    · rintro k rfl
      obtain ⟨rest, hrest⟩ := hkey
      cases hrest
  · intro key hkey
    exact h key (hkey.ne_cons (by decide)) (hkey.ne_cons (by decide))

/-- A script key has 47 bytes, since a hash has forty digits. -/
theorem length_getScriptKey (script : Bytes) : (getScriptKey (scriptSHA script)).length = 47 := by
  simp only [getScriptKey, scriptSHA, List.length_append, length_encodeHex, Sha1.length_sum]
  rfl

theorem scriptLoad_keepsRaft (cmd : Command) : Txn.Respects KeepsRaft (scriptLoad cmd) := by
  unfold scriptLoad
  split
  · rename_i script hargs
    refine Txn.Respects.bind KeepsRaft.trans (fun db hs => ⟨?_, ?_⟩)
      fun _ => Txn.respects_pure KeepsRaft.refl _
    · intro key e he hkey
      by_cases heq : getScriptKey (scriptSHA script) = key
      · rw [← heq]
        exact length_getScriptKey script
      · exact hs key e ((OrdMap.get?_insert_of_ne db _ heq).symm.trans he) hkey
    · intro key hkey
      refine OrdMap.get?_insert_of_ne db _ ?_
      rintro rfl
      exact hkey.not_script (List.prefix_append _ _)
  · exact Txn.respects_throw KeepsRaft.refl _

/-! ### The tombstones of SCRIPT_FLUSH -/

/-- A key of the scripts or after them. -/
def AfterLog (key : Bytes) : Prop := ∃ b rest, key = b :: rest ∧ 83 ≤ b

theorem AfterLog.of_le {key : Bytes} (h : scriptPrefix ≤ key) : AfterLog key := by
  have hpre : scriptPrefix = 83 :: ascii "CRIPT:" := rfl
  cases key with
  | nil => exact absurd h (not_le.mpr (List.nil_lt_cons _ _))
  | cons b rest =>
    rw [hpre, cons_le_cons_iff_lex] at h
    rcases h with h | ⟨rfl, -⟩
    · exact ⟨b, rest, rfl, h.le⟩
    · exact ⟨83, rest, rfl, le_rfl⟩

/-- A key slice that is overwritten by a later key stays behind the log keys. -/
theorem AfterLog.reuseBuffer {slice key : Bytes} (hs : AfterLog slice) (hk : AfterLog key) :
    AfterLog (reuseBuffer slice key) := by
  obtain ⟨b, rest, rfl, hb⟩ := hs
  obtain ⟨d, rest', rfl, hd⟩ := hk
  unfold Badis.reuseBuffer
  split_ifs
  · exact ⟨d, _, rfl, hd⟩
  · exact ⟨b, rest, rfl, hb⟩

/-- However often its slice is overwritten, a key that SCRIPT FLUSH deletes keeps its length and
stays behind the log keys. -/
theorem foldl_reuseBuffer {l : List Bytes} (hl : ∀ key ∈ l, AfterLog key) {slice : Bytes}
    (hs : AfterLog slice) :
    (l.foldl reuseBuffer slice).length = slice.length ∧ AfterLog (l.foldl reuseBuffer slice) := by
  induction l generalizing slice with
  | nil => exact ⟨rfl, hs⟩
  | cons key rest ih =>
    have hstep := hs.reuseBuffer (hl key List.mem_cons_self)
    obtain ⟨hlen, hafter⟩ := ih (fun key hkey => hl key (List.mem_cons_of_mem _ hkey)) hstep
    rw [length_reuseBuffer] at hlen
    exact ⟨hlen, hafter⟩

/-- What SCRIPT_FLUSH deletes has the length of a script key and does not lie before the scripts. -/
theorem mem_tombstones {n : Nat} {keys : List Bytes} (hafter : ∀ key ∈ keys, AfterLog key)
    (hlen : ∀ key ∈ keys.take n, key.length = 47) {k : Bytes} (hk : k ∈ tombstones n keys) :
    k.length = 47 ∧ AfterLog k := by
  induction n generalizing keys with
  | zero => cases hk
  | succ n ih =>
    cases keys with
    | nil => cases hk
    | cons key ahead =>
      have hahead : ∀ key ∈ ahead, AfterLog key := fun key hkey =>
        hafter key (List.mem_cons_of_mem _ hkey)
      rcases List.mem_cons.mp hk with rfl | hk
      · have hsecond : ∀ key ∈ everySecond (ahead.drop 1), AfterLog key := fun key hkey =>
          hahead key (List.mem_of_mem_drop (mem_everySecond hkey))
        obtain ⟨hl, ha⟩ := foldl_reuseBuffer hsecond (hafter key List.mem_cons_self)
        exact ⟨hl.trans (hlen key List.mem_cons_self), ha⟩
      · exact ih hahead (fun key hkey => hlen key (List.mem_cons_of_mem _ hkey)) hk

/-- So SCRIPT FLUSH deletes no entry of raft, also where it deletes the wrong key. -/
theorem scriptFlush_keepsRaft (t : Nat) : Txn.Respects KeepsRaft (scriptFlush t) := by
  intro db hs
  rw [scriptFlush_run]
  have hafter : ∀ key ∈ (flushKeys t db).take (flushCount t db + 2), AfterLog key := fun key hkey =>
    AfterLog.of_le (le_of_mem_flushKeys (List.mem_of_mem_take hkey))
  -- the loop deletes through the slices of script keys
  have hscripts : ∀ key ∈ ((flushKeys t db).take (flushCount t db + 2)).take (flushCount t db),
      key.length = 47 := by
    intro key hkey
    rw [List.take_take, Nat.min_eq_left (by omega)] at hkey
    obtain ⟨e, hget⟩ := stored_of_mem_flushKeys (List.mem_of_mem_take hkey)
    exact hs key e hget (script_of_mem_take hkey)
  constructor
  · intro key e he hkey
    rw [OrdMap.get?_foldl_erase] at he
    split_ifs at he
    exact hs key e he hkey
  · intro key hkey
    rw [OrdMap.get?_foldl_erase, if_neg]
    intro hmem
    obtain ⟨hlen, b, rest, hb, hle⟩ := mem_tombstones hafter hscripts hmem
    rcases hkey with h | h | ⟨name, hname, h⟩
    · rw [hb] at h
      obtain rfl : b = 76 := by simpa using h
      exact absurd hle (by decide)
    · rw [h] at hlen
      cases hlen
    · rw [h] at hlen
      exact length_stableKey hname hlen

/-- No command, with any scripts, changes an entry of raft. -/
theorem fsmApply_keepsRaft (vm : LuaVM) (c : Codec) (fuel : Nat) (envs : List Nat → Env)
    (cmd : Command) (db : DB) : KeepsRaft db (fsmApply vm c fuel envs cmd db).2 := by
  have hdata : ∀ env cmd, Txn.Respects KeepsRaft (applyData c env cmd) := fun env cmd db =>
    (applyData_frame c env cmd db).keepsRaft
  have htxn := applyCmdInTxn_respects vm KeepsRaft.refl KeepsRaft.trans scriptLoad_keepsRaft
    scriptFlush_keepsRaft c hdata fuel envs cmd
  exact htxn.atomically KeepsRaft.refl db

/-! ## What raft writes -/

section Raft

variable {P : DB → Prop} {db : DB}

/-- What is encoded lies under log keys. -/
theorem key_of_encodeLogs {lc : LogCodec} {logs : List RaftLog} {data : List (Bytes × Bytes)}
    (h : encodeLogs lc logs = .ok data) {d : Bytes × Bytes} (hd : d ∈ data) :
    ∃ i, d.1 = logKey i := by
  induction logs generalizing data with
  | nil =>
    cases h
    cases hd
  | cons log rest ih =>
    unfold encodeLogs at h
    cases henc : lc.encode log with
    | none => rw [henc] at h; cases h
    | some val =>
      cases hrest : encodeLogs lc rest with
      | error e => rw [henc, hrest] at h; cases h
      | ok data' =>
        rw [henc, hrest] at h
        cases h
        rcases List.mem_cons.mp hd with rfl | hd
        · exact ⟨log.index, rfl⟩
        · exact ih hrest hd

/-- What `StoreLogs` preserves: storing entries under log keys. -/
theorem storeLogs_induct (lim : TxnLimit) (lc : LogCodec) (logs : List RaftLog)
    (hstep : ∀ db i val, P db → P (db.insert (logKey i) (newEntry val))) (h : P db) :
    P (storeLogs lim lc logs db).2 := by
  unfold storeLogs
  cases hdata : encodeLogs lc logs with
  | error e => exact h
  | ok data =>
    dsimp only
    cases hup : lim.update (data.map fun d => (d.1, some d.2)) db with
    | none => exact h
    | some db' =>
      refine update_induct lim hup h fun db hdb w hw => ?_
      obtain ⟨d, hd, rfl⟩ := List.mem_map.mp hw
      obtain ⟨i, hi⟩ := key_of_encodeLogs hdata hd
      show P (db.insert d.1 (newEntry d.2))
      rw [hi]
      exact hstep db i d.2 hdb

/-- What `DeleteRange` preserves: deleting log keys. -/
theorem deleteRange_induct (lim : TxnLimit) (min max : UInt64)
    (hstep : ∀ db i, P db → P (db.erase (logKey i))) (h : P db) :
    P (deleteRange lim min max db).2 := by
  have hloop : ∀ (count size : Nat) (i : UInt64) (db db' : DB), P db →
      deleteLoop lim count size i max db = .ok db' → P db' := by
    intro count
    induction count with
    | zero =>
      intro size i db db' hdb hdone
      unfold deleteLoop at hdone
      split_ifs at hdone
      cases hdone
      exact hdb
    | succ count ih =>
      intro size i db db' hdb hdone
      unfold deleteLoop at hdone
      split_ifs at hdone
      · exact ih _ (i + 1) _ db' (hstep db i hdb) hdone
      · cases hdone
        exact hdb
  unfold deleteRange
  cases hdone : deleteLoop lim lim.writes lim.bytes min max db with
  | error e => exact h
  | ok db' => exact hloop _ _ min db db' h hdone

end Raft

/-- A key of the user's data or of a script. -/
def DataKey (key : Bytes) : Prop :=
  (∃ k, key = userKey k) ∨ (∃ k, key = typeKey k) ∨ scriptPrefix <+: key

theorem logKey_not_data (i : UInt64) : ¬ DataKey (logKey i) := by
  rintro (⟨k, h⟩ | ⟨k, h⟩ | ⟨rest, h⟩) <;> cases h

/-- The three stable keys are no keys of users or scripts. -/
theorem stableKey_not_data {name : Bytes} (hname : name ∈ stableKeys) :
    ¬ DataKey (stableKey name) := by
  rintro (⟨k, h⟩ | ⟨k, h⟩ | h)
  · cases h
  · cases h
  · exact stableKey_not_script hname h

/-- The databases agree on the user's data and the scripts. -/
def SameData (db db' : DB) : Prop := ∀ key, DataKey key → db'.get? key = db.get? key

theorem SameData.insert {db db' : DB} {key : Bytes} (h : SameData db db') (hkey : ¬ DataKey key)
    (e : Entry) : SameData db (db'.insert key e) := by
  intro key' hkey'
  have hne : key ≠ key' := by
    rintro rfl
    exact hkey hkey'
  rw [OrdMap.get?_insert_of_ne db' e hne]
  exact h key' hkey'

theorem SameData.erase {db db' : DB} {key : Bytes} (h : SameData db db') (hkey : ¬ DataKey key) :
    SameData db (db'.erase key) := by
  intro key' hkey'
  have hne : key ≠ key' := by
    rintro rfl
    exact hkey hkey'
  rw [OrdMap.get?_erase_of_ne db' hne]
  exact h key' hkey'

/-- Every read of user data and scripts answers in `db'` as in `db`, at every instant. -/
def DataAnswersKept (db db' : DB) : Prop :=
  ∀ t, (∀ k, db'.item t k = db.item t k) ∧
    (∀ pattern, ((fsmKeys t pattern).run db').1 = ((fsmKeys t pattern).run db).1) ∧
    ∀ sha, db'.registered t sha = db.registered t sha

/-- The items under a prefix depend on the entries with that prefix. -/
theorem scanPrefix_congr {db db' : DB} {p : Bytes}
    (h : ∀ key, p <+: key → db'.get? key = db.get? key) (t : Nat) :
    db'.scanPrefix t p = db.scanPrefix t p := by
  have hscan : ∀ db : DB, db.scanPrefix t p =
      (db.filter fun e => e.2.live t && p.isPrefixOf e.1).entries := by
    intro db
    rw [DB.scanPrefix, DB.liveEntries, OrdMap.scan_eq_filter (db.sorted.filter _),
      List.filter_filter]
    refine List.filter_congr fun e _ => ?_
    rw [Bool.and_comm]
  rw [hscan, hscan]
  congr 1
  apply OrdMap.ext_get?
  intro key
  rw [OrdMap.get?_filter, OrdMap.get?_filter]
  by_cases hkey : p <+: key
  · rw [h key hkey]
  · have hno : p.isPrefixOf key = false := by
      rw [Bool.eq_false_iff, ne_eq, List.isPrefixOf_iff_prefix]
      exact hkey
    simp [hno]

/-- Databases with the same data answer every read of a user alike. -/
theorem answers_of_sameData {db db' : DB} (h : SameData db db') : DataAnswersKept db db' := by
  have hlive : ∀ t key, DataKey key → db'.getLive t key = db.getLive t key := by
    intro t key hkey
    rw [DB.getLive, DB.getLive, h key hkey]
  have hslot : ∀ k, Slot.of db' k = Slot.of db k := by
    intro k
    rw [Slot.of, Slot.of, h _ (Or.inl ⟨k, rfl⟩), h _ (Or.inr (Or.inl ⟨k, rfl⟩))]
  intro t
  refine ⟨fun k => ?_, fun pattern => ?_, fun sha => ?_⟩
  · rw [DB.item, DB.item, hslot, hlive t _ (Or.inl ⟨k, rfl⟩)]
  · have hscan : db'.scanPrefix t [75] = db.scanPrefix t [75] := by
      refine scanPrefix_congr (fun key hkey => h key ?_) t
      obtain ⟨rest, rfl⟩ := hkey
      exact Or.inl ⟨rest, rfl⟩
    rw [fsmKeys, Txn.run_bind, Txn.run_bind]
    simp only [Txn.run_reads, hscan]
    rfl
  · exact hlive t _ (Or.inr (Or.inr (List.prefix_append _ _)))

/-! ## The invariant of the store -/

/-- Raft's entries have no expiry and lie under its keys, and script keys are well formed. -/
structure StoreWF (db : DB) : Prop where
  scripts : ScriptKeys db
  raft : ∀ key e, RaftKey key → db.get? key = some e →
    e.expiresAt = 0 ∧ ((∃ i, key = logKey i) ∨ ∃ name ∈ stableKeys, key = stableKey name)

namespace StoreWF

variable {db : DB}

/-- Storing an entry of raft's. -/
theorem insert (h : StoreWF db) {key : Bytes} (hscript : ¬ scriptPrefix <+: key)
    (hkey : (∃ i, key = logKey i) ∨ ∃ name ∈ stableKeys, key = stableKey name) (val : Bytes) :
    StoreWF (db.insert key (newEntry val)) := by
  constructor
  · intro key' e he hpre
    by_cases heq : key = key'
    · rw [heq] at hscript
      exact absurd hpre hscript
    · rw [OrdMap.get?_insert_of_ne db _ heq] at he
      exact h.scripts key' e he hpre
  · intro key' e hraft he
    by_cases heq : key = key'
    · subst heq
      rw [OrdMap.get?_insert_self] at he
      cases he
      exact ⟨rfl, hkey⟩
    · rw [OrdMap.get?_insert_of_ne db _ heq] at he
      exact h.raft key' e hraft he

theorem erase (h : StoreWF db) (key : Bytes) : StoreWF (db.erase key) := by
  have hsome : ∀ key' e, (db.erase key).get? key' = some e → db.get? key' = some e := by
    intro key' e he
    rw [OrdMap.get?_erase] at he
    split_ifs at he
    exact he
  exact ⟨fun key' e he => h.scripts key' e (hsome key' e he),
    fun key' e hraft he => h.raft key' e hraft (hsome key' e he)⟩

theorem apply (vm : LuaVM) (c : Codec) (h : StoreWF db) (fuel : Nat) (envs : List Nat → Env)
    (cmd : Command) : StoreWF (fsmApply vm c fuel envs cmd db).2 := by
  obtain ⟨hscripts, hsame⟩ := fsmApply_keepsRaft vm c fuel envs cmd db h.scripts
  refine ⟨hscripts, fun key e hkey he => h.raft key e hkey ?_⟩
  rw [← hsame key hkey]
  exact he

theorem restore {src : DB} (hsrc : StoreWF src) (h : StoreWF db) (t : Nat) :
    StoreWF (restore (persist t src) db) := by
  have hsome : ∀ key e, (Badis.restore (persist t src) db).get? key = some e →
      src.get? key = some e ∨ db.get? key = some e := by
    intro key e he
    rw [get?_restore] at he
    cases hlive : src.getLive t key with
    | none =>
      rw [hlive] at he
      exact Or.inr he
    | some e' =>
      rw [hlive] at he
      cases he
      exact Or.inl (Option.filter_eq_some_iff.mp hlive).1
  constructor
  · intro key e he hpre
    rcases hsome key e he with he | he
    · exact hsrc.scripts key e he hpre
    · exact h.scripts key e he hpre
  · intro key e hkey he
    rcases hsome key e he with he | he
    · exact hsrc.raft key e hkey he
    · exact h.raft key e hkey he

end StoreWF

/-- Every reachable store is well formed. -/
theorem Reachable.wf {vm : LuaVM} {c : Codec} {lc : LogCodec} {db : DB} (h : Reachable vm c lc db) :
    StoreWF db := by
  have hlog : ∀ i, ¬ scriptPrefix <+: logKey i := fun i hscript =>
    logKey_not_data i (Or.inr (Or.inr hscript))
  induction h with
  | empty => exact ⟨(fun key e he => by cases he), (fun key e _ he => by cases he)⟩
  | apply h fuel envs cmd ih => exact ih.apply vm c fuel envs cmd
  | storeLogs h lim logs ih =>
    exact storeLogs_induct lim lc logs (fun db i val hdb =>
      hdb.insert (hlog i) (Or.inl ⟨i, rfl⟩) val) ih
  | deleteRange h lim min max ih =>
    exact deleteRange_induct lim min max (fun db i hdb => hdb.erase (logKey i)) ih
  | set h name val hname ih =>
    exact ih.insert (stableKey_not_script hname) (Or.inr ⟨name, hname, rfl⟩) val
  | restore hsrc h t ihsrc ih => exact ihsrc.restore ih t

/-! ## Isolation -/

/-- In every state of a store, no command, with any script, changes an answer of the raft store; and
nothing that raft writes changes a read of user data or scripts. -/
theorem prefix_isolation (vm : LuaVM) (c : Codec) (lc : LogCodec) (db : DB)
    (h : Reachable vm c lc db) :
    (∀ fuel envs cmd, RaftAnswersKept lc db (fsmApply vm c fuel envs cmd db).2) ∧
    (∀ lim logs, DataAnswersKept db (storeLogs lim lc logs db).2) ∧
    (∀ lim min max, DataAnswersKept db (deleteRange lim min max db).2) ∧
    ∀ name ∈ stableKeys, (∀ val, DataAnswersKept db (raftSet name val db)) ∧
      ∀ val, DataAnswersKept db (raftSetUint64 name val db) := by
  have hsame : SameData db db := fun _ _ => rfl
  refine ⟨fun fuel envs cmd => ?_, fun lim logs => ?_, fun lim min max => ?_, fun name hname => ?_⟩
  · exact answers_of_sameRaft lc (fsmApply_keepsRaft vm c fuel envs cmd db h.wf.scripts).2
  · exact answers_of_sameData
      (storeLogs_induct lim lc logs (fun db' i val hdb => hdb.insert (logKey_not_data i) _) hsame)
  · exact answers_of_sameData
      (deleteRange_induct lim min max (fun db' i hdb => hdb.erase (logKey_not_data i)) hsame)
  · have hset : ∀ val, DataAnswersKept db (raftSet name val db) := fun val =>
      answers_of_sameData (hsame.insert (stableKey_not_data hname) _)
    exact ⟨hset, fun val => hset _⟩

/-- An interpreter for a script that flushes the scripts. -/
def flushingVM : LuaVM where
  run _ _ _ := .call [ascii "script_flush"] fun _ => .done [] .nil
  upper s := s

/-- The codec of a store without log entries, which is never asked. -/
def noLogs : LogCodec := ⟨fun _ => none, fun _ => none⟩

/-- A store that holds a script, a term and a vote. -/
def scriptAndVote : DB :=
  raftSet (ascii "LastVoteCand") (ascii "node1")
    (raftSetUint64 (ascii "CurrentTerm") 7
      (fsmApply flushingVM msgpack 1 (fun _ => Env.at 1000000000000)
        ⟨.scriptLoad, [], [ascii "return 1"], 0, .always, false⟩ OrdMap.empty).2)

theorem scriptAndVote_isolated :
    raftGetUint64 1000000000000 (ascii "CurrentTerm") scriptAndVote = .ok 7 ∧
    RaftAnswersKept noLogs scriptAndVote
      (fsmApply flushingVM msgpack 2 (fun _ => Env.at 1000000000000)
        ⟨.eval, [], [ascii "redis.call('script_flush')", ascii "0"], 0, .always, false⟩
        scriptAndVote).2 :=
  ⟨by decide,
    (prefix_isolation flushingVM msgpack noLogs scriptAndVote
      (.set (.set (.apply .empty 1 _ _) (ascii "CurrentTerm") _ (by decide)) (ascii "LastVoteCand")
        _
        (by decide))).1 2 _ _⟩

end Badis
