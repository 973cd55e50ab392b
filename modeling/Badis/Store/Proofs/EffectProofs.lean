import Badis.Store.Proofs.PlanProofs

/-!
# What every command does to every key, and what it replies

`slot_applyCmd`: after any command, the two entries of any key are its action on the entries before.
`reply_applyCmd`: the reply is a function of what the keys hold. `applyCmd_frame`: nothing else in
the database changes. The commands on one key have all this from their plan; the loops of MSET, DEL
and FLUSHDB are unrolled here, key by key.
-/

namespace Badis

open Lib

variable (c : Codec) (env : Env) (cmd : Command) (db : DB) (k : Bytes)

/-! ## MSET -/

/-- The loop of MSET leaves every key with its last value in the list. -/
theorem msetLoop_run (args : List Bytes) :
    ∃ db', (msetLoop env args).run db = (.ok (), db') ∧
      ∀ k, Slot.of db' k =
        match msetValue k args with
        | none => Slot.of db k
        | some v => (KeyAct.put (.string v) 0).onSlot c env (Slot.of db k) := by
  induction args using msetValue.induct generalizing db with
  | case1 k' v rest ih =>
    obtain ⟨db', hrun, hslot⟩ :=
      ih (DB.setSlot db k' ((KeyAct.put (.string v) 0).onSlot c env (Slot.of db k')))
    refine ⟨db', hrun, fun k => ?_⟩
    rw [hslot k, msetValue]
    cases msetValue k rest with
    | some w => rfl
    | none =>
      by_cases hk : k' = k
      · subst hk
        simp
      · simp [hk, Slot.of_setSlot_of_ne]
  | case2 args hargs =>
    refine ⟨db, by rw [msetLoop.eq_2 env args hargs]; rfl, fun k => ?_⟩
    rw [msetValue.eq_2 k args hargs]

/-- MSET does to every key what its action says, whatever type the key has. -/
theorem applyMSet_run (h : cmd.op = .mset) :
    ∃ r db', (applyMSet env cmd).run db = (r, db') ∧
      r = reply env cmd (DB.view c env.clock.now db) ∧
      ∀ k, Slot.of db' k =
        (keyAct env cmd k (DB.view c env.clock.now db k)).onSlot c env (Slot.of db k) := by
  unfold applyMSet keyAct reply
  simp only [h]
  split_ifs with hargs
  · exact ⟨_, _, rfl, rfl, fun k => rfl⟩
  · obtain ⟨db', hrun, hslot⟩ := msetLoop_run c env db cmd.args
    refine ⟨_, db', Txn.run_bind_ok hrun, rfl, fun k => (hslot k).trans ?_⟩
    cases msetValue k cmd.args <;> rfl

/-! ## DEL -/

/-- A key has a view if and only if its user entry is live. -/
theorem isSome_view (t : Nat) : (DB.view c t db k).isSome = DB.present t db k := by
  simp [DB.present, DB.view, Slot.view, Slot.of, DB.getLive]

theorem present_setSlot (t : Nat) (a : Bytes) :
    DB.present t (DB.setSlot db a ⟨none, none⟩) k = (decide (k ≠ a) && DB.present t db k) := by
  unfold DB.present DB.getLive
  rw [get?_setSlot]
  by_cases hk : k = a
  · simp [hk]
  · have hak : ¬ a = k := fun h => hk h.symm
    simp [hk, hak]

/-- The loop of DEL removes the keys that are live, and counts each of them once. -/
theorem delLoop_run (args : List Bytes) (n : Nat) :
    ∃ db', (delLoop env args n).run db =
        (.ok (delCount (DB.present env.clock.now db) args + n), db') ∧
      ∀ k, Slot.of db' k =
        if DB.present env.clock.now db k = true ∧ k ∈ args then ⟨none, none⟩ else Slot.of db k := by
  induction args generalizing db n with
  | nil => exact ⟨db, by simp [delLoop, delCount], fun k => by simp⟩
  | cons a rest ih =>
    have hget := txnGet_run db env.clock.now (userKey a)
    by_cases ha : DB.present env.clock.now db a = true
    · obtain ⟨item, hitem⟩ := Option.isSome_iff_exists.mp ha
      obtain ⟨db', hrun, hslot⟩ := ih (DB.setSlot db a ⟨none, none⟩) (n + 1)
      have hcount :
        delCount (DB.present env.clock.now (DB.setSlot db a ⟨none, none⟩)) rest + (n + 1) =
          delCount (DB.present env.clock.now db) (a :: rest) + n := by
        rw [delCount, if_pos ha, funext fun k => present_setSlot db k env.clock.now a]
        omega
      refine ⟨db', ?_, fun k => ?_⟩
      · rw [delLoop, Txn.run_bind_ok (hget.trans (by rw [← DB.getLive, hitem])), ← hcount]
        exact hrun
      · rw [hslot k, present_setSlot]
        by_cases hk : k = a
        · subst hk
          simp [ha]
        · have hak : a ≠ k := fun h => hk h.symm
          simp [hk, Slot.of_setSlot_of_ne db _ hak]
    · have hnone : db.getLive env.clock.now (userKey a) = none := by
        simpa [DB.present] using ha
      obtain ⟨db', hrun, hslot⟩ := ih db n
      refine ⟨db', ?_, fun k => ?_⟩
      · rw [delLoop, Txn.run_bind_ok (hget.trans (by rw [← DB.getLive, hnone])), delCount,
          if_neg ha]
        exact hrun
      · rw [hslot k]
        by_cases hk : k = a
        · subst hk
          simp [ha]
        · simp [hk]

/-- DEL of a single key given as `cmd.Key` removes the user entry and leaves the type entry. -/
theorem slot_erase_userKey (a : Bytes) :
    Slot.of (db.erase (userKey a)) k = if a = k then ⟨none, (Slot.of db k).type⟩
      else Slot.of db k := by
  simp only [Slot.of, OrdMap.get?_erase, userKey_inj, userKey_ne_typeKey, if_false]
  split_ifs <;> rfl

theorem applyDel_run (h : cmd.op = .del) :
    ∃ r db', (applyDel env cmd).run db = (r, db') ∧
      r = reply env cmd (DB.view c env.clock.now db) ∧
      ∀ k, Slot.of db' k =
        (keyAct env cmd k (DB.view c env.clock.now db k)).onSlot c env (Slot.of db k) := by
  unfold applyDel keyAct reply
  simp only [h, isSome_view, Option.isNone_iff_eq_none, ← Option.not_isSome_iff_eq_none]
  by_cases hback : cmd.args = [] ∧ cmd.key ≠ []
  · obtain ⟨hargs, hkey⟩ := hback
    have hget := txnGet_run db env.clock.now (userKey cmd.key)
    rw [hargs]
    by_cases hpres : DB.present env.clock.now db cmd.key = true
    · obtain ⟨item, hitem⟩ := Option.isSome_iff_exists.mp hpres
      have hrun : (txnGet env.clock.now (userKey cmd.key) : Tx _).run db = (.ok (some item), db) :=
        hget.trans (by rw [← DB.getLive, hitem])
      refine ⟨_, db.erase (userKey cmd.key), ?_, rfl, fun k => ?_⟩
      · simp only [delLoop, Txn.run_bind, Txn.run_pure, hkey, and_self, ne_eq, not_false_eq_true,
          if_true, hrun, hpres, delCount]
        rfl
      · rw [slot_erase_userKey]
        by_cases hk : cmd.key = k
        · subst hk
          simp [hpres, hkey, KeyAct.onSlot]
        · simp [hk, KeyAct.onSlot]
    · have hrun : (txnGet env.clock.now (userKey cmd.key) : Tx _).run db = (.ok none, db) := by
        refine hget.trans ?_
        rw [← DB.getLive, Option.not_isSome_iff_eq_none.mp hpres]
      refine ⟨_, db, ?_, rfl, fun k => ?_⟩
      · simp only [delLoop, Txn.run_bind, Txn.run_pure, hkey, and_self, ne_eq, not_false_eq_true,
          if_true, hrun, hpres, delCount]
        rfl
      · by_cases hk : cmd.key = k
        · subst hk
          simp [hpres, KeyAct.onSlot]
        · simp [hk, KeyAct.onSlot]
  · obtain ⟨db', hrun, hslot⟩ := delLoop_run env db cmd.args 0
    have hreply : ¬ (cmd.args = [] ∧ cmd.key ≠ [] ∧ DB.present env.clock.now db cmd.key = true) :=
      fun h => hback ⟨h.1, h.2.1⟩
    rw [Txn.run_bind_ok hrun, if_neg hback, if_neg hreply]
    refine ⟨_, db', rfl, rfl, fun k => ?_⟩
    have hunset : ¬ (cmd.args = [] ∧ cmd.key ≠ [] ∧ cmd.key = k) := fun h => hback ⟨h.1, h.2.1⟩
    rw [hslot k, if_neg hunset]
    by_cases hpres : DB.present env.clock.now db k = true
    · by_cases hk : k ∈ cmd.args <;> simp [hpres, hk, KeyAct.onSlot]
    · simp [hpres, KeyAct.onSlot]

/-! ## FLUSHDB -/

/-- An iterator over a prefix shows the live entries whose key starts with it. -/
theorem mem_scanPrefix (t : Nat) (p : Bytes) (e : Bytes × Entry) :
    e ∈ db.scanPrefix t p ↔ db.getLive t e.1 = some e.2 ∧ p <+: e.1 := by
  rw [DB.scanPrefix, DB.liveEntries, OrdMap.scan_eq_filter (db.sorted.filter _), List.mem_filter,
    List.mem_filter, DB.getLive, Option.filter_eq_some_iff, OrdMap.get?_eq_some_iff,
    List.isPrefixOf_iff_prefix]

/-- One pass over a prefix deletes the visible entries with the prefix. -/
theorem get?_flushPrefix (t : Nat) (p k : Bytes) :
    ((db.scanPrefix t p).foldl (fun db e => db.erase e.1) db).get? k =
      if p <+: k then (db.get? k).filter (fun e => !e.live t) else db.get? k := by
  have hmem : k ∈ (db.scanPrefix t p).map Prod.fst ↔ (db.getLive t k).isSome ∧ p <+: k := by
    rw [List.mem_map, Option.isSome_iff_exists]
    constructor
    · rintro ⟨e, he, rfl⟩
      rw [mem_scanPrefix] at he
      exact ⟨⟨e.2, he.1⟩, he.2⟩
    · rintro ⟨⟨v, hv⟩, hp⟩
      exact ⟨(k, v), (mem_scanPrefix db t p (k, v)).mpr ⟨hv, hp⟩, rfl⟩
  rw [← List.foldl_map, OrdMap.get?_foldl_erase]
  simp only [hmem, DB.getLive]
  by_cases hp : p <+: k
  · cases hget : db.get? k with
    | none => simp [hp]
    | some e => by_cases hlive : e.live t <;> simp [Option.filter, hp, hlive]
  · simp [hp]

/-- FLUSHDB removes the live entries of all keys, and leaves the dead ones. -/
theorem applyFlushDB_run (h : cmd.op = .flushdb) :
    ∃ r db', (applyFlushDB env).run db = (r, db') ∧
      r = reply env cmd (DB.view c env.clock.now db) ∧
      ∀ k, Slot.of db' k =
        (keyAct env cmd k (DB.view c env.clock.now db k)).onSlot c env (Slot.of db k) := by
  unfold keyAct reply
  simp only [h]
  refine ⟨_, _, rfl, rfl, fun k => ?_⟩
  simp only [Slot.of, KeyAct.onSlot]
  have hu : ¬ [84] <+: userKey k := by simp [userKey]
  have hu' : [75] <+: userKey k := by simp [userKey]
  have ht : ¬ [75] <+: typeKey k := by simp [typeKey]
  have ht' : [84] <+: typeKey k := by simp [typeKey]
  congr 1
  · refine (get?_flushPrefix _ env.clock.now [84] (userKey k)).trans ?_
    rw [if_neg hu]
    refine (get?_flushPrefix _ env.clock.now [75] (userKey k)).trans ?_
    rw [if_pos hu']
  · refine (get?_flushPrefix _ env.clock.now [84] (typeKey k)).trans ?_
    rw [if_pos ht']
    refine congrArg _ ((get?_flushPrefix _ env.clock.now [75] (typeKey k)).trans ?_)
    rw [if_neg ht]

/-! ## Every command -/

/-- A command on one key acts on that key by its plan, and on no other. -/
theorem keyAct_of_single (h : cmd.op.multi = false) (x : View) :
    keyAct env cmd k x =
      if cmd.key = k then (match plan env cmd x with | .error _ => .keep | .ok (_, act) => act)
      else .keep := by
  unfold keyAct
  cases hop : cmd.op <;> rw [hop] at h <;> first | rfl | cases h

theorem reply_of_single (h : cmd.op.multi = false) (views : Bytes → View) :
    reply env cmd views = (plan env cmd (views cmd.key)).map Prod.fst := by
  unfold reply
  cases hop : cmd.op <;> rw [hop] at h <;> first | rfl | cases h

/-- The effect of any data command, key by key. -/
theorem applyData_run :
    ∃ r db', (applyData c env cmd).run db = (r, db') ∧
      r = reply env cmd (DB.view c env.clock.now db) ∧
      ∀ k, Slot.of db' k =
        (keyAct env cmd k (DB.view c env.clock.now db k)).onSlot c env (Slot.of db k) := by
  cases hmulti : cmd.op.multi with
  | true =>
    cases hop : cmd.op <;> rw [hop] at hmulti
    case mset => simpa only [applyData, hop] using applyMSet_run c env cmd db hop
    case del => simpa only [applyData, hop] using applyDel_run c env cmd db hop
    case flushdb => simpa only [applyData, hop] using applyFlushDB_run c env cmd db hop
    all_goals cases hmulti
  | false =>
    rw [applyData_eq_plan c env cmd db hmulti, reply_of_single env cmd hmulti]
    cases hplan : plan env cmd (DB.view c env.clock.now db cmd.key) with
    | error e =>
      refine ⟨_, _, rfl, rfl, fun k => ?_⟩
      rw [keyAct_of_single env cmd k hmulti]
      split_ifs with hk
      · rw [← hk, hplan]
        rfl
      · rfl
    | ok ra =>
      obtain ⟨r, act⟩ := ra
      refine ⟨_, _, rfl, rfl, fun k => ?_⟩
      rw [keyAct_of_single env cmd k hmulti]
      split_ifs with hk
      · subst hk
        rw [hplan, Slot.of_setSlot]
      · exact Slot.of_setSlot_of_ne db _ hk

/-! ## Everything else -/

/-- The databases agree outside the user and type entries. -/
def SameElsewhere (db db' : DB) : Prop :=
  ∀ raw, (∀ k, raw ≠ userKey k) → (∀ k, raw ≠ typeKey k) → db'.get? raw = db.get? raw

theorem SameElsewhere.refl (db : DB) : SameElsewhere db db := fun _ _ _ => rfl

theorem SameElsewhere.trans (db db' db'' : DB) (h : SameElsewhere db db')
    (h' : SameElsewhere db' db'') : SameElsewhere db db'' :=
  fun raw hu ht => (h' raw hu ht).trans (h raw hu ht)

theorem sameElsewhere_setSlot (s : Slot) : SameElsewhere db (DB.setSlot db k s) := by
  intro raw hu ht
  rw [get?_setSlot, if_neg fun h => ht k h.symm, if_neg fun h => hu k h.symm]

/-- FLUSHDB deletes under the prefixes of keys and types only. -/
theorem sameElsewhere_flushPrefix (t : Nat) {p : UInt8} (hp : p = 75 ∨ p = 84) :
    SameElsewhere db ((db.scanPrefix t [p]).foldl (fun db e => db.erase e.1) db) := by
  intro raw hu ht
  rw [get?_flushPrefix]
  refine if_neg ?_
  rintro ⟨k, rfl⟩
  rcases hp with rfl | rfl
  · exact hu k rfl
  · exact ht k rfl

theorem setValue_frame (key val typ : Bytes) (ttlMs : Int64) :
    Txn.Respects SameElsewhere (setValue env key val typ ttlMs) := fun db => by
  rw [setValue_run]
  exact sameElsewhere_setSlot db key _

theorem msetLoop_frame (args : List Bytes) : Txn.Respects SameElsewhere (msetLoop env args) := by
  induction args using msetValue.induct with
  | case1 k v rest ih =>
    exact Txn.Respects.bind SameElsewhere.trans (setValue_frame env k v typeString 0)
      fun _ => ih
  | case2 args hargs =>
    rw [msetLoop.eq_2 env args hargs]
    exact Txn.respects_pure SameElsewhere.refl _

theorem delLoop_frame (args : List Bytes) (n : Nat) :
    Txn.Respects SameElsewhere (delLoop env args n) := by
  induction args generalizing n with
  | nil => exact Txn.respects_pure SameElsewhere.refl _
  | cons a rest ih =>
    refine Txn.Respects.bind SameElsewhere.trans
      (Txn.respects_reads SameElsewhere.refl _) fun item => ?_
    cases item with
    | none => exact ih n
    | some item =>
      refine Txn.Respects.bind SameElsewhere.trans (fun db => ?_) fun _ => ih (n + 1)
      rw [deleteKey_run]
      exact sameElsewhere_setSlot db a _

theorem applyDel_frame : Txn.Respects SameElsewhere (applyDel env cmd) := by
  refine Txn.Respects.bind SameElsewhere.trans (delLoop_frame env cmd.args 0)
    fun count => ?_
  split_ifs
  · refine Txn.Respects.bind SameElsewhere.trans
      (Txn.respects_reads SameElsewhere.refl _) fun item => ?_
    cases item with
    | none => exact Txn.respects_pure SameElsewhere.refl _
    | some item =>
      refine Txn.Respects.bind SameElsewhere.trans (fun db raw hu _ => ?_)
        fun _ => Txn.respects_pure SameElsewhere.refl _
      exact OrdMap.get?_erase_of_ne db fun h => hu _ h.symm
  · exact Txn.respects_pure SameElsewhere.refl _

theorem applyFlushDB_frame : Txn.Respects SameElsewhere (applyFlushDB env) := by
  refine Txn.Respects.bind SameElsewhere.trans
    (fun db => sameElsewhere_flushPrefix db _ (Or.inl rfl)) fun _ => ?_
  exact Txn.Respects.bind SameElsewhere.trans
    (fun db => sameElsewhere_flushPrefix db _ (Or.inr rfl)) fun _ =>
      Txn.respects_pure SameElsewhere.refl _

/-- A command writes user and type entries only. -/
theorem applyData_frame : Txn.Respects SameElsewhere (applyData c env cmd) := by
  cases hmulti : cmd.op.multi with
  | true =>
    unfold applyData
    cases hop : cmd.op <;> rw [hop] at hmulti
    case mset =>
      simp only
      unfold applyMSet
      split_ifs
      · exact Txn.respects_throw SameElsewhere.refl _
      · exact Txn.Respects.bind SameElsewhere.trans (msetLoop_frame env cmd.args)
          fun _ => Txn.respects_pure SameElsewhere.refl _
    case del => exact applyDel_frame env cmd
    case flushdb => exact applyFlushDB_frame env
    all_goals cases hmulti
  | false =>
    intro db
    rw [applyData_eq_plan c env cmd db hmulti]
    cases plan env cmd (DB.view c env.clock.now db cmd.key) with
    | error e => exact SameElsewhere.refl db
    | ok ra => exact sameElsewhere_setSlot db cmd.key _

/-- A data command leaves all entries that are not of a key. -/
theorem applyCmd_frame : SameElsewhere db (applyCmd c env cmd db).2 :=
  (applyData_frame c env cmd).atomically SameElsewhere.refl db

/-! ## Replies and effects -/

/-- An error leaves every key as it is. -/
theorem keyAct_of_error {views : Bytes → View} {e : Err} (h : reply env cmd views = .error e) :
    keyAct env cmd k (views k) = .keep := by
  cases hmulti : cmd.op.multi with
  | true =>
    unfold reply at h
    unfold keyAct
    cases hop : cmd.op <;> rw [hop] at hmulti h
    case mset =>
      simp only at h ⊢
      split_ifs at h ⊢
      rfl
    case del =>
      simp only at h
      split_ifs at h
    case flushdb => cases h
    all_goals cases hmulti
  | false =>
    rw [reply_of_single env cmd hmulti] at h
    rw [keyAct_of_single env cmd k hmulti]
    split_ifs with hk
    · subst hk
      cases hplan : plan env cmd (views cmd.key) with
      | error e => rfl
      | ok ra => rw [hplan] at h; cases h
    · rfl

/-- The reply of a data command is a function of what it sees. -/
theorem reply_applyCmd :
    (applyCmd c env cmd db).1 = reply env cmd (DB.view c env.clock.now db) := by
  obtain ⟨r, db', hrun, hr, -⟩ := applyData_run c env cmd db
  rw [applyCmd, Txn.atomically_fst, hrun, hr]

/-- After a command, the entries of every key are the command's action on the entries before. -/
theorem slot_applyCmd :
    Slot.of (applyCmd c env cmd db).2 k =
      (keyAct env cmd k (DB.view c env.clock.now db k)).onSlot c env (Slot.of db k) := by
  obtain ⟨r, db', hrun, hr, hslot⟩ := applyData_run c env cmd db
  unfold applyCmd Txn.atomically
  rw [hrun]
  cases r with
  | ok r => exact hslot k
  | error e =>
    rw [keyAct_of_error env cmd k hr.symm]
    rfl

/-- Databases with the same entries for every key and the same other entries are the same. -/
theorem DB.ext_of_slots {db db' : DB} (hslot : ∀ k, Slot.of db' k = Slot.of db k)
    (helse : SameElsewhere db db') : db' = db := by
  apply OrdMap.ext_get?
  intro raw
  by_cases hu : ∃ k, raw = userKey k
  · obtain ⟨k, rfl⟩ := hu
    exact congrArg Slot.user (hslot k)
  · by_cases ht : ∃ k, raw = typeKey k
    · obtain ⟨k, rfl⟩ := ht
      exact congrArg Slot.type (hslot k)
    · push Not at hu ht
      exact helse raw hu ht

/-- Two commands with the same effect on the entries of every key have the same effect. -/
theorem applyCmd_ext {env env' : Env} (h : ∀ k, Slot.of (applyCmd c env cmd db).2 k =
    Slot.of (applyCmd c env' cmd db).2 k) : (applyCmd c env cmd db).2 =
      (applyCmd c env' cmd db).2 := by
  refine DB.ext_of_slots h fun raw hu ht => ?_
  rw [applyCmd_frame c env cmd db raw hu ht, applyCmd_frame c env' cmd db raw hu ht]

/-- A failed command has written nothing, even before the transaction is rolled back. -/
theorem applyData_of_error {e : Err} {db' : DB}
    (h : (applyData c env cmd).run db = (.error e, db')) : db' = db := by
  obtain ⟨r, db'', hrun, hr, hslot⟩ := applyData_run c env cmd db
  have hframe := applyData_frame c env cmd db
  rw [hrun] at h hframe
  cases h
  refine DB.ext_of_slots (fun k => ?_) hframe
  rw [hslot k, keyAct_of_error env cmd k hr.symm]
  rfl

end Badis
