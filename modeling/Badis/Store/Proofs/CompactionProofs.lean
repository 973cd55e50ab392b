import Badis.Store.Compaction
import Badis.Store.Proofs.ActionProofs
import Badis.Store.Proofs.MultiKeyProofs

/-!
# Expired entries are never seen again

Two databases with the same visible entries at `t` (`DB.SameLive t`) have the same visible entries
ever after, and every transaction that reads the clock from `t` on does the same in both
(`Txn.Congruent (DB.SameLive t)`), scripts included. A compaction keeps the visible entries, so a
run with compactions cannot be told from the run without them.
-/

namespace Badis

open Lib

/-! ## The same visible entries -/

/-- What has expired stays expired. -/
theorem filter_live_congr {t t' : Nat} (ht : t ≤ t') {o o' : Option Entry}
    (h : o.filter (Entry.live t) = o'.filter (Entry.live t)) :
    o.filter (Entry.live t') = o'.filter (Entry.live t') := by
  have hlater : ∀ o : Option Entry, o.filter (Entry.live t') =
      (o.filter (Entry.live t)).filter (Entry.live t') := by
    intro o
    apply Option.ext
    intro e
    simp only [Option.filter_eq_some_iff]
    constructor
    · rintro ⟨he, hlive⟩
      exact ⟨⟨he, live_mono ht hlive⟩, hlive⟩
    · rintro ⟨⟨he, -⟩, hlive⟩
      exact ⟨he, hlive⟩
  rw [hlater, h, ← hlater]

/-- The databases have the same visible entries at `t`. -/
def DB.SameLive (t : Nat) (db db' : DB) : Prop := ∀ k, db.getLive t k = db'.getLive t k

namespace DB.SameLive

variable {t t' : Nat} {db db' db'' : DB}

theorem refl (t : Nat) (db : DB) : DB.SameLive t db db := fun _ => rfl

theorem symm (h : DB.SameLive t db db') : DB.SameLive t db' db := fun k => (h k).symm

theorem trans (h : DB.SameLive t db db') (h' : DB.SameLive t db' db'') : DB.SameLive t db db'' :=
  fun k =>
  (h k).trans (h' k)

/-- Databases that agree on what is live at `t` agree on what is live later. -/
theorem mono (h : DB.SameLive t db db') (ht : t ≤ t') : DB.SameLive t' db db' := fun k =>
  filter_live_congr ht (h k)

/-- They give iterators the same entries. -/
theorem liveEntries_eq (h : DB.SameLive t db db') : db.liveEntries t = db'.liveEntries t := by
  have hfilter : db.filter (fun e => e.2.live t) = db'.filter (fun e => e.2.live t) := by
    apply OrdMap.ext_get?
    intro k
    have hk := h k
    unfold DB.getLive at hk
    rw [OrdMap.get?_filter, OrdMap.get?_filter]
    exact hk
  exact congrArg OrdMap.entries hfilter

theorem insert (h : DB.SameLive t db db') (k : Bytes) (e : Entry) :
    DB.SameLive t (db.insert k e) (db'.insert k e) := by
  intro k'
  have hk := h k'
  unfold DB.getLive at hk ⊢
  rw [OrdMap.get?_insert, OrdMap.get?_insert]
  split_ifs
  · rfl
  · exact hk

theorem erase (h : DB.SameLive t db db') (k : Bytes) :
    DB.SameLive t (db.erase k) (db'.erase k) := by
  intro k'
  have hk := h k'
  unfold DB.getLive at hk ⊢
  rw [OrdMap.get?_erase, OrdMap.get?_erase]
  split_ifs
  · rfl
  · exact hk

theorem foldl {α : Type} {f : DB → α → DB}
    (hf : ∀ a db db', DB.SameLive t db db' → DB.SameLive t (f db a) (f db' a))
    (h : DB.SameLive t db db') (l : List α) : DB.SameLive t (l.foldl f db) (l.foldl f db') := by
  induction l generalizing db db' with
  | nil => exact h
  | cons a l ih => exact ih (hf a _ _ h)

/-- Compaction keeps what is visible. -/
theorem compact (t : Nat) (keep : Bytes → Bool) (db : DB) :
    DB.SameLive t (db.compact t keep) db := by
  intro k
  apply Option.ext
  intro e
  unfold DB.getLive DB.compact
  rw [OrdMap.get?_filter]
  simp only [Option.filter_eq_some_iff, Bool.or_eq_true]
  constructor
  · rintro ⟨⟨hget, -⟩, hlive⟩
    exact ⟨hget, hlive⟩
  · rintro ⟨hget, hlive⟩
    exact ⟨⟨hget, .inl hlive⟩, hlive⟩

end DB.SameLive

/-! ## Commands without script -/

/-- The slots have the same visible entries at `t`. -/
structure Slot.SameLive (t : Nat) (s s' : Slot) : Prop where
  user : s.user.filter (Entry.live t) = s'.user.filter (Entry.live t)
  type : s.type.filter (Entry.live t) = s'.type.filter (Entry.live t)

theorem DB.SameLive.slot {t : Nat} {db db' : DB} (h : DB.SameLive t db db') (k : Bytes) :
    (Slot.of db k).SameLive t (Slot.of db' k) := ⟨h (userKey k), h (typeKey k)⟩

/-- It is enough to agree on the entries of every key, and on the other entries of the database. -/
theorem DB.sameLive_of_slots {t : Nat} {db db' : DB}
    (hslot : ∀ k, (Slot.of db k).SameLive t (Slot.of db' k)) (helse : ∀ raw,
      (∀ k, raw ≠ userKey k) → (∀ k, raw ≠ typeKey k) → db.getLive t raw = db'.getLive t raw) :
    DB.SameLive t db db' := by
  intro raw
  by_cases hu : ∃ k, raw = userKey k
  · obtain ⟨k, rfl⟩ := hu
    exact (hslot k).user
  · by_cases ht : ∃ k, raw = typeKey k
    · obtain ⟨k, rfl⟩ := ht
      exact (hslot k).type
    · push Not at hu ht
      exact helse raw hu ht

namespace Slot.SameLive

variable {t t' : Nat} {s s' : Slot}

theorem typ_eq (h : s.SameLive t s') (ht : t ≤ t') : s.typ t' = s'.typ t' := by
  unfold Slot.typ
  rw [filter_live_congr ht h.type]

/-- A key looks the same at any later reading. -/
theorem view_eq (h : s.SameLive t s') (ht : t ≤ t') (c : Codec) : s.view c t' = s'.view c t' := by
  unfold Slot.view
  rw [filter_live_congr ht h.user, h.typ_eq ht]

/-- A key that shows a value has the same user entry in both. -/
theorem user_eq (h : s.SameLive t s') (ht : t ≤ t') {c : Codec} {p : Value × UInt64}
    (hview : s.view c t' = some p) : s'.user = s.user := by
  obtain ⟨v, exp⟩ := p
  obtain ⟨e, he, hlive, -, -⟩ := Slot.view_eq_some hview
  have hfilter : s.user.filter (Entry.live t') = some e := Option.filter_eq_some_iff.mpr ⟨he, hlive⟩
  rw [filter_live_congr ht h.user] at hfilter
  rw [filter_live_eq_some hfilter, he]

/-- Which entries have died between two readings is the same for both. -/
theorem filter_dead_congr {o o' : Option Entry}
    (h : o.filter (Entry.live t) = o'.filter (Entry.live t)) :
    (o.filter fun e => !e.live t').filter (Entry.live t) =
      (o'.filter fun e => !e.live t').filter (Entry.live t) := by
  have hcomm : ∀ o : Option Entry, (o.filter fun e => !e.live t').filter (Entry.live t) =
      (o.filter (Entry.live t)).filter fun e => !e.live t' := by
    intro o
    apply Option.ext
    intro e
    simp only [Option.filter_eq_some_iff]
    tauto
  rw [hcomm, hcomm, h]

/-- Every action of a command keeps the slots alike. -/
theorem onSlot (h : s.SameLive t s') {c : Codec} {env : Env} (ht : t ≤ env.clock.now)
    {cmd : Command} {k : Bytes} {act : KeyAct}
    (hact : Acts env cmd k (s.view c env.clock.now) act) :
    (act.onSlot c env s).SameLive t (act.onSlot c env s') := by
  cases hact with
  | keep => exact h
  | put => exact ⟨rfl, rfl⟩
  | expire hop hk hx =>
    obtain ⟨p, hp⟩ := Option.isSome_iff_exists.mp hx
    refine ⟨?_, h.type⟩
    unfold KeyAct.onSlot
    rw [h.user_eq ht hp]
  | persist hop hk p hp hexp =>
    unfold KeyAct.onSlot
    rw [h.user_eq ht hp, h.typ_eq ht]
    exact ⟨rfl, rfl⟩
  | drop => exact ⟨rfl, rfl⟩
  | unset => exact ⟨rfl, h.type⟩
  | flush => exact ⟨filter_dead_congr h.user, filter_dead_congr h.type⟩

end Slot.SameLive

/-- A transaction that does the same in databases with the same visible entries. -/
abbrev SeesLive {α : Type} (t : Nat) (m : Tx α) : Prop := Txn.Congruent (DB.SameLive t) m

variable {t t' : Nat}

/-- A data command does the same to two databases that agree on what is live. -/
theorem applyData_seesLive (c : Codec) {env : Env} (ht : t ≤ env.clock.now) (cmd : Command) :
    SeesLive t (applyData c env cmd) := by
  intro db db' h
  have hview : DB.view c env.clock.now db = DB.view c env.clock.now db' :=
    funext fun k => (h.slot k).view_eq ht c
  obtain ⟨r, db₁, hrun, hr, hslot⟩ := applyData_run c env cmd db
  obtain ⟨r', db₁', hrun', hr', hslot'⟩ := applyData_run c env cmd db'
  have hframe := applyData_frame c env cmd db
  have hframe' := applyData_frame c env cmd db'
  rw [hrun] at hframe ⊢
  rw [hrun'] at hframe' ⊢
  refine ⟨by rw [hr, hr', hview], DB.sameLive_of_slots (fun k => ?_) fun raw hu htype => ?_⟩
  · rw [hslot, hslot', ← hview]
    exact (h.slot k).onSlot ht (keyAct_acts env cmd k _)
  · have hraw := h raw
    unfold DB.getLive at hraw ⊢
    rw [hframe raw hu htype, hframe' raw hu htype]
    exact hraw

/-! ## Scripts -/

theorem txnGet_seesLive (ht : t ≤ t') (key : Bytes) : SeesLive t (txnGet t' key) :=
  Txn.congruent_reads fun _ _ h => h.mono ht key

theorem scriptLoad_seesLive (cmd : Command) : SeesLive t (scriptLoad cmd) := by
  unfold scriptLoad
  split
  · exact .bind (Txn.congruent_modify fun _ _ h => h.insert _ _) fun _ => Txn.congruent_pure _
  · exact Txn.congruent_throw _

theorem scriptExistsLoop_seesLive (ht : t ≤ t') (shas : List Bytes) :
    SeesLive t (scriptExistsLoop t' shas) := by
  induction shas with
  | nil => exact Txn.congruent_pure _
  | cons sha rest ih =>
    exact .bind (txnGet_seesLive ht _) fun _ => .bind ih fun _ => Txn.congruent_pure _

/-- SCRIPT FLUSH deletes by an iterator, which shows live entries only. -/
theorem scriptFlush_seesLive (ht : t ≤ t') : SeesLive t (scriptFlush t') := by
  refine .bind (Txn.congruent_modify fun db db' h => ?_) fun _ => Txn.congruent_pure _
  dsimp only
  rw [(h.mono ht).liveEntries_eq]
  exact h.foldl (fun k _ _ h => h.erase k) _

theorem luaExistsLoop_seesLive (ht : t ≤ t') (keys : List Bytes) (count : Nat) :
    SeesLive t (luaExistsLoop t' keys count) := by
  induction keys generalizing count with
  | nil => exact Txn.congruent_pure _
  | cons key rest ih => exact .bind (txnGet_seesLive ht _) fun _ => ih _

section Scripts

variable (vm : LuaVM)

/-- A call from a script reads live entries, or runs a command that does. -/
theorem luaRedisCall_seesLive (ht : t ≤ t') {apply : Command → Tx Result}
    (happly : ∀ cmd, SeesLive t (apply cmd)) (args : List Bytes) :
    SeesLive t (luaRedisCall vm t' apply args) := by
  cases args with
  | nil => exact Txn.congruent_throw _
  | cons name rest =>
    unfold luaRedisCall
    dsimp only
    split_ifs
    · split
      · refine .bind (txnGet_seesLive ht _) fun item => ?_
        cases item <;> exact Txn.congruent_pure _
      · exact Txn.congruent_throw _
    · split
      · exact Txn.congruent_throw _
      · exact .bind (luaExistsLoop_seesLive ht _ _) fun _ => Txn.congruent_pure _
    · split
      · refine .bind (txnGet_seesLive ht _) fun item => ?_
        cases item <;> exact Txn.congruent_pure _
      · exact Txn.congruent_throw _
    · exact .bind (Txn.congruent_lift _) fun cmd => .bind (happly cmd) fun _ => Txn.congruent_pure _

theorem doString_seesLive {times : Nat → Nat} (ht : ∀ n, t ≤ times n)
    {apply : Nat → Command → Tx Result} (happly : ∀ n cmd, SeesLive t (apply n cmd)) (fuel : Nat)
    (prog : LuaProg) (n : Nat) :
    SeesLive t (doString vm fuel times apply prog n) := by
  induction prog generalizing n with
  | done heap ret =>
    unfold doString
    split
    · exact Txn.congruent_pure _
    · exact Txn.congruent_throw _
  | fail msg => exact Txn.congruent_throw _
  | call args next ih =>
    unfold doString
    refine .bind (luaRedisCall_seesLive vm (ht n) (happly n) args).attempt fun r => ?_
    split
    · exact Txn.congruent_throw _
    · exact ih _ _

theorem runLua_seesLive {times : Nat → Nat} (ht : ∀ n, t ≤ times n)
    {apply : Nat → Command → Tx Result} (happly : ∀ n cmd, SeesLive t (apply n cmd)) (fuel : Nat)
    (script : Bytes) (evalArgs : List Bytes) :
    SeesLive t (runLua vm fuel times apply script evalArgs) := by
  unfold runLua
  split
  · exact Txn.congruent_throw _
  · split
    · exact Txn.congruent_throw _
    · split_ifs
      · exact Txn.congruent_throw _
      · exact Txn.congruent_throw _
      · exact doString_seesLive vm ht happly fuel _ _

theorem handleLuaCommand_seesLive {env : Env} (henv : t ≤ env.clock.now) {times : Nat → Nat}
    (ht : ∀ n, t ≤ times n) {apply : Nat → Command → Tx Result}
    (happly : ∀ n cmd, SeesLive t (apply n cmd)) (fuel : Nat) (cmd : Command) :
    SeesLive t (handleLuaCommand vm fuel env times apply cmd) := by
  unfold handleLuaCommand
  split
  · exact scriptLoad_seesLive cmd
  · exact .bind (scriptExistsLoop_seesLive henv _) fun _ => Txn.congruent_pure _
  · exact scriptFlush_seesLive henv
  · split
    · refine .bind (txnGet_seesLive henv _) fun item => ?_
      cases item with
      | none => exact Txn.congruent_throw _
      | some item => exact runLua_seesLive vm ht happly fuel _ _
    · exact Txn.congruent_throw _
  · split
    · exact runLua_seesLive vm ht happly fuel _ _
    · exact Txn.congruent_throw _
  · exact Txn.congruent_throw _

variable (c : Codec)

/-- A command with all its scripts, by induction on the fuel, does the same to both. -/
theorem applyCmdInTxn_seesLive (fuel : Nat) {envs : List Nat → Env}
    (ht : ∀ path, t ≤ (envs path).clock.now) (cmd : Command) :
    SeesLive t (applyCmdInTxn vm c fuel envs cmd) := by
  induction fuel generalizing envs cmd with
  | zero =>
    unfold applyCmdInTxn
    split_ifs
    · exact Txn.congruent_throw _
    · exact applyData_seesLive c (ht []) cmd
  | succ fuel ih =>
    unfold applyCmdInTxn
    split_ifs
    · exact handleLuaCommand_seesLive vm (ht []) (fun n => ht [n])
        (fun n cmd => ih (fun path => ht (n :: path)) cmd) fuel cmd
    · exact applyData_seesLive c (ht []) cmd

end Scripts

/-! ## Runs of a node -/

section Runs

variable (vm : LuaVM) (c : Codec) (lc : LogCodec)

/-- Badger takes or refuses the same writes, and they leave the databases alike. -/
theorem sameLive_update {db db' : DB} (h : DB.SameLive t db db') (lim : TxnLimit)
    (ws : List (Bytes × Option Bytes)) :
    (lim.update ws db = none ∧ lim.update ws db' = none) ∨
      ∃ d d', lim.update ws db = some d ∧ lim.update ws db' = some d' ∧ DB.SameLive t d d' := by
  have hwrite : ∀ (w : Bytes × Option Bytes) (db db' : DB), DB.SameLive t db db' →
      DB.SameLive t (db.write w) (db'.write w) := by
    rintro ⟨key, _ | val⟩ db db' h
    · exact h.erase key
    · exact h.insert key _
  rw [update_eq, update_eq]
  split_ifs
  · exact .inr ⟨_, _, rfl, rfl, h.foldl hwrite ws⟩
  · exact .inl ⟨rfl, rfl⟩

/-- The loop of `DeleteRange` deletes by index and fails by the limit, whatever is there. -/
theorem sameLive_deleteLoop {db db' : DB} (h : DB.SameLive t db db') (lim : TxnLimit)
    (count size : Nat) (i max : UInt64) :
    (∃ e, deleteLoop lim count size i max db = .error e ∧
      deleteLoop lim count size i max db' = .error e) ∨
      ∃ d d', deleteLoop lim count size i max db = .ok d ∧
        deleteLoop lim count size i max db' = .ok d' ∧
        DB.SameLive t d d' := by
  induction count generalizing size i db db' with
  | zero =>
    unfold deleteLoop
    split_ifs
    · exact .inl ⟨_, rfl, rfl⟩
    · exact .inr ⟨db, db', rfl, rfl, h⟩
  | succ count ih =>
    unfold deleteLoop
    split_ifs
    · exact ih (h.erase _) _ (i + 1)
    · exact .inl ⟨_, rfl, rfl⟩
    · exact .inr ⟨db, db', rfl, rfl, h⟩

/-- Every event does the same to databases with the same visible entries, and they stay alike. -/
theorem NodeEvent.sameLive {e : NodeEvent} (he : e.notBefore t) {db db' : DB}
    (h : DB.SameLive t db db') :
    e.reply vm c db = e.reply vm c db' ∧
      DB.SameLive (e.lastCompaction t) (e.run vm c lc db) (e.run vm c lc db') := by
  cases e with
  | step s =>
    cases s with
    | apply fuel envs cmd =>
      obtain ⟨hr, hdb⟩ := (applyCmdInTxn_seesLive vm c fuel he cmd).atomically h
      exact ⟨congrArg (fun r => [r]) hr, hdb⟩
    | storeLogs lim logs =>
      refine ⟨rfl, ?_⟩
      show DB.SameLive t (Badis.storeLogs lim lc logs db).2 (Badis.storeLogs lim lc logs db').2
      unfold Badis.storeLogs
      cases encodeLogs lc logs with
      | error e => exact h
      | ok data =>
        dsimp only
        rcases sameLive_update h lim (data.map fun d => (d.1, some d.2)) with
          ⟨hnone, hnone'⟩ | ⟨d, d', hsome, hsome', hd⟩
        · rw [hnone, hnone']
          exact h
        · rw [hsome, hsome']
          exact hd
    | deleteRange lim min max =>
      refine ⟨rfl, ?_⟩
      show DB.SameLive t (Badis.deleteRange lim min max db).2 (Badis.deleteRange lim min max db').2
      unfold Badis.deleteRange
      rcases sameLive_deleteLoop h lim lim.writes lim.bytes min max with
        ⟨e, herr, herr'⟩ | ⟨d, d', hok, hok', hd⟩
      · rw [herr, herr']
        exact h
      · rw [hok, hok']
        exact hd
    | set name val => exact ⟨rfl, h.insert _ _⟩
  | restore stream =>
    refine ⟨rfl, ?_⟩
    exact h.foldl (f := fun (db : DB) (e : Bytes × Entry) => db.insert e.1 e.2) (fun _ _ _ h =>
      h.insert _ _) stream
  | compact t' keep =>
    refine ⟨rfl, ?_⟩
    have hkeep := DB.SameLive.compact t' keep db
    have hkeep' := DB.SameLive.compact t' keep db'
    exact hkeep.trans ((h.mono he).trans hkeep'.symm)

/-- Nodes whose databases have the same visible entries behave alike from then on. -/
theorem nodeRun_sameLive {events : List NodeEvent} (he : InOrder t events) {db db' : DB}
    (h : DB.SameLive t db db') :
    nodeReplies vm c lc events db = nodeReplies vm c lc events db' ∧
      DB.SameLive (lastCompaction t events) (nodeRun vm c lc events db)
        (nodeRun vm c lc events db') := by
  induction events generalizing t db db' with
  | nil => exact ⟨rfl, h⟩
  | cons e rest ih =>
    obtain ⟨hreply, hdb⟩ := NodeEvent.sameLive vm c lc he.1 h
    obtain ⟨hreplies, hrun⟩ := ih he.2 hdb
    exact ⟨by rw [nodeReplies, nodeReplies, hreply, hreplies], hrun⟩

/-- Compactions can be left out of a run: the replies are the same, and what is live in the end. -/
theorem nodeRun_filter_visible {events : List NodeEvent} (he : InOrder t events) {db db' : DB}
    (h : DB.SameLive t db db') :
    nodeReplies vm c lc events db = nodeReplies vm c lc (events.filter NodeEvent.visible) db' ∧
      DB.SameLive (lastCompaction t events) (nodeRun vm c lc events db)
        (nodeRun vm c lc (events.filter NodeEvent.visible) db') := by
  induction events generalizing t db db' with
  | nil => exact ⟨rfl, h⟩
  | cons e rest ih =>
    by_cases hvisible : e.visible = true
    · obtain ⟨hreply, hdb⟩ := NodeEvent.sameLive vm c lc he.1 h
      obtain ⟨hreplies, hrun⟩ := ih he.2 hdb
      rw [List.filter_cons_of_pos hvisible]
      exact ⟨by rw [nodeReplies, nodeReplies, hreply, hreplies], hrun⟩
    · rw [List.filter_cons_of_neg hvisible]
      cases e with
      | step s => exact absurd rfl hvisible
      | restore stream => exact absurd rfl hvisible
      | compact t' keep => exact ih he.2 ((DB.SameLive.compact t' keep db).trans (h.mono he.1))

/-- Compactions cannot be observed: in any run in which the clock does not go back behind a
compaction, every command returns what it returns in the run without the compactions, and from the
last compaction on the same entries are visible. -/
theorem compaction_unobservable {events : List NodeEvent} (he : InOrder t events) (db : DB) :
    nodeReplies vm c lc events db = nodeReplies vm c lc (events.filter NodeEvent.visible) db ∧
      ∀ t' ≥ lastCompaction t events, (nodeRun vm c lc events db).liveEntries t' =
        (nodeRun vm c lc (events.filter NodeEvent.visible) db).liveEntries t' := by
  obtain ⟨hreplies, hdb⟩ := nodeRun_filter_visible vm c lc he (DB.SameLive.refl t db)
  exact ⟨hreplies, fun t' ht => (hdb.mono ht).liveEntries_eq⟩

/-- A key expires and is dropped before it is appended to: the reply is the length of what is
appended. -/
theorem compaction_before_append :
    let events : List NodeEvent := [
      .step (.apply 0 (fun _ => Env.at 1000000000000)
        { op := .set, key := [107], args := [[118]], ttlMs := 1000 }),
      .compact 1001000000000 fun _ => false,
      .step
        (.apply 0 (fun _ => Env.at 1002000000000) { op := .append, key := [107], args := [[120]] })]
    let lc : LogCodec := ⟨fun _ => none, fun _ => none⟩
    (nodeRun noScripts msgpack lc (events.take 2) OrdMap.empty) = OrdMap.empty ∧
      nodeReplies noScripts msgpack lc events OrdMap.empty =
        nodeReplies noScripts msgpack lc (events.filter NodeEvent.visible) OrdMap.empty := by
  intro events lc
  have hfirst : nodeRun noScripts msgpack lc (events.take 2) OrdMap.empty =
    OrdMap.empty := by decide +kernel
  have horder : InOrder 0 events :=
    ⟨fun _ => Nat.zero_le _, Nat.zero_le _, fun _ =>
      (by decide : 1001000000000 ≤ 1002000000000), trivial⟩
  exact ⟨hfirst, (compaction_unobservable noScripts msgpack lc horder OrdMap.empty).1⟩

/-- The database without its user and type entries. -/
def DB.withoutKeys (db : DB) : DB :=
  db.filter fun e => !(([75] : Bytes).isPrefixOf e.1 || ([84] : Bytes).isPrefixOf e.1)

theorem slot_withoutKeys (db : DB) (k : Bytes) : Slot.of db.withoutKeys k = ⟨none, none⟩ := by
  unfold Slot.of DB.withoutKeys
  rw [OrdMap.get?_filter, OrdMap.get?_filter]
  simp [userKey, typeKey]

/-- What is not an entry of a key stays. -/
theorem get?_withoutKeys {db : DB} {raw : Bytes} (hu : ∀ k, raw ≠ userKey k)
    (ht : ∀ k, raw ≠ typeKey k) :
    db.withoutKeys.get? raw = db.get? raw := by
  have hkeep : (!(([75] : Bytes).isPrefixOf raw || ([84] : Bytes).isPrefixOf raw)) = true := by
    cases raw with
    | nil => rfl
    | cons b k =>
      have hb : ¬ 75 = b := fun hb => hu k (by rw [← hb]; rfl)
      have hb' : ¬ 84 = b := fun hb => ht k (by rw [← hb]; rfl)
      simp [List.isPrefixOf, hb, hb']
  unfold DB.withoutKeys
  rw [OrdMap.get?_filter]
  cases db.get? raw with
  | none => rfl
  | some e => simp only [Option.filter, hkeep, if_true]

/-- After FLUSHDB the entries of the keys have been deleted or have expired. -/
theorem sameLive_flushdb (fuel : Nat) (envs : List Nat → Env) {cmd : Command}
    (hop : cmd.op = .flushdb) (db : DB) :
    DB.SameLive (envs []).clock.now (fsmApply vm c fuel envs cmd db).2 db.withoutKeys := by
  have hscript : cmd.op.script = false := by rw [hop]; rfl
  rw [fsmApply_of_not_script vm c hscript]
  refine DB.sameLive_of_slots (fun k => ?_) fun raw hu ht => ?_
  · have hact : keyAct (envs []) cmd k (DB.view c (envs []).clock.now db k) = .flush := by
      unfold keyAct
      rw [hop]
    have hdead : ∀ o : Option Entry, (o.filter fun e => !e.live (envs []).clock.now).filter
        (Entry.live (envs []).clock.now) = none := by
      intro o
      rw [Option.filter_eq_none_iff]
      intro e he
      have hnot := (Option.filter_eq_some_iff.mp he).2
      simpa using hnot
    rw [slot_applyCmd, hact, slot_withoutKeys]
    exact ⟨hdead _, hdead _⟩
  · unfold DB.getLive
    rw [applyCmd_frame c (envs []) cmd db raw hu ht, get?_withoutKeys hu ht]

/-- The second pass of FLUSHDB finds the type entries that were there before the first, so that the
deletions are those of the database as it was. -/
theorem fsmApply_flushdb (fuel : Nat) (envs : List Nat → Env) {cmd : Command}
    (hop : cmd.op = .flushdb) (db : DB) :
    fsmApply vm c fuel envs cmd db =
      (.ok (.str (ascii "OK")), (flushDeletions (envs []).clock.now db).foldl DB.write db) := by
  have hscript : cmd.op.script = false := by rw [hop]; rfl
  let first : DB := (db.scanPrefix (envs []).clock.now [75]).foldl (fun db e => db.erase e.1) db
  have hsecond : first.scanPrefix (envs []).clock.now [84] =
      db.scanPrefix (envs []).clock.now [84] := by
    refine scanPrefix_congr (fun key hkey => ?_) _
    have hnot : ¬ [75] <+: key := by
      obtain ⟨rest, rfl⟩ := hkey
      rintro ⟨rest', hrest⟩
      cases hrest
    rw [get?_flushPrefix, if_neg hnot]
  have hrun : applyCmd c (envs []) cmd db = (.ok (.str (ascii "OK")),
      (first.scanPrefix (envs []).clock.now [84]).foldl (fun db e => db.erase e.1) first) := by
    unfold applyCmd applyData
    rw [hop]
    rfl
  rw [fsmApply_of_not_script vm c hscript, hrun, hsecond, flushDeletions, List.foldl_map,
    List.foldl_append]
  rfl

/-- After a FLUSHDB whose deletions fit into one transaction, whatever happens later, a node behaves
like one that never had any keys. -/
theorem flushdb_forgets (lim : TxnLimit) (fuel : Nat) (envs : List Nat → Env) {cmd : Command}
    (hop : cmd.op = .flushdb) (db : DB)
    (hfits : lim.fits (flushDeletions (envs []).clock.now db) = true) {events : List NodeEvent}
    (he : InOrder (envs []).clock.now events) :
    ∃ flushed, lim.update (flushDeletions (envs []).clock.now db) db = some flushed ∧
      fsmApply vm c fuel envs cmd db = (.ok (.str (ascii "OK")), flushed) ∧
      nodeReplies vm c lc events flushed = nodeReplies vm c lc events db.withoutKeys ∧
      ∀ t ≥ lastCompaction (envs []).clock.now events,
        (nodeRun vm c lc events flushed).liveEntries t =
        (nodeRun vm c lc events db.withoutKeys).liveEntries t := by
  have hrun := fsmApply_flushdb vm c fuel envs hop db
  have hsame := sameLive_flushdb vm c fuel envs hop db
  rw [hrun] at hsame
  obtain ⟨hreplies, hdb⟩ := nodeRun_sameLive vm c lc he hsame
  refine ⟨_, ?_, hrun, hreplies, fun t ht => (hdb.mono ht).liveEntries_eq⟩
  rw [update_eq, if_pos hfits]

/-- Of two keys, the one that has expired before FLUSHDB is not deleted by it, and yet both are
gone. -/
theorem flushdb_forgets_expired :
    let stored : DB :=
      (OrdMap.empty.insert (userKey [107]) ⟨[118], 1000⟩).insert (userKey [108]) ⟨[118], 0⟩
    let flushdb : Command := { op := .flushdb }
    let events : List NodeEvent :=
      [.step
        (.apply 0 (fun _ => Env.at 1002000000000) { op := .append, key := [107], args := [[120]] }),
          .step (.apply 0 (fun _ => Env.at 1002000000000)
            { op := .append, key := [108], args := [[120]] })]
    let lc : LogCodec := ⟨fun _ => none, fun _ => none⟩
    ∃ flushed, fsmApply noScripts msgpack 0 (fun _ => Env.at 1001000000000) flushdb stored =
        (.ok (.str (ascii "OK")), flushed) ∧
      nodeReplies noScripts msgpack lc events flushed =
        nodeReplies noScripts msgpack lc events stored.withoutKeys := by
  intro stored flushdb events lc
  have hop : flushdb.op = .flushdb := rfl
  have hfits : TxnLimit.default.fits (flushDeletions (Env.at 1001000000000).clock.now stored) =
      true := by
    decide +kernel
  have horder : InOrder (Env.at 1001000000000).clock.now events :=
    ⟨fun _ => (by decide : 1001000000000 ≤ 1002000000000),
      fun _ => (by decide : 1001000000000 ≤ 1002000000000), trivial⟩
  obtain ⟨flushed, -, hrun, hreplies, -⟩ := flushdb_forgets noScripts msgpack lc TxnLimit.default 0
    (fun _ => Env.at 1001000000000) hop stored hfits horder
  exact ⟨flushed, hrun, hreplies⟩

end Runs

end Badis
