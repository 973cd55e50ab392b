import Badis.Store.Snapshot
import Badis.Store.Encoding
import Badis.Store.Proofs.BadgerProofs
import Badis.Store.Proofs.RestartProofs

/-!
# What a snapshot restores

A restored database holds what the stream brings, and under every other key what it held before
(`get?_restore`). Two things follow. A snapshot that was persisted after more of the log had been
applied than its label says makes the entries in between run twice (`snapshot_of_one_point`). And a
restore into a database that is not empty mixes the two (`restore_replaces_iff`).
-/

namespace Badis

open Lib

/-! ## Loading a stream -/

/-- A restored entry is that of the stream, or that of the target where the stream has none. -/
theorem get?_restore (t : Nat) (src db : DB) (key : Bytes) :
    (restore (persist t src) db).get? key = (src.getLive t key <|> db.get? key) := by
  have hnot : key ∉ (src.liveEntries t).map Prod.fst ↔ src.getLive t key = none := by
    rw [Option.eq_none_iff_forall_ne_some]
    constructor
    · intro h e he
      exact h (List.mem_map.mpr ⟨(key, e), mem_liveEntries.mpr he, rfl⟩)
    · intro h hmem
      obtain ⟨⟨key', e⟩, he, rfl⟩ := List.mem_map.mp hmem
      exact h e (mem_liveEntries.mp he)
  apply Option.ext
  intro e
  refine (OrdMap.get?_foldl_insert (nodup_liveEntries t src) db).trans ?_
  rw [hnot, mem_liveEntries]
  cases hsrc : src.getLive t key with
  | none => simp
  | some e' => simp

/-! ## A snapshot that is persisted late -/

/-- A snapshot labelled `i` and persisted after `j` commands is right about `k`: the commands after
`i` reset it; or those from `i` to `j` can be replayed, and nothing is popped from it afterwards. -/
def snapshotSafe (k : Bytes) (log : List Command) (i j : Nat) : Bool :=
  resetSafe k (log.drop i) ||
    (replaySafe k ((log.take j).drop i) && (log.drop j).foldl (Command.known k) true)

/-- Data without expiries is restored into an empty database as it was. -/
theorem restore_permanent {c : Codec} {t : Nat} {db : DB} (hdb : db.Permanent) :
    (restore (persist t db) OrdMap.empty).Permanent ∧
      ∀ t' k, DB.view c t' (restore (persist t db) OrdMap.empty) k = DB.view c t' db k := by
  have hslot : ∀ k, Slot.of (restore (persist t db) OrdMap.empty) k = Slot.of db k := by
    intro k
    have hu : db.getLive t (userKey k) = db.get? (userKey k) :=
      filter_live_of_no_expiry (hdb k).1 t
    have ht : db.getLive t (typeKey k) = db.get? (typeKey k) :=
      filter_live_of_no_expiry (hdb k).2 t
    have hempty : ∀ key, (OrdMap.empty : DB).get? key = none := fun key => rfl
    simp only [Slot.of, get?_restore, hu, ht, hempty]
    simp
  constructor
  · intro k
    rw [hslot]
    exact hdb k
  · intro t' k
    rw [DB.view, DB.view, hslot]

/-- The commands `gap` that a restored node runs a second time, and the commands `rest` after
them. -/
theorem viewRun_late {k : Bytes} {gap rest replay : List Step} {x : View} (hx : x.plain = true)
    (hgap : ∀ s ∈ gap, s.2.plain = true) (hrest : ∀ s ∈ rest, s.2.plain = true)
    (hlog : replay.map Prod.snd = gap.map Prod.snd ++ rest.map Prod.snd)
    (hsafe : resetSafe k (gap.map Prod.snd ++ rest.map Prod.snd) = true ∨
      replaySafe k (gap.map Prod.snd) = true ∧
        (rest.map Prod.snd).foldl (Command.known k) true = true) :
    viewRun k replay (viewRun k gap x) = viewRun k (gap ++ rest) x := by
  have hx' : View.timeless (viewRun k gap x) = true := View.plain.timeless (viewRun_plain hgap hx)
  rcases hsafe with hreset | ⟨hreplay, hknown⟩
  · have hplain : ∀ s ∈ gap ++ rest, s.2.plain = true := fun s hs =>
      (List.mem_append.mp hs).elim (hgap s) (hrest s)
    have hlog' : (gap ++ rest).map Prod.snd = replay.map Prod.snd := by
      rw [List.map_append, hlog]
    rw [← List.map_append] at hreset
    have hfalse : false = true → x = viewRun k gap x := fun h => by cases h
    exact (viewRun_eq hlog' hplain (View.plain.timeless hx) hx' hfalse hreset).symm
  · obtain ⟨gap', rest', rfl, hgap', hrest'⟩ := List.map_eq_append_iff.mp hlog
    have hplain' : ∀ s ∈ rest, s.2.plain = true := hrest
    rw [viewRun_append, viewRun_append, viewRun_replay hgap'.symm hgap hx hreplay]
    exact (viewRun_eq hrest'.symm hplain' hx' hx' (fun _ => rfl) hknown).symm

theorem drop_eq_drop_take_append {α : Type} {i j : Nat} (h : i ≤ j) (l : List α) :
    l.drop i = (l.take j).drop i ++ l.drop j := by
  have hrest : l.drop j = (l.drop i).drop (j - i) := by
    rw [List.drop_drop, Nat.add_sub_cancel' h]
  rw [List.drop_take, hrest, List.take_append_drop]

/-- A node restored from a snapshot labelled `i` that was persisted at `j ≥ i`, which then applies
the commands after `i`, agrees with the node that made the snapshot on every key for which the
snapshot is safe. -/
theorem snapshot_of_one_point {c : Codec} (hc : c.Lawful) (steps : List Step)
    (hplain : ∀ s ∈ steps, s.2.plain = true) (i j t : Nat) (hij : i ≤ j) (replay : List Step)
    (hreplay : replay.map Prod.snd = (steps.map Prod.snd).drop (takeSnapshot c steps i j t).index)
    (k : Bytes) (hsafe : snapshotSafe k (steps.map Prod.snd) i j = true) (t' : Nat) :
    DB.view c t' (applyLog c replay
        (restore (takeSnapshot c steps i j t).stream OrdMap.empty)).2 k =
      DB.view c t' (applyLog c steps OrdMap.empty).2 k := by
  have hempty : DB.Permanent OrdMap.empty := (Node.Replayed.fresh c).permanent
  have hnone : DB.view c t' OrdMap.empty k = none := rfl
  have htake : ∀ n, ∀ s ∈ steps.take n, s.2.plain = true := fun n s hs =>
    hplain s (List.mem_of_mem_take hs)
  have hgap : ∀ s ∈ (steps.take j).drop i, s.2.plain = true := fun s hs =>
    htake j s (List.mem_of_mem_drop hs)
  have hrest : ∀ s ∈ steps.drop j, s.2.plain = true := fun s hs =>
    hplain s (List.mem_of_mem_drop hs)
  have hsplit := drop_eq_drop_take_append hij (steps.map Prod.snd)
  have hlog : replay.map Prod.snd =
      ((steps.take j).drop i).map Prod.snd ++ (steps.drop j).map Prod.snd := by
    rw [hreplay, List.map_drop, List.map_take, List.map_drop]
    exact hsplit
  have hplainR : ∀ s ∈ replay, s.2.plain = true := by
    intro s hs
    have hmem : s.2 ∈ (steps.map Prod.snd).drop i := hreplay ▸ List.mem_map_of_mem hs
    obtain ⟨s', hs', heq⟩ := List.mem_map.mp (List.mem_of_mem_drop hmem)
    rw [← heq]
    exact hplain s' hs'
  -- the key at the point where the snapshot is persisted, and at the point of its label
  obtain ⟨hperm, hview⟩ := view_applyLog hc k (htake j) hempty
  obtain ⟨hpermR, hviewR⟩ := restore_permanent (c := c) (t := t) hperm
  have hx : (viewRun k (steps.take i) none).plain = true := viewRun_plain (htake i) rfl
  have hpersisted : viewRun k (steps.take j) none =
      viewRun k ((steps.take j).drop i) (viewRun k (steps.take i) none) := by
    have happend := List.take_append_drop i (steps.take j)
    rw [List.take_take, Nat.min_eq_left hij] at happend
    rw [← viewRun_append, happend]
  have hwhole : viewRun k steps none =
      viewRun k ((steps.take j).drop i ++ steps.drop j) (viewRun k (steps.take i) none) := by
    rw [← drop_eq_drop_take_append hij, ← viewRun_append, List.take_append_drop]
  have hsafe' : resetSafe k (((steps.take j).drop i).map Prod.snd ++ (steps.drop j).map Prod.snd) =
    true ∨
      replaySafe k (((steps.take j).drop i).map Prod.snd) = true ∧
        ((steps.drop j).map Prod.snd).foldl (Command.known k) true = true := by
    simp only [List.map_drop, List.map_take, ← hsplit]
    simpa [snapshotSafe] using hsafe
  calc DB.view c t' (applyLog c replay
        (restore (takeSnapshot c steps i j t).stream OrdMap.empty)).2 k
      = viewRun k replay (viewRun k (steps.take j) none) := by
        refine ((view_applyLog hc k hplainR hpermR).2 t').trans ?_
        rw [hviewR, hview, hnone]
    _ = viewRun k steps none := by
        rw [hpersisted, hwhole]
        exact viewRun_late hx hgap hrest hlog hsafe'
    _ = DB.view c t' (applyLog c steps OrdMap.empty).2 k := by
        rw [(view_applyLog hc k hplain hempty).2 t', hnone]

/-- A counter incremented once before and once after the snapshot was asked for. -/
def lateSnapshot : List Step :=
  [(Env.at 1000000000000, ⟨.incr, [110], [], 0, .always, false⟩),
   (Env.at 1000000000000, ⟨.incr, [110], [], 0, .always, false⟩)]

/-- The counter holds 2 on the node that made the snapshot, and 3 on the one restored from it. -/
theorem lateSnapshot_counts_twice :
    (∀ s ∈ lateSnapshot, s.2.plain = true) ∧
    DB.view msgpack 1000000000000 (applyLog msgpack lateSnapshot OrdMap.empty).2 [110] =
      some (.string [50], 0) ∧
    DB.view msgpack 1000000000000 (applyLog msgpack (lateSnapshot.drop 1)
        (restore (takeSnapshot msgpack lateSnapshot 1 2 1000000000000).stream OrdMap.empty)).2
          [110] =
      some (.string [51], 0) := by
  decide

/-- A counter before the snapshot was asked for, a hash after it, and the counter again after it was
persisted. -/
def mixedSnapshot : List Step :=
  [(Env.at 1000000000000, ⟨.incr, [110], [], 0, .always, false⟩),
   (Env.at 1000000000000, ⟨.hset, [104], [[97], [49]], 0, .always, false⟩),
   (Env.at 1000000000000, ⟨.incr, [110], [], 0, .always, false⟩)]

theorem mixedSnapshot_restores :
    DB.view msgpack 1000000000000 (applyLog msgpack (mixedSnapshot.drop 1)
        (restore (takeSnapshot msgpack mixedSnapshot 1 2 1000000000000).stream OrdMap.empty)).2
          [110] =
      DB.view msgpack 1000000000000 (applyLog msgpack mixedSnapshot OrdMap.empty).2 [110] :=
  snapshot_of_one_point msgpack_lawful mixedSnapshot (by decide) 1 2 1000000000000 (by decide)
    (mixedSnapshot.drop 1) rfl [110] (by decide) 1000000000000

/-! ## A restore over other data -/

/-- Two databases hold the same user data and scripts from the clock reading `t` on. -/
def SameUserState (t : Nat) (db db' : DB) : Prop :=
  ∀ t', t ≤ t' → (∀ k, db'.item t' k = db.item t' k) ∧
    ∀ sha, db'.registered t' sha = db.registered t' sha

/-- What `target` holds at `t'` is covered by what `src` held at `t`: no key and no script of the
target is missing in the source, and where the source has a key without a type entry the target has
no type entry that says anything but string. -/
structure Covers (t t' : Nat) (src target : DB) : Prop where
  user : ∀ k, (target.getLive t' (userKey k)).isSome → (src.getLive t (userKey k)).isSome
  type : ∀ k, (src.getLive t' (userKey k)).isSome → src.getLive t (typeKey k) = none →
    ∀ te ∈ target.getLive t' (typeKey k), te.value = typeString
  script : ∀ sha, (target.registered t' sha).isSome → (src.registered t sha).isSome

theorem getLive_restore_of_some {t t' : Nat} (h : t ≤ t') {src : DB} (target : DB) {key : Bytes}
    {e : Entry} (he : src.getLive t key = some e) :
    (restore (persist t src) target).getLive t' key = src.getLive t' key := by
  rw [← filter_getLive h src, he, DB.getLive, get?_restore, he]
  rfl

theorem getLive_restore_of_none {t : Nat} (t' : Nat) {src : DB} (target : DB) {key : Bytes}
    (hnone : src.getLive t key = none) :
    (restore (persist t src) target).getLive t' key = target.getLive t' key := by
  rw [DB.getLive, get?_restore, hnone]
  rfl

theorem typ_eq_getLive (t : Nat) (db : DB) (k : Bytes) :
    (Slot.of db k).typ t = ((db.getLive t (typeKey k)).map Entry.value).getD typeString := by
  unfold Slot.typ Slot.of DB.getLive
  cases (db.get? (typeKey k)).filter (Entry.live t) <;> rfl

section Restore

variable {t t' : Nat} {src target : DB}

theorem item_restore_of_covers (h : t ≤ t') (hcov : Covers t t' src target) {t'' : Nat}
    (ht : t' ≤ t'') (k : Bytes) :
    (restore (persist t src) target).item t'' k = src.item t'' k := by
  have htt : t ≤ t'' := h.trans ht
  unfold DB.item
  cases huser : src.getLive t (userKey k) with
  | none =>
    -- a key the source does not have: the target does not have it either
    have htarget : target.getLive t' (userKey k) = none := by
      by_contra hne
      have hsome := hcov.user k (Option.isSome_iff_ne_none.mpr hne)
      rw [huser] at hsome
      cases hsome
    rw [getLive_restore_of_none t'' target huser, getLive_none_mono ht htarget,
      getLive_none_mono htt huser]
    rfl
  | some e =>
    rw [getLive_restore_of_some htt target huser]
    cases hlive : src.getLive t'' (userKey k) with
    | none => rfl
    | some e' =>
      have htyp : (Slot.of (restore (persist t src) target) k).typ t'' =
          (Slot.of src k).typ t'' := by
        rw [typ_eq_getLive, typ_eq_getLive]
        cases htype : src.getLive t (typeKey k) with
        | some te => rw [getLive_restore_of_some htt target htype]
        | none =>
          -- a string without a type entry: one of the target must not turn it into something else
          rw [getLive_restore_of_none t'' target htype, getLive_none_mono htt htype]
          cases hte : target.getLive t'' (typeKey k) with
          | none => rfl
          | some te =>
            have hsome : (src.getLive t' (userKey k)).isSome := by
              rw [getLive_mono ht hlive]
              rfl
            have hval := hcov.type k hsome htype te (getLive_mono ht hte)
            simp [hval]
      rw [Option.map_some, Option.map_some, htyp]

theorem registered_restore_of_covers (h : t ≤ t') (hcov : Covers t t' src target) {t'' : Nat}
    (ht : t' ≤ t'') (sha : Bytes) :
    (restore (persist t src) target).registered t'' sha = src.registered t'' sha := by
  have htt : t ≤ t'' := h.trans ht
  unfold DB.registered
  cases hreg : src.getLive t (getScriptKey sha) with
  | some e => rw [getLive_restore_of_some htt target hreg]
  | none =>
    have htarget : target.getLive t' (getScriptKey sha) = none := by
      by_contra hne
      have hsome := hcov.script sha (Option.isSome_iff_ne_none.mpr hne)
      unfold DB.registered at hsome
      rw [hreg] at hsome
      cases hsome
    rw [getLive_restore_of_none t'' target hreg, getLive_none_mono ht htarget,
      getLive_none_mono htt hreg]

theorem covers_of_same (h : t ≤ t')
    (hsame : SameUserState t' src (restore (persist t src) target)) : Covers t t' src target := by
  obtain ⟨hitem, hreg⟩ := hsame t' le_rfl
  refine ⟨fun k huser => ?_, fun k huser htype te hte => ?_, fun sha hscript => ?_⟩
  · by_contra hnone
    rw [Option.isSome_iff_ne_none, not_not] at hnone
    have hk := congrArg Option.isSome (hitem k)
    unfold DB.item at hk
    rw [getLive_restore_of_none t' target hnone, getLive_none_mono h hnone, Option.isSome_map,
      huser] at hk
    cases hk
  · obtain ⟨e, he⟩ := Option.isSome_iff_exists.mp huser
    have hk := hitem k
    unfold DB.item at hk
    rw [getLive_restore_of_some h target (getLive_mono h he), he, Option.map_some,
      Option.map_some] at hk
    have htyp := congrArg Prod.snd (Option.some.inj hk)
    simp only at htyp
    rw [typ_eq_getLive, typ_eq_getLive, getLive_restore_of_none t' target htype,
      getLive_none_mono h htype, hte] at htyp
    exact htyp
  · by_contra hnone
    rw [Option.isSome_iff_ne_none, not_not] at hnone
    have hk := congrArg Option.isSome (hreg sha)
    unfold DB.registered at hk hnone hscript
    rw [getLive_restore_of_none t' target hnone, getLive_none_mono h hnone, hscript] at hk
    cases hk

end Restore

/-- A restore at `t'` of a stream persisted at `t` leaves the target with the user data and the
scripts of the source exactly when the source covers what the target held. -/
theorem restore_replaces_iff (t t' : Nat) (h : t ≤ t') (src target : DB) :
    SameUserState t' src (restore (persist t src) target) ↔ Covers t t' src target := by
  constructor
  · exact covers_of_same h
  · intro hcov t'' ht
    exact ⟨item_restore_of_covers h hcov ht, registered_restore_of_covers h hcov ht⟩

/-- A node with one key. -/
def oneKey (k v : Bytes) : DB :=
  (applyLog msgpack [(Env.at 1000000000000, ⟨.set, k, [v], 0, .always, false⟩)] OrdMap.empty).2

/-- A key of the target that the source does not have is still there after the restore. -/
theorem restored_key_remains :
    (oneKey [97] [49]).item 1000000000000 [98] = none ∧
    (restore (persist 1000000000000 (oneKey [97] [49])) (oneKey [98] [50])).item 1000000000000
      [98] =
      some (⟨[50], 0⟩, typeString) := by
  decide

theorem getLive_oneKey {t : Nat} {k v key : Bytes} (h : ((oneKey k v).getLive t key).isSome) :
    key = userKey k ∨ key = typeKey k := by
  have hget : ((oneKey k v).get? key).isSome := Option.isSome_of_isSome_filter _ _ h
  have hrun :
    oneKey k v = (OrdMap.empty.insert (userKey k) ⟨v, 0⟩).insert (typeKey k) ⟨typeString, 0⟩ := rfl
  rw [hrun, OrdMap.get?_insert, OrdMap.get?_insert] at hget
  split_ifs at hget with htype huser
  · exact .inr htype.symm
  · exact .inl huser.symm
  · cases hget

/-- A node with two keys. -/
def twoKeys : DB :=
  (applyLog msgpack [(Env.at 1000000000000, ⟨.set, [97], [[49]], 0, .always, false⟩),
    (Env.at 1000000000000, ⟨.rpush, [98], [[50]], 0, .always, false⟩)] OrdMap.empty).2

/-- The target has an older value of a key that the source has too. -/
theorem restored_over_older_value :
    twoKeys.item 1000000000000 [97] ≠ (oneKey [97] [48]).item 1000000000000 [97] ∧
      SameUserState 1000000000000 twoKeys
        (restore (persist 1000000000000 twoKeys) (oneKey [97] [48])) := by
  refine ⟨by decide, (restore_replaces_iff 1000000000000 1000000000000 le_rfl _ _).mpr ⟨?_, ?_, ?_⟩⟩
  · intro k h
    obtain h | h := getLive_oneKey h
    · obtain rfl : k = [97] := (List.cons.inj h).2
      decide
    · cases h
  · intro k _ hnone te hte
    obtain h | h := getLive_oneKey (Option.isSome_of_mem hte)
    · cases h
    · obtain rfl : k = [97] := (List.cons.inj h).2
      cases hnone
  · intro sha h
    obtain h | h := getLive_oneKey h
    · cases h
    · cases h

end Badis
