import Badis.Server.HashSpec
import Badis.Server.Proofs.SessionProofs
import Badis.Store.Proofs.ReadsProofs

/-!
# Proofs: the hash commands refine finite maps

The loops of HSET and HDEL count what the finite maps count (`hsetLoop_eq`, `hdelLoop_eq`). From
there each write goes by its plan, each read by what the store shows, and runs follow
(`hashes_refine`).
-/

namespace Badis

open Lib

/-! ## The loops -/

/-- The loop of HSET binds the fields in order and counts those that are new. -/
theorem hsetLoop_eq (pairs : List (Bytes × Bytes)) (g : GoMap) (n : Nat) :
    hsetLoop false (flatPairs pairs) g n =
      (pairs.foldl (fun g p => g.insert p.1 p.2) g,
        n + ((pairs.map Prod.fst).toFinset \ g.toFinmap.keys).card) := by
  induction pairs generalizing g n with
  | nil => simp [hsetLoop, flatPairs]
  | cons p pairs ih =>
    show hsetLoop false (flatPairs pairs) (g.insert p.1 p.2) (if g.contains p.1 then n else n + 1) =
      _
    rw [ih, OrdMap.keys_insert, List.map_cons, List.toFinset_cons, card_insert_sdiff,
      List.foldl_cons]
    by_cases hp : g.contains p.1 = true
    · rw [if_pos hp, if_pos ((g.contains_iff_mem_keys _).mp hp), Nat.zero_add]
    · rw [if_neg hp, if_neg fun h => hp ((g.contains_iff_mem_keys _).mpr h), Nat.add_assoc]

/-- The loop of HDEL removes the fields and counts those that were there. -/
theorem hdelLoop_eq (fields : List Bytes) (g : GoMap) (n : Nat) :
    hdelLoop fields g n =
      (fields.foldl (fun g f => g.erase f) g, n + (fields.toFinset ∩ g.toFinmap.keys).card) :=
  OrdMap.eraseLoop_eq (fun _ _ => rfl) (fun _ _ _ _ => rfl) fields g n

theorem toFinmap_foldl_insert (pairs : List (Bytes × Bytes)) (g : GoMap) :
    (pairs.foldl (fun g p => g.insert p.1 p.2) g).toFinmap =
      pairs.foldl (fun h p => h.insert p.1 p.2) g.toFinmap := by
  induction pairs generalizing g with
  | nil => rfl
  | cons p pairs ih => rw [List.foldl_cons, List.foldl_cons, ih, OrdMap.toFinmap_insert]

theorem toFinmap_foldl_erase (fields : List Bytes) (g : GoMap) :
    (fields.foldl (fun g f => g.erase f) g).toFinmap =
      fields.foldl (fun h f => h.erase f) g.toFinmap := by
  induction fields generalizing g with
  | nil => rfl
  | cons f fields ih => rw [List.foldl_cons, List.foldl_cons, ih, OrdMap.toFinmap_erase]

/-! ## Writes -/

section Writes

variable {c : Codec} (hc : c.Lawful) {start : Nat} (env : Env) {g : GoMap}

theorem readView_hashView : readView env Value.asHash (hashView g) =
    .ok (if g.entries = [] then none else some (g, 0)) := readView_unless env rfl

theorem getD_hashView :
    ((if g.entries = [] then none else some (g, 0)) : Option (GoMap × Int64)).getD
      (OrdMap.empty, 0) = (g, 0) :=
  getD_unless fun hnil => by rw [OrdMap.eq_empty_of_entries hnil]

/-- A hash is written back, or the emptied key deleted. -/
def putHash (g : GoMap) : KeyAct := if g.entries = [] then .drop else .put (.hash g) 0

include hc in
/-- What is written is what the key shows from then on. -/
theorem shows_putHash (s : Slot) : Shows c start (hashView g) ((putHash g).onSlot c env s) :=
  shows_putUnless hc env rfl s

theorem insert_entries_ne_nil (g : GoMap) (f v : Bytes) : (g.insert f v).entries ≠ [] :=
  OrdMap.entries_ne_nil (OrdMap.get?_insert_self g f v)

theorem foldl_insert_ne_nil (pairs : List (Bytes × Bytes)) (hg : g.entries ≠ []) :
    (pairs.foldl (fun g p => g.insert p.1 p.2) g).entries ≠ [] := by
  induction pairs generalizing g with
  | nil => exact hg
  | cons p pairs ih => exact ih (insert_entries_ne_nil g p.1 p.2)

/-- HSET of a hash without expiry. -/
theorem planHSet_hashView (key : Bytes) (pair : Bytes × Bytes) (pairs : List (Bytes × Bytes)) :
    plan env { op := .hset, key := key, args := flatPairs (pair :: pairs) } (hashView g) =
      .ok (.int (((pair :: pairs).map Prod.fst).toFinset \ g.toFinmap.keys).card,
        putHash ((pair :: pairs).foldl (fun g p => g.insert p.1 p.2) g)) := by
  have hodd : ¬ (flatPairs (pair :: pairs)).length % 2 ≠ 0 := by
    rw [length_flatPairs]
    omega
  have hne : ((pair :: pairs).foldl (fun g p => g.insert p.1 p.2) g).entries ≠ [] :=
    foldl_insert_ne_nil pairs (insert_entries_ne_nil g pair.1 pair.2)
  show planHSet env { op := .hset, key := key, args := flatPairs (pair :: pairs) } (hashView g) = _
  rw [planHSet, if_neg hodd, readView_hashView, putHash, if_neg hne]
  simp only [bind, Except.bind, getD_hashView]
  show Except.ok (Result.int (hsetLoop false (flatPairs (pair :: pairs)) g 0).2,
    KeyAct.put (.hash (hsetLoop false (flatPairs (pair :: pairs)) g 0).1) 0) = _
  rw [hsetLoop_eq, Nat.zero_add]

/-- HSETNX writes the hash back as it was if the field is there. -/
theorem planHSetNX_hashView (key field val : Bytes) :
    plan env { op := .hsetnx, key := key, args := [field, val] } (hashView g) =
      .ok (.int (if field ∈ g.toFinmap then 0 else 1),
        putHash (if field ∈ g.toFinmap then g else g.insert field val)) := by
  show planHSet env { op := .hsetnx, key := key, args := [field, val] } (hashView g) = _
  rw [planHSet, if_neg (by simp), readView_hashView]
  simp only [bind, Except.bind, getD_hashView]
  by_cases hf : field ∈ g.toFinmap
  · have hcontains : g.contains field = true := OrdMap.mem_toFinmap.mp hf
    have hne : g.entries ≠ [] := by
      obtain ⟨v, hv⟩ := Option.isSome_iff_exists.mp hcontains
      exact OrdMap.entries_ne_nil hv
    rw [if_pos hf, if_pos hf, putHash, if_neg hne]
    simp [hsetLoop, hcontains, pure, Except.pure]
  · have hcontains : g.contains field = false := by
      rw [← Bool.not_eq_true]
      exact fun h => hf (OrdMap.mem_toFinmap.mpr h)
    rw [if_neg hf, if_neg hf, putHash, if_neg (insert_entries_ne_nil g field val)]
    simp [hsetLoop, hcontains, pure, Except.pure]

theorem foldl_erase_empty (fields : List Bytes) :
    fields.foldl (fun g f => g.erase f) (OrdMap.empty : GoMap) = OrdMap.empty := by
  induction fields with
  | nil => rfl
  | cons f fields ih => exact ih

include hc in
/-- HDEL deletes the key with its last field, and leaves an absent key alone. -/
theorem planHDel_hashView (key : Bytes) (fields : List Bytes) {s : Slot}
    (hs : Shows c start (hashView g) s) :
    ∃ act, plan env { op := .hdel, key := key, args := fields } (hashView g) =
        .ok (.int (fields.toFinset ∩ g.toFinmap.keys).card, act) ∧
      Shows c start (hashView (fields.foldl (fun g f => g.erase f) g)) (act.onSlot c env s) := by
  show ∃ act, planHDel env { op := .hdel, key := key, args := fields } (hashView g) = _ ∧ _
  rw [planHDel, readView_hashView]
  by_cases hnil : g.entries = []
  · obtain rfl : g = OrdMap.empty := OrdMap.eq_empty_of_entries hnil
    refine ⟨.keep, ?_, ?_⟩
    · rw [OrdMap.toFinmap_empty, Finmap.keys_empty, Finset.inter_empty]
      rfl
    · rw [foldl_erase_empty]
      exact hs
  · rw [if_neg hnil]
    simp only [bind, Except.bind, hdelLoop_eq, Nat.zero_add]
    exact ⟨_, rfl, shows_putHash hc env s⟩

end Writes

/-! ## Reads -/

section Reads

variable {c : Codec} {t : Nat} {key : Bytes} {db : DB} {g : GoMap}

theorem readHash_hashView (h : DB.view c t db key = hashView g) :
    (readAs t key typeHash c.decodeMap).run db =
      (.ok (if g.entries = [] then none else some g), db) :=
  readAs_unless c t key db (asHash_reads c) rfl h

theorem hGetAll_hashView (h : DB.view c t db key = hashView g) :
    (hGetAll c t key).run db = (.ok g, db) := by
  rw [hGetAll, Txn.run_bind_ok (readHash_hashView h), getD_unless OrdMap.eq_empty_of_entries]
  rfl

/-- HGET looks the field up. -/
theorem hGet_hashView (h : DB.view c t db key = hashView g) (field : Bytes) :
    (hGet c t key field).run db = (.ok (g.toFinmap.lookup field), db) := by
  rw [hGet, Txn.run_bind_ok (readHash_hashView h), OrdMap.lookup_toFinmap]
  by_cases hnil : g.entries = []
  · rw [if_pos hnil, OrdMap.eq_empty_of_entries hnil]
    rfl
  · rw [if_neg hnil]
    rfl

end Reads

/-! ## One request -/

section Step

variable (vm : LuaVM) (fuel : Nat) {srv : Server} (hc : srv.codec.Lawful) {start : Nat}
  {K : Bytes → Prop} {m : Bytes → FieldMap} {db : DB} {a : Arrival HashRequest}
  (hallowed : a.Allowed srv start K) (hR : HoldsHashes srv.codec start K m db) {key : Bytes}

/-- An answer of the reference, and a store that holds its maps. -/
def GivesHash (srv : Server) (start : Nat) (K : Bytes → Prop) (m : Bytes → FieldMap) (db : DB)
    (a : Arrival HashRequest) : Prop :=
  ∃ ws, a.request.Answers m ws ∧
    a.Gives vm fuel srv db ws (RepHash srv.codec start) K (a.request.next m)

include hc hallowed hR

theorem hset_gives {pair : Bytes × Bytes} {pairs : List (Bytes × Bytes)}
    (hreq : a.request = .set key pair pairs) : GivesHash vm fuel srv start K m db a := by
  obtain ⟨request, name, conn, env, now, order⟩ := a
  obtain rfl : request = _ := hreq
  have hk : K key := hallowed.keys key List.mem_cons_self
  obtain ⟨g, hg, hshows⟩ := hR key hk
  have hlen := length_flatPairs (pair :: pairs)
  rw [List.length_cons] at hlen
  have hhandler :=
    handleHSet_eq srv name key (show 2 ≤ (flatPairs (pair :: pairs)).length by omega) (by omega)
  have hplan := planHSet_hashView env (g := g) key pair pairs
  rw [← hshows _ hallowed.applied] at hplan
  refine ⟨_, ?_, gives_command vm fuel hallowed.named hhandler rfl
    (Held.of_plan hR rfl hplan ⟨_, ?_, shows_putHash hc env _⟩)⟩
  · show [Write.int _] = [Write.int _]
    rw [hg]
  · rw [toFinmap_foldl_insert, hg]

/-- HSETNX answers whether it wrote. -/
theorem hsetnx_gives {field val : Bytes} (hreq : a.request = .setNX key field val) :
    GivesHash vm fuel srv start K m db a := by
  obtain ⟨request, name, conn, env, now, order⟩ := a
  obtain rfl : request = _ := hreq
  have hk : K key := hallowed.keys key List.mem_cons_self
  obtain ⟨g, hg, hshows⟩ := hR key hk
  have hplan := planHSetNX_hashView env (g := g) key field val
  rw [← hshows _ hallowed.applied, hg] at hplan
  have hhandler : handleHSetNX srv [name, key, field, val] =
      applyCommand srv { op := .hsetnx, key := key, args := [field, val] } := rfl
  by_cases hf : field ∈ m key
  · rw [if_pos hf, if_pos hf] at hplan
    have hheld := Held.of_plan hR rfl hplan ⟨g, hg, shows_putHash hc env _⟩
    rw [Function.update_eq_self] at hheld
    have hnext : HashRequest.next (.setNX key field val) m = m := if_pos hf
    refine ⟨[.int 0], ?_, ?_⟩
    · show [Write.int 0] = [Write.int (if field ∈ m key then 0 else 1)]
      rw [if_pos hf]
    · rw [hnext]
      exact gives_command vm fuel hallowed.named hhandler rfl hheld
  · rw [if_neg hf, if_neg hf] at hplan
    have hinsert : (g.insert field val).toFinmap = (m key).insert field val := by
      rw [OrdMap.toFinmap_insert, hg]
    have hheld := Held.of_plan hR rfl hplan ⟨_, hinsert, shows_putHash hc env _⟩
    have hnext : HashRequest.next (.setNX key field val) m =
        Function.update m key ((m key).insert field val) := if_neg hf
    refine ⟨[.int 1], ?_, ?_⟩
    · show [Write.int 1] = [Write.int (if field ∈ m key then 0 else 1)]
      rw [if_neg hf]
    · rw [hnext]
      exact gives_command vm fuel hallowed.named hhandler rfl hheld

theorem hdel_gives {field : Bytes} {fields : List Bytes}
    (hreq : a.request = .delFields key field fields) :
    GivesHash vm fuel srv start K m db a := by
  obtain ⟨request, name, conn, env, now, order⟩ := a
  obtain rfl : request = _ := hreq
  have hk : K key := hallowed.keys key List.mem_cons_self
  obtain ⟨g, hg, hshows⟩ := hR key hk
  obtain ⟨act, hplan, hshows'⟩ := planHDel_hashView hc env key (field :: fields) hshows
  rw [← hshows _ hallowed.applied, hg] at hplan
  refine ⟨_, rfl, gives_command vm fuel hallowed.named
    (handleVariadic_eq srv name key _ field fields) rfl
    (Held.of_plan hR rfl hplan ⟨_, ?_, hshows'⟩)⟩
  rw [toFinmap_foldl_erase, hg]

omit hc

/-- A read answers from the hash that the key shows. -/
theorem hashRead_gives (hverb : (Wire.verb a.request).namedKeys (Wire.args a.request) = [key])
    (hnext : a.request.next m = m)
    (hhandler : ∀ g : GoMap, g.toFinmap = m key → DB.view srv.codec a.now db key = hashView g →
      ∃ ws, a.request.Answers m ws ∧
        (Wire.verb a.request).handler srv (fun _ => ⟨db, a.now, a.order⟩) a.conn
        (a.name :: Wire.args a.request) =
          .ok (.write ws)) : GivesHash vm fuel srv start K m db a := by
  have hk : K key := hallowed.keys key (by rw [hverb]; exact List.mem_cons_self)
  obtain ⟨g, hg, hshows⟩ := hR key hk
  obtain ⟨ws, hws, hrun⟩ := hhandler g hg (hshows _ hallowed.read)
  refine ⟨ws, hws, ?_⟩
  rw [hnext]
  exact gives_answer vm fuel hallowed.named hrun hR

theorem hget_gives {field : Bytes} (hreq : a.request = .get key field) :
    GivesHash vm fuel srv start K m db a := by
  obtain ⟨request, name, conn, env, now, order⟩ := a
  obtain rfl : request = _ := hreq
  refine hashRead_gives vm fuel hallowed hR rfl rfl fun g hg hview => ⟨_, rfl, ?_⟩
  show answer srv ((hGet srv.codec now key field).run db).1 writeBulk = _
  rw [hGet_hashView hview, hg]
  rfl

/-- HGETALL lists every field with its value, in some order. -/
theorem hgetall_gives (hreq : a.request = .getAll key) : GivesHash vm fuel srv start K m db a := by
  obtain ⟨request, name, conn, env, now, order⟩ := a
  obtain rfl : request = _ := hreq
  refine hashRead_gives vm fuel hallowed hR rfl rfl fun g hg hview => ?_
  have hperm := rangeMap_perm order g
  refine ⟨_, ⟨rangeMap order g, ?_, rfl⟩, ?_⟩
  · rw [← hg, OrdMap.entries_toFinmap, Multiset.map_coe, Multiset.coe_eq_coe]
    simpa [OrdMap.sigmaEntries, Function.comp_def] using hperm
  · show answer srv ((hGetAll srv.codec now key).run db).1 (fun hash =>
      .array (hash.entries.length * 2) ::
      (rangeMap order hash).flatMap fun entry => [.bulk entry.1, .bulk entry.2]) = _
    rw [hGetAll_hashView hview, hperm.length_eq]
    rfl

theorem hlen_gives (hreq : a.request = .len key) : GivesHash vm fuel srv start K m db a := by
  obtain ⟨request, name, conn, env, now, order⟩ := a
  obtain rfl : request = _ := hreq
  refine hashRead_gives vm fuel hallowed hR rfl rfl fun g hg hview => ⟨_, rfl, ?_⟩
  show answer srv ((hLen srv.codec now key).run db).1 writeNat = _
  rw [hLen, Txn.run_bind_ok (hGetAll_hashView hview), ← hg, OrdMap.card_keys_toFinmap]
  rfl

theorem hexists_gives {field : Bytes} (hreq : a.request = .hasField key field) :
    GivesHash vm fuel srv start K m db a := by
  obtain ⟨request, name, conn, env, now, order⟩ := a
  obtain rfl : request = _ := hreq
  refine hashRead_gives vm fuel hallowed hR rfl rfl fun g hg hview => ⟨_, rfl, ?_⟩
  show answer srv ((hExists srv.codec now key field).run db).1 writeNat = _
  rw [hExists, Txn.run_bind_ok (hGetAll_hashView hview), ← hg]
  by_cases hf : g.contains field = true
  · rw [if_pos hf, if_pos (OrdMap.mem_toFinmap.mpr hf)]
    rfl
  · rw [if_neg hf, if_neg fun h => hf (OrdMap.mem_toFinmap.mp h)]
    rfl

/-- HMGET answers with null for a field that is not there. -/
theorem hmget_gives {field : Bytes} {fields : List Bytes}
    (hreq : a.request = .getMany key field fields) :
    GivesHash vm fuel srv start K m db a := by
  obtain ⟨request, name, conn, env, now, order⟩ := a
  obtain rfl : request = _ := hreq
  refine hashRead_gives vm fuel hallowed hR rfl rfl fun g hg hview => ⟨_, rfl, ?_⟩
  have hlen : ¬ (name :: key :: field :: fields).length < 3 := by
    simp only [List.length_cons]
    omega
  show handleHMGet srv (fun _ => ⟨db, now, order⟩) (name :: key :: field :: fields) = _
  rw [handleHMGet, if_neg hlen, argsFrom_eq _ (by simp)]
  show answer srv ((hMGet srv.codec now key (field :: fields)).run db).1 writeBulks = _
  rw [hMGet, Txn.run_bind_ok (hGetAll_hashView hview), ← hg]
  simp only [OrdMap.lookup_toFinmap]
  rfl

theorem hkeys_gives (hreq : a.request = .allFields key) : GivesHash vm fuel srv start K m db a := by
  obtain ⟨request, name, conn, env, now, order⟩ := a
  obtain rfl : request = _ := hreq
  refine hashRead_gives vm fuel hallowed hR rfl rfl fun g hg hview => ?_
  refine ⟨_, ⟨(rangeMap order g).map Prod.fst, ?_, rfl⟩, ?_⟩
  · rw [← hg, OrdMap.keys_toFinmap, Multiset.coe_eq_coe]
    exact (rangeMap_perm order g).map Prod.fst
  · show answer srv ((hKeys srv.codec now key order).run db).1 writeStrings = _
    rw [hKeys, Txn.run_bind_ok (hGetAll_hashView hview)]
    rfl

theorem hvals_gives (hreq : a.request = .allVals key) : GivesHash vm fuel srv start K m db a := by
  obtain ⟨request, name, conn, env, now, order⟩ := a
  obtain rfl : request = _ := hreq
  refine hashRead_gives vm fuel hallowed hR rfl rfl fun g hg hview => ?_
  refine ⟨_, ⟨(rangeMap order g).map Prod.snd, ?_, rfl⟩, ?_⟩
  · rw [← hg, OrdMap.entries_toFinmap, Multiset.map_coe, Multiset.coe_eq_coe]
    simpa [OrdMap.sigmaEntries, Function.comp_def] using (rangeMap_perm order g).map Prod.snd
  · show answer srv ((hVals srv.codec now key order).run db).1 writeStrings = _
    rw [hVals, Txn.run_bind_ok (hGetAll_hashView hview)]
    rfl

theorem hashDel_gives {keys : List Bytes} (hreq : a.request = .del key keys) :
    GivesHash vm fuel srv start K m db a := by
  obtain ⟨request, name, conn, env, now, order⟩ := a
  obtain rfl : request = _ := hreq
  have hpresent : ∀ x s, RepHash srv.codec start x s →
      ((s.view srv.codec env.clock.now).isSome = true ↔ x ≠ ∅) := by
    rintro _ s ⟨g, rfl, hs⟩
    rw [hs _ hallowed.applied, Ne, OrdMap.toFinmap_eq_empty_iff, hashView]
    split_ifs with hnil <;> simp [hnil]
  have hempty : RepHash srv.codec start ∅ ⟨none, none⟩ := ⟨OrdMap.empty, rfl, shows_nothing⟩
  exact ⟨_, rfl, gives_command vm fuel hallowed.named (handleDel_eq srv name key keys) rfl
    (Held.del hR hempty hpresent (List.cons_ne_nil _ _) hallowed.keys)⟩

end Step

/-- A request on hashes is answered as the reference allows, and the store holds its maps. -/
theorem hashRequest_simulates (vm : LuaVM) (fuel : Nat) {srv : Server} (hc : srv.codec.Lawful)
    (start : Nat) (K : Bytes → Prop) :
    Simulates (Arrival.Allowed srv start K) (Arrival.serve vm fuel srv) HashRequest.spec
      (HoldsHashes srv.codec start K) := by
  intro a m db hallowed hR
  suffices hgives : GivesHash vm fuel srv start K m db a by
    obtain ⟨ws, hws, hout, hheld⟩ := hgives
    exact ⟨_, ⟨ws, hout, hws, rfl⟩, hheld⟩
  cases hreq : a.request with
  | set key pair pairs => exact hset_gives vm fuel hc hallowed hR hreq
  | setNX key field val => exact hsetnx_gives vm fuel hc hallowed hR hreq
  | delFields key field fields => exact hdel_gives vm fuel hc hallowed hR hreq
  | get key field => exact hget_gives vm fuel hallowed hR hreq
  | getAll key => exact hgetall_gives vm fuel hallowed hR hreq
  | len key => exact hlen_gives vm fuel hallowed hR hreq
  | hasField key field => exact hexists_gives vm fuel hallowed hR hreq
  | getMany key field fields => exact hmget_gives vm fuel hallowed hR hreq
  | allFields key => exact hkeys_gives vm fuel hallowed hR hreq
  | allVals key => exact hvals_gives vm fuel hallowed hR hreq
  | del key keys => exact hashDel_gives vm fuel hallowed hR hreq

/-- Every run of requests on hashes is a run of the reference, and leaves the keys holding its
maps. -/
theorem hashes_refine (vm : LuaVM) (fuel : Nat) {srv : Server} (hc : srv.codec.Lawful) {start : Nat}
    {K : Bytes → Prop} {m : Bytes → FieldMap} {db : DB} (hheld : HoldsHashes srv.codec start K m db)
    {run : List (Arrival HashRequest)} (hrun : ∀ a ∈ run, a.Allowed srv start K) :
    ∃ m', Runs HashRequest.spec run m (exec (Arrival.serve vm fuel srv) run db).1 m' ∧
      HoldsHashes srv.codec start K m' (exec (Arrival.serve vm fuel srv) run db).2 :=
  (hashRequest_simulates vm fuel hc start K).run hrun hheld

/-- `HSET h f v f w` and then `HGET h f` on an empty store. -/
theorem hset_hget_refines :
    let run := [sampleArrival "HSET"
      (HashRequest.set (ascii "h") (ascii "f", ascii "v") [(ascii "f", ascii "w")]),
      sampleArrival "HGET" (HashRequest.get (ascii "h") (ascii "f"))]
    let served := exec (Arrival.serve noScripts 0 asciiServer) run OrdMap.empty
    served.1 = [.ok [.int 1], .ok [.bulk (ascii "w")]] ∧
      ∃ m', Runs HashRequest.spec run (fun _ => ∅) served.1 m' ∧
        HoldsHashes msgpack 1000000000000 (fun _ => True) m' served.2 := by
  have hheld : HoldsHashes msgpack 1000000000000 (fun _ => True) (fun _ => ∅) OrdMap.empty :=
    fun _ _ => ⟨OrdMap.empty, rfl, shows_nothing⟩
  exact ⟨rfl, hashes_refine noScripts 0 msgpack_lawful hheld
    (List.forall_mem_cons.mpr ⟨sampleArrival_allowed rfl,
      List.forall_mem_cons.mpr ⟨sampleArrival_allowed rfl, List.forall_mem_nil _⟩⟩)⟩

end Badis
