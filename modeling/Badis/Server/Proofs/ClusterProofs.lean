import Badis.Server.Proofs.KeyUseProofs

/-!
# Who handles a key

Whichever node receives a request, it is served by the node that owns the request's first key
(`served_by_owner`, `ServedAt.eq_owner`). A request with one key is thus handled by its owner. The
commands with several keys use all of them there, so they are handled by the owners exactly when all
their keys have the owner of the first.
-/

namespace Badis

open Lib

namespace Cluster

variable {ι : Type} (cl : Cluster ι)

/-! ## Routing -/

theorem locateKey_eq (n : ι) (key : Bytes) :
    (cl.router n).locateKey key =
      (cl.name (cl.owner key), cl.addr (cl.owner key),
        decide (cl.name (cl.owner key) = cl.name n)) := by
  have hslot : keyToSlot key < 16384 := UInt16.mod_lt _ (by decide)
  have howned := cl.owned (keyToSlot key) hslot
  unfold Router.locateKey router
  dsimp only
  rw [howned]
  rfl

section Routing

variable {cl} {srv : Server} {name : Bytes} {verb : Verb} (hname : name.all (· < 128) = true)
variable (hverb : srv.verb? name = some verb) (hdata : verb.isData = true)

include hname hverb hdata

/-- A command that names keys is not one of those that every node handles itself. -/
theorem name_not_local : ∀ word ∈ [ascii "HELLO", ascii "CLIENT", ascii "EVAL", ascii "EVALSHA",
    ascii "SCRIPT", ascii "PING", ascii "FLUSHDB"], toUpper srv.upper name ≠ word := by
  rw [toUpper_of_verb srv.upper hname hverb]
  revert hdata
  cases verb <;> decide

/-- `handleCmd` of a data command: an error without a key, and otherwise by the owner of the first
key. -/
theorem handleCmd_data (n : ι) (args : List Bytes) :
    handleCmd srv (cl.router n) (name :: args) =
      match args with
      | [] =>
        .ok (.error (ascii "ERR wrong number of arguments for '" ++
          toLower srv.lower (toUpper srv.upper name) ++ ascii "' command"))
      | key :: rest =>
        .ok (if cl.name (cl.owner key) = cl.name n ∨ cl.addr (cl.owner key) = [] then .serve
          else .proxy (cl.addr (cl.owner key)) (name :: key :: rest)) := by
  have hother := name_not_local hname hverb hdata
  have hzero : goIndex (name :: args) 0 = .ok name := rfl
  have hspecial :
    ¬ (toUpper srv.upper name = ascii "CLIENT" ∨ toUpper srv.upper name = ascii "EVAL" ∨
      toUpper srv.upper name = ascii "EVALSHA" ∨ toUpper srv.upper name = ascii "SCRIPT") := by
    rintro (h | h | h | h) <;> exact hother _ (by simp) h
  have hkeyless :
      ¬ (toUpper srv.upper name = ascii "PING" ∨ toUpper srv.upper name = ascii "FLUSHDB") := by
    rintro (h | h) <;> exact hother _ (by simp) h
  unfold handleCmd
  rw [hzero]
  dsimp only [bind, Except.bind]
  rw [if_neg (hother _ (by simp)), if_neg hspecial]
  cases args with
  | nil =>
    have hlen : [name].length < 2 := Nat.lt_succ_self 1
    rw [if_pos hlen, if_neg hkeyless]
    rfl
  | cons key rest =>
    have hlen : ¬ (name :: key :: rest).length < 2 := by
      simp only [List.length_cons]
      omega
    have hone : goIndex (name :: key :: rest) 1 = .ok key := rfl
    rw [if_neg hlen, hone]
    dsimp only
    rw [locateKey_eq]
    simp only [decide_eq_true_eq]
    split_ifs <;> rfl

/-- The owner of the first key hands the request to its mux. -/
theorem handleCmd_owner (key : Bytes) (rest : List Bytes) :
    handleCmd srv (cl.router (cl.owner key)) (name :: key :: rest) = .ok .serve := by
  rw [handleCmd_data hname hverb hdata]
  exact congrArg Except.ok (if_pos (.inl rfl))

/-- Any other node sends it to the owner, as it is. -/
theorem handleCmd_other {n : ι} {key : Bytes} (hn : n ≠ cl.owner key) (rest : List Bytes) :
    handleCmd srv (cl.router n) (name :: key :: rest) =
      .ok (.proxy (cl.addr (cl.owner key)) (name :: key :: rest)) := by
  have hremote : ¬ (cl.name (cl.owner key) = cl.name n ∨ cl.addr (cl.owner key) = []) := by
    rintro (h | h)
    · exact hn (cl.name_injective h).symm
    · exact cl.addr_ne _ h
  rw [handleCmd_data hname hverb hdata]
  exact congrArg Except.ok (if_neg hremote)

/-- A request with a key gets to the node that owns it. -/
theorem served_by_owner (n : ι) (key : Bytes) (rest : List Bytes) :
    cl.ServedAt srv n (name :: key :: rest) (cl.owner key) (name :: key :: rest) := by
  have hhere :
      cl.ServedAt srv (cl.owner key) (name :: key :: rest) (cl.owner key) (name :: key :: rest) :=
    .here (handleCmd_owner hname hverb hdata key rest)
  by_cases hn : n = cl.owner key
  · rw [hn]
    exact hhere
  · exact .proxied (handleCmd_other hname hverb hdata hn rest) hhere

/-- It is served nowhere else, and as it was sent. -/
theorem ServedAt.eq_owner {n m : ι} {key : Bytes} {rest args' : List Bytes}
    (h : cl.ServedAt srv n (name :: key :: rest) m args') :
    m = cl.owner key ∧ args' = name :: key :: rest := by
  generalize hargs : name :: key :: rest = args at h
  induction h with
  | @here n args hserve =>
    subst hargs
    refine ⟨?_, rfl⟩
    by_contra hn
    rw [handleCmd_other hname hverb hdata hn] at hserve
    cases hserve
  | @proxied n n' m args args' args'' hproxy hserved ih =>
    subst hargs
    by_cases hn : n = cl.owner key
    · rw [hn, handleCmd_owner hname hverb hdata] at hproxy
      cases hproxy
    · rw [handleCmd_other hname hverb hdata hn] at hproxy
      obtain ⟨-, hsent⟩ := Route.proxy.inj (Except.ok.inj hproxy)
      obtain ⟨hm, hsame⟩ := ih hsent
      exact ⟨hm, hsame.trans hsent.symm⟩

/-- A request without a key is answered with an error. -/
theorem not_served {n m : ι} {args' : List Bytes} : ¬ cl.ServedAt srv n [name] m args' := by
  have herror : handleCmd srv (cl.router n) [name] = .ok (.error _) :=
    handleCmd_data hname hverb hdata n []
  intro h
  cases h with
  | here hserve =>
    rw [herror] at hserve
    cases hserve
  | proxied hproxy _ =>
    rw [herror] at hproxy
    cases hproxy

end Routing

end Cluster

/-! ## The commands with several keys use all of them -/

section Uses

variable (vm : LuaVM) {srv : Server} {name : Bytes} {verb : Verb} (args : List Bytes)
variable (hverb : srv.verb? name = some verb)

/-- A database with one string. -/
def oneEntry (k : Bytes) : DB := OrdMap.empty.insert (userKey k) (newEntry [120])

theorem sameExcept_oneEntry (k : Bytes) : DB.SameExcept k OrdMap.empty (oneEntry k) := by
  intro raw huser _
  unfold oneEntry
  rw [OrdMap.get?_insert_of_ne _ _ (Ne.symm huser)]

theorem getLive_oneEntry (t : Nat) (k : Bytes) :
    (oneEntry k).getLive t (userKey k) = some (newEntry [120]) := by
  unfold DB.getLive oneEntry
  rw [OrdMap.get?_insert_self]
  rfl

theorem isSome_msetValue {k : Bytes} {args : List Bytes} (h : k ∈ msetKeys args) :
    ∃ v, msetValue k args = some v := by
  induction args using msetKeys.induct with
  | case1 k' v rest ih =>
    rw [msetKeys, List.mem_cons] at h
    rw [msetValue]
    rcases h with rfl | h
    · cases msetValue k rest with
      | none => exact ⟨v, if_pos rfl⟩
      | some w => exact ⟨w, rfl⟩
    · obtain ⟨w, hw⟩ := ih h
      exact ⟨w, by rw [hw]; rfl⟩
  | case2 args hne =>
    rcases args with _ | ⟨k', _ | ⟨v, rest⟩⟩
    · cases h
    · cases h
    · exact absurd rfl (hne k' v rest)

/-- Two replies from the store, without and with an entry of `k`. -/
theorem readsKey_of_ne {k : Bytes} {ws ws' : List Write}
    (h : serveRESP srv (viewOf OrdMap.empty) newConn (name :: args) = .ok (.write ws))
    (h' : serveRESP srv (viewOf (oneEntry k)) newConn (name :: args) = .ok (.write ws'))
    (hne : ws ≠ ws') :
    ReadsKey vm srv (name :: args) k := by
  refine ⟨0, fun _ => Env.at 1000000000000, viewOf OrdMap.empty, viewOf (oneEntry k), newConn,
    OrdMap.empty, oneEntry k, fun _ => ⟨rfl, rfl, sameExcept_oneEntry k⟩, sameExcept_oneEntry k,
    .inl ?_⟩
  unfold serveNode
  rw [h, h']
  exact fun heq => hne (Except.ok.inj heq)

include hverb

/-- DEL deletes every key that it names, on the node that serves it. -/
theorem del_uses (hop : verb = .del ∨ verb = .unlink) {k : Bytes} (hk : k ∈ args) :
    WritesKey vm srv (name :: args) k := by
  have hserve : serveRESP srv (viewOf OrdMap.empty) newConn (name :: args) =
      applyCommand srv { op := .del, args := args } := by
    have hdel : handleDel srv (name :: args) = applyCommand srv { op := .del, args := args } := by
      have hlen : ¬ (name :: args).length < 2 := by
        have hpos := List.length_pos_of_mem hk
        simp only [List.length_cons]
        omega
      rw [handleDel, if_neg hlen, argsFrom_one]
      rfl
    rw [serveRESP_of_verb _ _ _ _ _ hverb]
    rcases hop with rfl | rfl <;> exact hdel
  refine ⟨0, fun _ => Env.at 1000000000000, viewOf OrdMap.empty, newConn, oneEntry k, ?_⟩
  rw [serveNode_of_command vm hserve rfl]
  dsimp only
  rw [slot_applyCmd]
  have hview : (DB.view srv.codec (Env.at 1000000000000).clock.now (oneEntry k) k).isNone =
      false := by
    have hlive := getLive_oneEntry (Env.at 1000000000000).clock.now k
    unfold DB.getLive at hlive
    unfold DB.view Slot.view Slot.of
    rw [hlive]
    rfl
  have hact : keyAct (Env.at 1000000000000) { op := .del, args := args } k
      (DB.view srv.codec (Env.at 1000000000000).clock.now (oneEntry k) k) = .drop := by
    simp only [keyAct, hview, if_pos hk, Bool.false_eq_true, if_false]
  rw [hact]
  intro heq
  have huser : none = (oneEntry k).get? (userKey k) := congrArg Slot.user heq
  unfold oneEntry at huser
  rw [OrdMap.get?_insert_self] at huser
  cases huser

theorem mset_uses (hop : verb = .mset) (heven : args.length % 2 = 0) {k : Bytes}
    (hk : k ∈ msetKeys args) :
    WritesKey vm srv (name :: args) k := by
  subst hop
  have hserve : serveRESP srv (viewOf OrdMap.empty) newConn (name :: args) =
      applyCommand srv { op := .mset, args := args } := by
    have hlen : ¬ ((name :: args).length < 3 ∨ (name :: args).length % 2 = 0) := by
      match args, hk, heven with
      | _ :: _ :: rest, _, heven =>
        simp only [List.length_cons] at heven ⊢
        omega
    rw [serveRESP_of_verb _ _ _ _ _ hverb]
    show handleMSet srv (name :: args) = _
    rw [handleMSet, if_neg hlen, argsFrom_one]
    rfl
  obtain ⟨v, hv⟩ := isSome_msetValue hk
  refine ⟨0, fun _ => Env.at 1000000000000, viewOf OrdMap.empty, newConn, OrdMap.empty, ?_⟩
  rw [serveNode_of_command vm hserve rfl]
  dsimp only
  rw [slot_applyCmd]
  have hact : keyAct (Env.at 1000000000000) { op := .mset, args := args } k
      (DB.view srv.codec (Env.at 1000000000000).clock.now OrdMap.empty k) = .put (.string v) 0 := by
    simp only [keyAct, if_neg (not_not.mpr heven), hv]
  rw [hact]
  intro heq
  cases congrArg Slot.user heq

/-- MGET reads every key that it names there. -/
theorem mget_uses (hop : verb = .mget) {k : Bytes} (hk : k ∈ args) :
    ReadsKey vm srv (name :: args) k := by
  subst hop
  have hserve : ∀ db, serveRESP srv (viewOf db) newConn (name :: args) =
      .ok (.write (writeBulks (args.map fun k =>
        (db.getLive 1000000000000 (userKey k)).bind Entry.valueCopy))) := by
    intro db
    have hlen : ¬ (name :: args).length < 2 := by
      have hpos := List.length_pos_of_mem hk
      simp only [List.length_cons]
      omega
    rw [serveRESP_of_verb _ _ _ _ _ hverb]
    show handleMGet srv (viewOf db) (name :: args) = _
    have hread : readFirst (viewOf db) (fun t => getStrings t args) = .ok _ :=
      congrArg Prod.fst (getStrings_run 1000000000000 db args)
    rw [handleMGet, if_neg hlen, argsFrom_one]
    show answer srv (readFirst (viewOf db) fun t => getStrings t args) writeBulks = _
    rw [hread]
    rfl
  refine readsKey_of_ne vm args (hserve OrdMap.empty) (hserve (oneEntry k)) fun heq => ?_
  have htail := (List.cons.inj heq).2
  rw [List.map_map, List.map_map] at htail
  have hkth := List.map_inj_left.mp htail k hk
  simp only [Function.comp_apply, getLive_oneEntry] at hkth
  cases hkth

theorem count_uses (hop : verb = .existsKeys ∨ verb = .touch) {k : Bytes} (hk : k ∈ args) :
    ReadsKey vm srv (name :: args) k := by
  have hserve : ∀ db, serveRESP srv (viewOf db) newConn (name :: args) =
      .ok (.write
        (writeNat (0 + args.countP fun k => (db.getLive 1000000000000 (userKey k)).isSome))) := by
    intro db
    have hcount : handleCount srv (viewOf db) (name :: args) =
        .ok (.write
          (writeNat (0 + args.countP fun k => (db.getLive 1000000000000 (userKey k)).isSome))) := by
      have hlen : ¬ (name :: args).length < 2 := by
        have hpos := List.length_pos_of_mem hk
        simp only [List.length_cons]
        omega
      have hread : readFirst (viewOf db) (fun t => fsmExists t args) = .ok _ :=
        congrArg Prod.fst (existsLoop_run 1000000000000 db args 0)
      rw [handleCount, if_neg hlen, argsFrom_one]
      show answer srv (readFirst (viewOf db) fun t => fsmExists t args) writeNat = _
      rw [hread]
      rfl
    rw [serveRESP_of_verb _ _ _ _ _ hverb]
    rcases hop with rfl | rfl <;> exact hcount
  refine readsKey_of_ne vm args (hserve OrdMap.empty) (hserve (oneEntry k)) fun heq => ?_
  have hzero : (args.countP fun k => (DB.getLive 1000000000000 OrdMap.empty (userKey k)).isSome) =
      0 := by
    rw [List.countP_eq_zero]
    intro key _
    exact Bool.false_ne_true
  have hpos :
      0 < args.countP fun k' => ((oneEntry k).getLive 1000000000000 (userKey k')).isSome := by
    rw [List.countP_pos_iff]
    exact ⟨k, hk, by rw [getLive_oneEntry]; rfl⟩
  have hint := Write.int.inj (List.cons.inj heq).1
  omega

/-- Each key of a command with several keys is used, unless MSET is refused for its number of
arguments. -/
theorem uses_of_named {key k : Bytes} {rest : List Bytes}
    (hrefused : ¬ (verb = .mset ∧ (key :: rest).length % 2 = 1))
    (hk : k ∈ verb.namedKeys (key :: rest)) :
    k = key ∨ WritesKey vm srv (name :: key :: rest) k ∨
      ReadsKey vm srv (name :: key :: rest) k := by
  by_cases hdel : verb = .del ∨ verb = .unlink
  · have hmem : k ∈ key :: rest := by rcases hdel with rfl | rfl <;> exact hk
    exact .inr (.inl (del_uses vm _ hverb hdel hmem))
  by_cases hcount : verb = .existsKeys ∨ verb = .touch
  · have hmem : k ∈ key :: rest := by rcases hcount with rfl | rfl <;> exact hk
    exact .inr (.inr (count_uses vm _ hverb hcount hmem))
  by_cases hmget : verb = .mget
  · subst hmget
    exact .inr (.inr (mget_uses vm _ hverb rfl hk))
  by_cases hmset : verb = .mset
  · subst hmset
    have heven : (key :: rest).length % 2 = 0 := by
      have hodd : ¬ (key :: rest).length % 2 = 1 := fun h => hrefused ⟨rfl, h⟩
      omega
    exact .inr (.inl (mset_uses vm _ hverb rfl heven hk))
  · have hone : verb.namedKeys (key :: rest) = [key] := by
      cases verb <;> first | rfl | simp at hdel hcount hmget hmset
    rw [hone, List.mem_singleton] at hk
    exact .inl hk

/-- MSET with a key too many uses nothing. -/
theorem mset_odd_unused (hop : verb = .mset) (hodd : args.length % 2 = 1) (k : Bytes) :
    ¬ (WritesKey vm srv (name :: args) k ∨ ReadsKey vm srv (name :: args) k) := by
  subst hop
  have hserve : ∀ views conn,
      serveRESP srv views conn (name :: args) = refuse (wrongArgs (name :: args)) := by
    intro views conn
    have hlen : (name :: args).length < 3 ∨ (name :: args).length % 2 = 0 := by
      simp only [List.length_cons]
      omega
    rw [serveRESP_of_verb _ _ _ _ _ hverb]
    show handleMSet srv (name :: args) = _
    rw [handleMSet, if_pos hlen]
  rintro (⟨fuel, envs, views, conn, db, hne⟩ |
    ⟨fuel, envs, views, views', conn, db, db', hviews, hdb, hne⟩)
  · unfold serveNode at hne
    rw [hserve] at hne
    exact hne rfl
  · unfold serveNode at hne
    rw [hserve, hserve] at hne
    rcases hne with hne | ⟨j, hj, hne⟩
    · exact hne rfl
    · exact hne (Slot.of_eq_of_sameExcept hdb hj)

end Uses

/-! ## Every request -/

/-- Whichever node receives a request, the keys it reads and writes are read and written by their
owners, exactly when the keys it names have the owner of the first one, or it is an MSET with a key
too many, which is refused. -/
theorem keys_handled_by_owner_iff {ι : Type} (cl : Cluster ι) (vm : LuaVM) (srv : Server) (n : ι)
    {name : Bytes} {verb : Verb} (args : List Bytes) (hname : name.all (· < 128) = true)
    (hverb : srv.verb? name = some verb) (hdata : verb.isData = true) :
    (∀ m k, cl.Uses vm srv n (name :: args) m k → m = cl.owner k) ↔
      (verb = .mset ∧ args.length % 2 = 1) ∨
        ∀ k ∈ verb.namedKeys args, cl.owner k = cl.owner (args.headD []) := by
  cases args with
  | nil =>
    refine iff_of_true ?_ (.inr fun k hk => ?_)
    · rintro m k ⟨args', hserved, -⟩
      exact absurd hserved (Cluster.not_served hname hverb hdata)
    · have hnone : verb.namedKeys [] = [] := by cases verb <;> rfl
      rw [hnone] at hk
      cases hk
  | cons key rest =>
    show _ ↔ _ ∨ ∀ k ∈ verb.namedKeys (key :: rest), cl.owner k = cl.owner key
    by_cases hrefused : verb = .mset ∧ (key :: rest).length % 2 = 1
    · refine iff_of_true ?_ (.inl hrefused)
      rintro m k ⟨args', hserved, huses⟩
      obtain ⟨-, rfl⟩ := Cluster.ServedAt.eq_owner hname hverb hdata hserved
      exact absurd huses (mset_odd_unused vm _ hverb hrefused.1 hrefused.2 k)
    · constructor
      · intro h
        refine .inr fun k hk => ?_
        rcases uses_of_named vm hverb hrefused hk with rfl | huses
        · rfl
        · exact (h _ k ⟨_, Cluster.served_by_owner hname hverb hdata n key rest, huses⟩).symm
      · rintro (h | h) m k ⟨args', hserved, huses⟩
        · exact absurd h hrefused
        · obtain ⟨rfl, rfl⟩ := Cluster.ServedAt.eq_owner hname hverb hdata hserved
          exact (h k (named_of_uses vm (key :: rest) hverb hdata huses)).symm

/-! ## Two nodes -/

theorem SlotMap.getOwner_setOwner_self (s : SlotMap) (slot : UInt16) (shardID ip : Bytes) :
    (s.setOwner slot shardID ip).getOwner slot = (shardID, ip) := by
  simp [SlotMap.setOwner, SlotMap.getOwner]

theorem SlotMap.getOwner_setOwner_of_ne (s : SlotMap) {slot slot' : UInt16} (h : slot' ≠ slot)
    (shardID ip : Bytes) : (s.setOwner slot shardID ip).getOwner slot' = s.getOwner slot' := by
  simp [SlotMap.setOwner, SlotMap.getOwner, h]

/-- A slot that is assigned, or that had its owner before, has it afterwards. -/
theorem SlotMap.getOwner_assign (owner : UInt16 → SlotInfo) {slots : List UInt16} {slot : UInt16}
    {s : SlotMap} (h : slot ∈ slots ∨ s.getOwner slot = ((owner slot).shardID, (owner slot).ip)) :
    (s.assign owner slots).getOwner slot = ((owner slot).shardID, (owner slot).ip) := by
  induction slots generalizing s with
  | nil => exact h.resolve_left List.not_mem_nil
  | cons next rest ih =>
    refine ih ?_
    by_cases heq : slot = next
    · subst heq
      exact .inr (s.getOwner_setOwner_self slot _ _)
    · rw [s.getOwner_setOwner_of_ne heq]
      exact h.imp_left fun hmem => (List.mem_cons.mp hmem).resolve_left heq

theorem mem_allSlots {slot : UInt16} (h : slot < 16384) :
    slot ∈ (List.range 16384).map Nat.toUInt16 :=
  List.mem_map.mpr ⟨slot.toNat, List.mem_range.mpr (UInt16.lt_iff_toNat_lt.mp h),
    UInt16.ofNat_toNat⟩

/-- Two nodes, with one half of the slots each. -/
def twoNodes : Cluster Bool where
  slotMap := SlotMap.new.assign (fun slot =>
    if slot < 8192 then ⟨ascii "node-1", ascii "10.0.0.1:6379"⟩
    else ⟨ascii "node-2", ascii "10.0.0.2:6379"⟩) ((List.range 16384).map Nat.toUInt16)
  name n := if n then ascii "node-2" else ascii "node-1"
  addr n := if n then ascii "10.0.0.2:6379" else ascii "10.0.0.1:6379"
  slotOwner slot := decide (8192 ≤ slot)
  name_injective := by
    intro n n' h
    revert h
    cases n <;> cases n' <;> decide
  addr_injective := by
    intro n n' h
    revert h
    cases n <;> cases n' <;> decide
  addr_ne := by decide
  owned := by
    intro slot hslot
    rw [SlotMap.getOwner_assign _ (.inl (mem_allSlots hslot))]
    by_cases hlow : slot < 8192
    · have hnot : ¬ 8192 ≤ slot := UInt16.not_le.mpr hlow
      simp [hlow, hnot]
    · have hhigh : 8192 ≤ slot := UInt16.not_lt.mp hlow
      simp [hlow, hhigh]

/-- `MGET a foo`, sent to the node that has neither. -/
theorem mget_handled_by_owner :
    asciiServer.verb? (ascii "MGET") = some .mget ∧
      ∀ m k, twoNodes.Uses noScripts asciiServer false [ascii "MGET", ascii "a", ascii "foo"] m k →
        m = twoNodes.owner k := by
  have hverb : asciiServer.verb? (ascii "MGET") = some .mget := by decide
  have howners : ∀ k ∈ [ascii "a", ascii "foo"], twoNodes.owner k = twoNodes.owner (ascii "a") := by
    decide +kernel
  refine ⟨hverb, ?_⟩
  exact (keys_handled_by_owner_iff twoNodes noScripts asciiServer false [ascii "a", ascii "foo"]
    (by decide)
    hverb rfl).mpr (.inr howners)

/-- `DEL a b` deletes `b` on the node that owns `a`. -/
theorem del_handled_by_other_node :
    ∃ m k, twoNodes.Uses noScripts asciiServer false [ascii "DEL", ascii "a", ascii "b"] m k ∧
      m ≠ twoNodes.owner k := by
  have hverb : asciiServer.verb? (ascii "DEL") = some .del := by decide
  refine ⟨twoNodes.owner (ascii "a"), ascii "b",
    ⟨[ascii "DEL", ascii "a", ascii "b"], ?_, .inl ?_⟩, ?_⟩
  · exact Cluster.served_by_owner (by decide) hverb rfl false (ascii "a") [ascii "b"]
  · exact del_uses noScripts [ascii "a", ascii "b"] hverb (.inl rfl) (by simp)
  · decide

end Badis
