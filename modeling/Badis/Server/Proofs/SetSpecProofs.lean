import Badis.Lib.OrdFinmap
import Badis.Server.SetSpec
import Badis.Server.Proofs.AggregateProofs
import Badis.Server.Proofs.SessionProofs
import Badis.Store.Proofs.ReadsProofs

/-!
# Proofs: the set commands refine finite sets

The stored list of members is written in whatever order the Go map is visited, so the relation
between a finite set and the store (`RepSet`) is up to that order. The loops of SADD, SREM and SPOP
are compared with the operations on finite sets, each write and read then goes through `RepSet`, and
runs follow (`sets_refine`).
-/

namespace Badis

open Lib

/-! ## The loops -/

theorem keys_toSet (l : List Bytes) : (toSet l).toFinmap.keys = l.toFinset := by
  ext x
  rw [← OrdMap.contains_iff_mem_keys, OrdMap.contains, get?_toSet, List.mem_toFinset]
  split_ifs with hx <;> simp [hx]

theorem toSet_entries_ne_nil {l : List Bytes} (h : l ≠ []) : (toSet l).entries ≠ [] := by
  obtain ⟨x, hx⟩ := List.exists_mem_of_ne_nil l h
  exact OrdMap.entries_ne_nil ((get?_toSet l x).trans (if_pos hx))

theorem insert_of_contains {g : GoSet} {x : Bytes} (h : g.contains x = true) :
    g.insert x () = g := by
  refine OrdMap.ext_get? fun y => ?_
  rw [OrdMap.get?_insert]
  split_ifs with hy
  · obtain ⟨u, hu⟩ := Option.isSome_iff_exists.mp h
    rw [← hy, hu]
  · rfl

/-- The loop of SADD adds the members and counts those that are new. -/
theorem saddLoop_eq (args : List Bytes) (g : GoSet) (n : Nat) :
    saddLoop args g n =
      (args.foldl (fun g x => g.insert x ()) g, n + (args.toFinset \ g.toFinmap.keys).card) := by
  induction args generalizing g n with
  | nil => simp [saddLoop]
  | cons x args ih =>
    rw [saddLoop, List.toFinset_cons, card_insert_sdiff, List.foldl_cons,
      ← OrdMap.keys_insert g x ()]
    by_cases hx : g.contains x = true
    · rw [if_pos hx, if_pos ((g.contains_iff_mem_keys _).mp hx), insert_of_contains hx, ih,
        Nat.zero_add]
    · rw [if_neg hx, if_neg fun h => hx ((g.contains_iff_mem_keys _).mpr h), ih, Nat.add_assoc]

/-- The loop of SREM removes the members and counts those that were there. -/
theorem sremLoop_eq (args : List Bytes) (g : GoSet) (n : Nat) :
    sremLoop args g n =
      (args.foldl (fun g x => g.erase x) g, n + (args.toFinset ∩ g.toFinmap.keys).card) :=
  OrdMap.eraseLoop_eq (fun _ _ => rfl) (fun _ _ _ _ => rfl) args g n

/-- The loop of SPOP takes members in the order of the map until it has enough. -/
theorem spopLoop_eq (n : Nat) (l : List Bytes) (g : GoSet) (popped : List Bytes) :
    spopLoop n l g popped =
      ((l.take (n - popped.length)).foldl (fun g x => g.erase x) g,
        popped ++ l.take (n - popped.length)) := by
  induction l generalizing g popped with
  | nil => simp [spopLoop]
  | cons x l ih =>
    rw [spopLoop]
    by_cases hn : n ≤ popped.length
    · rw [if_pos (by exact_mod_cast hn), Nat.sub_eq_zero_of_le hn]
      simp
    · have hsucc : n - popped.length = n - (popped ++ [x]).length + 1 := by
        rw [List.length_append, List.length_singleton]
        omega
      rw [if_neg (by exact_mod_cast hn), ih, hsucc, List.take_succ_cons, List.foldl_cons,
        List.append_assoc]
      rfl

theorem keys_foldl_insert (args : List Bytes) (g : GoSet) :
    (args.foldl (fun g x => g.insert x ()) g).toFinmap.keys = g.toFinmap.keys ∪ args.toFinset := by
  induction args generalizing g with
  | nil => simp
  | cons x args ih =>
    rw [List.foldl_cons, ih, OrdMap.keys_insert, List.toFinset_cons, Finset.insert_union,
      Finset.union_insert]

theorem keys_foldl_erase (args : List Bytes) (g : GoSet) :
    (args.foldl (fun g x => g.erase x) g).toFinmap.keys = g.toFinmap.keys \ args.toFinset := by
  induction args generalizing g with
  | nil => simp
  | cons x args ih =>
    rw [List.foldl_cons, ih, OrdMap.keys_erase, List.toFinset_cons, Finset.sdiff_insert,
      Finset.erase_sdiff_comm]

/-! ## What a key stores -/

/-- A set as what the store shows of a key. -/
def setView (g : GoSet) : View := if g.entries = [] then none else some (.set g, 0)

section Stores

variable {c : Codec} {t start : Nat} {s : Slot} {x : Finset Bytes}

/-- The view of a key that stores these members is the set of them. -/
theorem StoresMembers.view {l : List Bytes} (h : StoresMembers c t s l) :
    s.view c t = setView (toSet l) := by
  cases h with
  | nothing habsent =>
    rw [Slot.view, habsent]
    rfl
  | @entry e _ hne hlive hexp htyp hdecode =>
    have hset : Value.decode c typeSet e.value = .set (toSet l) := by
      rw [Value.decode, if_neg (by decide), if_neg (by decide), if_neg (by decide), if_pos rfl,
        decodeSet, hdecode]
      rfl
    rw [Slot.view, hlive, setView, if_neg (toSet_entries_ne_nil hne), htyp, ← hexp, ← hset]
    rfl

theorem RepSet.view (h : RepSet c start x s) :
    ∃ g : GoSet, g.toFinmap.keys = x ∧ ∀ t, start ≤ t → s.view c t = setView g := by
  obtain ⟨l, -, rfl, hstores⟩ := h
  exact ⟨toSet l, keys_toSet l, fun t ht => (hstores t ht).view⟩

/-- A range over the map of a set visits every member once. -/
theorem keys_perm_visit (order : RangeOrder) (g : GoSet) :
    (order.visit g.keys).Nodup ∧ (order.visit g.keys).toFinset = g.toFinmap.keys := by
  have hperm := order.perm g.keys
  refine ⟨hperm.nodup_iff.mpr g.keys_nodup, ?_⟩
  ext y
  rw [List.mem_toFinset, hperm.mem_iff, ← Finset.mem_val, OrdMap.keys_toFinmap, Multiset.mem_coe]

/-- A set is stored as the members in the order in which the map was visited. -/
theorem stores_putSet (hc : c.Lawful) (env : Env) (g : GoSet) (s : Slot) :
    StoresMembers c t ((putSet g 0).onSlot c env s) (env.members.visit g.keys) := by
  have hperm := env.members.perm g.keys
  unfold putSet
  by_cases hnil : g.entries = []
  · have hvisit : env.members.visit g.keys = [] := by
      rw [OrdMap.keys, hnil] at hperm ⊢
      exact hperm.eq_nil
    rw [if_pos hnil, hvisit]
    exact .nothing rfl
  · have hvisit : env.members.visit g.keys ≠ [] := by
      intro hvisit
      rw [hvisit] at hperm
      exact hnil (List.map_eq_nil_iff.mp hperm.symm.eq_nil)
    rw [if_neg hnil]
    exact .entry hvisit rfl rfl rfl (hc.decodeStrings_encodeStrings _)

theorem repSet_putSet (hc : c.Lawful) (env : Env) (g : GoSet) (s : Slot) :
    RepSet c start g.toFinmap.keys ((putSet g 0).onSlot c env s) :=
  ⟨env.members.visit g.keys, (keys_perm_visit env.members g).1, (keys_perm_visit env.members g).2,
    fun _ _ => stores_putSet hc env g s⟩

theorem repSet_nothing : RepSet c start ∅ ⟨none, none⟩ :=
  ⟨[], List.nodup_nil, rfl, fun _ _ => .nothing rfl⟩

end Stores

/-! ## Writes -/

section Writes

variable {c : Codec} (hc : c.Lawful) {start : Nat} {env : Env} {x : Finset Bytes} {s : Slot}

theorem readView_setView (env : Env) (g : GoSet) : readView env Value.asSet (setView g) =
    .ok (if g.entries = [] then none else some (g, 0)) := readView_unless env rfl

theorem getD_setView (g : GoSet) :
    ((if g.entries = [] then none else some (g, 0)) : Option (GoSet × Int64)).getD
      (OrdMap.empty, 0) = (g, 0) :=
  getD_unless fun hnil => by rw [OrdMap.eq_empty_of_entries hnil]

include hc

/-- SADD leaves the union, and counts the members that were not there. -/
theorem sadd_repSet (h : RepSet c start x s) (happlied : start ≤ env.clock.now) (key : Bytes)
    {args : List Bytes} (hargs : args ≠ []) :
    ∃ act, plan env { op := .sadd, key := key, args := args } (s.view c env.clock.now) =
        .ok (.int (args.toFinset \ x).card, act) ∧
      RepSet c start (x ∪ args.toFinset) (act.onSlot c env s) := by
  obtain ⟨g, rfl, hview⟩ := h.view
  have hne : (args.foldl (fun g x => g.insert x ()) g).entries ≠ [] := by
    have hloop : (saddLoop args g 0).1.entries ≠ [] := saddLoop_ne_nil 0 (.inr hargs)
    rwa [saddLoop_eq] at hloop
  refine ⟨putSet (args.foldl (fun g x => g.insert x ()) g) 0, ?_, ?_⟩
  · show planSAdd env { op := .sadd, key := key, args := args } _ = _
    rw [hview _ happlied, planSAdd, readView_setView, putSet, if_neg hne]
    simp only [bind, Except.bind, getD_setView, saddLoop_eq, Nat.zero_add]
    rfl
  · rw [← keys_foldl_insert]
    exact repSet_putSet hc env _ s

/-- SREM leaves the difference, and counts the members that were there. -/
theorem srem_repSet (h : RepSet c start x s) (happlied : start ≤ env.clock.now) (key : Bytes)
    (args : List Bytes) :
    ∃ act, plan env { op := .srem, key := key, args := args } (s.view c env.clock.now) =
        .ok (.int (args.toFinset ∩ x).card, act) ∧
      RepSet c start (x \ args.toFinset) (act.onSlot c env s) := by
  obtain ⟨g, rfl, hview⟩ := h.view
  show ∃ act, planSRem env { op := .srem, key := key, args := args } _ = _ ∧ _
  rw [hview _ happlied, planSRem, readView_setView]
  by_cases hnil : g.entries = []
  · have hempty : g.toFinmap.keys = ∅ := by
      rw [OrdMap.eq_empty_of_entries hnil]
      rfl
    rw [hempty] at h ⊢
    refine ⟨.keep, ?_, ?_⟩
    · rw [if_pos hnil, Finset.inter_empty]
      rfl
    · rw [Finset.empty_sdiff]
      exact h
  · rw [if_neg hnil]
    simp only [bind, Except.bind, if_pos, sremLoop_eq, Nat.zero_add]
    refine ⟨_, rfl, ?_⟩
    rw [← keys_foldl_erase]
    exact repSet_putSet hc env _ s

/-- SPOP takes the members that the iteration meets first. -/
theorem spop_repSet (h : RepSet c start x s) (happlied : start ≤ env.clock.now) (key : Bytes)
    {args : List Bytes} {n : Nat} (hn : spopCount { op := .spop, key := key, args := args } = n) :
    ∃ taken act, plan env { op := .spop, key := key, args := args } (s.view c env.clock.now) =
        .ok (spopReply { op := .spop, key := key, args := args } taken, act) ∧
      (taken.Nodup ∧ taken.length = min n x.card ∧ ∀ y ∈ taken, y ∈ x) ∧
      RepSet c start (x \ taken.toFinset) (act.onSlot c env s) := by
  obtain ⟨g, rfl, hview⟩ := h.view
  show ∃ taken act, planSRem env { op := .spop, key := key, args := args } _ = _ ∧ _
  rw [hview _ happlied, planSRem, readView_setView]
  by_cases hnil : g.entries = []
  · have hempty : g.toFinmap.keys = ∅ := by
      rw [OrdMap.eq_empty_of_entries hnil]
      rfl
    rw [hempty] at h ⊢
    refine ⟨[], .keep, ?_, ⟨List.nodup_nil, by simp, by simp⟩, ?_⟩
    · rw [if_pos hnil]
      rfl
    · rw [Finset.empty_sdiff]
      exact h
  · obtain ⟨hnodup, hmembers⟩ := keys_perm_visit env.pop g
    have hcard : (env.pop.visit g.keys).length = g.toFinmap.keys.card := by
      rw [← hmembers, List.toFinset_card_of_nodup hnodup]
    rw [if_neg hnil]
    simp only [bind, Except.bind, hn, spopLoop_eq, List.length_nil, Nat.sub_zero, List.nil_append]
    refine ⟨(env.pop.visit g.keys).take n, _, rfl,
      ⟨hnodup.sublist (List.take_sublist _ _), ?_, ?_⟩, ?_⟩
    · rw [List.length_take, hcard]
    · intro y hy
      rw [← hmembers, List.mem_toFinset]
      exact List.mem_of_mem_take hy
    · rw [← keys_foldl_erase]
      exact repSet_putSet hc env _ s

end Writes

/-! ## Reads -/

section Reads

variable {c : Codec} {t : Nat} {key : Bytes} {db : DB} {l : List Bytes}

/-- A read of the members finds them as they are stored. -/
theorem readMembers_run (h : StoresMembers c t (Slot.of db key) l) :
    (readAs t key typeSet c.decodeStrings).run db =
      (.ok (if l = [] then none else some l), db) := by
  rw [readAs_run]
  cases h with
  | nothing habsent =>
    have hget : (db.get? (userKey key)).filter (Entry.live t) = none := habsent
    rw [hget]
    rfl
  | @entry e _ hne hlive _ htyp hdecode =>
    have hget : (db.get? (userKey key)).filter (Entry.live t) = some e := hlive
    rw [hget]
    dsimp only
    rw [if_pos htyp, hdecode, if_neg hne]

theorem sMembers_stored (h : StoresMembers c t (Slot.of db key) l) :
    (sMembers c t key).run db = (.ok l, db) := by
  rw [sMembers, Txn.run_bind_ok (readMembers_run h), getD_unless id]
  rfl

/-- SISMEMBER answers by membership. -/
theorem sIsMember_stored (h : StoresMembers c t (Slot.of db key) l) (member : Bytes) :
    (sIsMember c t key member).run db = (.ok (if member ∈ l then 1 else 0), db) := by
  rw [sIsMember, Txn.run_bind_ok (readMembers_run h), getD_unless id]
  rfl

end Reads

/-! ## One request -/

section Step

variable (vm : LuaVM) (fuel : Nat) {srv : Server} (hc : srv.codec.Lawful) {start : Nat}
  {K : Bytes → Prop} {m : Bytes → Finset Bytes} {db : DB} {a : Arrival MemberRequest}
  (hallowed : a.Allowed srv start K) (hR : HoldsSets srv.codec start K m db) {key : Bytes}

/-- An answer of the reference, and a store that holds its sets. -/
def GivesSet (srv : Server) (start : Nat) (K : Bytes → Prop) (m : Bytes → Finset Bytes) (db : DB)
    (a : Arrival MemberRequest) : Prop :=
  ∃ ws m', a.request.Answers m ws m' ∧ a.Gives vm fuel srv db ws (RepSet srv.codec start) K m'

include hc hallowed hR

theorem sadd_gives {member : Bytes} {members : List Bytes}
    (hreq : a.request = .add key member members) :
    GivesSet vm fuel srv start K m db a := by
  obtain ⟨request, name, conn, env, now, order⟩ := a
  obtain rfl : request = _ := hreq
  have hk : K key := hallowed.keys key List.mem_cons_self
  obtain ⟨act, hplan, hrep⟩ :=
    sadd_repSet hc (hR key hk) hallowed.applied key (List.cons_ne_nil member members)
  have hhandler := handleVariadic_eq srv name key .sadd member members
  refine ⟨_, _, ⟨rfl, ?_⟩, gives_command vm fuel hallowed.named hhandler rfl
    (Held.of_plan hR rfl hplan hrep)⟩
  have hcard := Finset.card_sdiff_add_card (member :: members).toFinset (m key)
  show [Write.int ((member :: members).toFinset \ m key).card] = _
  rw [Function.update_self, Finset.union_comm, ← hcard]
  push_cast
  rw [add_sub_cancel_right]

theorem srem_gives {member : Bytes} {members : List Bytes}
    (hreq : a.request = .rem key member members) :
    GivesSet vm fuel srv start K m db a := by
  obtain ⟨request, name, conn, env, now, order⟩ := a
  obtain rfl : request = _ := hreq
  have hk : K key := hallowed.keys key List.mem_cons_self
  obtain ⟨act, hplan, hrep⟩ := srem_repSet hc (hR key hk) hallowed.applied key (member :: members)
  have hhandler := handleVariadic_eq srv name key .srem member members
  refine ⟨_, _, ⟨rfl, ?_⟩, gives_command vm fuel hallowed.named hhandler rfl
    (Held.of_plan hR rfl hplan hrep)⟩
  have hcard := Finset.card_sdiff_add_card_inter (m key) (member :: members).toFinset
  show [Write.int ((member :: members).toFinset ∩ m key).card] = _
  rw [Function.update_self, Finset.inter_comm, ← hcard]
  push_cast
  rw [add_sub_cancel_left]

/-- SPOP takes a member, or answers with null if there is none. -/
theorem spop_gives (hreq : a.request = .pop key) : GivesSet vm fuel srv start K m db a := by
  obtain ⟨request, name, conn, env, now, order⟩ := a
  obtain rfl : request = _ := hreq
  have hk : K key := hallowed.keys key List.mem_cons_self
  have hcount : spopCount { op := .spop, key := key } = ((1 : Nat) : Int) := rfl
  obtain ⟨taken, act, hplan, ⟨hnodup, hlen, hmem⟩, hrep⟩ :=
    spop_repSet hc (hR key hk) hallowed.applied key hcount
  have hhandler : handleSPop srv [name, key] = applyCommand srv { op := .spop, key := key } := rfl
  refine ⟨_, _, ⟨taken, ⟨hnodup, hlen, hmem, rfl⟩, ?_⟩,
    gives_command vm fuel hallowed.named hhandler rfl (Held.of_plan hR rfl hplan hrep)⟩
  cases taken <;> rfl

/-- SPOP with a count takes that many members, or all of them. -/
theorem spopCount_gives {count : { n : Numeral // 0 ≤ n.value }}
    (hreq : a.request = .popCount key count) :
    GivesSet vm fuel srv start K m db a := by
  obtain ⟨request, name, conn, env, now, order⟩ := a
  obtain rfl : request = _ := hreq
  have hk : K key := hallowed.keys key List.mem_cons_self
  have hcount : spopCount { op := .spop, key := key, args := [count.1.text] } =
      (count.1.value.toNat : Int) :=
    (Int.toNat_of_nonneg count.2).symm
  obtain ⟨taken, act, hplan, ⟨hnodup, hlen, hmem⟩, hrep⟩ :=
    spop_repSet hc (hR key hk) hallowed.applied key hcount
  have hhandler : handleSPop srv [name, key, count.1.text] =
      applyCommand srv { op := .spop, key := key, args := [count.1.text] } := by
    have hnonneg : ¬ (parseInt count.1.text).1 < 0 := by
      rw [Int64.lt_iff_toInt_lt]
      exact not_lt.mpr count.2
    have hnot : ¬ ((parseInt count.1.text).2 = false ∨ (parseInt count.1.text).1 < 0) := by
      rw [count.1.accepted]
      simp [hnonneg]
    show (if (parseInt count.1.text).2 = false ∨ (parseInt count.1.text).1 < 0 then _ else _) = _
    rw [if_neg hnot]
    rfl
  refine ⟨_, _, ⟨taken, ⟨hnodup, hlen, hmem, rfl⟩, ?_⟩,
    gives_command vm fuel hallowed.named hhandler rfl (Held.of_plan hR rfl hplan hrep)⟩
  rfl

omit hc

theorem scard_gives (hreq : a.request = .card key) : GivesSet vm fuel srv start K m db a := by
  obtain ⟨request, name, conn, env, now, order⟩ := a
  obtain rfl : request = _ := hreq
  obtain ⟨l, hnodup, hl, hstores⟩ := hR key (hallowed.keys key List.mem_cons_self)
  refine ⟨_, m, ⟨rfl, rfl⟩, gives_answer vm fuel hallowed.named ?_ hR⟩
  show answer srv ((sCard srv.codec now key).run db).1 writeNat = _
  rw [sCard, Txn.run_bind_ok (sMembers_stored (hstores now hallowed.read)), ← hl,
    List.toFinset_card_of_nodup hnodup]
  rfl

theorem smembers_gives (hreq : a.request = .allMembers key) :
    GivesSet vm fuel srv start K m db a := by
  obtain ⟨request, name, conn, env, now, order⟩ := a
  obtain rfl : request = _ := hreq
  obtain ⟨l, hnodup, hl, hstores⟩ := hR key (hallowed.keys key List.mem_cons_self)
  refine ⟨_, m, ⟨rfl, l, hnodup, hl, rfl⟩, gives_answer vm fuel hallowed.named ?_ hR⟩
  show answer srv ((sMembers srv.codec now key).run db).1 writeStrings = _
  rw [sMembers_stored (hstores now hallowed.read)]
  rfl

theorem sismember_gives {member : Bytes} (hreq : a.request = .isMember key member) :
    GivesSet vm fuel srv start K m db a := by
  obtain ⟨request, name, conn, env, now, order⟩ := a
  obtain rfl : request = _ := hreq
  obtain ⟨l, hnodup, hl, hstores⟩ := hR key (hallowed.keys key List.mem_cons_self)
  refine ⟨_, m, ⟨rfl, rfl⟩, gives_answer vm fuel hallowed.named ?_ hR⟩
  show answer srv ((sIsMember srv.codec now key member).run db).1 writeNat = _
  rw [sIsMember_stored (hstores now hallowed.read), ← hl]
  by_cases hmem : member ∈ l <;> simp [hmem, answer, writeNat]

theorem setDel_gives {keys : List Bytes} (hreq : a.request = .del key keys) :
    GivesSet vm fuel srv start K m db a := by
  obtain ⟨request, name, conn, env, now, order⟩ := a
  obtain rfl : request = _ := hreq
  have hpresent : ∀ x s, RepSet srv.codec start x s →
      ((s.view srv.codec env.clock.now).isSome = true ↔ x ≠ ∅) := by
    rintro _ s ⟨l, -, rfl, hstores⟩
    rw [(hstores _ hallowed.applied).view, setView, Ne, List.toFinset_eq_empty_iff]
    cases l with
    | nil => simp [toSet, OrdMap.empty]
    | cons x l => simp [toSet_entries_ne_nil (List.cons_ne_nil x l)]
  exact ⟨_, _, ⟨rfl, rfl⟩, gives_command vm fuel hallowed.named (handleDel_eq srv name key keys) rfl
    (Held.del hR repSet_nothing hpresent (List.cons_ne_nil _ _) hallowed.keys)⟩

end Step

/-- A request on sets is answered as the reference allows, and the store holds its sets. -/
theorem memberRequest_simulates (vm : LuaVM) (fuel : Nat) {srv : Server} (hc : srv.codec.Lawful)
    (start : Nat) (K : Bytes → Prop) :
    Simulates (Arrival.Allowed srv start K) (Arrival.serve vm fuel srv) MemberRequest.spec
      (HoldsSets srv.codec start K) := by
  intro a m db hallowed hR
  suffices hgives : GivesSet vm fuel srv start K m db a by
    obtain ⟨ws, m', hws, hout, hheld⟩ := hgives
    exact ⟨m', ⟨ws, hout, hws⟩, hheld⟩
  cases hreq : a.request with
  | add key member members => exact sadd_gives vm fuel hc hallowed hR hreq
  | rem key member members => exact srem_gives vm fuel hc hallowed hR hreq
  | pop key => exact spop_gives vm fuel hc hallowed hR hreq
  | popCount key count => exact spopCount_gives vm fuel hc hallowed hR hreq
  | card key => exact scard_gives vm fuel hallowed hR hreq
  | allMembers key => exact smembers_gives vm fuel hallowed hR hreq
  | isMember key member => exact sismember_gives vm fuel hallowed hR hreq
  | del key keys => exact setDel_gives vm fuel hallowed hR hreq

/-- Every run of requests on sets, whatever the orders in which Go maps are visited, is a run of the
reference, and leaves the keys holding its sets. -/
theorem sets_refine (vm : LuaVM) (fuel : Nat) {srv : Server} (hc : srv.codec.Lawful) {start : Nat}
    {K : Bytes → Prop} {m : Bytes → Finset Bytes} {db : DB}
    (hheld : HoldsSets srv.codec start K m db) {run : List (Arrival MemberRequest)}
    (hrun : ∀ a ∈ run, a.Allowed srv start K) :
    ∃ m', Runs MemberRequest.spec run m (exec (Arrival.serve vm fuel srv) run db).1 m' ∧
      HoldsSets srv.codec start K m' (exec (Arrival.serve vm fuel srv) run db).2 :=
  (memberRequest_simulates vm fuel hc start K).run hrun hheld

/-- `SADD s a b a` and then `SPOP s` on an empty store. -/
theorem sadd_spop_refines :
    let run :=
      [sampleArrival "SADD" (MemberRequest.add (ascii "s") (ascii "a") [ascii "b", ascii "a"]),
      sampleArrival "SPOP" (MemberRequest.pop (ascii "s"))]
    let served := exec (Arrival.serve noScripts 0 asciiServer) run OrdMap.empty
    served.1 = [.ok [.int 2], .ok [.bulk (ascii "a")]] ∧
      ∃ m', Runs MemberRequest.spec run (fun _ => ∅) served.1 m' ∧
        HoldsSets msgpack 1000000000000 (fun _ => True) m' served.2 := by
  have hheld : HoldsSets msgpack 1000000000000 (fun _ => True) (fun _ => ∅) OrdMap.empty :=
    fun _ _ => repSet_nothing
  exact ⟨rfl, sets_refine noScripts 0 msgpack_lawful hheld
    (List.forall_mem_cons.mpr ⟨sampleArrival_allowed rfl,
      List.forall_mem_cons.mpr ⟨sampleArrival_allowed rfl, List.forall_mem_nil _⟩⟩)⟩

end Badis
