import Badis.Lib.Relay
import Badis.Server.SlotChange
import Badis.Server.Proofs.ClusterProofs

/-!
# A slot gets another owner

A request is passed on from node to node by the slot maps (`servedAfter_iff`). While a slot changes
its owner on one node after the other, a node sends the request to the new owner if it has been told
of the change and to the old one otherwise. What comes of that depends on which of the two is told
first.
-/

namespace Badis

open Lib

/-! ## The way of a request -/

section Routing

variable {ι : Type} {nodes : Nodes ι} {srv : Server} {name : Bytes} {verb : Verb}
variable (hname : name.all (· < 128) = true) (hverb : srv.verb? name = some verb)
  (hdata : verb.isData = true)

/-- A node looks a key up in its own map. -/
theorem SlotMaps.locateKey_eq (maps : SlotMaps nodes) (n : ι) (key : Bytes) :
    (maps.router n).locateKey key =
      ((nodes.entry (maps.owner? n (keyToSlot key))).1,
        (nodes.entry (maps.owner? n (keyToSlot key))).2,
        decide ((nodes.entry (maps.owner? n (keyToSlot key))).1 = nodes.name n)) := by
  have hslot : keyToSlot key < 16384 := UInt16.mod_lt _ (by decide)
  have howned := maps.owned n (keyToSlot key) hslot
  unfold Router.locateKey SlotMaps.router
  dsimp only
  rw [howned]

variable [DecidableEq ι]

include hname hverb hdata

omit [DecidableEq ι] in
/-- A command that names keys is served by the node, or sent on as it is. -/
theorem handleCmd_keyed (router : Router) (key : Bytes) (rest : List Bytes) :
    handleCmd srv router (name :: key :: rest) =
      .ok (if (router.locateKey key).2.2 = true ∨ (router.locateKey key).2.1 = [] then .serve
        else .proxy (router.locateKey key).2.1 (name :: key :: rest)) := by
  have hother := Cluster.name_not_local hname hverb hdata
  have hzero : goIndex (name :: key :: rest) 0 = .ok name := rfl
  have hone : goIndex (name :: key :: rest) 1 = .ok key := rfl
  have hspecial :
    ¬ (toUpper srv.upper name = ascii "CLIENT" ∨ toUpper srv.upper name = ascii "EVAL" ∨
      toUpper srv.upper name = ascii "EVALSHA" ∨ toUpper srv.upper name = ascii "SCRIPT") := by
    rintro (h | h | h | h) <;> exact hother _ (by simp) h
  have hlen : ¬ (name :: key :: rest).length < 2 := by
    rw [List.length_cons, List.length_cons]
    omega
  unfold handleCmd
  rw [hzero]
  dsimp only [bind, Except.bind]
  rw [if_neg (hother _ (by simp)), if_neg hspecial, if_neg hlen, hone]
  dsimp only
  split_ifs <;> rfl

/-- A request for a key that the node takes for its own is handed to the mux. -/
theorem SlotMaps.handleCmd_serve {maps : SlotMaps nodes} {n : ι} {key : Bytes}
    (h : maps.sendsTo key n = none) (rest : List Bytes) :
    handleCmd srv (maps.router n) (name :: key :: rest) = .ok .serve := by
  rw [handleCmd_keyed hname hverb hdata, maps.locateKey_eq]
  unfold SlotMaps.sendsTo at h
  cases howner : maps.owner? n (keyToSlot key) with
  | none => exact congrArg Except.ok (if_pos (.inr rfl))
  | some m =>
    rw [howner, Option.filter_some, ite_eq_right_iff] at h
    have hm : m = n := by
      by_contra hne
      cases h (decide_eq_true hne)
    subst hm
    exact congrArg Except.ok (if_pos (.inl (decide_eq_true rfl)))

theorem SlotMaps.handleCmd_proxy {maps : SlotMaps nodes} {n m : ι} {key : Bytes}
    (h : maps.sendsTo key n = some m) (rest : List Bytes) :
    handleCmd srv (maps.router n) (name :: key :: rest) =
      .ok (.proxy (nodes.addr m) (name :: key :: rest)) := by
  obtain ⟨howner, hne⟩ := Option.filter_eq_some_iff.mp h
  have hremote : ¬ (decide (nodes.name m = nodes.name n) = true ∨ nodes.addr m = []) := by
    rintro (hsame | haddr)
    · exact of_decide_eq_true hne (nodes.name_injective (of_decide_eq_true hsame))
    · exact nodes.addr_ne m haddr
  rw [handleCmd_keyed hname hverb hdata, maps.locateKey_eq, howner]
  exact congrArg Except.ok (if_neg hremote)

/-- A request goes from node to node as the slot maps say, and stays as it is. -/
theorem SlotMaps.servedAfter_iff {maps : Nat → SlotMaps nodes} {n m : ι} {key : Bytes}
    {rest args' : List Bytes} {hops : Nat} :
    ServedAfter srv maps n (name :: key :: rest) hops m args' ↔
      Kept (fun k => (maps k).sendsTo key) n hops m ∧ args' = name :: key :: rest := by
  induction hops generalizing maps n with
  | zero =>
    rw [kept_zero_iff]
    constructor
    · intro h
      cases h with
      | here hserve =>
        refine ⟨⟨rfl, ?_⟩, rfl⟩
        by_contra hsome
        obtain ⟨m, hm⟩ := Option.ne_none_iff_exists'.mp hsome
        rw [SlotMaps.handleCmd_proxy hname hverb hdata hm] at hserve
        cases hserve
    · rintro ⟨⟨rfl, hkeeps⟩, rfl⟩
      exact .here (SlotMaps.handleCmd_serve hname hverb hdata hkeeps rest)
  | succ hops ih =>
    rw [kept_succ_iff]
    constructor
    · intro h
      cases h with
      | @proxied _ _ n' _ _ args'' _ _ hproxy hserved =>
        cases hsends : (maps 0).sendsTo key n with
        | none =>
          rw [SlotMaps.handleCmd_serve hname hverb hdata hsends] at hproxy
          cases hproxy
        | some n'' =>
          rw [SlotMaps.handleCmd_proxy hname hverb hdata hsends] at hproxy
          obtain ⟨haddr, hargs⟩ := Route.proxy.inj (Except.ok.inj hproxy)
          have hn : n'' = n' := nodes.addr_injective haddr
          subst hn hargs
          obtain ⟨hkept, hargs'⟩ := ih.mp hserved
          exact ⟨⟨n'', rfl, hkept⟩, hargs'⟩
    · rintro ⟨⟨n', hsends, hkept⟩, rfl⟩
      exact .proxied (SlotMaps.handleCmd_proxy hname hverb hdata hsends rest) (ih.mpr ⟨hkept, rfl⟩)

/-- A node serves a request if it is kept there after some hops. -/
theorem SlotMaps.serves_iff {maps : SlotMaps nodes} {n m : ι} {key : Bytes} {rest : List Bytes} :
    maps.Serves srv n (name :: key :: rest) m ↔
      ∃ hops, Kept (fun _ => maps.sendsTo key) n hops m := by
  constructor
  · rintro ⟨hops, args', h⟩
    exact ⟨hops, ((SlotMaps.servedAfter_iff hname hverb hdata).mp h).1⟩
  · rintro ⟨hops, h⟩
    exact ⟨hops, _, (SlotMaps.servedAfter_iff hname hverb hdata).mpr ⟨h, rfl⟩⟩

end Routing

/-! ## Who sends a request where during the change -/

section Change

variable {ι : Type} [DecidableEq ι]

/-- Where a node sends a request when the nodes `told` have been told that the slot of `src` is that
of `dst`. -/
def pointsTo (src dst : ι) (told : List ι) (n : ι) : Option ι :=
  (some (if n ∈ told then dst else src)).filter fun m => m ≠ n

/-- The nodes that have been told have the new owner in their maps, the others what they had. -/
theorem owner?_tell {nodes : Nodes ι} (maps : SlotMaps nodes) (slot : UInt16) (dst : ι)
    (told : List ι) (n : ι) :
    (maps.tell slot dst told).owner? n slot = if n ∈ told then some dst
      else maps.owner? n slot := by
  induction told generalizing maps with
  | nil => rfl
  | cons n' told ih =>
    have hstep : (maps.setOwner n' slot dst).owner? n slot = if n = n' then some dst
        else maps.owner? n slot := by
      unfold SlotMaps.setOwner
      by_cases hn : n = n'
      · subst hn
        simp
      · rw [if_neg hn]
        simp [hn]
    refine (ih (maps.setOwner n' slot dst)).trans ?_
    rw [hstep]
    by_cases htold : n ∈ told
    · rw [if_pos htold, if_pos (List.mem_cons_of_mem _ htold)]
    · simp only [List.mem_cons, htold, or_false, if_false]

/-- So a node that has been told sends a request to the new owner, and one that has not to the old
owner. -/
theorem sendsTo_tell {nodes : Nodes ι} {maps : SlotMaps nodes} {src : ι} {key : Bytes}
    (hsrc : ∀ n, maps.owner? n (keyToSlot key) = some src) (dst : ι) (told : List ι) :
    (maps.tell (keyToSlot key) dst told).sendsTo key = pointsTo src dst told := by
  funext n
  unfold SlotMaps.sendsTo pointsTo
  rw [owner?_tell, hsrc]
  by_cases htold : n ∈ told
  · rw [if_pos htold, if_pos htold]
  · rw [if_neg htold, if_neg htold]

variable {src dst n : ι} {told : List ι}

/-- The new owner keeps requests once it has been told. -/
theorem pointsTo_dst (h : dst ∈ told) : pointsTo src dst told dst = none := by
  simp [pointsTo, h]

/-- The old owner keeps requests until it is told. -/
theorem pointsTo_src (h : src ∉ told) : pointsTo src dst told src = none := by
  simp [pointsTo, h]

theorem pointsTo_of_told (h : n ∈ told) (hn : n ≠ dst) : pointsTo src dst told n = some dst := by
  simp [pointsTo, h, Ne.symm hn]

theorem pointsTo_of_not_told (h : n ∉ told) (hn : n ≠ src) :
    pointsTo src dst told n = some src := by
  simp [pointsTo, h, Ne.symm hn]

/-- What a node can do. -/
theorem pointsTo_cases (src dst : ι) (told : List ι) (n : ι) :
    n = dst ∧ pointsTo src dst told n = none ∨ n = src ∧ pointsTo src dst told n = none ∨
      pointsTo src dst told n = some dst ∨ pointsTo src dst told n = some src := by
  by_cases htold : n ∈ told
  · by_cases hn : n = dst
    · subst hn
      exact .inl ⟨rfl, pointsTo_dst htold⟩
    · exact .inr (.inr (.inl (pointsTo_of_told htold hn)))
  · by_cases hn : n = src
    · subst hn
      exact .inr (.inl ⟨rfl, pointsTo_src htold⟩)
    · exact .inr (.inr (.inr (pointsTo_of_not_told htold hn)))

/-! ### Requests on their way -/

section OnTheWay

variable {told : Nat → List ι}

/-- After at most `bound` hops the old or the new owner has the request. -/
def Arrives (src dst : ι) (told : Nat → List ι) (n : ι) (bound : Nat) : Prop :=
  ∃ hops ≤ bound, ∃ m, (m = src ∨ m = dst) ∧ Kept (fun k => pointsTo src dst (told k)) n hops m

theorem Arrives.mono {b b' : Nat} (h : Arrives src dst told n b) (hb : b ≤ b') :
    Arrives src dst told n b' := by
  obtain ⟨hops, hle, hkept⟩ := h
  exact ⟨hops, hle.trans hb, hkept⟩

theorem Arrives.here (hn : n = src ∨ n = dst) (h : pointsTo src dst (told 0) n = none) (b : Nat) :
    Arrives src dst told n b :=
  ⟨0, Nat.zero_le b, n, hn, kept_zero_iff.mpr ⟨rfl, h⟩⟩

/-- One hop more, with the maps one step further. -/
theorem Arrives.passed {n' : ι} {b : Nat} (h : pointsTo src dst (told 0) n = some n')
    (h' : Arrives src dst (fun k => told (k + 1)) n' b) : Arrives src dst told n (b + 1) := by
  obtain ⟨hops, hle, m, hm, hkept⟩ := h'
  exact ⟨hops + 1, Nat.succ_le_succ hle, m, hm, kept_succ_iff.mpr ⟨n', h, hkept⟩⟩

/-- A request that gets to the old or the new owner in time does so from every node. -/
theorem Arrives.of_owners {b : Nat} (hdst : Arrives src dst (fun k => told (k + 1)) dst b)
    (hsrc : Arrives src dst (fun k => told (k + 1)) src b) (n : ι) :
    Arrives src dst told n (b + 1) := by
  rcases pointsTo_cases src dst (told 0) n with ⟨hn, hnone⟩ | ⟨hn, hnone⟩ | hsome | hsome
  · exact .here (.inr hn) hnone _
  · exact .here (.inl hn) hnone _
  · exact .passed hsome hdst
  · exact .passed hsome hsrc

/-- The new owner has been told. -/
theorem Arrives.of_dst_told (hdst : ∀ k, dst ∈ told k) (n : ι) : Arrives src dst told n 2 := by
  have hdst' : ∀ b told', (∀ k, dst ∈ told' k) → Arrives src dst told' dst b :=
    fun b told' h => .here (.inr rfl) (pointsTo_dst (h 0)) b
  have hsrc : Arrives src dst (fun k => told (k + 1)) src 1 := by
    by_cases hsrc : src ∈ told 1
    · by_cases hne : src = dst
      · subst hne
        exact hdst' 1 _ fun k => hdst (k + 1)
      · exact .passed (pointsTo_of_told hsrc hne) (hdst' 0 _ fun k => hdst (k + 2))
    · exact .here (.inl rfl) (pointsTo_src hsrc) 1
  exact .of_owners (hdst' 1 _ fun k => hdst (k + 1)) hsrc n

/-- Two hops after the new owner has been told, the request has arrived. -/
theorem Arrives.of_dst_told_at {k : Nat} (hgrow : ∀ k, told k ⊆ told (k + 1)) (hdst : dst ∈ told k)
    (n : ι) :
    Arrives src dst told n (k + 2) := by
  induction k generalizing told n with
  | zero =>
    have hall : ∀ k, dst ∈ told k := by
      intro k
      induction k with
      | zero => exact hdst
      | succ k ih => exact hgrow k ih
    exact .of_dst_told hall n
  | succ k ih =>
    have hrest : ∀ n, Arrives src dst (fun k => told (k + 1)) n (k + 2) :=
      ih (fun k => hgrow (k + 1)) hdst
    exact .of_owners (hrest dst) (hrest src) n

/-- The new owner is told before the old one. -/
theorem Arrives.of_dst_first (hgrow : ∀ k, told k ⊆ told (k + 1))
    (hfirst : ∀ k, src ∈ told k → dst ∈ told k) (n : ι) : Arrives src dst told n 3 := by
  have hsrc : ∀ told' : Nat → List ι, (∀ k, told' k ⊆ told' (k + 1)) →
    (∀ k, src ∈ told' k → dst ∈ told' k) →
      Arrives src dst told' src 1 := by
    intro told' hgrow' hfirst'
    by_cases htold : src ∈ told' 0
    · have hdst : dst ∈ told' 1 := hgrow' 0 (hfirst' 0 htold)
      by_cases hne : src = dst
      · subst hne
        exact .here (.inl rfl) (pointsTo_dst htold) 1
      · exact .passed (pointsTo_of_told htold hne) (.here (.inr rfl) (pointsTo_dst hdst) 0)
    · exact .here (.inl rfl) (pointsTo_src htold) 1
  have hdst : Arrives src dst (fun k => told (k + 1)) dst 2 := by
    by_cases htold : dst ∈ told 1
    · exact .here (.inr rfl) (pointsTo_dst htold) 2
    · by_cases hne : dst = src
      · subst hne
        exact .here (.inr rfl) (pointsTo_src htold) 2
      · exact .passed (pointsTo_of_not_told htold hne)
          (hsrc _ (fun k => hgrow (k + 2)) fun k => hfirst (k + 2))
  have hsrc' := hsrc (fun k => told (k + 1)) (fun k => hgrow (k + 1)) fun k => hfirst (k + 1)
  exact .of_owners hdst (hsrc'.mono (by omega)) n

end OnTheWay

/-! ### Requests between two changes -/

section Between

variable {m : ι} {told order : List ι}

/-- The old owner has been told and the new one has not: no node keeps a request. -/
theorem not_kept_of_src_first (hsrc : src ∈ told) (hdst : dst ∉ told) (hops : Nat) :
    ¬ Kept (fun _ => pointsTo src dst told) n hops m := by
  refine not_kept_of_closed (s := fun _ => True) (fun _ n' _ => ?_) trivial
  by_cases htold : n' ∈ told
  · have hn : n' ≠ dst := by
      rintro rfl
      exact hdst htold
    exact ⟨dst, pointsTo_of_told htold hn, trivial⟩
  · have hn : n' ≠ src := by
      rintro rfl
      exact htold hsrc
    exact ⟨src, pointsTo_of_not_told htold hn, trivial⟩

/-- The new owner has been told if the old one has: every request is kept somewhere. -/
theorem kept_of_dst_first (h : src ∈ told → dst ∈ told) (n : ι) :
    ∃ m hops, Kept (fun _ => pointsTo src dst told) n hops m := by
  obtain ⟨hops, -, m, -, hkept⟩ :=
    Arrives.of_dst_first (fun _ => List.Subset.refl told) (fun _ => h) n
  exact ⟨m, hops, hkept⟩

/-- Who keeps a request is the new owner if it has been told, and the old one otherwise. -/
theorem keeper_of_src_first (h : dst ∈ told → src ∈ told) {hops : Nat}
    (hkept : Kept (fun _ => pointsTo src dst told) n hops m) :
    m = if dst ∈ told then dst else src := by
  have hkeeps := hkept.keeps
  by_cases htold : m ∈ told
  · have hm : m = dst := by
      by_contra hne
      rw [pointsTo_of_told htold hne] at hkeeps
      cases hkeeps
    subst hm
    rw [if_pos htold]
  · have hm : m = src := by
      by_contra hne
      rw [pointsTo_of_not_told htold hne] at hkeeps
      cases hkeeps
    subst hm
    rw [if_neg fun hdst => htold (h hdst)]

theorem mem_told_iff {a : ι} (ha : a ∈ order) (h : told <+: order) :
    a ∈ told ↔ order.idxOf a < told.length := by
  rw [← List.mem_take_iff_idxOf_lt ha, ← List.prefix_iff_eq_take.mp h]

/-- One of two nodes is told first. -/
theorem exists_told_between {a b : ι} (ha : a ∈ order) (hb : b ∈ order)
    (hlt : order.idxOf a < order.idxOf b) :
    ∃ told, told <+: order ∧ a ∈ told ∧ b ∉ told := by
  refine ⟨order.take (order.idxOf a + 1), List.take_prefix _ _, ?_, ?_⟩
  · rw [List.mem_take_iff_idxOf_lt ha]
    omega
  · rw [List.mem_take_iff_idxOf_lt hb]
    omega

/-- Nodes are told in order. -/
theorem told_of_told {a b : ι} (ha : a ∈ order) (hb : b ∈ order)
    (hlt : order.idxOf a < order.idxOf b) (h : told <+: order) (htold : b ∈ told) : a ∈ told := by
  rw [mem_told_iff hb h] at htold
  rw [mem_told_iff ha h]
  omega

end Between

end Change

/-! ## Slot maps that differ, and the change of an owner -/

section Results

variable {ι : Type} [DecidableEq ι] {nodes : Nodes ι} {srv : Server} {name : Bytes} {verb : Verb}

/-- Whatever is in the slot maps of the nodes: a request is proxied fewer times than there are nodes
and then served by one of them, as it was sent, or the nodes proxy it for ever and none serves
it. -/
theorem served_within_nodes (hname : name.all (· < 128) = true) (hverb : srv.verb? name = some verb)
    (hdata : verb.isData = true) [Fintype ι] (maps : SlotMaps nodes) (n : ι) (key : Bytes)
    (rest : List Bytes) :
    (∃ hops < Fintype.card ι, ∃ m, ∀ hops' m' args',
        SlotMaps.ServedAfter srv (fun _ => maps) n (name :: key :: rest) hops' m' args' ↔
          hops' = hops ∧ m' = m ∧ args' = name :: key :: rest) ∨
      ∀ m, ¬ maps.Serves srv n (name :: key :: rest) m := by
  by_cases hserved : ∃ m hops, Kept (fun _ => maps.sendsTo key) n hops m
  · obtain ⟨m, hops, hkept⟩ := hserved
    refine .inl ⟨hops, hkept.lt_card, m, fun hops' m' args' => ?_⟩
    rw [SlotMaps.servedAfter_iff hname hverb hdata]
    constructor
    · rintro ⟨hkept', hargs⟩
      obtain ⟨hhops, hm⟩ := hkept.unique hkept'
      exact ⟨hhops.symm, hm.symm, hargs⟩
    · rintro ⟨rfl, rfl, hargs⟩
      exact ⟨hkept, hargs⟩
  · refine .inr fun m hserves => hserved ?_
    exact ⟨m, (SlotMaps.serves_iff hname hverb hdata).mp hserves⟩

/-- The slot of `a` changes to the other of two nodes. When only the old owner has been told, each
of them takes the other for the owner, and `GET a` is never served. When only the new owner has been
told, each takes itself for it, and the old owner serves the request at once. -/
theorem served_within_two_nodes :
    let src := twoNodes.owner (ascii "a")
    let told := fun n => twoNodes.slotMaps.tell (keyToSlot (ascii "a")) (!src) [n]
    (∀ m, ¬ (told src).Serves asciiServer src [ascii "GET", ascii "a"] m) ∧
      ∀ hops m args, SlotMaps.ServedAfter asciiServer (fun _ => told (!src)) src
        [ascii "GET", ascii "a"] hops m args ↔
        hops = 0 ∧ m = src ∧ args = [ascii "GET", ascii "a"] := by
  intro src told
  have hverb : asciiServer.verb? (ascii "GET") = some .get := by decide
  have hsends : ∀ n, (told n).sendsTo (ascii "a") = pointsTo src (!src) [n] :=
    fun n => sendsTo_tell (fun _ => rfl) (!src) [n]
  constructor
  · rcases served_within_nodes (by decide) hverb rfl (told src) src (ascii "a")
      [] with ⟨hops, -, m, h⟩ | h
    · have hkept :=
        ((SlotMaps.servedAfter_iff (by decide) hverb rfl).mp ((h hops m _).mpr ⟨rfl, rfl, rfl⟩)).1
      rw [hsends] at hkept
      exact absurd hkept (not_kept_of_src_first List.mem_cons_self (by simp) hops)
    · exact h
  · have hserved :
      SlotMaps.ServedAfter asciiServer (fun _ => told (!src)) src [ascii "GET", ascii "a"] 0 src
        [ascii "GET", ascii "a"] := by
      refine (SlotMaps.servedAfter_iff (by decide) hverb rfl).mpr ⟨kept_zero_iff.mpr ⟨rfl, ?_⟩, rfl⟩
      rw [hsends]
      exact pointsTo_src (by simp)
    rcases served_within_nodes (by decide) hverb rfl (told (!src)) src (ascii "a")
      [] with ⟨hops, -, m, h⟩ | h
    · obtain ⟨rfl, rfl, -⟩ := (h 0 src _).mp hserved
      exact h
    · exact absurd ⟨_, _, hserved⟩ (h src)

/-- The order in which the nodes are told. All nodes have `src` as the owner of the slot of `key`,
and are told one after the other, in any order, that it is `dst`. Every request for the key is
served all the time exactly when `dst` is told before `src`; and it is never served by two nodes
exactly when `src` is told before `dst`. So no order gives both. -/
theorem slot_change_order (hname : name.all (· < 128) = true) (hverb : srv.verb? name = some verb)
    (hdata : verb.isData = true) {maps : SlotMaps nodes} {src dst : ι} {key : Bytes}
    (hsrc : ∀ n, maps.owner? n (keyToSlot key) = some src) (hne : src ≠ dst) {order : List ι}
    (hsrcIn : src ∈ order) (hdstIn : dst ∈ order) (rest : List Bytes) :
    ((∀ told, told <+: order →
      ∀ n, ∃ m, (maps.tell (keyToSlot key) dst told).Serves srv n (name :: key :: rest) m) ↔
        order.idxOf dst < order.idxOf src) ∧
      ((∀ told, told <+: order → ∀ n m n' m',
          (maps.tell (keyToSlot key) dst told).Serves srv n (name :: key :: rest) m →
          (maps.tell (keyToSlot key) dst told).Serves srv n' (name :: key :: rest) m' → m = m') ↔
        order.idxOf src < order.idxOf dst) := by
  have hserves :
    ∀ told n m, (maps.tell (keyToSlot key) dst told).Serves srv n (name :: key :: rest) m ↔
      ∃ hops, Kept (fun _ => pointsTo src dst told) n hops m := by
    intro told n m
    rw [SlotMaps.serves_iff hname hverb hdata, sendsTo_tell hsrc]
  have hidx : order.idxOf src ≠ order.idxOf dst := fun h => hne ((List.idxOf_inj hsrcIn).mp h)
  refine ⟨⟨fun h => ?_, fun hlt told htold n => ?_⟩,
    ⟨fun h => ?_, fun hlt told htold n m n' m' hn hn' => ?_⟩⟩
  · by_contra hlt
    obtain ⟨told, htold, hsrcTold, hdstTold⟩ := exists_told_between hsrcIn hdstIn (by omega)
    obtain ⟨m, hm⟩ := h told htold src
    obtain ⟨hops, hkept⟩ := (hserves told src m).mp hm
    exact not_kept_of_src_first hsrcTold hdstTold hops hkept
  · obtain ⟨m, hkept⟩ := kept_of_dst_first (told_of_told hdstIn hsrcIn hlt htold) n
    exact ⟨m, (hserves told n m).mpr hkept⟩
  · by_contra hlt
    obtain ⟨told, htold, hdstTold, hsrcTold⟩ := exists_told_between hdstIn hsrcIn (by omega)
    -- either owner serves what comes to it
    have hsame := h told htold src src dst dst
      ((hserves _ _ _).mpr ⟨0, kept_zero_iff.mpr ⟨rfl, pointsTo_src hsrcTold⟩⟩)
      ((hserves _ _ _).mpr ⟨0, kept_zero_iff.mpr ⟨rfl, pointsTo_dst hdstTold⟩⟩)
    exact hne hsame
  · have hfirst := told_of_told hsrcIn hdstIn hlt htold
    obtain ⟨hops, hkept⟩ := (hserves told n m).mp hn
    obtain ⟨hops', hkept'⟩ := (hserves told n' m').mp hn'
    rw [keeper_of_src_first hfirst hkept, keeper_of_src_first hfirst hkept']

/-- The slot of `a` changes to the other of two nodes, which is told first. -/
theorem slot_change_new_owner_first :
    let src := twoNodes.owner (ascii "a")
    ∀ told, told <+: [!src, src] → ∀ n, ∃ m,
      (twoNodes.slotMaps.tell (keyToSlot (ascii "a")) (!src) told).Serves asciiServer n
        [ascii "GET", ascii "a"] m := by
  intro src
  have hverb : asciiServer.verb? (ascii "GET") = some .get := by decide
  have hne : src ≠ !src := by
    cases src <;> decide
  refine (slot_change_order (by decide) hverb rfl (fun _ => rfl) hne (by simp) (by simp)
    []).1.mpr ?_
  cases src <;> decide

/-- A request on its way while the nodes are told: `told k` have been told when it has been proxied
`k` times. It is served by the old or the new owner at the latest two hops after the new owner has
been told, and within three hops if the new owner is told before the old one. -/
theorem slot_change_on_the_way (hname : name.all (· < 128) = true)
    (hverb : srv.verb? name = some verb) (hdata : verb.isData = true) {maps : SlotMaps nodes}
    {src dst : ι} {key : Bytes} (hsrc : ∀ n, maps.owner? n (keyToSlot key) = some src)
    {told : Nat → List ι} (hgrow : ∀ k, told k ⊆ told (k + 1)) (n : ι) (rest : List Bytes) :
    let served :=
      fun hops m => SlotMaps.ServedAfter srv (fun k => maps.tell (keyToSlot key) dst (told k)) n
      (name :: key :: rest) hops m (name :: key :: rest)
    (∀ k, dst ∈ told k → ∃ hops ≤ k + 2, ∃ m, (m = src ∨ m = dst) ∧ served hops m) ∧
      ((∀ k, src ∈ told k → dst ∈ told k) → ∃ hops ≤ 3, ∃ m, (m = src ∨ m = dst) ∧
        served hops m) := by
  intro served
  have harrives : ∀ {bound}, Arrives src dst told n bound →
      ∃ hops ≤ bound, ∃ m, (m = src ∨ m = dst) ∧ served hops m := by
    rintro bound ⟨hops, hle, m, hm, hkept⟩
    refine ⟨hops, hle, m, hm, (SlotMaps.servedAfter_iff hname hverb hdata).mpr ⟨?_, rfl⟩⟩
    simp only [sendsTo_tell hsrc]
    exact hkept
  exact ⟨fun k hdst => harrives (.of_dst_told_at hgrow hdst n), fun hfirst =>
    harrives (.of_dst_first hgrow hfirst n)⟩

/-- `GET a` is on its way while both nodes are told, the old owner first. -/
theorem slot_change_on_the_way_two :
    let src := twoNodes.owner (ascii "a")
    ∃ hops ≤ 3, ∃ m, (m = src ∨ m = !src) ∧
      SlotMaps.ServedAfter asciiServer
        (fun k => twoNodes.slotMaps.tell (keyToSlot (ascii "a")) (!src) ([src, !src].take (k + 1)))
          src
        [ascii "GET", ascii "a"] hops m [ascii "GET", ascii "a"] := by
  intro src
  have hverb : asciiServer.verb? (ascii "GET") = some .get := by decide
  have hgrow : ∀ k, [src, !src].take (k + 1) ⊆ [src, !src].take (k + 1 + 1) :=
    fun k => (List.take_prefix_take_left (Nat.le_succ (k + 1))).subset
  exact (slot_change_on_the_way (by decide) hverb rfl (fun _ => rfl) hgrow src []).1 1 (by simp)

end Results

end Badis
