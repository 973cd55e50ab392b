import Badis.Server.ClusterRun
import Badis.Server.Proofs.ClusterProofs
import Badis.Server.Proofs.ProxyProofs

/-!
# A cluster is one store

A request whose keys have one owner looks at the entries of these keys and changes no others, and it
is served by their owner. So a cluster answers it as one store with all the keys would, and the
client is told so, through another node if the reply comes through it.
-/

namespace Badis

open Lib

section Tells

variable {ι : Type} {cl : Cluster ι} {srv : Server} {n : ι} {name key : Bytes} {rest : List Bytes}
  {verb : Verb} (hname : name.all (· < 128) = true) (hverb : srv.verb? name = some verb)
  (hdata : verb.isData = true)

include hname hverb hdata

/-- Some reply gets back to the client. -/
theorem Cluster.exists_tells (n : ι) (key : Bytes) (rest : List Bytes) (ws : List Write) :
    ∃ told, cl.Tells srv n (name :: key :: rest) ws told := by
  have hown : cl.Tells srv (cl.owner key) (name :: key :: rest) ws ws :=
    .own (Cluster.handleCmd_owner hname hverb hdata key rest) ws
  by_cases hn : n = cl.owner key
  · rw [hn]
    exact ⟨ws, hown⟩
  · have hother := Cluster.handleCmd_other hname hverb hdata hn rest
    by_cases hv : ∃ v : Resp, v.SentFor ws
    · obtain ⟨v, hv⟩ := hv
      exact ⟨_, .passed hother hown hv⟩
    · exact ⟨_, .brokenOff hother hown (not_exists.mp hv) []⟩

/-- The owner tells its own reply. -/
theorem Cluster.Tells.eq_of_owner {ws told : List Write}
    (h : cl.Tells srv (cl.owner key) (name :: key :: rest) ws told) : told = ws := by
  have howner : handleCmd srv (cl.router (cl.owner key)) (name :: key :: rest) = .ok .serve :=
    Cluster.handleCmd_owner hname hverb hdata key rest
  cases h with
  | own h => rfl
  | passed h | brokenOff h =>
    rw [howner] at h
    cases h

/-- Another node sends the request to the owner, and tells what it reads of the reply. -/
theorem Cluster.Tells.cases_of_ne {ws told : List Write} (hn : n ≠ cl.owner key)
    (h : cl.Tells srv n (name :: key :: rest) ws told) :
    (∃ v : Resp, v.SentFor ws ∧ told = proxyReply v.doResult) ∨ ∀ v : Resp, ¬ v.SentFor ws := by
  have hother := Cluster.handleCmd_other hname hverb hdata hn rest
  cases h with
  | own h =>
    rw [hother] at h
    cases h
  | @passed _ n' _ args' _ told' v h hrest hv =>
    rw [hother] at h
    obtain ⟨haddr, rfl⟩ := Route.proxy.inj (Except.ok.inj h)
    obtain rfl := cl.addr_injective haddr
    rw [hrest.eq_of_owner hname hverb hdata] at hv
    exact .inl ⟨v, hv, rfl⟩
  | @brokenOff _ n' _ args' _ told' h hrest hnone msg =>
    rw [hother] at h
    obtain ⟨haddr, rfl⟩ := Route.proxy.inj (Except.ok.inj h)
    obtain rfl := cl.addr_injective haddr
    rw [hrest.eq_of_owner hname hverb hdata] at hnone
    exact .inr hnone

/-- What the client of any node is told of a reply. -/
theorem Cluster.Tells.told {r : ClusterRequest ι} (hargs : r.args = name :: key :: rest)
    {ws told : List Write} (hflat : Flat ws) (h : cl.Tells srv r.node r.args ws told) :
    r.Told cl srv (.ok told) (.ok ws) := by
  rw [hargs] at h
  unfold ClusterRequest.Told
  rw [hargs]
  by_cases hn : r.node = cl.owner key
  · rw [hn] at h
    obtain rfl := h.eq_of_owner hname hverb hdata
    exact ⟨fun _ => rfl, fun v hv _ => ⟨v, hv, rfl⟩⟩
  · refine ⟨fun hserve => ?_, fun v hv hthrough => ?_⟩
    · rw [Cluster.handleCmd_other hname hverb hdata hn rest] at hserve
      cases hserve
    · rcases h.cases_of_ne hname hverb hdata hn with ⟨v', hv', rfl⟩ | hnone
      · obtain rfl := Resp.writes_injective (hv'.trans hv.symm)
        exact (hv.transparent_iff_of_flat hflat).mpr hthrough
      · exact absurd hv (hnone v)

end Tells

namespace ClusterRequest

variable {ι : Type} {r : ClusterRequest ι} (vm : LuaVM) (fuel : Nat) (srv : Server)
  {args : List Bytes} {db : DB}

/-- A handler that panics has not written to the store. -/
theorem serve_of_error {e : Err} (h : (r.serve vm fuel srv args db).1 = .error e) :
    r.serve vm fuel srv args db = (.error e, db) := by
  unfold ClusterRequest.serve serveNode at h ⊢
  cases ha : serveRESP srv (fun _ => ⟨db, r.now, r.order⟩) r.conn args with
  | error e' =>
    rw [ha] at h
    cases h
    rfl
  | ok action =>
    rw [ha] at h
    cases action <;> cases h

/-- No reply has an array inside an array. -/
theorem serve_flat {ws : List Write} (h : (r.serve vm fuel srv args db).1 = .ok ws) : Flat ws := by
  have hflat := serveRESP_flat srv (fun _ => ⟨db, r.now, r.order⟩) r.conn args
  unfold ClusterRequest.serve serveNode at h
  cases ha : serveRESP srv (fun _ => ⟨db, r.now, r.order⟩) r.conn args with
  | error e =>
    rw [ha] at h
    cases h
  | ok action =>
    rw [ha] at h
    cases action with
    | write ws' =>
      cases h
      exact hflat _ ha (.raftError [])
    | client ws' conn =>
      cases h
      exact hflat _ ha (.raftError [])
    | apply cmd reply =>
      cases h
      exact hflat _ ha _

end ClusterRequest

section Run

variable {ι : Type} [DecidableEq ι] {cl : Cluster ι} (vm : LuaVM) (fuel : Nat) (srv : Server)

/-- One request: the owner replies what the single store replies, and every key is left alike. -/
theorem Cluster.Agrees.serve {stores : ι → DB} {db : DB} (h : cl.Agrees stores db)
    {r : ClusterRequest ι} {name key : Bytes} {rest : List Bytes} {verb : Verb}
    (hverb : srv.verb? name = some verb) (hdata : verb.isData = true)
    (howner : ∀ k ∈ verb.namedKeys (key :: rest), cl.owner k = cl.owner key) :
    let args := name :: key :: rest
    let m := cl.owner key
    (r.serve vm fuel srv args (stores m)).1 = (r.serve vm fuel srv args db).1 ∧
      cl.Agrees (Function.update stores m (r.serve vm fuel srv args (stores m)).2)
        (r.serve vm fuel srv args db).2 := by
  intro args m
  have hsame : DB.SameOn (verb.namedKeys (key :: rest)) (stores m) db := by
    intro k hk
    rw [← h k, howner k hk]
  have hviews : ∀ _ : Nat,
      ReadView.SameOn (verb.namedKeys (key :: rest)) ⟨stores m, r.now, r.order⟩
        ⟨db, r.now, r.order⟩ :=
    fun _ => ⟨rfl, rfl, hsame⟩
  obtain ⟨hreply, hslots⟩ :=
    serveNode_same vm fuel r.envs (key :: rest) r.conn hverb hdata hviews hsame
  refine ⟨hreply, fun k => ?_⟩
  by_cases hk : cl.owner k = m
  · rw [hk, Function.update_self]
    refine hslots k ?_
    rw [← h k, hk]
  · -- another node owns the key, so the request does not name it
    have hnot : k ∉ verb.namedKeys (key :: rest) := fun hmem => hk (howner k hmem)
    rw [Function.update_of_ne hk, h k]
    exact (serveNode_keeps vm fuel r.envs (key :: rest) r.conn hverb hdata _ db hnot).symm

theorem Cluster.exists_run {reqs : List (ClusterRequest ι)} (hreqs : ∀ r ∈ reqs, r.OneOwner cl srv)
    (stores : ι → DB) : ∃ replies stores', cl.Runs vm fuel srv stores reqs replies stores' := by
  induction reqs generalizing stores with
  | nil => exact ⟨[], stores, .done stores⟩
  | cons r rest ih =>
    obtain ⟨name, verb, key, more, hargs, hname, hverb, hdata, -⟩ :=
      (hreqs r List.mem_cons_self).request
    have hserved : cl.ServedAt srv r.node r.args (cl.owner key) r.args := by
      rw [hargs]
      exact Cluster.served_by_owner hname hverb hdata r.node key more
    cases hws : (r.serve vm fuel srv r.args (stores (cl.owner key))).1 with
    | error e => exact ⟨_, stores, .panicked hserved hws rest⟩
    | ok ws =>
      obtain ⟨told, htold⟩ : ∃ told, cl.Tells srv r.node r.args ws told := by
        rw [hargs]
        exact Cluster.exists_tells hname hverb hdata r.node key more ws
      obtain ⟨replies, stores', hrun⟩ := ih (fun r' hr' => hreqs r' (List.mem_cons_of_mem _ hr')) _
      exact ⟨_, stores', .served hserved hws htold hrun⟩

/-- A run of the cluster is the run of the single store, request by request. -/
theorem Cluster.Runs.agrees {reqs : List (ClusterRequest ι)} (hreqs : ∀ r ∈ reqs, r.OneOwner cl srv)
    {stores stores' : ι → DB} {replies : List (Except Err (List Write))}
    (hrun : cl.Runs vm fuel srv stores reqs replies stores') {db : DB} (h : cl.Agrees stores db) :
    List.Forall₂ (fun x reply => x.1.Told cl srv x.2 reply) (reqs.zip replies)
      (serveAll vm fuel srv reqs db).1 ∧
      cl.Agrees stores' (serveAll vm fuel srv reqs db).2 := by
  induction hrun generalizing db with
  | done stores => exact ⟨.nil, h⟩
  | @served stores stores' r rest m args ws told replies hserved hws htold hrest ih =>
    obtain ⟨name, verb, key, more, hargs, hname, hverb, hdata, howner⟩ :=
      (hreqs r List.mem_cons_self).request
    have hreached := hserved
    rw [hargs] at hreached
    obtain ⟨rfl, rfl⟩ := Cluster.ServedAt.eq_owner hname hverb hdata hreached
    obtain ⟨hreply, hagrees⟩ := h.serve vm fuel srv hverb hdata howner (r := r)
    obtain ⟨hreplies, hlast⟩ := ih (fun r' hr' => hreqs r' (List.mem_cons_of_mem _ hr')) hagrees
    rw [hws] at hreply
    have hstep : r.serve vm fuel srv r.args db =
        (.ok ws, (r.serve vm fuel srv (name :: key :: more) db).2) := by
      rw [hargs]
      exact Prod.ext hreply.symm rfl
    unfold serveAll
    rw [hstep]
    exact ⟨.cons (htold.told hname hverb hdata hargs (r.serve_flat vm fuel srv hws)) hreplies,
      hlast⟩
  | @panicked stores r m args e hserved he rest =>
    obtain ⟨name, verb, key, more, hargs, hname, hverb, hdata, howner⟩ :=
      (hreqs r List.mem_cons_self).request
    rw [hargs] at hserved
    obtain ⟨rfl, rfl⟩ := Cluster.ServedAt.eq_owner hname hverb hdata hserved
    obtain ⟨hreply, -⟩ := h.serve vm fuel srv hverb hdata howner (r := r)
    rw [he] at hreply
    have hstep := r.serve_of_error vm fuel srv hreply.symm
    unfold serveAll
    rw [hargs, hstep, List.zip_cons_cons, List.zip_nil_right]
    exact ⟨.cons rfl .nil, h⟩

/-- A cluster is one store: requests for data, each with keys of one owner, are all served,
whichever nodes they are sent to. The clients are told what a single node with all the keys replies,
by another node than the owner if the reply comes through it, and in the end every key has on its
owner the entries that it has there. -/
theorem cluster_refines_one_store (cl : Cluster ι) {reqs : List (ClusterRequest ι)}
    (hreqs : ∀ r ∈ reqs, r.OneOwner cl srv) {stores : ι → DB} {db : DB} (h : cl.Agrees stores db) :
    (∃ replies stores', cl.Runs vm fuel srv stores reqs replies stores') ∧
      ∀ replies stores', cl.Runs vm fuel srv stores reqs replies stores' →
        List.Forall₂ (fun x reply => x.1.Told cl srv x.2 reply) (reqs.zip replies)
          (serveAll vm fuel srv reqs db).1 ∧
        cl.Agrees stores' (serveAll vm fuel srv reqs db).2 :=
  ⟨Cluster.exists_run vm fuel srv hreqs stores, fun _ _ hrun =>
    Cluster.Runs.agrees vm fuel srv hreqs hrun h⟩

end Run

/-- `SET a x` and `GET b`, sent to the wrong node each. -/
theorem set_get_two_nodes :
    let request : Bool → List Bytes → ClusterRequest Bool := fun node args =>
      ⟨node, args, newConn, fun _ => Env.at 1000000000000, 1000000000000, RangeOrder.sorted⟩
    let set := request (!twoNodes.owner (ascii "a")) [ascii "SET", ascii "a", ascii "x"]
    let get := request (!twoNodes.owner (ascii "b")) [ascii "GET", ascii "b"]
    ∃ replies stores, twoNodes.Runs noScripts 0 asciiServer (fun _ => OrdMap.empty) [set, get]
      replies stores ∧
      List.Forall₂ (fun x reply => x.1.Told twoNodes asciiServer x.2 reply) ([set, get].zip replies)
        (serveAll noScripts 0 asciiServer [set, get] OrdMap.empty).1 := by
  intro request set get
  have hreqs : ∀ r ∈ [set, get], r.OneOwner twoNodes asciiServer := by
    intro r hr
    rcases List.mem_pair.mp hr with rfl | rfl
    · refine ⟨ascii "SET", .set, ascii "a", [ascii "x"], rfl, by decide, by decide, rfl,
        fun k hk => ?_⟩
      rw [List.mem_singleton.mp hk]
    · refine ⟨ascii "GET", .get, ascii "b", [], rfl, by decide, by decide, rfl, fun k hk => ?_⟩
      rw [List.mem_singleton.mp hk]
  have hempty : twoNodes.Agrees (fun _ => OrdMap.empty) OrdMap.empty := fun _ => rfl
  obtain ⟨⟨replies, stores, hrun⟩, hall⟩ :=
    cluster_refines_one_store noScripts 0 asciiServer twoNodes hreqs hempty
  exact ⟨replies, stores, hrun, (hall replies stores hrun).1⟩

end Badis
