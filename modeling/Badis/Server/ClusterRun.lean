import Badis.Server.Cluster
import Badis.Server.Proxy

/-!
# Requests to a cluster, one after the other

Clients send requests to any node of a cluster; each is served from the store of the node that
`handleCmd` hands it to in the end, and the reply goes back the way the request came, every node
writing once more what it reads. The connections between the nodes hold. The reference is a single
node with one store that serves the same requests itself.
-/

namespace Badis

open Lib

/-- A request to a node of a cluster, with the clock readings and the map orders that it meets. -/
structure ClusterRequest (ι : Type) where
  node : ι
  args : List Bytes
  conn : Conn
  envs : List Nat → Env
  now : Nat
  order : RangeOrder

section Run

variable {ι : Type} (vm : LuaVM) (fuel : Nat) (srv : Server)

/-- The request served from a store: what is written to the client, or to the node that sent the
request on, and the store afterwards. -/
def ClusterRequest.serve (r : ClusterRequest ι) (args : List Bytes) (db : DB) :
    Except Err (List Write) × DB :=
  serveNode vm fuel r.envs srv (fun _ => ⟨db, r.now, r.order⟩) r.conn args db

/-- One node that serves all requests from one store, until a handler panics. -/
def serveAll : List (ClusterRequest ι) → DB → List (Except Err (List Write)) × DB
  | [], db => ([], db)
  | r :: rest, db =>
    match r.serve vm fuel srv r.args db with
    | (.error e, db) => ([.error e], db)
    | (.ok ws, db) =>
      let (replies, db) := serveAll rest db
      (.ok ws :: replies, db)

variable (cl : Cluster ι)

/-- `cl.Tells srv n args ws told`: the node that serves the request `args`, which `n` receives,
writes `ws`, and `n` writes `told`. -/
inductive Cluster.Tells : ι → List Bytes → List Write → List Write → Prop where
  | own {n : ι} {args : List Bytes} (h : handleCmd srv (cl.router n) args = .ok .serve)
      (ws : List Write) :
      Tells n args ws ws
  | passed {n n' : ι} {args args' : List Bytes} {ws told : List Write} {v : Resp}
      (h : handleCmd srv (cl.router n) args = .ok (.proxy (cl.addr n') args'))
      (hrest : Tells n' args' ws told) (hv : v.SentFor told) :
      Tells n args ws (proxyReply v.doResult)
  /-- The other node breaks off within a value: go-redis gives up with an error of its own. -/
  | brokenOff {n n' : ι} {args args' : List Bytes} {ws told : List Write}
      (h : handleCmd srv (cl.router n) args = .ok (.proxy (cl.addr n') args'))
      (hrest : Tells n' args' ws told) (hnone : ∀ v : Resp, ¬ v.SentFor told) (msg : Bytes) :
      Tells n args ws (proxyReply (.error (.text msg)))

variable [DecidableEq ι]

/-- `cl.Runs stores reqs replies stores'`: the requests are served by the nodes that they come to,
the clients are told `replies`, and the nodes are left with the stores `stores'`. The run ends where
the handler of a node panics. -/
inductive Cluster.Runs :
    (ι → DB) → List (ClusterRequest ι) → List (Except Err (List Write)) → (ι → DB) → Prop where
  | done (stores : ι → DB) : Runs stores [] [] stores
  | served {stores stores' : ι → DB} {r : ClusterRequest ι} {rest : List (ClusterRequest ι)} {m : ι}
      {args : List Bytes} {ws told : List Write} {replies : List (Except Err (List Write))}
      (h : cl.ServedAt srv r.node r.args m args)
      (hws : (r.serve vm fuel srv args (stores m)).1 = .ok ws)
      (htold : cl.Tells srv r.node r.args ws told)
      (hrest : Runs (Function.update stores m (r.serve vm fuel srv args (stores m)).2) rest
        replies stores') :
      Runs stores (r :: rest) (.ok told :: replies) stores'
  | panicked {stores : ι → DB} {r : ClusterRequest ι} {m : ι} {args : List Bytes} {e : Err}
      (h : cl.ServedAt srv r.node r.args m args)
      (he : (r.serve vm fuel srv args (stores m)).1 = .error e) (rest : List (ClusterRequest ι)) :
      Runs stores (r :: rest) [.error e] stores

end Run

/-- A request for data whose keys have one owner. -/
structure ClusterRequest.OneOwner {ι : Type} (cl : Cluster ι) (srv : Server)
    (r : ClusterRequest ι) : Prop where
  request : ∃ name verb key rest, r.args = name :: key :: rest ∧ name.all (· < 128) = true ∧
    srv.verb? name = some verb ∧ verb.isData = true ∧
    ∀ k ∈ verb.namedKeys (key :: rest), cl.owner k = cl.owner key

/-- Every key has the entries on its owner that it has in `db`. -/
def Cluster.Agrees {ι : Type} (cl : Cluster ι) (stores : ι → DB) (db : DB) : Prop :=
  ∀ k, Slot.of (stores (cl.owner k)) k = Slot.of db k

/-- The value comes through another node: it is no error but one whose text starts with `ERR`, and
no array with an error in it. -/
def Resp.ComesThrough (v : Resp) : Prop :=
  (∀ msg, v = .error msg → ascii "ERR" <+: msg) ∧
    ∀ elems, v = .array elems → ∀ msg, Resp.error msg ∉ elems

/-- The client of `r` is told the reply: as it is by the node that serves the request, and by any
other node as the same value, if it comes through. -/
def ClusterRequest.Told {ι : Type} (cl : Cluster ι) (srv : Server) (r : ClusterRequest ι) :
    Except Err (List Write) → Except Err (List Write) → Prop
  | .ok told, .ok ws => (handleCmd srv (cl.router r.node) r.args = .ok .serve → told = ws) ∧
    ∀ v : Resp, v.SentFor ws → v.ComesThrough → ∃ v' : Resp, v'.SentFor told ∧ v'.client = v.client
  | .error e, .error e' => e = e'
  | _, _ => False

end Badis
