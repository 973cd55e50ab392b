import Mathlib.Logic.Function.Basic
import Badis.Server.Router
import Badis.Store.Lua
import Badis.Store.Plan

/-!
# A cluster

Nodes with one slot map, each with a store of its own. A request goes from node to node as
`handleCmd` sends it, until some node serves it from its store. What a request reads and writes
there is said by what its reply and the store depend on, key by key.
-/

namespace Badis

open Lib

/-- The slot map after `SetOwner` for each of `slots`. -/
def SlotMap.assign (owner : UInt16 → SlotInfo) (slots : List UInt16) (s : SlotMap) : SlotMap :=
  slots.foldl (fun s slot => s.setOwner slot (owner slot).shardID (owner slot).ip) s

/-- Nodes that share a slot map in which each slot has an owner: the node whose name and address the
map has. -/
structure Cluster (ι : Type) where
  slotMap : SlotMap
  /-- `localName` of a node. -/
  name : ι → Bytes
  /-- Where a node is reached. -/
  addr : ι → Bytes
  slotOwner : UInt16 → ι
  name_injective : Function.Injective name
  addr_injective : Function.Injective addr
  addr_ne : ∀ n, addr n ≠ []
  owned : ∀ slot < 16384, slotMap.getOwner slot = (name (slotOwner slot), addr (slotOwner slot))

namespace Cluster

variable {ι : Type} (cl : Cluster ι)

/-- The router of a node. -/
def router (n : ι) : Router := ⟨cl.slotMap, cl.name n⟩

/-- The node that owns a key. -/
def owner (key : Bytes) : ι := cl.slotOwner (keyToSlot key)

/-- `cl.ServedAt srv n args m args'`: a request `args` that `n` receives is handed to the mux of
`m`, as `args'`. A node that is sent a request by another one handles it like a client's. -/
inductive ServedAt (srv : Server) : ι → List Bytes → ι → List Bytes → Prop where
  | here {n : ι} {args : List Bytes} (h : handleCmd srv (cl.router n) args = .ok .serve) :
      ServedAt srv n args n args
  | proxied {n n' m : ι} {args args' args'' : List Bytes}
      (h : handleCmd srv (cl.router n) args = .ok (.proxy (cl.addr n') args'))
      (h' : ServedAt srv n' args' m args'') : ServedAt srv n args m args''

end Cluster

/-! ## The keys of a request -/

/-- The commands that name keys. -/
def Verb.isData : Verb → Bool
  | .ping | .client | .keys | .flushdb | .eval | .evalsha | .script => false
  | _ => true

/-- The keys that a command names in its arguments. -/
def Verb.namedKeys (args : List Bytes) : Verb → List Bytes
  | .del | .unlink | .mget | .existsKeys | .touch => args
  | .mset => msetKeys args
  | _ => args.take 1

section Use

variable (vm : LuaVM) (fuel : Nat) (envs : List Nat → Env) (srv : Server)

/-- A request at the node that serves it: what is written to the client, and the store
afterwards. -/
def serveNode (views : Nat → ReadView) (conn : Conn) (args : List Bytes) (db : DB) :
    Except Err (List Write) × DB :=
  match serveRESP srv views conn args with
  | .error e => (.error e, db)
  | .ok (.write ws) => (.ok ws, db)
  | .ok (.client ws _) => (.ok ws, db)
  | .ok (.apply cmd reply) =>
    let res := fsmApply vm srv.codec fuel envs cmd db
    (.ok (reply (.applied res.1)), res.2)

/-- The databases differ in the entries of `k` alone. -/
def DB.SameExcept (k : Bytes) (db db' : DB) : Prop :=
  ∀ raw, raw ≠ userKey k → raw ≠ typeKey k → db.get? raw = db'.get? raw

/-- The views differ in the entries of `k` alone. -/
structure ReadView.SameExcept (k : Bytes) (v v' : ReadView) : Prop where
  now : v.now = v'.now
  order : v.order = v'.order
  db : DB.SameExcept k v.db v'.db

/-- Some run of the request changes the entries of `k`. -/
def WritesKey (args : List Bytes) (k : Bytes) : Prop :=
  ∃ fuel envs views conn db,
    Slot.of (serveNode vm fuel envs srv views conn args db).2 k ≠ Slot.of db k

/-- What comes of the request depends on the entries of `k`: the reply, or the entries of another
key. -/
def ReadsKey (args : List Bytes) (k : Bytes) : Prop :=
  ∃ fuel envs views views' conn db db',
    (∀ i, ReadView.SameExcept k (views i) (views' i)) ∧ DB.SameExcept k db db' ∧
    ((serveNode vm fuel envs srv views conn args db).1 ≠
        (serveNode vm fuel envs srv views' conn args db').1 ∨
      ∃ j ≠ k, Slot.of (serveNode vm fuel envs srv views conn args db).2 j ≠
        Slot.of (serveNode vm fuel envs srv views' conn args db').2 j)

/-- A request that `n` receives reads or writes `k` in the store of `m`. -/
def Cluster.Uses {ι : Type} (cl : Cluster ι) (n : ι) (args : List Bytes) (m : ι) (k : Bytes) :
    Prop :=
  ∃ args', cl.ServedAt srv n args m args' ∧ (WritesKey vm srv args' k ∨ ReadsKey vm srv args' k)

end Use

end Badis
