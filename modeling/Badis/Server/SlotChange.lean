import Mathlib.Logic.Function.Basic
import Badis.Server.Cluster

/-!
# Nodes whose slot maps differ

Every node has a slot map of its own, and `SetOwner` changes one of them. While the owner of a slot
is changed on one node after the other, the maps disagree, and `handleCmd` sends a request where the
map of the node that has it says.
-/

namespace Badis

open Lib

/-- Nodes with their names and addresses. -/
structure Nodes (ι : Type) where
  /-- `localName` of a node. -/
  name : ι → Bytes
  /-- Where a node is reached. -/
  addr : ι → Bytes
  name_injective : Function.Injective name
  addr_injective : Function.Injective addr
  addr_ne : ∀ n, addr n ≠ []

/-- What `GetOwner` returns for a slot of this owner. -/
def Nodes.entry {ι : Type} (nodes : Nodes ι) : Option ι → Bytes × Bytes
  | none => ([], [])
  | some m => (nodes.name m, nodes.addr m)

/-- The slot maps of the nodes. They name nodes as owners, if any. -/
structure SlotMaps {ι : Type} (nodes : Nodes ι) where
  slotMap : ι → SlotMap
  owner? : ι → UInt16 → Option ι
  owned : ∀ n, ∀ slot < 16384, (slotMap n).getOwner slot = nodes.entry (owner? n slot)

/-- The nodes of a cluster. -/
def Cluster.nodes {ι : Type} (cl : Cluster ι) : Nodes ι :=
  ⟨cl.name, cl.addr, cl.name_injective, cl.addr_injective, cl.addr_ne⟩

/-- The slot maps of a cluster, where all are the same. -/
def Cluster.slotMaps {ι : Type} (cl : Cluster ι) : SlotMaps cl.nodes :=
  ⟨fun _ => cl.slotMap, fun _ slot => some (cl.slotOwner slot), fun _ => cl.owned⟩

namespace SlotMaps

variable {ι : Type} {nodes : Nodes ι}

/-- The router of a node. -/
def router (maps : SlotMaps nodes) (n : ι) : Router := ⟨maps.slotMap n, nodes.name n⟩

/-- The node to which `n` sends a request for `key`, if it does not serve it. -/
def sendsTo [DecidableEq ι] (maps : SlotMaps nodes) (key : Bytes) (n : ι) : Option ι :=
  (maps.owner? n (keyToSlot key)).filter fun m => m ≠ n

section SetOwner

variable [DecidableEq ι] (maps : SlotMaps nodes) (n : ι) (slot : UInt16) (m : ι)

theorem owned_setOwner (n' : ι) (slot' : UInt16) (hslot : slot' < 16384) :
    (Function.update maps.slotMap n ((maps.slotMap n).setOwner slot (nodes.name m) (nodes.addr m))
      n').getOwner slot' =
      nodes.entry (Function.update maps.owner? n (Function.update (maps.owner? n) slot (some m)) n'
        slot') := by
  by_cases hn : n' = n
  · subst hn
    rw [Function.update_self, Function.update_self]
    by_cases hs : slot' = slot
    · subst hs
      rw [Function.update_self]
      simp [SlotMap.getOwner, SlotMap.setOwner, Nodes.entry]
    · rw [Function.update_of_ne hs, ← maps.owned n' slot' hslot]
      simp [SlotMap.getOwner, SlotMap.setOwner, hs]
  · rw [Function.update_of_ne hn, Function.update_of_ne hn]
    exact maps.owned n' slot' hslot

/-- `SetOwner` on the node `n`. -/
def setOwner : SlotMaps nodes :=
  ⟨Function.update maps.slotMap n ((maps.slotMap n).setOwner slot (nodes.name m) (nodes.addr m)),
    Function.update maps.owner? n (Function.update (maps.owner? n) slot (some m)),
    maps.owned_setOwner n slot m⟩

/-- `SetOwner` on the nodes `told`, one after the other. -/
def tell (told : List ι) : SlotMaps nodes := told.foldl (fun maps n => maps.setOwner n slot m) maps

end SetOwner

/-- `ServedAfter srv maps n args hops m args'`: a request `args` that `n` receives is proxied `hops`
times and then handed to the mux of `m`, as `args'`. When it has been proxied `k` times the slot
maps are `maps k`. -/
inductive ServedAfter (srv : Server) :
    (Nat → SlotMaps nodes) → ι → List Bytes → Nat → ι → List Bytes → Prop where
  | here {maps : Nat → SlotMaps nodes} {n : ι} {args : List Bytes}
      (h : handleCmd srv ((maps 0).router n) args = .ok .serve) :
      ServedAfter srv maps n args 0 n args
  | proxied {maps : Nat → SlotMaps nodes} {n n' m : ι} {args args' args'' : List Bytes} {hops : Nat}
      (h : handleCmd srv ((maps 0).router n) args = .ok (.proxy (nodes.addr n') args'))
      (h' : ServedAfter srv (fun k => maps (k + 1)) n' args' hops m args'') :
      ServedAfter srv maps n args (hops + 1) m args''

end SlotMaps

/-- The request is served with these slot maps, if they do not change. -/
def SlotMaps.Serves {ι : Type} {nodes : Nodes ι} (srv : Server) (maps : SlotMaps nodes) (n : ι)
    (args : List Bytes) (m : ι) : Prop :=
  ∃ hops args', ServedAfter srv (fun _ => maps) n args hops m args'

end Badis
