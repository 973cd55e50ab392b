import Mathlib.Data.Finset.Card
import Badis.Lib.Simulation
import Badis.Server.Cluster
import Badis.Store.Plan

/-!
# Requests to one node, one after the other

A run of requests that one node serves from its own store, each with the clock readings and the map
iteration orders it happens to meet. The requests are of some kind, such as those on lists, and are
compared with a reference in which every key holds a plain value; `Held` says that the store holds
those values, under the keys the run is about.
-/

namespace Badis

open Lib

/-- A kind of requests: the command each is for, and the arguments that follow the name. -/
class Wire (ρ : Type) where
  verb : ρ → Verb
  args : ρ → List Bytes

/-- A request as it arrives: with the name as the client wrote it, the environment of its `Apply`,
and the clock and the map order of its reads. -/
structure Arrival (ρ : Type) where
  request : ρ
  name : Bytes
  conn : Conn
  env : Env
  now : Nat
  order : RangeOrder

section Serving

variable {ρ : Type} [Wire ρ]

/-- What is written to the client, and the store afterwards. -/
def Arrival.serve (vm : LuaVM) (fuel : Nat) (srv : Server) (a : Arrival ρ) (db : DB) :
    Except Err (List Write) × DB :=
  serveNode vm fuel (fun _ => a.env) srv (fun _ => ⟨db, a.now, a.order⟩) a.conn
    (a.name :: Wire.args a.request) db

/-- The name selects the command, in any case; no clock is read before `start`; the keys are in
`K`. -/
structure Arrival.Allowed (srv : Server) (start : Nat) (K : Bytes → Prop)
    (a : Arrival ρ) : Prop where
  named : srv.verb? a.name = some (Wire.verb a.request)
  applied : start ≤ a.env.clock.now
  read : start ≤ a.now
  keys : ∀ k ∈ (Wire.verb a.request).namedKeys (Wire.args a.request), K k

/-- A reference for requests, as one for arrivals. -/
def Arrival.reference {τ : Type} (step : ρ → τ → List Write × τ) (a : Arrival ρ) (m : τ) :
    Except Err (List Write) × τ :=
  (.ok (step a.request m).1, (step a.request m).2)

end Serving

/-- The keys in `K` hold the values of `m`. -/
def Held {α : Type} (Rep : α → Slot → Prop) (K : Bytes → Prop) (m : Bytes → α) (db : DB) : Prop :=
  ∀ k, K k → Rep (m k) (Slot.of db k)

/-- From `start` on the key holds `x`. -/
def Shows (c : Codec) (start : Nat) (x : View) (s : Slot) : Prop := ∀ t, start ≤ t → s.view c t = x

/-- The number of distinct keys that are present. -/
def countPresent (present : Bytes → Bool) (keys : List Bytes) : Nat :=
  (keys.toFinset.filter fun k => present k = true).card

/-- Fields or keys and their values as the arguments of a request. -/
def flatPairs (pairs : List (Bytes × Bytes)) : List Bytes := pairs.flatMap fun p => [p.1, p.2]

/-- A text that `strconv.ParseInt` accepts. -/
structure Numeral where
  text : Bytes
  accepted : (parseInt text).2 = true

/-- The number it stands for. -/
def Numeral.value (n : Numeral) : Int := (parseInt n.text).1.toInt

end Badis
