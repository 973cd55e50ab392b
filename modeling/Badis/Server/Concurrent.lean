import Badis.Lib.RWLock
import Badis.Server.Router

/-!
# What goroutines share

The slot map (`config/slotmap.go`) and the clients of the proxy (`getClient` and `Stop` in
`server/server.go`) are used by many goroutines at once, each under a `sync.RWMutex` of its own. A
call is a thread with one section, or two: `getClient` looks the address up under the read lock and,
if it finds nothing, once more under the write lock before it makes a client.
-/

namespace Badis

open Lib

/-! ## The slot map -/

/-- A call of a method of `SlotMap`. -/
inductive SlotCall where
  | setOwner (slot : UInt16) (shardID ip : Bytes)
  | getOwner (slot : UInt16)
  | version

/-- What a method of `SlotMap` returns. -/
inductive SlotAnswer where
  | done
  | owner (shardID ip : Bytes)
  | version (n : UInt64)
deriving DecidableEq

/-- A goroutine that calls a method of `SlotMap`: the variable `info`, and what is returned. -/
structure SlotCaller where
  call : SlotCall
  info : SlotInfo := {}
  answer : Option SlotAnswer := none

/-- The section of a method of `SlotMap`, statement by statement. -/
def SlotCall.critical : SlotCall → Critical SlotMap SlotCaller
  | .setOwner slot shardID ip =>
    { mode := .write
      body := [
        fun x => ({ x.1 with slots := fun i =>
          if i = slot then some ⟨shardID, ip⟩ else x.1.slots i }, x.2),
        fun x => ({ x.1 with version := x.1.version + 1 }, { x.2 with answer := some .done })]
      reads_only := nofun }
  | .getOwner slot =>
    { mode := .read
      body := [
        fun x => (x.1, { x.2 with info := (x.1.slots slot).getD {} }),
        fun x => (x.1, { x.2 with answer := some (.owner x.2.info.shardID x.2.info.ip) })]
      reads_only := by simp }
  | .version =>
    { mode := .read
      body := [fun x => (x.1, { x.2 with answer := some (.version x.1.version) })]
      reads_only := by simp }

/-- A call has one section. -/
def SlotCaller.next (g : SlotCaller) : Option (Critical SlotMap SlotCaller) :=
  if g.answer.isSome then none else some g.call.critical

/-- What a goroutine has returned. -/
def SlotCaller.returned : Thread SlotMap SlotCaller → Option SlotAnswer
  | .outside g => g.answer
  | .inside _ _ _ => none

section Slots

variable {ι : Type} [DecidableEq ι] (calls : ι → SlotCall)

/-- Goroutines that make these calls. -/
def slotCallers (s : SlotMap) : Serial ι SlotMap SlotCaller := ⟨s, fun i => { call := calls i }⟩

/-- A call on its own. -/
def SlotCall.serve (s : SlotMap) : SlotCall → SlotAnswer × SlotMap
  | .setOwner slot shardID ip => (.done, s.setOwner slot shardID ip)
  | .getOwner slot => (.owner (s.getOwner slot).1 (s.getOwner slot).2, s)
  | .version => (.version s.version, s)

/-- The slot map after calls that are made one after the other. -/
def slotMapAfter (order : List ι) (s : SlotMap) : SlotMap :=
  order.foldl (fun s i => ((calls i).serve s).2) s

/-- The answers to calls that are made one after the other. -/
def slotAnswers : List ι → SlotMap → ι → Option SlotAnswer
  | [], _ => fun _ => none
  | i :: order, s =>
    Function.update (slotAnswers order ((calls i).serve s).2) i (some ((calls i).serve s).1)

end Slots

/-! ## The clients of the proxy -/

/-- The map `clients` of the server, and the clients that there are: the addresses they were made
for, in the order in which they were made, and which of them have been closed. A client is its
number. -/
structure Clients where
  clients : OrdMap Bytes Nat := OrdMap.empty
  created : List Bytes := []
  closed : List Nat := []

/-- A call of `getClient` or of `Stop`. -/
inductive ClientCall where
  | getClient (addr : Bytes)
  | stop
deriving DecidableEq

/-- A goroutine in `getClient` or `Stop`. -/
structure ClientCaller where
  call : ClientCall
  /-- `getClient` did not find the address under the read lock. -/
  missed : Bool := false
  /-- The client that `getClient` returns. -/
  client : Option Nat := none
  /-- `getClient` has made this client itself. -/
  fresh : Bool := false
  finished : Bool := false

/-- `getClient` under the read lock. -/
def lookUp (addr : Bytes) : Critical Clients ClientCaller where
  mode := .read
  body := [fun x => (x.1,
    match x.1.clients.get? addr with
    | some client => { x.2 with client := some client, finished := true }
    | none => { x.2 with missed := true })]
  reads_only := by simp

/-- `getClient` under the write lock. -/
def makeClient (addr : Bytes) : Critical Clients ClientCaller where
  mode := .write
  body := [
    fun x => (x.1, { x.2 with client := x.1.clients.get? addr }),
    fun x => if x.2.client.isSome then x
      else ({ x.1 with created := x.1.created ++ [addr] },
        { x.2 with client := some x.1.created.length, fresh := true }),
    fun x => (if x.2.fresh then { x.1 with clients := x.1.clients.insert addr (x.2.client.getD 0) }
      else x.1, { x.2 with finished := true })]
  reads_only := nofun

/-- The loop of `Stop` over the clients. -/
def closeClients : Critical Clients ClientCaller where
  mode := .write
  body := [fun x => ({ x.1 with closed := x.1.closed ++ x.1.clients.entries.map Prod.snd },
    { x.2 with finished := true })]
  reads_only := nofun

/-- The next section of a goroutine. -/
def ClientCaller.next (g : ClientCaller) : Option (Critical Clients ClientCaller) :=
  if g.finished then none
  else
    match g.call with
    | .getClient addr => some (if g.missed then makeClient addr else lookUp addr)
    | .stop => some closeClients

/-- What `getClient` has returned. -/
def ClientCaller.returned : Thread Clients ClientCaller → Option Nat
  | .outside g => if g.finished then g.client else none
  | .inside _ _ _ => none

/-- A goroutine that has not entered a section. -/
def ClientCaller.idle : Thread Clients ClientCaller → Bool
  | .outside g => !g.missed && !g.finished
  | .inside _ _ _ => false

/-- A goroutine that has returned. -/
def ClientCaller.through : Thread Clients ClientCaller → Bool
  | .outside g => g.finished
  | .inside _ _ _ => false

/-- Goroutines that make these calls on a server without clients. -/
def clientCallers {ι : Type} (calls : ι → ClientCall) : Serial ι Clients ClientCaller :=
  ⟨{}, fun i => { call := calls i }⟩

end Badis
