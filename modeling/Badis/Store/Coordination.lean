import Badis.Store.Replay

/-!
# What clients build on one key

A lock with a lease is a `SET` with `NX` and an expiry, a dispenser of numbers is an `INCR`, and a
queue is `RPUSH` and `LPOP`. The clients that use the key do not know of each other, and the log
holds commands on other keys between theirs.
-/

namespace Badis

open Lib

/-- The steps of a run that work on `k`. -/
def stepsAt (k : Bytes) (steps : List Step) : List Step := steps.filter fun s => s.2.touches k

/-- What these steps reply. -/
def repliesAt (c : Codec) (k : Bytes) (steps : List Step) (db : DB) : List (Except Err Result) :=
  ((steps.zip (applyLog c steps db).1).filter fun p => p.1.2.touches k).map Prod.snd

/-- No step of the run is a script, and those that work on `k` are of the kind `P`. -/
def OnlyAt (k : Bytes) (P : Command → Prop) (steps : List Step) : Prop :=
  ∀ s ∈ steps, s.2.op.script = false ∧ (s.2.touches k = true → P s.2)

/-! ## A lock -/

/-- `SET k v NX PX ttl`, with a lease in the range of a Go duration. -/
structure Command.Acquires (cmd : Command) (k : Bytes) : Prop where
  op : cmd.op = .set
  key : cmd.key = k
  condition : cmd.condition = .nx
  returnOld : cmd.returnOld = false
  value : cmd.args ≠ []
  positive : 0 < cmd.ttlMs
  fits : cmd.ttlMs.toInt ≤ maxTTLMs

/-- The reply that grants the lock. -/
def granted : Except Err Result := .ok (.str (ascii "OK"))

/-- The second in which the lease of a step runs out, if it is granted. Badger keeps expiries in
whole seconds, so that the lease ends when this second begins, up to a second before its time. -/
def leaseEnd (s : Step) : Nat := (s.1.clock.ttl + s.2.ttlMs.toInt.toNat * 1000000) / 1000000000

/-! ## A queue -/

/-- The list that a key without expiry holds, empty if it holds nothing. -/
def queueView : View → Option (List Bytes)
  | none => some []
  | some (.list l, exp) => if exp = 0 then some l else none
  | some _ => none

/-- The elements that a reply hands out. -/
def handedOut : Except Err Result → List Bytes
  | .ok (.strs l) => l
  | .ok (.bytes (some b)) => [b]
  | _ => []

/-- What steps push to the end of the list. -/
def enqueued (steps : List Step) : List Bytes :=
  steps.flatMap fun s => if s.2.op = .rpush then s.2.args else []

/-- What steps with these replies pop from the front. -/
def dequeued (steps : List Step) (replies : List (Except Err Result)) : List Bytes :=
  (steps.zip replies).flatMap fun p => if p.1.2.op = .lpop then handedOut p.2 else []

end Badis
