import Badis.Lib.Wrap
import Badis.Server.Session

/-!
# The reference for counters

Every key holds an int64 in decimal, or nothing, which counts as zero. The reference adds in
unbounded integers, and refuses a sum that is no int64 with some message.
-/

namespace Badis

open Lib

/-- A request on counters. -/
inductive CounterRequest where
  | incr (key : Bytes)
  | decr (key : Bytes)
  | incrby (key : Bytes) (delta : Numeral)
  | decrby (key : Bytes) (delta : Numeral)
  | get (key : Bytes)

instance : Wire CounterRequest where
  verb
    | .incr _ => .incr
    | .decr _ => .decr
    | .incrby .. => .incrby
    | .decrby .. => .decrby
    | .get _ => .get
  args
    | .incr key | .decr key | .get key => [key]
    | .incrby key delta | .decrby key delta => [key, delta.text]

namespace CounterRequest

def key : CounterRequest → Bytes
  | incr key | decr key | get key => key
  | incrby key _ | decrby key _ => key

/-- What a request adds. -/
def delta : CounterRequest → Int
  | incr _ => 1
  | decr _ => -1
  | incrby _ delta => delta.value
  | decrby _ delta => -delta.value
  | get _ => 0

end CounterRequest

/-- The number under a key. -/
def counterValue (m : Bytes → Option Int64) (key : Bytes) : Int := ((m key).getD 0).toInt

/-- The sum of a request is an int64. -/
def CounterRequest.InRange (m : Bytes → Option Int64) (r : CounterRequest) : Prop :=
  Fits64 (counterValue m r.key + r.delta)

instance (m : Bytes → Option Int64) (r : CounterRequest) : Decidable (r.InRange m) :=
  inferInstanceAs (Decidable (Fits64 _))

/-- The answer to a request, and the counters after it. -/
def CounterRequest.step (overflow : Bytes) (r : CounterRequest) (m : Bytes → Option Int64) :
    List Write × (Bytes → Option Int64) :=
  match r with
  | get key => (writeBulk ((m key).map formatInt), m)
  | r =>
    let sum := counterValue m r.key + r.delta
    if r.InRange m then ([.int sum], Function.update m r.key (some (Int64.ofInt sum)))
    else ([.error overflow], m)

/-- The sum of what a run adds to a key. -/
def totalDelta (key : Bytes) (run : List (Arrival CounterRequest)) : Int :=
  (run.map fun a => if a.request.key = key then a.request.delta else 0).sum

/-- The keys in `K` hold these numbers in decimal, without expiry, from `start` on. -/
def HoldsCounters (c : Codec) (start : Nat) :
    (K : Bytes → Prop) → (Bytes → Option Int64) → DB → Prop :=
  Held fun o => Shows c start (ofString (o.map formatInt))

end Badis
