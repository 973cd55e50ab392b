import Badis.Lib.Occurrences
import Badis.Server.Session

/-!
# The reference for lists

Every key holds a finite sequence, absent when empty. The requests on lists are described by what
they do to the sequences and what they answer, with indices in unbounded integers. LREM stands
apart, with what it is to leave of a list that a key holds with any expiry (`RemovesExactly`).
-/

namespace Badis

open Lib

/-- A request on lists. -/
inductive ListRequest where
  /-- LPUSH, RPUSH, LPUSHX and RPUSHX. -/
  | push (left ifPresent : Bool) (key val : Bytes) (vals : List Bytes)
  /-- LPOP and RPOP. -/
  | pop (left : Bool) (key : Bytes)
  /-- LPOP and RPOP with a count. -/
  | popCount (left : Bool) (key : Bytes) (count : { n : Numeral // 0 ≤ n.value })
  | trim (key : Bytes) (start stop : Numeral)
  | range (key : Bytes) (start stop : Numeral)
  | len (key : Bytes)
  | index (key : Bytes) (index : Numeral)
  | del (key : Bytes) (keys : List Bytes)

instance : Wire ListRequest where
  verb
    | .push true false .. => .lpush
    | .push false false .. => .rpush
    | .push true true .. => .lpushx
    | .push false true .. => .rpushx
    | .pop true _ | .popCount true .. => .lpop
    | .pop false _ | .popCount false .. => .rpop
    | .trim .. => .ltrim
    | .range .. => .lrange
    | .len _ => .llen
    | .index .. => .lindex
    | .del .. => .del
  args
    | .push _ _ key val vals => key :: val :: vals
    | .pop _ key => [key]
    | .popCount _ key count => [key, count.1.text]
    | .trim key start stop => [key, start.text, stop.text]
    | .range key start stop => [key, start.text, stop.text]
    | .len key => [key]
    | .index key index => [key, index.text]
    | .del key keys => key :: keys

/-- A position counted from the end if it is negative. -/
def position (n : Nat) (i : Int) : Int := if i < 0 then n + i else i

/-- The elements at the positions from `start` to `stop`, in order. -/
def elements (l : List Bytes) (start stop : Int) : List Bytes :=
  (l.zipIdx.filter fun e => position l.length start ≤ e.2 ∧
    (e.2 : Int) ≤ position l.length stop).map Prod.fst

/-- The sequence read from the end it is pushed to and popped from. -/
def fromEnd (left : Bool) (l : List Bytes) : List Bytes := if left then l else l.reverse

/-- The answer to a request, and the sequences after it. -/
def ListRequest.step : ListRequest → (Bytes → List Bytes) → List Write × (Bytes → List Bytes)
  | push left ifPresent key val vals, m =>
    if ifPresent ∧ m key = [] then ([.int 0], m)
    else
      let l := if left then (val :: vals).reverse ++ m key else m key ++ val :: vals
      ([.int l.length], Function.update m key l)
  | pop left key, m =>
    match fromEnd left (m key) with
    | [] => ([.null], m)
    | x :: rest => ([.bulk x], Function.update m key (fromEnd left rest))
  | popCount left key count, m =>
    if m key = [] then ([.null], m)
    else
      let l := fromEnd left (m key)
      (writeStrings (l.take count.1.value.toNat),
        Function.update m key (fromEnd left (l.drop count.1.value.toNat)))
  | trim key start stop, m =>
    ([.string (ascii "OK")], Function.update m key (elements (m key) start.value stop.value))
  | range key start stop, m => (writeStrings (elements (m key) start.value stop.value), m)
  | len key, m => ([.int (m key).length], m)
  | index key i, m => (writeBulk (elements (m key) i.value i.value).head?, m)
  | del key keys, m =>
    ([.int (countPresent (fun k => decide (m k ≠ [])) (key :: keys))],
      fun k => if k ∈ key :: keys then [] else m k)

/-- A sequence as what the store shows of a key. -/
def listView (l : List Bytes) : View := if l = [] then none else some (.list l, 0)

/-- The keys in `K` hold these sequences, without expiry, from `start` on. -/
def HoldsLists (c : Codec) (start : Nat) : (K : Bytes → Prop) → (Bytes → List Bytes) → DB → Prop :=
  Held fun l => Shows c start (listView l)

/-! ## LREM -/

/-- The number of occurrences of `x` that LREM removes: all for the count zero. -/
def lremCount (l : List Bytes) (x : Bytes) (count : Int) : Nat :=
  if count = 0 then l.count x else min (l.count x) count.natAbs

/-- What LREM leaves: the first occurrences are removed, the last ones if the count is negative. -/
def lremRest (l : List Bytes) (x : Bytes) (count : Int) : List Bytes :=
  if 0 ≤ count then removeFirst x (lremCount l x count) l else removeLast x (lremCount l x count) l

/-- At the clock reading `t` the key holds the list `l`, with any expiry; an absent key holds the
empty one. -/
def HoldsList (c : Codec) (t : Nat) (l : List Bytes) (s : Slot) : Prop :=
  (s.view c t = none ∧ l = []) ∨ ∃ exp, s.view c t = some (.list l, exp)

/-- LREM of `x` with a count is answered with `r` and leaves the key of a list `l` with the entries
`s`. -/
structure RemovesExactly (c : Codec) (l : List Bytes) (x : Bytes) (count : Int)
    (r : Except Err (List Write)) (s : Slot) : Prop where
  reply : r = .ok [.int (lremCount l x count)]
  rest : lremRest l x count ≠ [] → ∃ e typ, s = ⟨some e, some typ⟩ ∧ typ.value = typeList ∧
    c.decodeStrings e.value = some (lremRest l x count)
  deleted : s = ⟨none, none⟩ ↔ lremRest l x count = []

end Badis
