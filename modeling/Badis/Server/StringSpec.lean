import Badis.Server.Session
import Badis.Server.SetGrammar

/-!
# The reference for strings

Every key holds a byte string, or nothing. A SET that is to write only if the key is absent (NX) and
only if it is present (XX) is refused. The code answers as the reference does but for these SETs
(`StringRequest.Answered`).
-/

namespace Badis

open Lib

/-- A request on strings; a SET comes with flags and the words that spell them. -/
inductive StringRequest where
  | set (key val : Bytes) (flags : List SetFlag) (words : List Bytes)
  | getset (key val : Bytes)
  | append (key val : Bytes)
  | mset (pair : Bytes × Bytes) (pairs : List (Bytes × Bytes))
  | del (key : Bytes) (keys : List Bytes)
  | get (key : Bytes)
  | strlen (key : Bytes)

instance : Wire StringRequest where
  verb
    | .set .. => .set
    | .getset .. => .getset
    | .append .. => .append
    | .mset .. => .mset
    | .del .. => .del
    | .get _ => .get
    | .strlen _ => .strlen
  args
    | .set key val _ words => key :: val :: words
    | .getset key val | .append key val => [key, val]
    | .mset pair pairs => flatPairs (pair :: pairs)
    | .del key keys => key :: keys
    | .get key | .strlen key => [key]

/-- The words of a SET spell its flags. -/
def StringRequest.Spelled (upper : Bytes → Bytes) : StringRequest → Prop
  | set _ _ flags words => Spells upper (flags.map .flag) words
  | _ => True

/-- Whether a SET with these flags writes, by what the key holds. -/
def Writes (flags : List SetFlag) (old : Option Bytes) : Prop :=
  (.nx ∈ flags → old = none) ∧ (.xx ∈ flags → old ≠ none)

instance (flags : List SetFlag) (old : Option Bytes) : Decidable (Writes flags old) :=
  inferInstanceAs (Decidable (_ ∧ _))

/-- The strings after MSET: a later pair for the same key wins. -/
def assignAll (pairs : List (Bytes × Bytes)) (m : Bytes → Option Bytes) : Bytes → Option Bytes :=
  pairs.foldl (fun m p => Function.update m p.1 (some p.2)) m

/-- The answer to a request, and the strings after it. -/
def StringRequest.step :
    StringRequest → (Bytes → Option Bytes) → List Write × (Bytes → Option Bytes)
  | set key val flags _, m =>
    if .nx ∈ flags ∧ .xx ∈ flags then ([.error (ascii "ERR syntax error")], m)
    else
      (if .get ∈ flags then writeBulk (m key)
        else if Writes flags (m key) then [.string (ascii "OK")] else [.null],
        if Writes flags (m key) then Function.update m key (some val) else m)
  | getset key val, m => (writeBulk (m key), Function.update m key (some val))
  | append key val, m =>
    let new := (m key).getD [] ++ val
    ([.int new.length], Function.update m key (some new))
  | mset pair pairs, m => ([.string (ascii "OK")], assignAll (pair :: pairs) m)
  | del key keys, m =>
    ([.int (countPresent (fun k => decide (m k ≠ none)) (key :: keys))],
      fun k => if k ∈ key :: keys then none else m k)
  | get key, m => (writeBulk (m key), m)
  | strlen key, m => ([.int ((m key).getD []).length], m)

/-- The requests that the code answers as the reference does. -/
def StringRequest.Answered : StringRequest → Prop
  | set _ _ flags _ => ¬ (.nx ∈ flags ∧ .xx ∈ flags)
  | _ => True

/-- The keys in `K` hold these strings, without expiry, from `start` on. -/
def HoldsStrings (c : Codec) (start : Nat) :
    (K : Bytes → Prop) → (Bytes → Option Bytes) → DB → Prop :=
  Held fun o => Shows c start (ofString o)

end Badis
