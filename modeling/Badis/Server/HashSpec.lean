import Badis.Lib.OrdFinmap
import Badis.Server.Session

/-!
# The reference for hashes

Every key holds a finite map from fields to values, absent when empty. What HKEYS, HVALS and HGETALL
answer is determined up to the order, so the reference is a relation.
-/

namespace Badis

open Lib

/-- The fields of a hash and their values. -/
abbrev FieldMap := Finmap fun _ : Bytes => Bytes

/-- A request on hashes. -/
inductive HashRequest where
  | set (key : Bytes) (pair : Bytes × Bytes) (pairs : List (Bytes × Bytes))
  | setNX (key field val : Bytes)
  | delFields (key field : Bytes) (fields : List Bytes)
  | get (key field : Bytes)
  | getAll (key : Bytes)
  | len (key : Bytes)
  | hasField (key field : Bytes)
  | getMany (key field : Bytes) (fields : List Bytes)
  | allFields (key : Bytes)
  | allVals (key : Bytes)
  | del (key : Bytes) (keys : List Bytes)

instance : Wire HashRequest where
  verb
    | .set .. => .hset
    | .setNX .. => .hsetnx
    | .delFields .. => .hdel
    | .get .. => .hget
    | .getAll _ => .hgetall
    | .len _ => .hlen
    | .hasField .. => .hexists
    | .getMany .. => .hmget
    | .allFields _ => .hkeys
    | .allVals _ => .hvals
    | .del .. => .del
  args
    | .set key pair pairs => key :: flatPairs (pair :: pairs)
    | .setNX key field val => [key, field, val]
    | .delFields key field fields => key :: field :: fields
    | .get key field | .hasField key field => [key, field]
    | .getAll key | .len key | .allFields key | .allVals key => [key]
    | .getMany key field fields => key :: field :: fields
    | .del key keys => key :: keys

/-- The maps after a request. -/
def HashRequest.next : HashRequest → (Bytes → FieldMap) → Bytes → FieldMap
  | set key pair pairs, m =>
    Function.update m key ((pair :: pairs).foldl (fun h p => h.insert p.1 p.2) (m key))
  | setNX key field val, m =>
    if field ∈ m key then m else Function.update m key ((m key).insert field val)
  | delFields key field fields, m =>
    Function.update m key ((field :: fields).foldl (fun h f => h.erase f) (m key))
  | del key keys, m => fun k => if k ∈ key :: keys then ∅ else m k
  | _, m => m

/-- What may be answered to a request. -/
def HashRequest.Answers (m : Bytes → FieldMap) (ws : List Write) : HashRequest → Prop
  | set key pair pairs => ws = [.int (((pair :: pairs).map Prod.fst).toFinset \ (m key).keys).card]
  | setNX key field _ => ws = [.int (if field ∈ m key then 0 else 1)]
  | delFields key field fields => ws = [.int ((field :: fields).toFinset ∩ (m key).keys).card]
  | get key field => ws = writeBulk ((m key).lookup field)
  | getAll key =>
    ∃ l : List (Bytes × Bytes), (l : Multiset (Bytes × Bytes)) =
      (m key).entries.map (fun e => (e.1, e.2)) ∧
      ws = .array (l.length * 2) :: l.flatMap fun e => [.bulk e.1, .bulk e.2]
  | len key => ws = [.int (m key).keys.card]
  | hasField key field => ws = [.int (if field ∈ m key then 1 else 0)]
  | getMany key field fields => ws = writeBulks ((field :: fields).map fun f => (m key).lookup f)
  | allFields key => ∃ l : List Bytes, (l : Multiset Bytes) = (m key).keys.val ∧ ws = writeStrings l
  | allVals key =>
    ∃ l : List Bytes, (l : Multiset Bytes) = (m key).entries.map (fun e => e.2) ∧
      ws = writeStrings l
  | del key keys => ws = [.int (countPresent (fun k => decide (m k ≠ ∅)) (key :: keys))]

/-- The reference as a relation on what is written and the maps before and after. -/
def HashRequest.spec (a : Arrival HashRequest) (m : Bytes → FieldMap) (o : Except Err (List Write))
    (m' : Bytes → FieldMap) : Prop :=
  ∃ ws, o = .ok ws ∧ a.request.Answers m ws ∧ m' = a.request.next m

/-- A hash as what the store shows of a key. -/
def hashView (g : GoMap) : View := if g.entries = [] then none else some (.hash g, 0)

/-- A key holds this map, without expiry, from `start` on. -/
def RepHash (c : Codec) (start : Nat) (h : FieldMap) (s : Slot) : Prop :=
  ∃ g : GoMap, g.toFinmap = h ∧ Shows c start (hashView g) s

/-- The keys in `K` hold these maps, without expiry, from `start` on. -/
def HoldsHashes (c : Codec) (start : Nat) : (K : Bytes → Prop) → (Bytes → FieldMap) → DB → Prop :=
  Held (RepHash c start)

end Badis
