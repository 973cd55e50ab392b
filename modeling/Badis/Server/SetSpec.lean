import Badis.Server.Session

/-!
# The reference for sets

Every key holds a finite set, absent when empty. Which members SPOP takes, and the order in which
SMEMBERS lists them, is left open, so the reference is a relation.
-/

namespace Badis

open Lib

/-- A request on sets. -/
inductive MemberRequest where
  | add (key member : Bytes) (members : List Bytes)
  | rem (key member : Bytes) (members : List Bytes)
  | pop (key : Bytes)
  | popCount (key : Bytes) (count : { n : Numeral // 0 ≤ n.value })
  | card (key : Bytes)
  | allMembers (key : Bytes)
  | isMember (key member : Bytes)
  | del (key : Bytes) (keys : List Bytes)

instance : Wire MemberRequest where
  verb
    | .add .. => .sadd
    | .rem .. => .srem
    | .pop _ | .popCount .. => .spop
    | .card _ => .scard
    | .allMembers _ => .smembers
    | .isMember .. => .sismember
    | .del .. => .del
  args
    | .add key member members | .rem key member members => key :: member :: members
    | .pop key | .card key | .allMembers key => [key]
    | .popCount key count => [key, count.1.text]
    | .isMember key member => [key, member]
    | .del key keys => key :: keys

/-- Taking `n` members of the set under `key`, or all of them if there are fewer. -/
structure Takes (n : Nat) (key : Bytes) (m : Bytes → Finset Bytes) (taken : List Bytes)
    (m' : Bytes → Finset Bytes) : Prop where
  distinct : taken.Nodup
  length : taken.length = min n (m key).card
  members : ∀ x ∈ taken, x ∈ m key
  rest : m' = Function.update m key (m key \ taken.toFinset)

/-- What may be answered to a request, and the sets before and after. -/
def MemberRequest.Answers (m : Bytes → Finset Bytes) (ws : List Write) (m' : Bytes → Finset Bytes) :
    MemberRequest → Prop
  | add key member members =>
    m' = Function.update m key (m key ∪ (member :: members).toFinset) ∧
      ws = [.int ((m' key).card - (m key).card)]
  | rem key member members =>
    m' = Function.update m key (m key \ (member :: members).toFinset) ∧
      ws = [.int ((m key).card - (m' key).card)]
  | pop key => ∃ taken, Takes 1 key m taken m' ∧ ws = writeBulk taken.head?
  | popCount key count =>
    ∃ taken, Takes count.1.value.toNat key m taken m' ∧ ws = writeStrings taken
  | card key => m' = m ∧ ws = [.int (m key).card]
  | allMembers key => m' = m ∧ ∃ l : List Bytes, l.Nodup ∧ l.toFinset = m key ∧ ws = writeStrings l
  | isMember key member => m' = m ∧ ws = [.int (if member ∈ m key then 1 else 0)]
  | del key keys =>
    m' = (fun k => if k ∈ key :: keys then ∅ else m k) ∧
      ws = [.int (countPresent (fun k => decide (m k ≠ ∅)) (key :: keys))]

/-- The reference as a relation on what is written and the sets before and after. -/
def MemberRequest.spec (a : Arrival MemberRequest) (m : Bytes → Finset Bytes)
    (o : Except Err (List Write)) (m' : Bytes → Finset Bytes) : Prop :=
  ∃ ws, o = .ok ws ∧ a.request.Answers m ws m'

/-- The members that the entries of a key hold at the clock reading `t`, as they are stored: none if
the key is absent, and otherwise a set without expiry. -/
inductive StoresMembers (c : Codec) (t : Nat) (s : Slot) : List Bytes → Prop where
  | nothing (habsent : s.user.filter (Entry.live t) = none) : StoresMembers c t s []
  | entry {e : Entry} {l : List Bytes} (hne : l ≠ [])
      (hlive : s.user.filter (Entry.live t) = some e) (hexp : e.expiresAt = 0)
      (htyp : s.typ t = typeSet) (hdecode : c.decodeStrings e.value = some l) :
      StoresMembers c t s l

/-- A key holds this set, each member once and without expiry, from `start` on. -/
def RepSet (c : Codec) (start : Nat) (x : Finset Bytes) (s : Slot) : Prop :=
  ∃ l : List Bytes, l.Nodup ∧ l.toFinset = x ∧ ∀ t, start ≤ t → StoresMembers c t s l

/-- The keys in `K` hold these sets, without expiry, from `start` on. -/
def HoldsSets (c : Codec) (start : Nat) : (K : Bytes → Prop) → (Bytes → Finset Bytes) → DB → Prop :=
  Held (RepSet c start)

end Badis
