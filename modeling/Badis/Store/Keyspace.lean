import Badis.Store.Log
import Badis.Store.Proofs.ViewProofs
import Badis.Store.Reads

/-!
# The keyspace

What the store is for: every key holds a value with an expiry, or nothing. There are no entries, no
types kept beside the values and no encodings, and a value is gone from its expiry on. Commands act
on what the keys hold at their clock reading, and the reads answer by it.
-/

namespace Badis

open Lib

/-- What every key holds; a value counts until it expires. -/
abbrev Keyspace := Bytes → View

/-- What the keys hold at the clock reading `t`. -/
def Keyspace.at (t : Nat) (ks : Keyspace) : Keyspace := fun k => View.at t (ks k)

/-- A command: its reply, and what the keys hold afterwards. -/
def Keyspace.apply (env : Env) (cmd : Command) (ks : Keyspace) : Except Err Result × Keyspace :=
  let now := Keyspace.at env.clock.now ks
  (reply env cmd now, fun k => (keyAct env cmd k (now k)).onView env.clock (now k))

/-- The commands of a run in order. -/
def Keyspace.applyLog : List Step → Keyspace → List (Except Err Result) × Keyspace
  | [], ks => ([], ks)
  | (env, cmd) :: rest, ks =>
    let (r, ks) := Keyspace.apply env cmd ks
    let (rs, ks) := Keyspace.applyLog rest ks
    (r :: rs, ks)

/-! ## The reads -/

namespace View

/-- `FSM.GetString` of a key that holds `x`. -/
def getString (x : View) : Except Err (Option Bytes) :=
  match x with
  | none => .ok none
  | some (.string b, _) => .ok (some b)
  | some _ => .error .wrongType

/-- `FSM.Type`. -/
def type (x : View) : Bytes :=
  match x with
  | none => ascii "none"
  | some (v, _) => v.typ

/-- `FSM.TTL` and `FSM.PTTL` at the clock reading `t`. -/
def timeToLive (unit : Int → Int) (t : Nat) (x : View) : Int :=
  match x with
  | none => -2
  | some (_, exp) =>
    if exp = 0 then -1
    else
      let ttl := unit (timeUntil t exp)
      if ttl < 0 then -2 else ttl

/-- What a read that expects one type finds. -/
def read {α : Type} (as : Value → Except Err α) (x : View) : Except Err (Option α) :=
  match x with
  | none => .ok none
  | some (v, _) => (as v).map some

end View

/-- At the clock reading `t` the reads of the FSM answer for the key `k` as if it held `x`. -/
structure ReadsFrom (c : Codec) (t : Nat) (db : DB) (k : Bytes) (x : View) : Prop where
  getString : ((getString t k).run db).1 = View.getString x
  type : ((fsmType t k).run db).1 = .ok (View.type x)
  present : ((fsmExists t [k]).run db).1 = .ok (if x.isSome then 1 else 0)
  ttl : ((fsmTTL t k).run db).1 = .ok (View.timeToLive durationSeconds t x)
  pttl : ((fsmPTTL t k).run db).1 = .ok (View.timeToLive (fun d => d.tdiv 1000000) t x)
  hGetAll : ((hGetAll c t k).run db).1 = (View.read Value.asHash x).map fun h => h.getD OrdMap.empty
  lRange : ∀ start stop, ((lRange c t k start stop).run db).1 =
    (View.read Value.asList x).bind fun l => sliceListChecked (l.getD []) start stop
  sIsMember : ∀ m, ((sIsMember c t k m).run db).1 =
    (View.read Value.asSet x).map fun s => if (s.getD OrdMap.empty).contains m then 1 else 0

/-- From the clock reading `t` on the key `k` holds `x`, until it expires. -/
def Holds (c : Codec) (t : Nat) (db : DB) (k : Bytes) (x : View) : Prop :=
  ∀ t', t ≤ t' → DB.view c t' db k = View.at t' x

/-- From the clock reading `t` on, the keys hold in the database what they hold in the keyspace. -/
def Represents (c : Codec) (t : Nat) (db : DB) (ks : Keyspace) : Prop := ∀ k, Holds c t db k (ks k)

end Badis
