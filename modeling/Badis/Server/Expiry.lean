import Badis.Server.SetGrammar
import Badis.Store.Plan

/-!
# Requests that set an expiry

SETEX, SET with a time and EXPIRE give a number that becomes the expiry second of the user entry, by
way of milliseconds and nanoseconds in an int64. Here is what the number asks for (`RunsOut`), and
the numbers that survive the arithmetic (`SecondsFit`, `GivesExpiry`).
-/

namespace Badis

open Lib

/-- The command gets to write its key: it is not rejected, and EXPIRE finds the key, or the
condition of SET holds. -/
def TakesEffect (c : Codec) (env : Env) (cmd : Command) (db : DB) : Prop :=
  (∃ r, (applyCmd c env cmd db).1 = .ok r) ∧
    if cmd.op = .expire then DB.present env.clock.now db cmd.key = true
    else setKey cmd (DB.present env.clock.now db cmd.key) = true

/-- The nanoseconds that `n` units of `unit` nanoseconds are in an int64. -/
def wrappedNanos (unit n : Int) : Int := (unit * n).bmod (2 ^ 64)

/-- A number of milliseconds that gives an entry an expiry, at the clock reading `t`: it is
positive, and the sum is not in the first second of 1970, which as an expiry means none. -/
def GivesExpiry (t : Nat) (ms : Int) : Prop :=
  0 < ms ∧ ¬ (0 ≤ t + wrappedNanos 1000000 ms ∧ t + wrappedNanos 1000000 ms < 1000000000)

/-- A request for an expiry of the key in `s` seconds. -/
inductive AsksSeconds (srv : Server) (views : Nat → ReadView) (key : Bytes) (s : Int64) :
    Except Err Action → Prop where
  | setex {name secs val : Bytes} (hsecs : parseInt secs = (s, true)) (hpos : 0 < s) :
      AsksSeconds srv views key s (handleSetEx srv [name, key, secs, val])
  | set {name val : Bytes} {words : List Bytes} {options : List SetOption}
      (hwords : Spells srv.upper options words)
      (hlast : (options.filterMap SetOption.time?).getLast? = some (.ex, s)) (hpos : 0 < s) :
      AsksSeconds srv views key s (handleSet srv views (name :: key :: val :: words))
  | expire {name secs : Bytes} (hsecs : parseInt secs = (s, true)) :
      AsksSeconds srv views key s (handleExpire srv [name, key, secs])

/-- A key that is live at the instants `live` runs out `s` seconds after `t`, up to a second early;
at once if `s` is not positive. -/
def RunsOut (t : Nat) (s : Int) (live : Nat → Bool) : Prop :=
  if 0 < s then
    (∀ u : Nat, (u : Int) < t + (s - 1) * 1000000000 → live u = true) ∧
      ∀ u : Nat, t + s * 1000000000 ≤ (u : Int) → live u = false
  else ∀ u, t ≤ u → live u = false

/-- The seconds whose expiry the arithmetic gets right at the clock reading `t`. -/
def SecondsFit (t : Nat) (s : Int) : Prop :=
  if 0 < s then s ≤ 9223372036
  else 1000000000 ≤ t + wrappedNanos 1000000000 s ∧
    (t + wrappedNanos 1000000000 s) / 1000000000 ≤ (t : Int) / 1000000000

end Badis
