import Badis.Store.Fsm

/-!
# Applying a log

The replicated log is a list of commands; each `Apply` runs one of them with its own clock readings
and map iteration orders. A run is the list of these steps.
-/

namespace Badis

open Lib

/-- One `Apply`: what its execution sees, and the command. -/
abbrev Step := Env × Command

/-- The `Apply` calls of a run in order: the replies and the database left behind. -/
def applyLog (c : Codec) : List Step → DB → List (Except Err Result) × DB
  | [], db => ([], db)
  | (env, cmd) :: rest, db =>
    let (r, db) := applyCmd c env cmd db
    let (rs, db) := applyLog c rest db
    (r :: rs, db)

theorem applyLog_cons (c : Codec) (env : Env) (cmd : Command) (rest : List Step) (db : DB) :
    applyLog c ((env, cmd) :: rest) db =
      ((applyCmd c env cmd db).1 :: (applyLog c rest (applyCmd c env cmd db).2).1,
        (applyLog c rest (applyCmd c env cmd db).2).2) := rfl

/-- The clock readings of a run that starts at the reading `t` do not go back. -/
def Ordered : Nat → List Step → Prop
  | _, [] => True
  | t, (env, _) :: rest => t ≤ env.clock.now ∧ Ordered env.clock.ttlType rest

theorem Clock.now_le_ttlType (clock : Clock) : clock.now ≤ clock.ttlType :=
  (clock.now_le.trans clock.remaining_le).trans clock.ttl_le

/-- No step of a run reads the clock before the run starts. -/
theorem Ordered.le_of_mem {t : Nat} {steps : List Step} (h : Ordered t steps) {s : Step}
    (hs : s ∈ steps) :
    t ≤ s.1.clock.now := by
  induction steps generalizing t with
  | nil => cases hs
  | cons first rest ih =>
    obtain ⟨env, cmd⟩ := first
    rcases List.mem_cons.mp hs with rfl | hs
    · exact h.1
    · exact (h.1.trans env.clock.now_le_ttlType).trans (ih h.2 hs)

/-- The last clock reading of a run that starts at the reading `t`. -/
def lastReading : Nat → List Step → Nat
  | t, [] => t
  | _, (env, _) :: rest => lastReading env.clock.ttlType rest

/-- Every step of a run meets `P` in the database it finds. -/
def Along (c : Codec) (P : Env → Command → DB → Prop) : List Step → DB → Prop
  | [], _ => True
  | (env, cmd) :: rest, db => P env cmd db ∧ Along c P rest (applyCmd c env cmd db).2

instance Ordered.decidable : (t : Nat) → (steps : List Step) → Decidable (Ordered t steps)
  | _, [] => isTrue trivial
  | t, (env, _) :: rest =>
    have := Ordered.decidable env.clock.ttlType rest
    inferInstanceAs (Decidable (t ≤ env.clock.now ∧ Ordered env.clock.ttlType rest))

instance Along.decidable (c : Codec) (P : Env → Command → DB → Prop)
    [∀ env cmd db, Decidable (P env cmd db)] :
    (steps : List Step) → (db : DB) → Decidable (Along c P steps db)
  | [], _ => isTrue trivial
  | (env, cmd) :: rest, db =>
    have := Along.decidable c P rest (applyCmd c env cmd db).2
    inferInstanceAs (Decidable (P env cmd db ∧ Along c P rest (applyCmd c env cmd db).2))

end Badis
