import Badis.Store.Proofs.CheckedProofs
import Badis.Store.Proofs.EffectProofs

/-!
# The errors of a command

What it takes for a command to fail: a wrong type, wrong arguments, a value that is no integer,
bytes that do not decode, or an argument that is missing where `Args` is indexed without a test.
-/

namespace Badis

open Lib

/-- An argument is missing that the switch indexes without a test. -/
def Command.lacksArgs (cmd : Command) : Bool :=
  match cmd.op with
  | .incrby | .decrby => cmd.args.length < 1
  | .ltrim | .lrem => cmd.args.length < 2
  | _ => false

/-- The types whose values are encoded. -/
def isAggregate (typ : Bytes) : Bool := typ = typeList || typ = typeHash || typ = typeSet

/-- The errors of a command on a key that holds `x`. -/
inductive PlanError (cmd : Command) (x : View) : Err → Prop where
  | wrongType : PlanError cmd x .wrongType
  | missingArgs : PlanError cmd x (.missingArgs cmd.op)
  | invalidArgs : PlanError cmd x (.invalidArgs cmd.op)
  | notInteger : PlanError cmd x .notInteger
  | unknownOp : PlanError cmd x (.unknownOp cmd.op)
  | decode (typ bytes : Bytes) (exp : UInt64) (h : x = some (.raw typ bytes, exp))
    (htyp : isAggregate typ = true) : PlanError cmd x .decode
  | panic (h : cmd.lacksArgs = true) : PlanError cmd x .panic

section Errors

variable {env : Env} {cmd : Command} {x : View} {e : Err}

theorem except_bind_error {α β : Type} {m : Except Err α} {f : α → Except Err β}
    (h : (m >>= f) = .error e) : m = .error e ∨ ∃ a, m = .ok a ∧ f a = .error e := by
  cases m with
  | error e' =>
    cases h
    exact .inl rfl
  | ok a => exact .inr ⟨a, rfl, h⟩

theorem except_bind_ok {α β : Type} {m : Except Err α} {f : α → Except Err β} {b : β}
    (h : (m >>= f) = .ok b) : ∃ a, m = .ok a ∧ f a = .ok b := by
  cases m with
  | error e' => cases h
  | ok a => exact ⟨a, rfl, h⟩

/-- A value is refused as one of another type, or as bytes that did not decode. -/
theorem readView_error {α : Type} {as : Value → Except Err α} {want : Bytes}
    (hwant : isAggregate want = true)
    (has : ∀ v e, as v = .error e → e = Value.typeError want v ∧
      (v.typ = want → ∃ b, v = .raw want b))
    (h : readView env as x = .error e) : PlanError cmd x e := by
  cases x with
  | none => cases h
  | some p =>
    obtain ⟨v, exp⟩ := p
    rw [readView] at h
    cases hv : as v with
    | ok a =>
      rw [hv] at h
      cases h
    | error e' =>
      rw [hv] at h
      cases h
      obtain ⟨rfl, hraw⟩ := has v e hv
      unfold Value.typeError
      split_ifs with htyp
      · obtain ⟨b, rfl⟩ := hraw htyp
        exact .decode _ _ _ rfl hwant
      · exact .wrongType

/-- A value that is no list is refused by its type, and a list only if it did not decode. -/
theorem asList_error (v : Value) (e : Err) (h : v.asList = .error e) :
    e = Value.typeError typeList v ∧ (v.typ = typeList → ∃ b, v = .raw typeList b) := by
  cases v with
  | list l => cases h
  | raw typ b => exact ⟨by cases h; rfl, fun htyp => ⟨b, by rw [← htyp]; rfl⟩⟩
  | string =>
    exact ⟨by cases h; rfl, fun htyp => absurd htyp (show typeString ≠ typeList by decide)⟩
  | hash => exact ⟨by cases h; rfl, fun htyp => absurd htyp (show typeHash ≠ typeList by decide)⟩
  | set => exact ⟨by cases h; rfl, fun htyp => absurd htyp (show typeSet ≠ typeList by decide)⟩

theorem asHash_error (v : Value) (e : Err) (h : v.asHash = .error e) :
    e = Value.typeError typeHash v ∧ (v.typ = typeHash → ∃ b, v = .raw typeHash b) := by
  cases v with
  | hash l => cases h
  | raw typ b => exact ⟨by cases h; rfl, fun htyp => ⟨b, by rw [← htyp]; rfl⟩⟩
  | string =>
    exact ⟨by cases h; rfl, fun htyp => absurd htyp (show typeString ≠ typeHash by decide)⟩
  | list => exact ⟨by cases h; rfl, fun htyp => absurd htyp (show typeList ≠ typeHash by decide)⟩
  | set => exact ⟨by cases h; rfl, fun htyp => absurd htyp (show typeSet ≠ typeHash by decide)⟩

theorem asSet_error (v : Value) (e : Err) (h : v.asSet = .error e) :
    e = Value.typeError typeSet v ∧ (v.typ = typeSet → ∃ b, v = .raw typeSet b) := by
  cases v with
  | set l => cases h
  | raw typ b => exact ⟨by cases h; rfl, fun htyp => ⟨b, by rw [← htyp]; rfl⟩⟩
  | string => exact ⟨by cases h; rfl, fun htyp => absurd htyp (show typeString ≠ typeSet by decide)⟩
  | list => exact ⟨by cases h; rfl, fun htyp => absurd htyp (show typeList ≠ typeSet by decide)⟩
  | hash => exact ⟨by cases h; rfl, fun htyp => absurd htyp (show typeHash ≠ typeSet by decide)⟩

/-- A missing argument is an index out of range. -/
theorem arg_error {i : Nat} (h : cmd.arg i = .error e) : e = .panic ∧ cmd.args.length ≤ i := by
  unfold Command.arg at h
  split at h
  · cases h
  · rename_i hnone
    cases h
    exact ⟨rfl, List.getElem?_eq_none_iff.mp hnone⟩

theorem parseInteger_error {s : Bytes} (h : parseInteger s = .error e) : e = .notInteger := by
  unfold parseInteger at h
  split at h
  · cases h
  · cases h
    rfl

/-- Each plan fails with one of the errors listed in `PlanError`. -/
theorem planSet_error (h : planSet env cmd x = .error e) : PlanError cmd x e := by
  unfold planSet at h
  split at h
  · cases h
    exact .missingArgs
  · cases h
  · cases h
  · cases h
    exact .wrongType

theorem planIncr_error (h : planIncr env cmd x = .error e) : PlanError cmd x e := by
  rcases except_bind_error h with hval | ⟨val, -, h⟩
  · unfold counterOf at hval
    split at hval
    · cases hval
    · rw [parseInteger_error hval]
      exact .notInteger
    · cases hval
      exact .wrongType
  rcases except_bind_error h with hdelta | ⟨delta, -, h⟩
  · unfold incrDelta at hdelta
    split_ifs at hdelta with hby
    rcases except_bind_error hdelta with harg | ⟨arg, -, hparse⟩
    · obtain ⟨rfl, hlen⟩ := arg_error harg
      refine .panic ?_
      unfold Command.lacksArgs
      rcases hby with hby | hby
      · rw [hby]
        exact decide_eq_true (by omega)
      · rw [hby]
        exact decide_eq_true (by omega)
    · rw [parseInteger_error hparse]
      exact .notInteger
  · cases h

theorem planHSet_error (h : planHSet env cmd x = .error e) : PlanError cmd x e := by
  unfold planHSet at h
  split_ifs at h
  · cases h
    exact .invalidArgs
  · rcases except_bind_error h with hread | ⟨old, -, h⟩
    · exact readView_error (by decide) asHash_error hread
    · cases h

theorem planHDel_error (h : planHDel env cmd x = .error e) : PlanError cmd x e := by
  rcases except_bind_error h with hread | ⟨old, -, h⟩
  · exact readView_error (by decide) asHash_error hread
  · cases old <;> cases h

theorem planPush_error (h : planPush env cmd x = .error e) : PlanError cmd x e := by
  rcases except_bind_error h with hread | ⟨old, -, h⟩
  · exact readView_error (by decide) asList_error hread
  · split_ifs at h <;> cases h

theorem planPop_error (h : planPop env cmd x = .error e) : PlanError cmd x e := by
  rcases except_bind_error h with hread | ⟨old, -, h⟩
  · exact readView_error (by decide) asList_error hread
  · dsimp only at h
    split_ifs at h
    · cases h
    · rcases except_bind_error h with hcount | ⟨count, -, h⟩
      · unfold popCount at hcount
        split at hcount
        · cases hcount
        · rcases except_bind_error hcount with hparse | ⟨n, -, hneg⟩
          · rw [parseInteger_error hparse]
            exact .notInteger
          · split_ifs at hneg
            cases hneg
            exact .notInteger
      · cases h

/-- The two arguments of LTRIM and LREM. -/
theorem args_error {α : Type} {f : Bytes → Bytes → Except Err α}
    (hop : cmd.op = .ltrim ∨ cmd.op = .lrem)
    (h : (do let a ← cmd.arg 0; let b ← cmd.arg 1; f a b) = .error e)
    (hf : ∀ a b, f a b ≠ .error e) : PlanError cmd x e := by
  have hlacks : cmd.args.length < 2 → cmd.lacksArgs = true := by
    intro hlen
    unfold Command.lacksArgs
    rcases hop with hop | hop
    · rw [hop]
      exact decide_eq_true hlen
    · rw [hop]
      exact decide_eq_true hlen
  rcases except_bind_error h with ha | ⟨a, -, h⟩
  · obtain ⟨rfl, hlen⟩ := arg_error ha
    exact .panic (hlacks (by omega))
  rcases except_bind_error h with hb | ⟨b, -, h⟩
  · obtain ⟨rfl, hlen⟩ := arg_error hb
    exact .panic (hlacks (by omega))
  · exact absurd h (hf a b)

theorem planLTrim_error (hop : cmd.op = .ltrim) (h : planLTrim env cmd x = .error e) :
    PlanError cmd x e := by
  rcases except_bind_error h with hread | ⟨old, -, h⟩
  · exact readView_error (by decide) asList_error hread
  · exact args_error (.inl hop) h fun a b hab => nomatch hab

theorem planLRem_error (hop : cmd.op = .lrem) (h : planLRem env cmd x = .error e) :
    PlanError cmd x e := by
  rcases except_bind_error h with hread | ⟨old, -, h⟩
  · exact readView_error (by decide) asList_error hread
  · exact args_error (.inr hop) h fun a b hab => nomatch hab

theorem planSAdd_error (h : planSAdd env cmd x = .error e) : PlanError cmd x e := by
  rcases except_bind_error h with hread | ⟨old, -, h⟩
  · exact readView_error (by decide) asSet_error hread
  · cases h

theorem planSRem_error (h : planSRem env cmd x = .error e) : PlanError cmd x e := by
  rcases except_bind_error h with hread | ⟨old, -, h⟩
  · exact readView_error (by decide) asSet_error hread
  · cases old with
    | none => cases h
    | some p =>
      dsimp only at h
      split_ifs at h <;> cases h

/-- And so does the plan of any command. -/
theorem plan_error (h : plan env cmd x = .error e) : PlanError cmd x e := by
  unfold plan at h
  cases hop : cmd.op <;> rw [hop] at h
  case set | getset | append => exact planSet_error h
  case incr | decr | incrby | decrby => exact planIncr_error h
  case expire => cases x <;> cases h
  case persist =>
    have hpersist : planPersist x = .error e := h
    unfold planPersist at hpersist
    split at hpersist
    · cases hpersist
    · split_ifs at hpersist
  case hset | hsetnx => exact planHSet_error h
  case hdel => exact planHDel_error h
  case lpush | rpush | lpushx | rpushx => exact planPush_error h
  case lpop | rpop => exact planPop_error h
  case ltrim => exact planLTrim_error hop h
  case lrem => exact planLRem_error hop h
  case sadd => exact planSAdd_error h
  case srem | spop => exact planSRem_error h
  all_goals
    cases h
    rw [← hop]
    exact .unknownOp

end Errors

/-- The errors of a command on the whole database. -/
theorem applyCmd_error {c : Codec} {env : Env} {cmd : Command} {db : DB} {e : Err}
    (h : (applyCmd c env cmd db).1 = .error e) :
    PlanError cmd (DB.view c env.clock.now db cmd.key) e := by
  rw [reply_applyCmd] at h
  cases hop : cmd.op.multi with
  | false =>
    rw [reply_of_single _ _ hop] at h
    cases hplan : plan env cmd (DB.view c env.clock.now db cmd.key) with
    | ok p =>
      rw [hplan] at h
      cases h
    | error e' =>
      rw [hplan] at h
      cases h
      exact plan_error hplan
  | true =>
    unfold reply at h
    split at h
    · split_ifs at h
      cases h
      exact .invalidArgs
    · dsimp only at h
      split_ifs at h
    · cases h
    · rename_i hmset hdel hflush
      exfalso
      revert hop
      cases hop' : cmd.op <;> simp_all [Op.multi]

end Badis
