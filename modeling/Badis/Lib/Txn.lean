import Mathlib.Order.Basic

/-!
# Transactions as state passing with errors

A transaction runs on a state, succeeds with a value or fails with an error, and in both cases
leaves a state behind: a failed step does not undo what was written before it. Undoing is the
business of the caller, which either runs the transaction atomically (`Txn.atomically`) or catches
the error and goes on from the state it finds (`Txn.attempt`).

`Txn.Respects R m` says that `m` moves every state along the relation `R`. For a preorder `R` the
rules below follow the structure of the program, so that a frame condition or an invariant is proved
from the primitive steps alone. `Txn.Congruent R m` says that `m` does the same in states that `R`
relates.
-/

namespace Lib

/-- A transaction over the state `σ` with errors `ε` and results `α`. -/
structure Txn (σ ε α : Type) where
  /-- The outcome on a state, and the state left behind. -/
  run : σ → Except ε α × σ

namespace Txn

variable {σ ε α β : Type}

/-- Run `m`, then `f` on its result; the first error ends the run in the state it was raised in. -/
protected def bind (m : Txn σ ε α) (f : α → Txn σ ε β) : Txn σ ε β where
  run s :=
    match m.run s with
    | (.ok a, s') => (f a).run s'
    | (.error e, s') => (.error e, s')

instance : Monad (Txn σ ε) where
  pure a := ⟨fun s => (.ok a, s)⟩
  bind := Txn.bind

/-- Fail with `e`. -/
def throw (e : ε) : Txn σ ε α := ⟨fun s => (.error e, s)⟩

/-- A computation that does not touch the state. -/
def lift (x : Except ε α) : Txn σ ε α := ⟨fun s => (x, s)⟩

instance : MonadLift (Except ε) (Txn σ ε) := ⟨lift⟩

/-- A value computed from the state. -/
def reads (f : σ → α) : Txn σ ε α := ⟨fun s => (.ok (f s), s)⟩

/-- An update of the state. -/
def modify (f : σ → σ) : Txn σ ε Unit := ⟨fun s => (.ok (), f s)⟩

/-- Run `m` and hand its error, if any, to the caller as a value. -/
def attempt (m : Txn σ ε α) : Txn σ ε (Except ε α) := ⟨fun s => (.ok (m.run s).1, (m.run s).2)⟩

/-- Commit the writes of `m` if it succeeds, discard them if it fails. -/
def atomically (m : Txn σ ε α) (s : σ) : Except ε α × σ :=
  match m.run s with
  | (.ok a, s') => (.ok a, s')
  | (.error e, _) => (.error e, s)

/-! ## Running the combinators -/

@[simp] theorem run_pure (a : α) (s : σ) : (pure a : Txn σ ε α).run s = (.ok a, s) := rfl

@[simp] theorem run_throw (e : ε) (s : σ) : (throw e : Txn σ ε α).run s = (.error e, s) := rfl

@[simp] theorem run_lift (x : Except ε α) (s : σ) : (lift x : Txn σ ε α).run s = (x, s) := rfl

@[simp] theorem run_reads (f : σ → α) (s : σ) : (reads f : Txn σ ε α).run s = (.ok (f s), s) := rfl

@[simp] theorem run_modify (f : σ → σ) (s : σ) :
    (modify f : Txn σ ε Unit).run s = (.ok (), f s) := rfl

theorem run_bind (m : Txn σ ε α) (f : α → Txn σ ε β) (s : σ) :
    (m >>= f).run s = match m.run s with
      | (.ok a, s') => (f a).run s'
      | (.error e, s') => (.error e, s') := rfl

/-- A step that returns hands its value and its state on. -/
theorem run_bind_ok {m : Txn σ ε α} {f : α → Txn σ ε β} {s s' : σ} {a : α}
    (h : m.run s = (.ok a, s')) : (m >>= f).run s = (f a).run s' := by
  rw [run_bind, h]

/-- A step that fails ends the transaction where it stands; rolling back is left to `atomically`. -/
theorem run_bind_error {m : Txn σ ε α} {f : α → Txn σ ε β} {s s' : σ} {e : ε}
    (h : m.run s = (.error e, s')) : (m >>= f).run s = (.error e, s') := by
  rw [run_bind, h]

theorem atomically_fst (m : Txn σ ε α) (s : σ) : (atomically m s).1 = (m.run s).1 := by
  unfold atomically
  split <;> rename_i h <;> rw [h]

/-! ## Moving along a relation -/

/-- `m` moves every state along `R`, whether it succeeds or fails. -/
def Respects (R : σ → σ → Prop) (m : Txn σ ε α) : Prop := ∀ s, R s (m.run s).2

section Rules

variable {R : σ → σ → Prop}

theorem respects_pure (hr : ∀ s, R s s) (a : α) : Respects R (pure a : Txn σ ε α) := fun s => hr s

theorem respects_throw (hr : ∀ s, R s s) (e : ε) : Respects R (throw e : Txn σ ε α) := fun s => hr s

theorem respects_lift (hr : ∀ s, R s s) (x : Except ε α) : Respects R (lift x : Txn σ ε α) :=
  fun s => hr s

theorem respects_reads (hr : ∀ s, R s s) (f : σ → α) : Respects R (reads f : Txn σ ε α) :=
  fun s => hr s

/-- A failure that is caught has changed the state no further than the relation allows. -/
theorem Respects.attempt {m : Txn σ ε α} (h : Respects R m) : Respects R (attempt m) := h

/-- A transitive relation that each step respects is respected by the steps together. -/
theorem Respects.bind (ht : ∀ a b c, R a b → R b c → R a c) {m : Txn σ ε α} {f : α → Txn σ ε β}
    (hm : Respects R m) (hf : ∀ a, Respects R (f a)) : Respects R (m >>= f) := by
  intro s
  have hs := hm s
  rw [run_bind]
  revert hs
  generalize m.run s = x
  obtain ⟨r, s'⟩ := x
  intro hs
  cases r with
  | ok a => exact ht _ _ _ hs (hf a s')
  | error e => exact hs

/-- A rollback leaves the state as it was, so that a reflexive relation holds in either case. -/
theorem Respects.atomically (hr : ∀ s, R s s) {m : Txn σ ε α} (h : Respects R m) (s : σ) :
    R s (atomically m s).2 := by
  have hs := h s
  unfold Txn.atomically
  split <;> rename_i hm
  · rw [hm] at hs
    exact hs
  · exact hr s

end Rules

/-! ## The errors of a transaction -/

/-- Every error of `m` is one of `E`, in any state. -/
def Raises (E : ε → Prop) (m : Txn σ ε α) : Prop := ∀ s e, (m.run s).1 = .error e → E e

section Errors

variable {E : ε → Prop}

theorem raises_pure (a : α) : Raises E (pure a : Txn σ ε α) := by
  intro s e h
  cases h

theorem raises_throw {e : ε} (he : E e) : Raises E (throw e : Txn σ ε α) := by
  intro s e' h
  cases h
  exact he

theorem raises_lift {x : Except ε α} (hx : ∀ e, x = .error e → E e) :
    Raises E (lift x : Txn σ ε α) := fun _ e h => hx e h

theorem raises_reads (f : σ → α) : Raises E (reads f : Txn σ ε α) := by
  intro s e h
  cases h

/-- The errors of the steps together are those of the steps. -/
theorem Raises.bind {m : Txn σ ε α} {f : α → Txn σ ε β} (hm : Raises E m)
    (hf : ∀ a, Raises E (f a)) : Raises E (m >>= f) := by
  intro s e h
  have hs := hm s
  rw [run_bind] at h
  revert hs h
  generalize m.run s = x
  obtain ⟨r, s'⟩ := x
  intro h hs
  cases r with
  | ok a => exact hf a s' e h
  | error e' =>
    cases h
    exact hs e rfl

end Errors

/-! ## Related states -/

/-- In states related by `R`, `m` has the same outcome and leaves related states behind. -/
def Congruent (R : σ → σ → Prop) (m : Txn σ ε α) : Prop :=
  ∀ s s', R s s' → (m.run s).1 = (m.run s').1 ∧ R (m.run s).2 (m.run s').2

section Related

variable {R : σ → σ → Prop}

theorem congruent_pure (a : α) : Congruent R (pure a : Txn σ ε α) := fun _ _ h => ⟨rfl, h⟩

theorem congruent_throw (e : ε) : Congruent R (throw e : Txn σ ε α) := fun _ _ h => ⟨rfl, h⟩

theorem congruent_lift (x : Except ε α) : Congruent R (lift x : Txn σ ε α) := fun _ _ h => ⟨rfl, h⟩

/-- A read that cannot tell related states apart. -/
theorem congruent_reads {f : σ → α} (hf : ∀ s s', R s s' → f s = f s') :
    Congruent R (reads f : Txn σ ε α) := fun s s' h => ⟨congrArg Except.ok (hf s s' h), h⟩

/-- Steps that do the same in related states do so together. -/
theorem Congruent.bind {m : Txn σ ε α} {f : α → Txn σ ε β} (hm : Congruent R m)
    (hf : ∀ a, Congruent R (f a)) : Congruent R (m >>= f) := by
  intro s s' h
  have hs := hm s s' h
  rw [run_bind, run_bind]
  revert hs
  generalize m.run s = x
  generalize m.run s' = x'
  obtain ⟨r, t⟩ := x
  obtain ⟨r', t'⟩ := x'
  rintro ⟨hr, ht⟩
  have hr' : r = r' := hr
  subst hr'
  cases r with
  | ok a => exact hf a t t' ht
  | error e => exact ⟨rfl, ht⟩

theorem congruent_modify {f : σ → σ} (hf : ∀ s s', R s s' → R (f s) (f s')) :
    Congruent R (modify f : Txn σ ε Unit) := fun s s' h => ⟨rfl, hf s s' h⟩

theorem Congruent.attempt {m : Txn σ ε α} (h : Congruent R m) : Congruent R (attempt m) := by
  intro s s' hs
  obtain ⟨hr, hs'⟩ := h s s' hs
  exact ⟨congrArg Except.ok hr, hs'⟩

/-- Committing or rolling back goes the same way in both. -/
theorem Congruent.atomically {m : Txn σ ε α} (h : Congruent R m) {s s' : σ} (hs : R s s') :
    (atomically m s).1 = (atomically m s').1 ∧ R (atomically m s).2 (atomically m s').2 := by
  have hm := h s s' hs
  unfold Txn.atomically
  generalize m.run s = x at hm
  generalize m.run s' = x' at hm
  obtain ⟨r, t⟩ := x
  obtain ⟨r', t'⟩ := x'
  obtain ⟨hr, ht⟩ := hm
  obtain rfl : r = r' := hr
  cases r with
  | ok a => exact ⟨rfl, ht⟩
  | error e => exact ⟨rfl, hs⟩

end Related

/-! ## Computations that go on where others give up -/

section Extends

variable {e : ε}

/-- `m'` does what `m` does wherever `m` does not end with `e`. -/
def Extends (e : ε) (m m' : Txn σ ε α) : Prop := ∀ s, (m.run s).1 ≠ .error e → m'.run s = m.run s

theorem extends_refl (m : Txn σ ε α) : Extends e m m := fun _ _ => rfl

theorem extends_throw (m : Txn σ ε α) : Extends e (throw e) m := fun _ h => absurd rfl h

/-- Two transactions that agree unless the first fails with `e` may be extended step by step. -/
theorem Extends.bind {m m' : Txn σ ε α} {f f' : α → Txn σ ε β} (hm : Extends e m m')
    (hf : ∀ a, Extends e (f a) (f' a)) : Extends e (m >>= f) (m' >>= f') := by
  intro s h
  rw [run_bind] at h ⊢
  have hm' : (m.run s).1 ≠ .error e := by
    intro hm'
    generalize m.run s = out at hm' h
    obtain ⟨r, s'⟩ := out
    cases hm'
    exact h rfl
  rw [run_bind, hm s hm']
  generalize m.run s = out at h
  obtain ⟨r, s'⟩ := out
  cases r with
  | error e' => rfl
  | ok a => exact hf a s' h

/-- Catching errors other than `e`. -/
theorem Extends.attempt {m m' : Txn σ ε α} {f f' : Except ε α → Txn σ ε β} (hm : Extends e m m')
    (hthrow : f (.error e) = throw e) (hf : ∀ r, r ≠ .error e → Extends e (f r) (f' r)) :
    Extends e (Txn.attempt m >>= f) (Txn.attempt m' >>= f') := by
  intro s h
  have hrun : (Txn.attempt m >>= f).run s = (f (m.run s).1).run (m.run s).2 := rfl
  have hrun' : (Txn.attempt m' >>= f').run s = (f' (m'.run s).1).run (m'.run s).2 := rfl
  rw [hrun] at h ⊢
  by_cases he : (m.run s).1 = .error e
  · rw [he, hthrow] at h
    exact absurd rfl h
  · rw [hrun', hm s he]
    exact hf _ he _ h

end Extends

end Txn

end Lib
