import Mathlib.Logic.Basic

/-!
# Simulation of runs

A system takes inputs one after the other and answers each (`exec`). It is compared with a
reference: a relation, when the reference leaves a choice (`Simulates`), or a function, when the
answers are to be equal (`Follows`). Either is shown for one step and then holds of runs. A system
may follow its reference only while a condition holds; then its answers are those of the reference
if and only if the condition held all along (`Follows.outputs_eq_iff`).
-/

namespace Lib

variable {ι ο σ τ : Type}

/-- The outputs of a run, and the state after it. -/
def exec (step : ι → σ → ο × σ) : List ι → σ → List ο × σ
  | [], s => ([], s)
  | i :: is, s => ((step i s).1 :: (exec step is (step i s).2).1, (exec step is (step i s).2).2)

/-! ## A reference that leaves a choice -/

/-- The runs of a relation between inputs, states, outputs and next states. -/
inductive Runs (spec : ι → τ → ο → τ → Prop) : List ι → τ → List ο → τ → Prop where
  | nil (a : τ) : Runs spec [] a [] a
  | cons {i : ι} {is : List ι} {a a' a'' : τ} {o : ο} {os : List ο} (hstep : spec i a o a')
      (hrest : Runs spec is a' os a'') : Runs spec (i :: is) a (o :: os) a''

/-- From related states, a step on an allowed input is a step of the reference. -/
def Simulates (allowed : ι → Prop) (step : ι → σ → ο × σ) (spec : ι → τ → ο → τ → Prop)
    (R : τ → σ → Prop) : Prop :=
  ∀ i a s, allowed i → R a s → ∃ a', spec i a (step i s).1 a' ∧ R a' (step i s).2

theorem Simulates.run {allowed : ι → Prop} {step : ι → σ → ο × σ} {spec : ι → τ → ο → τ → Prop}
    {R : τ → σ → Prop} (h : Simulates allowed step spec R) {is : List ι} (his : ∀ i ∈ is, allowed i)
    {a : τ} {s : σ} (hR : R a s) :
    ∃ a', Runs spec is a (exec step is s).1 a' ∧ R a' (exec step is s).2 := by
  induction is generalizing a s with
  | nil => exact ⟨a, .nil a, hR⟩
  | cons i is ih =>
    obtain ⟨a', hstep, hR'⟩ := h i a s (his i List.mem_cons_self) hR
    obtain ⟨a'', hrest, hR''⟩ := ih (fun j hj => his j (List.mem_cons_of_mem _ hj)) hR'
    exact ⟨a'', .cons hstep hrest, hR''⟩

/-! ## A reference that is a function -/

/-- The condition holds at every step of the reference's run. -/
def Along (cond : ι → τ → Prop) (ref : ι → τ → ο × τ) : List ι → τ → Prop
  | [], _ => True
  | i :: is, a => cond i a ∧ Along cond ref is (ref i a).2

/-- A condition on the inputs alone. -/
theorem along_iff_forall {cond : ι → Prop} {ref : ι → τ → ο × τ} (is : List ι) (a : τ) :
    Along (fun i _ => cond i) ref is a ↔ ∀ i ∈ is, cond i := by
  induction is generalizing a with
  | nil => simp [Along]
  | cons i is ih => rw [Along, ih, List.forall_mem_cons]

/-- From related states and on an allowed input, a step answers as the reference does, and the
states stay related, if the condition holds; otherwise the answers differ. -/
structure Follows (allowed : ι → Prop) (cond : ι → τ → Prop) (step : ι → σ → ο × σ)
    (ref : ι → τ → ο × τ) (R : τ → σ → Prop) : Prop where
  keeps : ∀ i a s, allowed i → R a s → cond i a →
    (step i s).1 = (ref i a).1 ∧ R (ref i a).2 (step i s).2
  leaves : ∀ i a s, allowed i → R a s → ¬ cond i a → (step i s).1 ≠ (ref i a).1

namespace Follows

variable {allowed : ι → Prop} {cond : ι → τ → Prop} {step : ι → σ → ο × σ} {ref : ι → τ → ο × τ}
  {R : τ → σ → Prop} {is : List ι} {a : τ} {s : σ}

theorem run (h : Follows allowed cond step ref R) (his : ∀ i ∈ is, allowed i) (hR : R a s)
    (hcond : Along cond ref is a) :
    (exec step is s).1 = (exec ref is a).1 ∧ R (exec ref is a).2 (exec step is s).2 := by
  induction is generalizing a s with
  | nil => exact ⟨rfl, hR⟩
  | cons i is ih =>
    obtain ⟨hout, hR'⟩ := h.keeps i a s (his i List.mem_cons_self) hR hcond.1
    obtain ⟨houts, hR''⟩ := ih (fun j hj => his j (List.mem_cons_of_mem _ hj)) hR' hcond.2
    exact ⟨congrArg₂ List.cons hout houts, hR''⟩

theorem outputs_eq_iff (h : Follows allowed cond step ref R) (his : ∀ i ∈ is, allowed i)
    (hR : R a s) :
    (exec step is s).1 = (exec ref is a).1 ↔ Along cond ref is a := by
  refine ⟨fun houts => ?_, fun hcond => (h.run his hR hcond).1⟩
  induction is generalizing a s with
  | nil => trivial
  | cons i is ih =>
    obtain ⟨hout, hrest⟩ := List.cons.inj houts
    have hi := his i List.mem_cons_self
    by_cases hcond : cond i a
    · have hR' := (h.keeps i a s hi hR hcond).2
      exact ⟨hcond, ih (fun j hj => his j (List.mem_cons_of_mem _ hj)) hR' hrest⟩
    · exact absurd hout (h.leaves i a s hi hR hcond)

end Follows

end Lib
