import Mathlib.Data.Fintype.Card
import Mathlib.Data.Set.Finite.Basic
import Mathlib.Logic.Relation

/-!
# Descents that end

A recursion that follows a relation ends if and only if what it starts from is accessible. If only
finitely many elements lead on, that is the case if and only if it cannot reach a cycle
(`acc_iff_acyclic`).
-/

namespace Lib

open Relation

variable {α : Type} {r : α → α → Prop} {a : α}

/-- No cycle can be reached from `a`. -/
def Acyclic (r : α → α → Prop) (a : α) : Prop := ∀ b, ReflTransGen r a b → ¬ TransGen r b b

theorem not_loop_of_acc (h : Acc (flip r) a) : ¬ TransGen r a a := by
  induction h with
  | intro a _ ih =>
    intro hloop
    -- the first step of the loop leads to an element that has the loop too
    obtain ⟨b, hstep, hrest⟩ := TransGen.head'_iff.mp hloop
    exact ih b hstep (TransGen.tail' hrest hstep)

theorem acyclic_of_acc (h : Acc (flip r) a) : Acyclic r a := by
  intro b hreach
  refine not_loop_of_acc ?_
  induction hreach with
  | refl => exact h
  | tail _ hstep ih => exact ih.inv hstep

theorem acc_of_acyclic (hfin : { b | ∃ c, r b c }.Finite) (h : Acyclic r a) : Acc (flip r) a := by
  -- the elements that lead on and are reached: finitely many, and without a cycle
  let S := { b // ReflTransGen r a b ∧ ∃ c, r b c }
  have hS : Finite S :=
    (hfin.subset fun b hb => hb.2 : { b | ReflTransGen r a b ∧ ∃ c, r b c }.Finite)
  have htrans : IsTrans S fun x y => TransGen r y.1 x.1 := ⟨fun _ _ _ hxy hyz => hyz.trans hxy⟩
  have hirrefl : Std.Irrefl fun x y : S => TransGen r y.1 x.1 := ⟨fun x => h x.1 x.2.1⟩
  have hwf : WellFounded fun x y : S => TransGen r y.1 x.1 :=
    Finite.wellFounded_of_trans_of_irrefl _
  have hreached : ∀ x : S, Acc (flip r) x.1 := by
    intro x
    induction x using hwf.induction with
    | _ x ih =>
      refine Acc.intro _ fun b hstep => ?_
      by_cases hb : ∃ c, r b c
      · exact ih ⟨b, x.2.1.tail hstep, hb⟩ (.single hstep)
      · exact Acc.intro _ fun c hc => absurd ⟨c, hc⟩ hb
  by_cases ha : ∃ c, r a c
  · exact hreached ⟨a, .refl, ha⟩
  · exact Acc.intro _ fun c hc => absurd ⟨c, hc⟩ ha

theorem acc_iff_acyclic (hfin : { b | ∃ c, r b c }.Finite) : Acc (flip r) a ↔ Acyclic r a :=
  ⟨acyclic_of_acc, acc_of_acyclic hfin⟩

end Lib
