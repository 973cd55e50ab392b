import Mathlib.Logic.Function.Iterate

/-!
# Removing occurrences of an element

The first occurrences of an element of a list, or the last ones, are removed one by one. A loop that
reads the list once, counts what it leaves out and keeps the rest does the same (`foldl_removing`),
as long as it may leave out as many.
-/

namespace Lib

variable {α : Type} [BEq α] {x y : α} {l : List α}

/-- The list without its first `n` occurrences of `x`. -/
def removeFirst (x : α) (n : Nat) (l : List α) : List α := (fun l => l.erase x)^[n] l

/-- The list without its last `n` occurrences of `x`. -/
def removeLast (x : α) (n : Nat) (l : List α) : List α := (removeFirst x n l.reverse).reverse

@[simp] theorem removeFirst_zero (x : α) (l : List α) : removeFirst x 0 l = l := rfl

@[simp] theorem removeFirst_nil (x : α) (n : Nat) : removeFirst x n [] = [] := by
  induction n with
  | zero => rfl
  | succ n ih => exact ih

variable [LawfulBEq α]

theorem removeFirst_cons_self (x : α) (n : Nat) (l : List α) :
    removeFirst x (n + 1) (x :: l) = removeFirst x n l := by
  show removeFirst x n ((x :: l).erase x) = _
  rw [List.erase_cons_head]

theorem removeFirst_cons_of_ne (h : y ≠ x) (n : Nat) (l : List α) :
    removeFirst x n (y :: l) = y :: removeFirst x n l := by
  induction n generalizing l with
  | zero => rfl
  | succ n ih =>
    show removeFirst x n ((y :: l).erase x) = y :: removeFirst x n (l.erase x)
    rw [List.erase_cons_tail (by simpa using h), ih]

/-- There are no more than all occurrences to remove. -/
theorem removeFirst_min (x : α) (n : Nat) (l : List α) :
    removeFirst x (min (l.count x) n) l = removeFirst x n l := by
  induction l generalizing n with
  | nil => simp
  | cons y l ih =>
    by_cases hy : y = x
    · subst hy
      rcases n with _ | n
      · simp
      · rw [List.count_cons_self, Nat.succ_min_succ, removeFirst_cons_self, removeFirst_cons_self,
          ih]
    · rw [List.count_cons_of_ne hy, removeFirst_cons_of_ne hy, removeFirst_cons_of_ne hy, ih]

/-- A loop over a list that leaves out `x` while its counter satisfies `p`, and puts the other
elements to what it keeps. As far as there are occurrences, the counter does so below `n`. -/
theorem foldl_removing [DecidableEq α] {β : Type} (push : β → α → β) (p : Nat → Prop)
    [DecidablePred p] {n : Nat} (kept : β) (count : Nat)
    (h : ∀ j, count ≤ j → j < count + l.count x → (p j ↔ j < n)) :
    l.foldl (fun s v => if v = x ∧ p s.2 then (s.1, s.2 + 1) else (push s.1 v, s.2)) (kept, count) =
      ((removeFirst x (n - count) l).foldl push kept, count + min (l.count x) (n - count)) := by
  induction l generalizing kept count with
  | nil => simp
  | cons y l ih =>
    rw [List.foldl_cons]
    by_cases hy : y = x
    · subst hy
      rw [List.count_cons_self] at h ⊢
      by_cases hcount : count < n
      · have hallowed : p count := (h count (Nat.le_refl count) (by omega)).mpr hcount
        obtain ⟨d, hd⟩ : ∃ d, n - count = d + 1 := ⟨n - count - 1, by omega⟩
        have hrest : n - (count + 1) = d := by omega
        rw [if_pos ⟨rfl, hallowed⟩, ih _ _ fun j hj hlt => h j (by omega) (by omega), hd, hrest,
          removeFirst_cons_self, Nat.succ_min_succ]
        simp only [Nat.succ_eq_add_one]
        congr 1
        omega
      · have hallowed : ¬ p count :=
          fun ha => hcount ((h count (Nat.le_refl count) (by omega)).mp ha)
        have hzero : n - count = 0 := by omega
        rw [if_neg fun hc => hallowed hc.2, ih _ _ fun j hj hlt => h j hj (by omega), hzero]
        simp
    · rw [List.count_cons_of_ne hy] at h ⊢
      rw [if_neg fun hc => hy hc.1, ih _ _ h, removeFirst_cons_of_ne hy, List.foldl_cons]

end Lib
