import Mathlib.Data.Fintype.Card

/-!
# Messages that are passed on

A node that has a message keeps it, or passes it on to a node. What the nodes do may change on the
way: `next k` says what they do when the message has been passed on `k` times. If nothing changes, a
message is passed on fewer times than there are nodes, or for ever (`Kept.lt_card`).
-/

namespace Lib

variable {ι : Type}

/-- Who has the message of `n` when it has been passed on `k` times, if nobody has kept it
before. -/
def carrier (next : Nat → ι → Option ι) (n : ι) : Nat → Option ι
  | 0 => some n
  | k + 1 => (carrier next n k).bind (next k)

/-- The message of `n` is passed on `k` times, and then `m` keeps it. -/
structure Kept (next : Nat → ι → Option ι) (n : ι) (k : Nat) (m : ι) : Prop where
  arrives : carrier next n k = some m
  keeps : next k m = none

section Changing

variable {next : Nat → ι → Option ι} {n m m' : ι} {k k' : Nat}

/-- One hop, and then the rest with the pointers one step further. -/
theorem carrier_succ (next : Nat → ι → Option ι) (n : ι) (k : Nat) :
    carrier next n (k + 1) = (next 0 n).bind fun n' => carrier (fun j => next (j + 1)) n' k := by
  induction k with
  | zero =>
    show (next 0 n) = _
    cases next 0 n <;> rfl
  | succ k ih =>
    rw [carrier, ih]
    cases next 0 n <;> rfl

theorem kept_zero_iff : Kept next n 0 m ↔ m = n ∧ next 0 n = none := by
  constructor
  · intro h
    have hm : n = m := Option.some.inj h.arrives
    subst hm
    exact ⟨rfl, h.keeps⟩
  · rintro ⟨rfl, hkeeps⟩
    exact ⟨rfl, hkeeps⟩

theorem kept_succ_iff :
    Kept next n (k + 1) m ↔ ∃ n', next 0 n = some n' ∧ Kept (fun j => next (j + 1)) n' k m := by
  constructor
  · intro h
    have harrives := h.arrives
    rw [carrier_succ] at harrives
    obtain ⟨n', hn', hcarrier⟩ := Option.bind_eq_some_iff.mp harrives
    exact ⟨n', hn', hcarrier, h.keeps⟩
  · rintro ⟨n', hn', h⟩
    refine ⟨?_, h.keeps⟩
    rw [carrier_succ, hn']
    exact h.arrives

/-- Once a message has been kept nobody gets it. -/
theorem Kept.carrier_eq_none (h : Kept next n k m) (d : Nat) :
    carrier next n (k + 1 + d) = none := by
  induction d with
  | zero =>
    show (carrier next n k).bind (next k) = none
    rw [h.arrives]
    exact h.keeps
  | succ d ih =>
    show (carrier next n (k + 1 + d)).bind _ = none
    rw [ih]
    rfl

theorem Kept.le_of_arrives (h : Kept next n k m) (h' : carrier next n k' = some m') : k' ≤ k := by
  by_contra hlt
  have hnone := h.carrier_eq_none (k' - (k + 1))
  rw [show k + 1 + (k' - (k + 1)) = k' by omega, h'] at hnone
  cases hnone

/-- What is handed on is kept once at most, by one node. -/
theorem Kept.unique (h : Kept next n k m) (h' : Kept next n k' m') : k = k' ∧ m = m' := by
  have hk : k = k' := le_antisymm (h'.le_of_arrives h.arrives) (h.le_of_arrives h'.arrives)
  subst hk
  have hm := h.arrives
  rw [h'.arrives] at hm
  exact ⟨rfl, (Option.some.inj hm).symm⟩

/-- Nobody keeps a message that goes round among nodes that all pass it on to each other. -/
theorem not_kept_of_closed {s : ι → Prop} (hs : ∀ k n, s n → ∃ n', next k n = some n' ∧ s n')
    (hn : s n) :
    ¬ Kept next n k m := by
  have hcarrier : ∀ k, ∃ n', carrier next n k = some n' ∧ s n' := by
    intro k
    induction k with
    | zero => exact ⟨n, rfl, hn⟩
    | succ k ih =>
      obtain ⟨n', hn', hsn'⟩ := ih
      obtain ⟨n'', hn'', hsn''⟩ := hs k n' hsn'
      refine ⟨n'', ?_, hsn''⟩
      rw [carrier, hn']
      exact hn''
  intro h
  obtain ⟨n', hn', hsn'⟩ := hcarrier k
  rw [h.arrives] at hn'
  obtain rfl := Option.some.inj hn'
  obtain ⟨n'', hn'', -⟩ := hs k m hsn'
  rw [h.keeps] at hn''
  cases hn''

end Changing

section Constant

variable {next : ι → Option ι} {n m : ι} {k : Nat}

/-- From the same node the message goes the same way. -/
theorem carrier_add {i j : Nat} (h : carrier (fun _ => next) n i = carrier (fun _ => next) n j)
    (d : Nat) :
    carrier (fun _ => next) n (i + d) = carrier (fun _ => next) n (j + d) := by
  induction d with
  | zero => exact h
  | succ d ih => exact congrArg (fun x => Option.bind x next) ih

/-- No node gets a message twice that is kept in the end. -/
theorem Kept.carrier_injOn (h : Kept (fun _ => next) n k m) {i j : Nat} (hij : i < j) (hj : j ≤ k) :
    carrier (fun _ => next) n i ≠ carrier (fun _ => next) n j := by
  intro heq
  have hsooner := carrier_add heq (k - j)
  rw [show j + (k - j) = k by omega, h.arrives] at hsooner
  have hkept : Kept (fun _ => next) n (i + (k - j)) m := ⟨hsooner, h.keeps⟩
  have hsame := (h.unique hkept).1
  omega

theorem Kept.isSome_carrier (h : Kept (fun _ => next) n k m) {i : Nat} (hi : i ≤ k) :
    (carrier (fun _ => next) n i).isSome = true := by
  by_contra hnone
  rw [Bool.not_eq_true, Option.isSome_eq_false_iff, Option.isNone_iff_eq_none] at hnone
  -- nobody has it any more, so nobody has it after `k` times
  have hlater : ∀ d, carrier (fun _ => next) n (i + d) = none := by
    intro d
    induction d with
    | zero => exact hnone
    | succ d ih =>
      show (carrier (fun _ => next) n (i + d)).bind next = none
      rw [ih]
      rfl
  have harrives := h.arrives
  rw [show k = i + (k - i) by omega, hlater] at harrives
  cases harrives

/-- With fixed pointers no node is visited twice before the thing is kept. -/
theorem Kept.lt_card [Fintype ι] (h : Kept (fun _ => next) n k m) : k < Fintype.card ι := by
  let place : Fin (k + 1) → ι :=
    fun i => (carrier (fun _ => next) n i).get (h.isSome_carrier (Nat.le_of_lt_succ i.2))
  have hplace : ∀ i : Fin (k + 1), carrier (fun _ => next) n i = some (place i) :=
    fun i => (Option.some_get _).symm
  have hinj : Function.Injective place := by
    intro i j heq
    have hsame : carrier (fun _ => next) n i = carrier (fun _ => next) n j := by
      rw [hplace, hplace, heq]
    rcases Nat.lt_trichotomy i j with hlt | hval | hlt
    · exact absurd hsame (h.carrier_injOn hlt (Nat.le_of_lt_succ j.2))
    · exact Fin.ext hval
    · exact absurd hsame.symm (h.carrier_injOn hlt (Nat.le_of_lt_succ i.2))
  have hcard := Fintype.card_le_of_injective place hinj
  rw [Fintype.card_fin] at hcard
  exact hcard

end Constant

end Lib
