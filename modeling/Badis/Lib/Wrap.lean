import Mathlib.Algebra.Order.Ring.Int
import Mathlib.Data.Int.Init
import Mathlib.Tactic.SplitIfs

/-!
# Two's complement in 64 bits

An `Int64` computes modulo `2 ^ 64`, with the representative in `[-2 ^ 63, 2 ^ 63)`; what it
computes is the integer result if and only if that result is in the range (`bmod_eq_self_iff`).
-/

namespace Lib

/-- The integers an `Int64` can be. -/
def Fits64 (x : Int) : Prop := -2 ^ 63 ≤ x ∧ x < 2 ^ 63

instance (x : Int) : Decidable (Fits64 x) := inferInstanceAs (Decidable (_ ∧ _))

theorem bmod_eq_self_iff {x : Int} : x.bmod (2 ^ 64) = x ↔ Fits64 x := by
  unfold Fits64
  rw [Int.bmod_def]
  omega

theorem Fits64.bmod_eq {x : Int} (h : Fits64 x) : x.bmod (2 ^ 64) = x := bmod_eq_self_iff.mpr h

theorem fits64_bmod (x : Int) : Fits64 (x.bmod (2 ^ 64)) := by
  unfold Fits64
  rw [Int.bmod_def]
  omega

theorem exists_bmod_eq (x : Int) : ∃ k, x.bmod (2 ^ 64) = x + 2 ^ 64 * k := by
  rw [Int.bmod_def]
  split_ifs
  · exact ⟨-(x / 2 ^ 64), by omega⟩
  · exact ⟨-(x / 2 ^ 64) - 1, by omega⟩

theorem fits64_toInt (n : Int64) : Fits64 n.toInt := ⟨Int64.le_toInt n, Int64.toInt_lt n⟩

/-- Only the least integer has no negation. -/
theorem toInt_neg_of_ne_minValue {n : Int64} (h : n ≠ Int64.minValue) : (-n).toInt = -n.toInt := by
  have hle := Int64.le_toInt n
  have hlt := Int64.toInt_lt n
  have hne : n.toInt ≠ -2 ^ 63 := fun heq => h (Int64.toInt_inj.mp heq)
  rw [Int64.toInt_neg]
  exact Fits64.bmod_eq ⟨by omega, by omega⟩

theorem toNat_ofInt (a : Int) : (UInt64.ofInt a).toNat = (a % 2 ^ 64).toNat := by
  show (UInt64.ofNat (a % 2 ^ 64).toNat).toNat = _
  rw [UInt64.toNat_ofNat']
  apply Nat.mod_eq_of_lt
  omega

end Lib
