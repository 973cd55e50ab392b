import Mathlib

/-!
# Division by a shift register

A sequence of bits is a polynomial over GF(2), the first bit its leading coefficient. For words of
`w` bits the exclusive or is then the sum, and a shift by one place is a multiplication by `X` that
loses the term of degree `w`. A register that is shifted, and that takes up the low part of a monic
polynomial of degree `w` whenever a bit is lost, is thus multiplied by `X` modulo that polynomial
(`residue_iterate_shiftStep`), and what it holds is a remainder (`modByMonic_eq_wordPoly`).
-/

namespace Lib

open Polynomial

/-! ## Bits -/

/-- The element of GF(2) that a bit stands for. -/
def gf2 (b : Bool) : ZMod 2 := if b then 1 else 0

theorem gf2_xor (a b : Bool) : gf2 (a ^^ b) = gf2 a + gf2 b := by
  cases a <;> cases b <;> decide

theorem gf2_ne_zero_iff (b : Bool) : gf2 b ≠ 0 ↔ b = true := by
  cases b <;> decide

/-- The polynomial with these coefficients, the leading one first. -/
noncomputable def bitsPoly : List Bool → (ZMod 2)[X]
  | [] => 0
  | b :: rest => C (gf2 b) * X ^ rest.length + bitsPoly rest

/-- The bits in front are moved up by the bits behind them. -/
theorem bitsPoly_append (l l' : List Bool) :
    bitsPoly (l ++ l') = bitsPoly l * X ^ l'.length + bitsPoly l' := by
  induction l with
  | nil => rw [List.nil_append, bitsPoly, zero_mul, zero_add]
  | cons b l ih =>
    rw [List.cons_append, bitsPoly, bitsPoly, ih, List.length_append, pow_add]
    ring

/-- The last bit is the constant term. -/
theorem coeff_bitsPoly (l : List Bool) (i : Nat) :
    (bitsPoly l).coeff i = gf2 (l.reverse[i]?.getD false) := by
  induction l with
  | nil => rfl
  | cons b l ih =>
    rw [bitsPoly, coeff_add, coeff_C_mul_X_pow, ih, List.reverse_cons]
    -- The leading bit is the last one of the reversed list.
    rcases lt_trichotomy i l.length with hlt | rfl | hgt
    · rw [if_neg hlt.ne, zero_add, List.getElem?_append_left (by simpa using hlt)]
    · rw [if_pos rfl, List.getElem?_eq_none (by simp)]
      simp [gf2]
    · rw [if_neg hgt.ne', zero_add, List.getElem?_eq_none (by simp; omega),
        List.getElem?_eq_none (by simp; omega)]

/-- The number with these binary digits. -/
noncomputable def polyNumber (p : (ZMod 2)[X]) : Nat := ∑ i ∈ p.support, 2 ^ i

/-! ## Words -/

section Words

variable {w : Nat}

/-- The bits of a word, the most significant one first. -/
def wordBits (v : BitVec w) : List Bool := (List.range w).map v.getMsbD

theorem length_wordBits (v : BitVec w) : (wordBits v).length = w := by
  rw [wordBits, List.length_map, List.length_range]

/-- The polynomial of a word. -/
noncomputable def wordPoly (v : BitVec w) : (ZMod 2)[X] := bitsPoly (wordBits v)

theorem coeff_wordPoly (v : BitVec w) (i : Nat) : (wordPoly v).coeff i = gf2 (v.getLsbD i) := by
  rw [wordPoly, coeff_bitsPoly, wordBits, ← List.map_reverse, List.getElem?_map]
  by_cases hi : i < w
  · rw [List.getElem?_reverse (by simpa using hi), List.length_range,
      List.getElem?_range (by omega), Option.map_some, Option.getD_some, BitVec.getMsbD_eq_getLsbD]
    congr 1
    rw [decide_eq_true (by omega), Bool.true_and, show w - 1 - (w - 1 - i) = i by omega]
  · rw [List.getElem?_eq_none (by simp; omega), BitVec.getLsbD_of_ge v i (by omega)]
    rfl

/-- Exclusive or is addition. -/
theorem wordPoly_xor (v v' : BitVec w) : wordPoly (v ^^^ v') = wordPoly v + wordPoly v' := by
  ext i
  rw [coeff_add, coeff_wordPoly, coeff_wordPoly, coeff_wordPoly, BitVec.getLsbD_xor, gf2_xor]

theorem wordPoly_zero : wordPoly (0#w) = 0 := by
  ext i
  rw [coeff_wordPoly, BitVec.getLsbD_zero, coeff_zero]
  rfl

/-- A word is its own remainder by a divisor of its width. -/
theorem degree_wordPoly_lt (v : BitVec w) : (wordPoly v).degree < w := by
  rw [degree_lt_iff_coeff_zero]
  intro i hi
  rw [coeff_wordPoly, BitVec.getLsbD_of_ge v i hi]
  rfl

theorem polyNumber_wordPoly (v : BitVec w) : polyNumber (wordPoly v) = v.toNat := by
  have hsupport : (wordPoly v).support = v.toNat.bitIndices.toFinset := by
    ext i
    rw [mem_support_iff, coeff_wordPoly, gf2_ne_zero_iff, List.mem_toFinset, Nat.mem_bitIndices]
    rfl
  rw [polyNumber, hsupport, Finset.sum_toFinset_bitIndices_two_pow]

/-- The shift by one place loses the leading bit. -/
theorem X_mul_wordPoly (v : BitVec w) :
    X * wordPoly v = wordPoly (v <<< 1) + C (gf2 v.msb) * X ^ w := by
  ext i
  rw [coeff_add, coeff_C_mul_X_pow, coeff_wordPoly, BitVec.getLsbD_shiftLeft]
  cases i with
  | zero =>
    rcases Nat.eq_zero_or_pos w with rfl | hw
    · simp [gf2, BitVec.of_length_zero]
    · simp [gf2, hw.ne]
  | succ i =>
    rw [coeff_X_mul, coeff_wordPoly]
    -- At `i + 1 = w` the shifted word has no bit, and the lost one is the coefficient.
    rcases lt_trichotomy (i + 1) w with hlt | rfl | hgt
    · simp [hlt, hlt.ne]
    · simp [gf2, BitVec.msb_eq_getLsbD_last]
    · rw [BitVec.getLsbD_of_ge v i (by omega)]
      simp [gf2, hgt.ne', hgt.le]

/-- A word that is moved up in a longer one keeps all its bits. -/
theorem wordPoly_setWidth_shiftLeft {w' k : Nat} (v : BitVec w) (hw : w + k ≤ w') :
    wordPoly (v.setWidth w' <<< k) = wordPoly v * X ^ k := by
  ext i
  rw [coeff_mul_X_pow', coeff_wordPoly, coeff_wordPoly, BitVec.getLsbD_shiftLeft,
    BitVec.getLsbD_setWidth]
  split_ifs with hk
  · by_cases hi : i < w'
    · simp [hi, Nat.not_lt.mpr hk, show i - k < w' by omega]
    · rw [BitVec.getLsbD_of_ge v (i - k) (by omega)]
      simp
  · simp [gf2, Nat.lt_of_not_le hk]

end Words

/-! ## The register -/

section Register

variable {w : Nat} (low v : BitVec w)

/-- The monic polynomial of degree `w` with the low part `low`. -/
noncomputable def divisor : (ZMod 2)[X] := X ^ w + wordPoly low

theorem divisor_monic : (divisor low).Monic := monic_X_pow_add (degree_wordPoly_lt low)

theorem degree_divisor : (divisor low).degree = w := by
  rw [divisor, degree_add_eq_left_of_degree_lt (by rw [degree_X_pow]; exact degree_wordPoly_lt low),
    degree_X_pow]

/-- One place of the division. -/
def shiftStep : BitVec w := if v.msb then v <<< 1 ^^^ low else v <<< 1

/-- The divisor is subtracted if a bit was lost. -/
theorem X_mul_wordPoly_eq_shiftStep :
    X * wordPoly v = wordPoly (shiftStep low v) + C (gf2 v.msb) * divisor low := by
  rw [X_mul_wordPoly, shiftStep, divisor]
  cases v.msb with
  | false => simp [gf2]
  | true =>
    -- The exclusive or adds the low part, the right side adds it again with the divisor.
    have hlow : wordPoly low + wordPoly low = 0 := CharTwo.add_self_eq_zero _
    rw [if_pos rfl, wordPoly_xor, show gf2 true = 1 from rfl, C_1]
    linear_combination -hlow

/-- A polynomial up to multiples of the divisor. -/
noncomputable abbrev residue : (ZMod 2)[X] →+* AdjoinRoot (divisor low) :=
  AdjoinRoot.mk (divisor low)

/-- A shift with feedback multiplies by `X` modulo the divisor. -/
theorem residue_shiftStep :
    residue low (wordPoly (shiftStep low v)) = residue low (X * wordPoly v) := by
  rw [X_mul_wordPoly_eq_shiftStep low v, map_add, map_mul, AdjoinRoot.mk_self, mul_zero, add_zero]

theorem residue_iterate_shiftStep (n : Nat) :
    residue low (wordPoly ((shiftStep low)^[n] v)) = residue low (X ^ n * wordPoly v) := by
  induction n with
  | zero => rw [pow_zero, one_mul, Function.iterate_zero, id]
  | succ n ih =>
    rw [Function.iterate_succ_apply', residue_shiftStep, map_mul, ih, ← map_mul, pow_succ',
      mul_assoc]

variable {low v}

/-- A word is the remainder of what it is congruent to. -/
theorem modByMonic_eq_wordPoly {p : (ZMod 2)[X]} (h : residue low p = residue low (wordPoly v)) :
    p %ₘ divisor low = wordPoly v := by
  have hlt : (wordPoly v).degree < (divisor low).degree := degree_divisor low ▸ degree_wordPoly_lt v
  rw [modByMonic_eq_of_dvd_sub (divisor_monic low) (AdjoinRoot.mk_eq_mk.mp h)]
  exact (modByMonic_eq_self_iff (divisor_monic low)).mpr hlt

end Register

end Lib
