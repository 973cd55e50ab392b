import Badis.Lib.Crc

/-!
# Words that leave different remainders

A divisor with a constant term has no factor `X`, so moving up a polynomial does not change whether
the divisor divides it. Words that are moved up by the same number of places therefore leave
different remainders if they are different (`eq_of_residue_mul_X_pow`).
-/

namespace Lib

open Polynomial

section Words

variable {w : Nat}

theorem wordPoly_inj {v v' : BitVec w} (h : wordPoly v = wordPoly v') : v = v' := by
  have hnumber := congrArg polyNumber h
  rw [polyNumber_wordPoly, polyNumber_wordPoly] at hnumber
  exact BitVec.eq_of_toNat_eq hnumber

theorem wordBits_append {w' : Nat} (v : BitVec w) (v' : BitVec w') :
    wordBits (v ++ v') = wordBits v ++ wordBits v' := by
  unfold wordBits
  rw [List.range_add, List.map_append, List.map_map]
  congr 1
  · refine List.map_congr_left fun i hi => ?_
    have hlt : ¬ w ≤ i := by
      rw [List.mem_range] at hi
      omega
    rw [BitVec.getMsbD_append, if_neg hlt]
  · refine List.map_congr_left fun i _ => ?_
    show (v ++ v').getMsbD (w + i) = v'.getMsbD i
    rw [BitVec.getMsbD_append, if_pos (Nat.le_add_right w i), Nat.add_sub_cancel_left]

theorem wordBits_append_inj {w' : Nat} {v u : BitVec w} {v' u' : BitVec w'}
    (h : v ++ v' = u ++ u') :
    v = u ∧ v' = u' := by
  have hbits := congrArg wordBits h
  rw [wordBits_append, wordBits_append] at hbits
  obtain ⟨hv, hv'⟩ := List.append_inj hbits (by rw [length_wordBits, length_wordBits])
  exact ⟨wordPoly_inj (congrArg bitsPoly hv), wordPoly_inj (congrArg bitsPoly hv')⟩

end Words

section Register

variable {w : Nat} {low v v' : BitVec w}

theorem coeff_zero_divisor (hlow : low.getLsbD 0 = true) : (divisor low).coeff 0 = 1 := by
  have hw : w ≠ 0 := by
    rintro rfl
    rw [BitVec.getLsbD_of_ge low 0 le_rfl] at hlow
    cases hlow
  rw [divisor, coeff_add, coeff_X_pow, if_neg hw.symm, coeff_wordPoly, hlow]
  rfl

theorem isCoprime_divisor_X_pow (hlow : low.getLsbD 0 = true) (n : Nat) :
    IsCoprime (divisor low) (X ^ n) := by
  refine IsCoprime.pow_right (IsCoprime.symm ?_)
  rw [irreducible_X.coprime_iff_not_dvd, X_dvd_iff, coeff_zero_divisor hlow]
  exact one_ne_zero

theorem eq_of_residue_mul_X_pow (hlow : low.getLsbD 0 = true) {n : Nat}
    (h : residue low (wordPoly v * X ^ n) = residue low (wordPoly v' * X ^ n)) : v = v' := by
  have hdvd : divisor low ∣ (wordPoly v - wordPoly v') * X ^ n := by
    rw [sub_mul]
    exact AdjoinRoot.mk_eq_mk.mp h
  have hdiff := (isCoprime_divisor_X_pow hlow n).dvd_of_dvd_mul_right hdvd
  -- the difference has a lower degree than the divisor
  have hdegree : (wordPoly v - wordPoly v').degree < (divisor low).degree := by
    rw [degree_divisor]
    exact (degree_sub_le _ _).trans_lt (max_lt (degree_wordPoly_lt v) (degree_wordPoly_lt v'))
  exact wordPoly_inj (sub_eq_zero.mp (eq_zero_of_dvd_of_degree_lt hdiff hdegree))

end Register

end Lib
