import Badis.Server.SlotSpec

/-!
# `crc16` divides

The register of `crc16` holds a polynomial of degree below sixteen. A round of the inner loop
multiplies it by `X` modulo the generator, so a byte multiplies it by `X ^ 8` and adds the byte's
own polynomial, moved up by sixteen places in all. Modulo the generator this is Horner's rule for
the polynomial of the message.
-/

namespace Badis

open Lib Polynomial

/-! ## The message -/

theorem length_messageBits (data : Bytes) : (messageBits data).length = 8 * data.length := by
  induction data with
  | nil => rfl
  | cons b data ih =>
    rw [messageBits, List.flatMap_cons, List.length_append, length_wordBits, List.length_cons,
      mul_add, add_comm]
    exact congrArg (· + 8) ih

theorem messagePoly_cons (b : UInt8) (data : Bytes) :
    messagePoly (b :: data) = wordPoly b.toBitVec * X ^ (8 * data.length) + messagePoly data := by
  rw [messagePoly, messageBits, List.flatMap_cons, bitsPoly_append, ← length_messageBits]
  rfl

/-! ## The register -/

/-- The constant of `crc16` is the generator without its leading term. -/
theorem divisor_eq_xmodem : divisor 0x1021#16 = xmodem := by
  have hbits : wordBits 0x1021#16 = [false, false, false, true, false, false, false, false,
      false, false, true, false, false, false, false, true] := by decide
  rw [divisor, wordPoly, hbits, xmodem]
  simp [bitsPoly, gf2, add_assoc]

theorem and_top_ne_zero_iff (crc : UInt16) : crc &&& 0x8000 ≠ 0 ↔ crc.toBitVec.msb = true := by
  have hand : (crc &&& 0x8000).toBitVec = if crc.toBitVec.getLsbD 15 then BitVec.twoPow 16 15
      else 0#16 :=
    BitVec.and_twoPow crc.toBitVec 15
  rw [ne_eq, ← UInt16.toBitVec_inj, hand, BitVec.msb_eq_getLsbD_last]
  cases crc.toBitVec.getLsbD (16 - 1) <;> decide

theorem crc16Shift_toBitVec (crc : UInt16) :
    (crc16Shift crc).toBitVec = shiftStep 0x1021#16 crc.toBitVec := by
  rw [crc16Shift, shiftStep]
  by_cases hmsb : crc.toBitVec.msb = true
  · rw [if_pos ((and_top_ne_zero_iff crc).mpr hmsb), if_pos hmsb]
    rfl
  · rw [if_neg (mt (and_top_ne_zero_iff crc).mp hmsb), if_neg hmsb]
    rfl

theorem crc16Byte_toBitVec (crc : UInt16) (b : UInt8) :
    (crc16Byte crc b).toBitVec =
      (shiftStep 0x1021#16)^[8] (crc.toBitVec ^^^ b.toBitVec.setWidth 16 <<< 8) := by
  rw [crc16Byte, List.foldl_const, List.length_range]
  exact Function.Semiconj.iterate_right (f := UInt16.toBitVec) crc16Shift_toBitVec 8 _

/-- A round of the outer loop. -/
theorem residue_crc16Byte (crc : UInt16) (b : UInt8) :
    residue 0x1021#16 (wordPoly (crc16Byte crc b).toBitVec) =
      residue 0x1021#16 (wordPoly crc.toBitVec * X ^ 8 + wordPoly b.toBitVec * X ^ 16) := by
  rw [crc16Byte_toBitVec, residue_iterate_shiftStep, wordPoly_xor,
    wordPoly_setWidth_shiftLeft _ (by decide)]
  exact congrArg (residue 0x1021#16) (by ring)

/-- The outer loop from any register. -/
theorem residue_foldl_crc16Byte (data : Bytes) (crc : UInt16) :
    residue 0x1021#16 (wordPoly (data.foldl crc16Byte crc).toBitVec) =
      residue 0x1021#16 (wordPoly crc.toBitVec * X ^ (8 * data.length) +
        messagePoly data * X ^ 16) := by
  induction data generalizing crc with
  | nil => simp [messagePoly, messageBits, bitsPoly]
  | cons b data ih =>
    -- The bytes after `b` move the register up by eight places each.
    calc
      residue 0x1021#16 (wordPoly (data.foldl crc16Byte (crc16Byte crc b)).toBitVec)
      _ = residue 0x1021#16 (wordPoly (crc16Byte crc b).toBitVec) * residue 0x1021#16
        (X ^ (8 * data.length)) +
            residue 0x1021#16 (messagePoly data * X ^ 16) := by rw [ih, map_add, map_mul]
      _ = residue 0x1021#16
        ((wordPoly crc.toBitVec * X ^ 8 + wordPoly b.toBitVec * X ^ 16) * X ^ (8 * data.length) +
            messagePoly data * X ^ 16) := by rw [residue_crc16Byte, ← map_mul, ← map_add]
      _ = _ := by
        rw [messagePoly_cons, List.length_cons]
        exact congrArg (residue 0x1021#16) (by ring)

/-! ## The slot -/

theorem wordPoly_crc16 (data : Bytes) : wordPoly (crc16 data).toBitVec = checksum data := by
  rw [checksum, ← divisor_eq_xmodem]
  refine (modByMonic_eq_wordPoly ?_).symm
  rw [crc16, residue_foldl_crc16Byte, show (0 : UInt16).toBitVec =
    0#16 from rfl, wordPoly_zero, zero_mul, zero_add]

/-- `crc16` is CRC-16/XMODEM, and a key's slot its remainder by the number of slots. -/
theorem crc16_eq_checksum (data : Bytes) :
    (crc16 data).toNat = polyNumber (checksum data) ∧
      (keyToSlot data).toNat = polyNumber (checksum data) % 16384 := by
  have hcrc : (crc16 data).toNat = polyNumber (checksum data) := by
    rw [← wordPoly_crc16, polyNumber_wordPoly, UInt16.toNat_toBitVec]
  refine ⟨hcrc, ?_⟩
  rw [keyToSlot, UInt16.toNat_mod, hcrc]
  rfl

example : crc16 (ascii "123456789") = 0x31C3 := by decide +kernel

end Badis
