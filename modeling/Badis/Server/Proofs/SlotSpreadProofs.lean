import Badis.Lib.CrcCancel
import Badis.Server.Proofs.SlotSpecProofs

/-!
# Keys are spread evenly over the slots

Keys that differ in two adjacent bytes only have different checksums. There are as many pairs of
bytes as checksums, so every checksum is that of one pair, and every slot that of four.
-/

namespace Badis

open Lib Polynomial

/-! ## Two bytes of a message -/

theorem messagePoly_append (data data' : Bytes) :
    messagePoly (data ++ data') = messagePoly data * X ^ (8 * data'.length) +
      messagePoly data' := by
  rw [messagePoly, messageBits, List.flatMap_append, bitsPoly_append, ← length_messageBits]
  rfl

theorem messagePoly_pair (a b : UInt8) :
    messagePoly [a, b] = wordPoly (a.toBitVec ++ b.toBitVec) := by
  rw [wordPoly, wordBits_append]
  simp [messagePoly, messageBits]

theorem residue_crc16 (data : Bytes) :
    residue 0x1021#16 (wordPoly (crc16 data).toBitVec) =
      residue 0x1021#16 (messagePoly data * X ^ 16) := by
  rw [crc16, residue_foldl_crc16Byte, show (0 : UInt16).toBitVec =
    0#16 from rfl, wordPoly_zero, zero_mul, zero_add]

theorem residue_crc16_pair (pre suf : Bytes) (a b : UInt8) :
    residue 0x1021#16 (wordPoly (crc16 (pre ++ ([a, b] ++ suf))).toBitVec) =
      residue 0x1021#16 (wordPoly (a.toBitVec ++ b.toBitVec) * X ^ (8 * suf.length + 16)) +
        residue 0x1021#16
          (messagePoly pre * X ^ (8 * ([a, b] ++ suf).length + 16) + messagePoly suf * X ^ 16) := by
  rw [residue_crc16, messagePoly_append, messagePoly_append, messagePoly_pair, ← map_add]
  exact congrArg (residue 0x1021#16) (by ring)

/-- The checksum tells the two bytes. -/
theorem crc16_pair_injective (pre suf : Bytes) :
    Function.Injective fun ab : UInt8 × UInt8 => crc16 (pre ++ ([ab.1, ab.2] ++ suf)) := by
  rintro ⟨a, b⟩ ⟨a', b'⟩ h
  have hres := residue_crc16_pair pre suf a b
  rw [show crc16 (pre ++ ([a, b] ++ suf)) = crc16 (pre ++ ([a', b'] ++ suf)) from h,
    residue_crc16_pair pre suf a' b'] at hres
  have hword := eq_of_residue_mul_X_pow (by decide) (add_right_cancel hres)
  obtain ⟨ha, hb⟩ := wordBits_append_inj hword
  exact Prod.ext (UInt8.toBitVec_inj.mp ha.symm) (UInt8.toBitVec_inj.mp hb.symm)

theorem card_of_toFin {α : Type} {n : Nat} {toFin : α → Fin n} (h : Function.Bijective toFin) :
    Nat.card α = n :=
  (Nat.card_eq_of_bijective toFin h).trans (Nat.card_fin n)

/-- There are as many pairs of bytes as checksums, so every checksum is that of a pair. -/
theorem crc16_pair_bijective (pre suf : Bytes) :
    Function.Bijective fun ab : UInt8 × UInt8 => crc16 (pre ++ ([ab.1, ab.2] ++ suf)) := by
  refine (crc16_pair_injective pre suf).bijective_of_nat_card_le ?_
  have hbyte : Function.Bijective UInt8.toFin :=
    ⟨fun _ _ => UInt8.toFin_inj.mp, fun n => ⟨UInt8.ofFin n, rfl⟩⟩
  have hword : Function.Bijective UInt16.toFin :=
    ⟨fun _ _ => UInt16.toFin_inj.mp, fun n => ⟨UInt16.ofFin n, rfl⟩⟩
  rewrite [Nat.card_prod, card_of_toFin hbyte, card_of_toFin hword]
  decide

/-! ## The checksums of a slot -/

/-- The checksum number `i` of a slot. -/
def slotChecksum (slot : UInt16) (i : Fin 4) : UInt16 := UInt16.ofNat (slot.toNat + 16384 * i)

theorem toNat_slotChecksum {slot : UInt16} (hslot : slot < 16384) (i : Fin 4) :
    (slotChecksum slot i).toNat = slot.toNat + 16384 * i := by
  have hlt : slot.toNat < 16384 := UInt16.lt_iff_toNat_lt.mp hslot
  rw [slotChecksum, UInt16.toNat_ofNat_of_lt']
  show slot.toNat + 16384 * i < 65536
  omega

theorem slotChecksum_injective {slot : UInt16} (hslot : slot < 16384) :
    Function.Injective (slotChecksum slot) := by
  intro i j h
  have hnat := congrArg UInt16.toNat h
  rw [toNat_slotChecksum hslot, toNat_slotChecksum hslot] at hnat
  omega

theorem range_slotChecksum {slot : UInt16} (hslot : slot < 16384) :
    Set.range (slotChecksum slot) = { crc | crc % 16384 = slot } := by
  have hlt : slot.toNat < 16384 := UInt16.lt_iff_toNat_lt.mp hslot
  ext crc
  rw [Set.mem_range, Set.mem_ofPred_eq, ← UInt16.toNat_inj, UInt16.toNat_mod]
  constructor
  · rintro ⟨i, rfl⟩
    rw [toNat_slotChecksum hslot]
    show (slot.toNat + 16384 * i) % 16384 = slot.toNat
    omega
  · intro h
    have hmod : crc.toNat % 16384 = slot.toNat := h
    have hcrc := crc.toNat_lt
    refine ⟨⟨crc.toNat / 16384, by omega⟩, ?_⟩
    rw [← UInt16.toNat_inj, toNat_slotChecksum hslot]
    show slot.toNat + 16384 * (crc.toNat / 16384) = crc.toNat
    omega

/-- Every slot has the same share of the keys that differ in two adjacent bytes: whatever comes
before and after them, four of the 65536 pairs of bytes give a key of the slot. -/
theorem slots_evenly_spread (pre suf : Bytes) {slot : UInt16} (hslot : slot < 16384) :
    { ab : UInt8 × UInt8 | keyToSlot (pre ++ ([ab.1, ab.2] ++ suf)) = slot }.ncard = 4 := by
  obtain ⟨hinj, hsurj⟩ := crc16_pair_bijective pre suf
  have himage : (fun ab : UInt8 × UInt8 => crc16 (pre ++ ([ab.1, ab.2] ++ suf))) ''
      { ab | keyToSlot (pre ++ ([ab.1, ab.2] ++ suf)) = slot } = { crc | crc % 16384 = slot } :=
    Set.image_preimage_eq { crc | crc % 16384 = slot } hsurj
  rw [← Set.ncard_image_of_injective _ hinj, himage, ← range_slotChecksum hslot, ← Set.image_univ,
    Set.ncard_image_of_injective _ (slotChecksum_injective hslot), Set.ncard_univ, Nat.card_fin]

/-- Keys of the form `user:` and two bytes. -/
theorem slots_evenly_spread_user :
    { ab : UInt8 × UInt8 | keyToSlot (ascii "user:" ++ ([ab.1, ab.2] ++ [])) = 12182 }.ncard = 4 :=
  slots_evenly_spread (ascii "user:") [] (by decide)

end Badis
