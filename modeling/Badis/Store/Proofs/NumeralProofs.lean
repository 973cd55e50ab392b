import Badis.Lib.Wrap
import Badis.Store.Command

/-!
# Proofs: numerals

`strconv.ParseInt` accepts an optional sign and digits (`bytes_of_parseInt`), and it reads back what
`strconv.FormatInt` prints (`parseInt_formatInt`).
-/

namespace Badis

open Lib

/-! ## What is accepted -/

/-- `strconv.ParseInt` after the sign. -/
def parseDigits (neg : Bool) (digits : Bytes) : Int64 × Bool :=
  match digits with
  | [] => (0, false)
  | digits =>
    match parseUint digits 0 with
    | none => (0, false)
    | some (un, _) =>
      if neg then
        if 2 ^ 63 < un then (Int64.minValue, false) else (Int64.ofInt (-un), true)
      else
        if 2 ^ 63 ≤ un then (Int64.maxValue, false) else (Int64.ofInt un, true)

theorem parseInt_cases (s : Bytes) :
    (∃ digits, s = 43 :: digits ∧ parseInt s = parseDigits false digits) ∨
      (∃ digits, s = 45 :: digits ∧ parseInt s = parseDigits true digits) ∨
      parseInt s = parseDigits false s := by
  by_cases hplus : ∃ digits, s = 43 :: digits
  · obtain ⟨digits, rfl⟩ := hplus
    exact .inl ⟨digits, rfl, rfl⟩
  by_cases hminus : ∃ digits, s = 45 :: digits
  · obtain ⟨digits, rfl⟩ := hminus
    exact .inr (.inl ⟨digits, rfl, rfl⟩)
  refine .inr (.inr ?_)
  unfold parseInt
  split
  rename_i neg digits hsplit
  split at hsplit
  · exact absurd ⟨_, rfl⟩ hplus
  · exact absurd ⟨_, rfl⟩ hminus
  · cases hsplit
    rfl

theorem digits_of_parseUint {digits : Bytes} {n un : Nat}
    (h : parseUint digits n = some (un, true)) :
    ∀ b ∈ digits, 48 ≤ b.toNat ∧ b.toNat ≤ 57 := by
  induction digits generalizing n with
  | nil => simp
  | cons b digits ih =>
    unfold parseUint at h
    by_cases hb : 48 ≤ b.toNat ∧ b.toNat ≤ 57
    · rw [digit?, if_pos hb] at h
      simp only at h
      split_ifs at h
      · exact List.forall_mem_cons.mpr ⟨hb, ih h⟩
      · cases h
    · rw [digit?, if_neg hb] at h
      cases h

theorem parseUint_overflow {digits : Bytes} {n un : Nat}
    (h : parseUint digits n = some (un, false)) :
    un = 2 ^ 64 - 1 := by
  induction digits generalizing n with
  | nil => cases h
  | cons b digits ih =>
    unfold parseUint at h
    split at h
    · cases h
    · split_ifs at h
      · exact ih h
      · exact ((Prod.mk.inj (Option.some.inj h)).1).symm

theorem digits_of_parseDigits {neg : Bool} {digits : Bytes}
    (h : (parseDigits neg digits).2 = true) :
    digits ≠ [] ∧ ∀ b ∈ digits, 48 ≤ b.toNat ∧ b.toNat ≤ 57 := by
  unfold parseDigits at h
  split at h
  · cases h
  · rename_i hne
    split at h
    · cases h
    · rename_i un inRange hparse
      cases inRange with
      | true => exact ⟨hne, digits_of_parseUint hparse⟩
      | false =>
        rw [parseUint_overflow hparse] at h
        cases neg <;> cases h

/-- A byte of a numeral: a sign or a digit. -/
def numeralByte (b : UInt8) : Prop := b = 43 ∨ b = 45 ∨ (48 ≤ b.toNat ∧ b.toNat ≤ 57)

instance : DecidablePred numeralByte := fun _ => inferInstanceAs (Decidable (_ ∨ _ ∨ _))

theorem bytes_of_parseInt {s : Bytes} (h : (parseInt s).2 = true) :
    s ≠ [] ∧ ∀ b ∈ s, numeralByte b := by
  rcases parseInt_cases s with ⟨digits, rfl, heq⟩ | ⟨digits, rfl, heq⟩ | heq
  · rw [heq] at h
    refine ⟨List.cons_ne_nil _ _, List.forall_mem_cons.mpr ⟨.inl rfl, fun b hb => ?_⟩⟩
    exact .inr (.inr ((digits_of_parseDigits h).2 b hb))
  · rw [heq] at h
    refine ⟨List.cons_ne_nil _ _, List.forall_mem_cons.mpr ⟨.inr (.inl rfl), fun b hb => ?_⟩⟩
    exact .inr (.inr ((digits_of_parseDigits h).2 b hb))
  · rw [heq] at h
    exact ⟨(digits_of_parseDigits h).1, fun b hb => .inr (.inr ((digits_of_parseDigits h).2 b hb))⟩

/-- A numeral has no letters. -/
theorem toUpper_numeral (upper : Bytes → Bytes) {s : Bytes} (h : (parseInt s).2 = true) :
    toUpper upper s = s := by
  obtain ⟨-, hbytes⟩ := bytes_of_parseInt h
  have hsmall : ∀ b ∈ s, b.toNat < 97 := by
    intro b hb
    rcases hbytes b hb with rfl | rfl | hdigit
    · decide
    · decide
    · omega
  have hall : (s.all fun b => b < 128) = true := by
    refine List.all_eq_true.mpr fun b hb => decide_eq_true ?_
    have hlt := hsmall b hb
    show b.toNat < 128
    omega
  rw [toUpper, if_pos hall]
  refine List.map_congr_left (g := id) (fun b hb => ?_) |>.trans (List.map_id s)
  have hlt := hsmall b hb
  refine if_neg fun hletter => ?_
  have hle : 97 ≤ b.toNat := hletter.1
  omega

/-! ## What is printed -/

theorem parseUint_append {a b : Bytes} {n k : Nat} (h : parseUint a n = some (k, true)) :
    parseUint (a ++ b) n = parseUint b k := by
  induction a generalizing n with
  | nil =>
    cases h
    rfl
  | cons d a ih =>
    rw [List.cons_append, parseUint]
    rw [parseUint] at h
    cases hd : digit? d with
    | none =>
      rw [hd] at h
      cases h
    | some m =>
      simp only [hd] at h ⊢
      split_ifs at h ⊢
      · exact ih h
      · cases h

/-- The byte of a decimal digit. -/
def digitByte (d : Nat) : UInt8 := UInt8.ofNat (48 + d)

theorem digit?_digitByte {d : Nat} (hd : d < 10) : digit? (digitByte d) = some d := by
  have htoNat : (digitByte d).toNat = 48 + d := by
    rw [digitByte, UInt8.toNat_ofNat']
    omega
  rw [digit?, htoNat, if_pos (by omega)]
  congr 1
  omega

/-- Digits, least significant first, are read back as their number. -/
theorem parseUint_digits {ds : List Nat} (hds : ∀ d ∈ ds, d < 10)
    (hlt : Nat.ofDigits 10 ds < 2 ^ 64) :
    parseUint (ds.reverse.map digitByte) 0 = some (Nat.ofDigits 10 ds, true) := by
  induction ds with
  | nil => rfl
  | cons d ds ih =>
    rw [Nat.ofDigits_cons] at hlt ⊢
    have hrest := ih (fun e he => hds e (List.mem_cons_of_mem _ he)) (by omega)
    rw [List.reverse_cons, List.map_append, parseUint_append hrest, List.map_singleton, parseUint,
      digit?_digitByte (hds d List.mem_cons_self)]
    have hval : Nat.ofDigits 10 ds * 10 + d = d + 10 * Nat.ofDigits 10 ds := by omega
    simp only [hval, if_pos hlt, parseUint]

/-- The decimal text of a natural number. -/
def formatNat (m : Nat) : Bytes :=
  if m = 0 then [48] else (Nat.digits 10 m).reverse.map digitByte

theorem formatInt_eq (n : Int64) :
    formatInt n = if n.toInt < 0 then 45 :: formatNat n.toInt.natAbs
      else formatNat n.toInt.natAbs := rfl

theorem parseUint_formatNat {m : Nat} (hm : m < 2 ^ 64) :
    parseUint (formatNat m) 0 = some (m, true) := by
  unfold formatNat
  by_cases hzero : m = 0
  · rw [if_pos hzero, hzero]
    rfl
  · rw [if_neg hzero, parseUint_digits (fun d hd => Nat.digits_lt_base (by omega) hd)]
    · rw [Nat.ofDigits_digits]
    · rwa [Nat.ofDigits_digits]

theorem formatNat_ne_nil (m : Nat) : formatNat m ≠ [] := by
  unfold formatNat
  split_ifs with hzero
  · exact List.cons_ne_nil _ _
  · simpa [Nat.digits_eq_nil_iff_eq_zero] using hzero

theorem parseDigits_formatNat (neg : Bool) {m : Nat} (hm : m < 2 ^ 64) :
    parseDigits neg (formatNat m) =
      if neg then
        if 2 ^ 63 < m then (Int64.minValue, false) else (Int64.ofInt (-m), true)
      else
        if 2 ^ 63 ≤ m then (Int64.maxValue, false) else (Int64.ofInt m, true) := by
  unfold parseDigits
  split
  · rename_i hnil
    exact absurd hnil (formatNat_ne_nil m)
  · rw [parseUint_formatNat hm]

/-- `strconv.ParseInt` reads back what `strconv.FormatInt` prints. -/
theorem parseInt_formatInt (n : Int64) : parseInt (formatInt n) = (n, true) := by
  obtain ⟨hlow, hhigh⟩ := fits64_toInt n
  rw [formatInt_eq]
  by_cases hneg : n.toInt < 0
  · have habs : ((n.toInt.natAbs : Nat) : Int) = -n.toInt := Int.ofNat_natAbs_of_nonpos (by omega)
    have hle : ¬ 2 ^ 63 < n.toInt.natAbs := by omega
    rw [if_pos hneg, show parseInt (45 :: formatNat n.toInt.natAbs) =
      parseDigits true (formatNat n.toInt.natAbs) from rfl, parseDigits_formatNat true (by omega),
      if_pos rfl, if_neg hle, habs, Int.neg_neg, Int64.ofInt_toInt]
  · have habs : ((n.toInt.natAbs : Nat) : Int) = n.toInt := Int.natAbs_of_nonneg (by omega)
    have hlt : ¬ 2 ^ 63 ≤ n.toInt.natAbs := by omega
    have hdigits := digits_of_parseUint (parseUint_formatNat (m := n.toInt.natAbs) (by omega))
    have hunsigned : parseInt (formatNat n.toInt.natAbs) =
        parseDigits false (formatNat n.toInt.natAbs) := by
      rcases parseInt_cases (formatNat n.toInt.natAbs) with ⟨digits, heq, -⟩ | ⟨digits, heq, -⟩ |
        heq
      · exact absurd (hdigits 43 (heq ▸ List.mem_cons_self)) (by decide)
      · exact absurd (hdigits 45 (heq ▸ List.mem_cons_self)) (by decide)
      · exact heq
    rw [if_neg hneg, hunsigned, parseDigits_formatNat false (by omega), if_neg Bool.false_ne_true,
      if_neg hlt, habs, Int64.ofInt_toInt]

end Badis
