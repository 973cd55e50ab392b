import Mathlib.Algebra.Order.Ring.Int
import Mathlib.Data.List.Lex
import Mathlib.Data.List.TakeWhile
import Badis.Lib.OrdMap

/-!
# Byte strings in lexicographic order

Byte strings stand for numbers, most significant byte first, and are ordered lexicographically by
unsigned bytes. The strings with a given prefix are an interval of that order that starts at the
prefix itself, so a cursor placed at the prefix and advanced while the prefix still matches visits
exactly them (`OrdMap.scan_eq_filter`).
-/

namespace Lib

instance instLinearOrderUInt8 : LinearOrder UInt8 where
  le_refl := UInt8.le_refl
  le_trans _ _ _ := UInt8.le_trans
  le_antisymm _ _ := UInt8.le_antisymm
  le_total := UInt8.le_total
  lt_iff_le_not_ge a b := by
    rw [UInt8.lt_iff_toNat_lt, UInt8.le_iff_toNat_le, UInt8.le_iff_toNat_le]
    omega
  toDecidableLE := inferInstance
  toDecidableEq := inferInstance
  toDecidableLT := inferInstance

instance instLinearOrderUInt64 : LinearOrder UInt64 where
  le_refl := UInt64.le_refl
  le_trans _ _ _ := UInt64.le_trans
  le_antisymm _ _ := UInt64.le_antisymm
  le_total := UInt64.le_total
  lt_iff_le_not_ge a b := by
    rw [UInt64.lt_iff_toNat_lt, UInt64.le_iff_toNat_le, UInt64.le_iff_toNat_le]
    omega
  toDecidableLE := inferInstance
  toDecidableEq := inferInstance
  toDecidableLT := inferInstance

/-- A byte string. -/
abbrev Bytes := List UInt8

instance instLawfulBEqBytes : LawfulBEq Bytes := inferInstance

/-- The bytes of an ASCII text. -/
def ascii (s : String) : Bytes := s.toList.map fun c => c.toNat.toUInt8

/-! ## Big-endian numbers -/

/-- The last `w` bytes of `n`, most significant first. -/
def bigEndian : Nat → Nat → Bytes
  | 0, _ => []
  | w + 1, n => bigEndian w (n / 256) ++ [UInt8.ofNat n]

/-- The number a big-endian byte string stands for. -/
def fromBigEndian (b : Bytes) : Nat := b.foldl (fun n d => n * 256 + d.toNat) 0

@[simp] theorem length_bigEndian (w n : Nat) : (bigEndian w n).length = w := by
  induction w generalizing n with
  | zero => rfl
  | succ w ih => simp [bigEndian, ih]

theorem fromBigEndian_bigEndian {w n : Nat} (h : n < 256 ^ w) :
    fromBigEndian (bigEndian w n) = n := by
  induction w generalizing n with
  | zero =>
    have : n = 0 := by simpa using h
    subst this
    rfl
  | succ w ih =>
    have hdiv : n / 256 < 256 ^ w := by
      rw [Nat.pow_succ] at h
      exact Nat.div_lt_of_lt_mul (by omega)
    have hbyte : (UInt8.ofNat n).toNat = n % 256 := UInt8.toNat_ofNat'
    have hrec := ih hdiv
    unfold fromBigEndian at hrec ⊢
    rw [bigEndian, List.foldl_append, hrec, List.foldl_cons, List.foldl_nil, hbyte]
    omega

/-- Strings of one length are ordered by all but the last byte, then by the last. -/
theorem append_singleton_lt_iff {a b : Bytes} (h : a.length = b.length) (x y : UInt8) :
    a ++ [x] < b ++ [y] ↔ a < b ∨ a = b ∧ x < y := by
  induction a generalizing b with
  | nil =>
    obtain rfl : b = [] := List.length_eq_zero_iff.mp h.symm
    simp [List.cons_lt_cons_iff]
  | cons d a ih =>
    cases b with
    | nil => cases h
    | cons e b =>
      have hlen : a.length = b.length := by simpa using h
      rw [List.cons_append, List.cons_append, List.cons_lt_cons_iff, List.cons_lt_cons_iff, ih hlen,
        List.cons.injEq]
      tauto

/-- Big-endian numbers of one width sort as numbers. -/
theorem bigEndian_lt_iff {w m n : Nat} (hm : m < 256 ^ w) (hn : n < 256 ^ w) :
    bigEndian w m < bigEndian w n ↔ m < n := by
  induction w generalizing m n with
  | zero =>
    simp only [Nat.pow_zero] at hm hn
    have hnot : ¬ bigEndian 0 m < bigEndian 0 n := List.not_lt_nil _
    simp only [hnot, false_iff]
    omega
  | succ w ih =>
    rw [Nat.pow_succ] at hm hn
    have hm' : m / 256 < 256 ^ w := by omega
    have hn' : n / 256 < 256 ^ w := by omega
    have hinj : bigEndian w (m / 256) = bigEndian w (n / 256) ↔ m / 256 = n / 256 := by
      refine ⟨fun h => ?_, fun h => by rw [h]⟩
      rw [← fromBigEndian_bigEndian hm', h, fromBigEndian_bigEndian hn']
    have hbyte : UInt8.ofNat m < UInt8.ofNat n ↔ m % 256 < n % 256 := by
      rw [UInt8.lt_iff_toNat_lt, UInt8.toNat_ofNat', UInt8.toNat_ofNat']
    rw [bigEndian, bigEndian, append_singleton_lt_iff (by simp), ih hm' hn', hinj, hbyte]
    omega

/-! ## Prefixes in the order -/

section Prefix

variable {α : Type} [LinearOrder α]

theorem cons_le_cons_iff_lex {a b : α} {p k : List α} :
    a :: p ≤ b :: k ↔ a < b ∨ a = b ∧ p ≤ k := by
  rw [le_iff_lt_or_eq, le_iff_lt_or_eq, List.cons_lt_cons_iff, List.cons.injEq]
  tauto

theorem le_of_isPrefix {p k : List α} (h : p <+: k) : p ≤ k := by
  obtain ⟨t, rfl⟩ := h
  induction p with
  | nil => exact not_lt.mp (List.not_lt_nil _)
  | cons a p ih => exact List.cons_le_cons a ih

/-- Above the first string that does not have the prefix `p`, no string has it. -/
theorem not_isPrefix_of_le {p k k' : List α} (hp : p ≤ k) (hk : ¬ p <+: k) (hkk : k ≤ k') :
    ¬ p <+: k' := by
  induction p generalizing k k' with
  | nil => exact absurd List.nil_prefix hk
  | cons a p ih =>
    cases k with
    | nil => exact absurd hp (not_le.mpr (List.nil_lt_cons a p))
    | cons b k =>
      cases k' with
      | nil => simp
      | cons c k' =>
        rw [cons_le_cons_iff_lex] at hp hkk
        rw [List.cons_prefix_cons] at hk ⊢
        rintro ⟨rfl, hpre⟩
        rcases hp with hab | ⟨rfl, hp⟩
        · rcases hkk with hbc | ⟨rfl, -⟩
          · exact lt_asymm hab hbc
          · exact lt_irrefl _ hab
        · rcases hkk with hbc | ⟨-, hkk⟩
          · exact lt_irrefl _ hbc
          · exact ih hp (fun h => hk ⟨rfl, h⟩) hkk hpre

end Prefix

namespace OrdMap

variable {α β : Type} [LinearOrder α]

/-- Scanning the bindings of an ordered list from the least key not below `p` on, while the key has
the prefix `p`. -/
def scan (p : List α) (l : List (List α × β)) : List (List α × β) :=
  (l.dropWhile fun e => e.1 < p).takeWhile fun e => p.isPrefixOf e.1

theorem takeWhile_isPrefix_eq_filter {p : List α} {l : List (List α × β)}
    (hl : l.Pairwise (fun a b => a.1 < b.1)) (hp : ∀ x ∈ l, p ≤ x.1) :
    (l.takeWhile fun e => p.isPrefixOf e.1) = l.filter fun e => p.isPrefixOf e.1 := by
  induction l with
  | nil => rfl
  | cons e l ih =>
    obtain ⟨hhead, htail⟩ := List.pairwise_cons.mp hl
    by_cases he : p <+: e.1
    · have he' : p.isPrefixOf e.1 = true := List.isPrefixOf_iff_prefix.mpr he
      simp only [List.takeWhile_cons, List.filter_cons, he', if_true]
      rw [ih htail fun x hx => hp x (List.mem_cons_of_mem _ hx)]
    · have he' : ¬ p.isPrefixOf e.1 = true := fun h => he (List.isPrefixOf_iff_prefix.mp h)
      simp only [List.takeWhile_cons, List.filter_cons, he']
      refine (List.filter_eq_nil_iff.mpr fun x hx h => ?_).symm
      exact not_isPrefix_of_le (hp e List.mem_cons_self) he (hhead x hx).le
        (List.isPrefixOf_iff_prefix.mp h)

/-- A scan visits exactly the bindings whose key has the prefix. -/
theorem scan_eq_filter {p : List α} {l : List (List α × β)}
    (hl : l.Pairwise (fun a b => a.1 < b.1)) :
    scan p l = l.filter fun e => p.isPrefixOf e.1 := by
  induction l with
  | nil => rfl
  | cons e l ih =>
    obtain ⟨hhead, htail⟩ := List.pairwise_cons.mp hl
    by_cases hlt : e.1 < p
    · have hne : ¬ p.isPrefixOf e.1 = true := fun h =>
        absurd hlt (not_lt.mpr (le_of_isPrefix (List.isPrefixOf_iff_prefix.mp h)))
      simp only [scan, List.dropWhile_cons, List.filter_cons, hlt, hne, decide_true, if_true]
      exact ih htail
    · simp only [scan, List.dropWhile_cons, hlt, decide_false, Bool.false_eq_true, if_false]
      refine takeWhile_isPrefix_eq_filter hl fun x hx => ?_
      rcases List.mem_cons.mp hx with rfl | hx
      · exact not_lt.mp hlt
      · exact (not_lt.mp hlt).trans (hhead x hx).le

end OrdMap

end Lib
