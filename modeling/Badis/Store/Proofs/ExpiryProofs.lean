import Badis.Lib.Wrap
import Badis.Store.Proofs.EffectProofs

/-!
# Expiry arithmetic

A mutation reads the remaining time of its key in whole milliseconds (`remainingTTLMs`) and writes
it back with `WithTTL`, which adds it to a later clock reading and keeps the whole second. The two
entries of a key get their expiries from two readings, so they can differ; `Outlives` says that the
type entry is visible as long as the user entry is.
-/

namespace Badis

open Lib

/-- The greatest number of milliseconds whose nanoseconds fit a `time.Duration`. -/
def maxTTLMs : Int := 9223372036854

/-- The expiry that `setValue` gives an entry at the clock reading `t`. -/
def expiryOf (t : Nat) (ttlMs : Int64) : UInt64 := (withTTLMs t ttlMs (newEntry [])).expiresAt

theorem withTTLMs_newEntry (t : Nat) (ttlMs : Int64) (b : Bytes) :
    withTTLMs t ttlMs (newEntry b) = ⟨b, expiryOf t ttlMs⟩ := by
  unfold expiryOf withTTLMs
  split_ifs <;> rfl

theorem expiryOf_of_nonpos {t : Nat} {ttlMs : Int64} (h : ¬ 0 < ttlMs) : expiryOf t ttlMs = 0 := by
  unfold expiryOf withTTLMs
  rw [if_neg h]
  rfl

/-! ## Machine arithmetic -/

theorem toInt_milliseconds {ttlMs : Int64} (hpos : 0 < ttlMs.toInt) (hle : ttlMs.toInt ≤ maxTTLMs) :
    (ttlMs * 1000000).toInt = ttlMs.toInt * 1000000 := by
  have h : (1000000 : Int64).toInt = 1000000 := by decide
  rw [Int64.toInt_mul, h]
  unfold maxTTLMs at hle
  apply Int.bmod_eq_of_le <;> omega

theorem toNat_ofInt_of_lt {x : Int} (h0 : 0 ≤ x) (h : x < 2 ^ 64) :
    ((UInt64.ofInt x).toNat : Int) = x := by
  rw [toNat_ofInt, Int.emod_eq_of_lt h0 h]
  omega

/-- A time to live without overflow is added to the clock, and the whole second kept. -/
theorem toNat_expiryOf {t : Nat} {ttlMs : Int64} (ht : t < 2 ^ 62 * 1000000000)
    (hpos : 0 < ttlMs.toInt) (hle : ttlMs.toInt ≤ maxTTLMs) :
    ((expiryOf t ttlMs).toNat : Int) = (t + ttlMs.toInt * 1000000) / 1000000000 := by
  have hlt : 0 < ttlMs := by
    rw [Int64.lt_iff_toInt_lt]
    exact hpos
  have hms := toInt_milliseconds hpos hle
  unfold expiryOf withTTLMs Entry.withTTL
  rw [if_pos hlt]
  show ((UInt64.ofInt ((t + (ttlMs * 1000000).toInt) / 1000000000)).toNat : Int) = _
  rw [hms]
  unfold maxTTLMs at hle
  apply toNat_ofInt_of_lt <;> omega

/-! ## The type entry outlives the user entry -/

/-- An entry that expires at `te` is visible as long as one that expires at `e`. -/
def Outlives (te e : UInt64) : Prop := te = 0 ∨ e ≠ 0 ∧ e ≤ te

instance (te e : UInt64) : Decidable (Outlives te e) := by
  unfold Outlives
  infer_instance

theorem Entry.live_iff {t : Nat} {e : Entry} :
    e.live t = true ↔ e.expiresAt = 0 ∨ unixNow t < e.expiresAt.toNat := by
  simp [Entry.live]

theorem live_mono {t t' : Nat} (h : t ≤ t') {e : Entry} (hlive : e.live t' = true) :
    e.live t = true := by
  rw [Entry.live_iff] at hlive ⊢
  rcases hlive with h0 | hlt
  · exact Or.inl h0
  · right
    exact lt_of_le_of_lt (Nat.div_le_div_right h) hlt

theorem Outlives.live {t : Nat} {te e : Entry} (h : Outlives te.expiresAt e.expiresAt)
    (hlive : e.live t = true) : te.live t = true := by
  rw [Entry.live_iff] at hlive ⊢
  rcases h with h | ⟨h0, hle⟩
  · exact Or.inl h
  · have hle' := UInt64.le_iff_toNat_le.mp hle
    rcases hlive with h | hlt
    · exact absurd h h0
    · right
      omega

/-- Both entries written by one `setValue` with a time to live that does not overflow. -/
theorem outlives_expiryOf (clock : Clock) {ttlMs : Int64} (hle : ttlMs.toInt ≤ maxTTLMs) :
    Outlives (expiryOf clock.ttlType ttlMs) (expiryOf clock.ttl ttlMs) := by
  by_cases hpos : 0 < ttlMs
  · have hpos' : 0 < ttlMs.toInt := by
      rw [Int64.lt_iff_toInt_lt] at hpos
      exact hpos
    have hbound := clock.bound
    have hstart := clock.start
    have hnow := clock.now_le
    have hrem := clock.remaining_le
    have httl := clock.ttl_le
    have hu := toNat_expiryOf (t := clock.ttl) (by omega) hpos' hle
    have ht := toNat_expiryOf (t := clock.ttlType) (by omega) hpos' hle
    right
    constructor
    · intro h0
      rw [h0] at hu
      have h00 : (0 : UInt64).toNat = 0 := rfl
      omega
    · rw [UInt64.le_iff_toNat_le]
      omega
  · left
    exact expiryOf_of_nonpos hpos

/-! ## The remaining time -/

theorem remainingTTLMs_zero (env : Env) : remainingTTLMs env 0 = 0 := rfl

theorem timeUntil_le (t : Nat) (e : UInt64) : timeUntil t e ≤ 2 ^ 63 - 1 := by
  unfold timeUntil
  omega

theorem tdiv_million (d : Int) :
    d.tdiv 1000000 = if 0 ≤ d then d / 1000000 else -(-d / 1000000) := by
  split_ifs with h
  · exact Int.tdiv_eq_ediv_of_nonneg h
  · rw [← Int.neg_neg d, Int.neg_tdiv, Int.tdiv_eq_ediv_of_nonneg (by omega), Int.neg_neg]

theorem toInt_remainingTTLMs (env : Env) {e : UInt64} (h : e ≠ 0) :
    (remainingTTLMs env e).toInt = max 1 ((timeUntil env.clock.remaining e).tdiv 1000000) := by
  have hle := timeUntil_le env.clock.remaining e
  unfold remainingTTLMs
  rw [if_neg h, tdiv_million]
  simp only
  generalize timeUntil env.clock.remaining e = d at hle
  split_ifs with h0 h1
  · have h11 : (1 : Int64).toInt = 1 := by decide
    rw [h11]
    omega
  · rw [Int64.toInt_ofInt_of_le] <;> omega
  · have h11 : (1 : Int64).toInt = 1 := by decide
    rw [h11]
    omega
  · omega

theorem remainingTTLMs_le (env : Env) (e : UInt64) : (remainingTTLMs env e).toInt ≤ maxTTLMs := by
  by_cases h : e = 0
  · rw [h, remainingTTLMs_zero]
    decide
  · have hle := timeUntil_le env.clock.remaining e
    rw [toInt_remainingTTLMs env h, tdiv_million]
    unfold maxTTLMs
    split_ifs <;> omega

end Badis
