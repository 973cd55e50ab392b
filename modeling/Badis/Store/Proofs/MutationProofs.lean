import Badis.Store.Encoding
import Badis.Store.Log
import Badis.Store.Proofs.StepProofs

/-!
# In-place mutation and the expiry

A mutation of a key with an expiry reads the remaining time, cut to whole milliseconds, and adds it
to a later clock reading, cut to whole seconds. The cuts lose nothing only if the remaining time was
a whole number of milliseconds (or less than one, which counts as one):
`expiryOf_remainingTTLMs_iff`. Any other mutation makes the key expire a second early.
-/

namespace Badis

open Lib

/-! ## One rewrite -/

/-- The remaining time to the second `E` is a whole number of milliseconds that fits a duration, or
less than a millisecond. -/
def WholeMs (E : UInt64) (clock : Clock) : Prop :=
  (clock.remaining % 1000000 = 0 ∧ E.toNat * 1000000000 - clock.remaining < 2 ^ 63) ∨
    E.toNat * 1000000000 - clock.remaining < 1000000

/-- The two readings of a rewrite lie in one millisecond, before the second `E`. -/
def BeforeExpiry (E : UInt64) (clock : Clock) : Prop :=
  clock.remaining / 1000000 = clock.ttl / 1000000 ∧ clock.ttlType < E.toNat * 1000000000

theorem toInt_toInt64 (E : UInt64) :
    E.toInt64.toInt = if E.toNat < 2 ^ 63 then (E.toNat : Int) else E.toNat - 2 ^ 64 := by
  rw [Int64.toInt, UInt64.toBitVec_toInt64, BitVec.toInt_eq_toNat_cond, UInt64.toNat_toBitVec]
  split_ifs <;> omega

/-- The milliseconds from `r` to the second `E`, as far as a duration holds them; at least one. -/
theorem toInt_remainingTTLMs_eq (env : Env) {E : UInt64}
    (hr : env.clock.remaining < E.toNat * 1000000000) :
    (remainingTTLMs env E).toInt =
      if E.toNat < 2 ^ 63 then
        max 1 (min (2 ^ 63 - 1) ((E.toNat : Int) * 1000000000 - env.clock.remaining) / 1000000)
      else 1 := by
  have hE : E ≠ 0 := fun h => by
    rw [h] at hr
    exact absurd hr (by simp)
  have hlt := E.toNat_lt
  have hrem := toInt_remainingTTLMs env hE
  unfold timeUntil at hrem
  rw [toInt_toInt64, tdiv_million] at hrem
  generalize env.clock.remaining = r at *
  generalize (remainingTTLMs env E).toInt = m at *
  split_ifs at hrem ⊢ <;> omega

/-- A rewrite keeps the expiry second exactly when the remaining time is whole. -/
theorem expiryOf_remainingTTLMs_iff (env : Env) {E : UInt64} (h : BeforeExpiry E env.clock) :
    expiryOf env.clock.ttl (remainingTTLMs env E) = E ↔ WholeMs E env.clock := by
  obtain ⟨hms, hlt⟩ := h
  have hbound := env.clock.bound
  have hle1 := env.clock.remaining_le
  have hle2 := env.clock.ttl_le
  have hrem := toInt_remainingTTLMs_eq env (E := E) (by omega)
  have hmax := remainingTTLMs_le env E
  have hpos : 0 < (remainingTTLMs env E).toInt := by
    rw [hrem]
    split_ifs <;> omega
  have hexp := toNat_expiryOf (t := env.clock.ttl) (by omega) hpos hmax
  have hE64 := E.toNat_lt
  unfold WholeMs
  rw [← UInt64.toNat_inj]
  generalize (expiryOf env.clock.ttl (remainingTTLMs env E)).toNat = E' at *
  generalize (remainingTTLMs env E).toInt = m at *
  generalize env.clock.remaining = r at *
  generalize env.clock.ttl = w at *
  generalize E.toNat = e at *
  split_ifs at hrem with h1
  · constructor
    · intro h
      subst h
      omega
    · rintro (⟨hr, hfit⟩ | hlast)
      · omega
      · omega
  · constructor
    · intro h
      omega
    · rintro (⟨hr, hfit⟩ | hlast) <;> omega

/-! ## Runs of mutations -/

/-- The operations that change the value of a key in place. -/
def Op.mutates : Op → Bool
  | .append | .incr | .decr | .incrby | .decrby
  | .hset | .hsetnx | .hdel
  | .lpush | .rpush | .lpushx | .rpushx | .lpop | .rpop | .ltrim | .lrem
  | .sadd | .srem | .spop => true
  | _ => false

/-- A mutation of `k` that brings no expiry of its own. -/
def Mutation (k : Bytes) (cmd : Command) : Prop :=
  cmd.op.mutates = true ∧ cmd.key = k ∧ cmd.ttlMs = 0

theorem Mutation.ttlWritten {k : Bytes} {cmd : Command} (h : Mutation k cmd) (env : Env)
    (x : View) :
    ttlWritten env cmd x = oldTTLMs env x := by
  obtain ⟨hop, -, httl⟩ := h
  unfold Badis.ttlWritten
  cases hop' : cmd.op <;> rw [hop'] at hop <;> simp only [httl, if_true] <;> cases hop

/-- A mutation deletes the key, leaves it alone, or rewrites it with the remaining time it read. -/
theorem mutation_step (c : Codec) {env : Env} {cmd : Command} {db : DB} {k : Bytes} {e : Entry}
    (hmut : Mutation k cmd) (huser : (Slot.of db k).user = some e)
    (hlive : e.live env.clock.now = true) :
    (Slot.of (applyCmd c env cmd db).2 k).user = none ∨
    (Slot.of (applyCmd c env cmd db).2 k).user = some e ∨
    ∃ b, (Slot.of (applyCmd c env cmd db).2 k).user =
      some ⟨b, expiryOf env.clock.ttl (remainingTTLMs env e.expiresAt)⟩ := by
  have hview : DB.view c env.clock.now db k = some (_, e.expiresAt) :=
    Slot.view_of_live huser hlive
  have hacts := keyAct_acts env cmd k (DB.view c env.clock.now db k)
  rw [slot_applyCmd]
  generalize keyAct env cmd k (DB.view c env.clock.now db k) = act at hacts
  cases hacts with
  | keep => exact Or.inr (Or.inl huser)
  | put v hv htyp hold =>
    refine Or.inr (Or.inr ⟨v.encode c env, ?_⟩)
    rw [hmut.ttlWritten, hview]
    simp only [KeyAct.onSlot, withTTLMs_newEntry]
    rfl
  | drop hop => exact Or.inl rfl
  | expire hop hk hx => rw [Mutation, hop] at hmut; cases hmut.1
  | persist hop hk p hx hexp => rw [Mutation, hop] at hmut; cases hmut.1
  | unset hop => rw [Mutation, hop] at hmut; cases hmut.1
  | flush hop => rw [Mutation, hop] at hmut; cases hmut.1

theorem live_of_lt {t : Nat} {e : Entry} (h : t < e.expiresAt.toNat * 1000000000) :
    e.live t = true := by
  rw [Entry.live_iff]
  right
  unfold unixNow
  omega

/-- The key `k` is there when a step starts. -/
def There (k : Bytes) (_ : Env) (_ : Command) (db : DB) : Prop := (db.get? (userKey k)).isSome

instance (k : Bytes) (env : Env) (cmd : Command) (db : DB) : Decidable (There k env cmd db) := by
  unfold There
  infer_instance

instance (E : UInt64) (clock : Clock) : Decidable (WholeMs E clock) := by
  unfold WholeMs
  infer_instance

instance (E : UInt64) (clock : Clock) : Decidable (BeforeExpiry E clock) := by
  unfold BeforeExpiry
  infer_instance

instance (k : Bytes) (cmd : Command) : Decidable (Mutation k cmd) := by
  unfold Mutation
  infer_instance

/-- A run of mutations before the expiry second, each of which finds the key there and a whole
remaining time, keeps that second if it leaves the key there. -/
theorem expiry_kept (c : Codec) (steps : List Step) (db : DB) (k : Bytes) (e e' : Entry)
    (hstart : db.get? (userKey k) = some e) (hmut : ∀ s ∈ steps, Mutation k s.2)
    (hbefore : ∀ s ∈ steps, BeforeExpiry e.expiresAt s.1.clock)
    (hwhole : ∀ s ∈ steps, WholeMs e.expiresAt s.1.clock) (hthere : Along c (There k) steps db)
    (hend : (applyLog c steps db).2.get? (userKey k) = some e') : e'.expiresAt = e.expiresAt := by
  induction steps generalizing db e with
  | nil =>
    have hsame : some e' = some e := hend.symm.trans hstart
    rw [Option.some.inj hsame]
  | cons s rest ih =>
    obtain ⟨env, cmd⟩ := s
    have hb : BeforeExpiry e.expiresAt env.clock := hbefore _ List.mem_cons_self
    have hlive : e.live env.clock.now = true := live_of_lt (by
      have h1 := env.clock.now_le
      have h2 := env.clock.remaining_le
      have h3 := env.clock.ttl_le
      have h4 := hb.2
      omega)
    have hwhole' := (expiryOf_remainingTTLMs_iff env hb).mpr (hwhole _ List.mem_cons_self)
    have hnext : ∃ e1, (applyCmd c env cmd db).2.get? (userKey k) = some e1 ∧
        e1.expiresAt = e.expiresAt := by
      rcases mutation_step c (hmut _ List.mem_cons_self) hstart hlive with h | h | ⟨b, h⟩
      · have hgone : (applyCmd c env cmd db).2.get? (userKey k) = none := h
        obtain ⟨e1, he1⟩ : ∃ e1, (applyCmd c env cmd db).2.get? (userKey k) = some e1 := by
          cases rest with
          | nil => exact ⟨e', hend⟩
          | cons s' rest' => exact Option.isSome_iff_exists.mp hthere.2.1
        rw [hgone] at he1
        cases he1
      · exact ⟨e, h, rfl⟩
      · exact ⟨_, h, hwhole'⟩
    obtain ⟨e1, he1, hexp⟩ := hnext
    rw [← hexp]
    refine ih _ e1 he1 (fun s hs => hmut s (List.mem_cons_of_mem _ hs)) ?_ ?_ hthere.2 hend
    · intro s hs
      rw [hexp]
      exact hbefore s (List.mem_cons_of_mem _ hs)
    · intro s hs
      rw [hexp]
      exact hwhole s (List.mem_cons_of_mem _ hs)

/-- A key that expires at second 1010. -/
def expiringKey : DB :=
  (applyLog msgpack [(Env.at 1000000000000, ⟨.set, [107], [[49]], 10000, .always, false⟩)]
    OrdMap.empty).2

/-- An APPEND one nanosecond past a millisecond. -/
def lateAppend : List Step :=
  [(Env.at 1001000000001, ⟨.append, [107], [[50]], 0, .always, false⟩)]

theorem lateAppend_shortens_expiry :
    (expiringKey.get? (userKey [107])).map (·.expiresAt) = some 1010 ∧
    (∀ s ∈ lateAppend, Mutation [107] s.2 ∧ BeforeExpiry 1010 s.1.clock) ∧
    Along msgpack (There [107]) lateAppend expiringKey ∧
    ((applyLog msgpack lateAppend expiringKey).2.get? (userKey [107])).map (·.expiresAt) =
      some 1009 := by
  decide +kernel

/-- An INCR and an APPEND on whole milliseconds, and an APPEND in the last millisecond. -/
def wholeMutations : List Step :=
  [(Env.at 1001005000000, ⟨.incr, [107], [], 0, .always, false⟩),
   (Env.at 1002000000000, ⟨.append, [107], [[50]], 0, .always, false⟩),
   (Env.at 1009999999999, ⟨.append, [107], [[51]], 0, .always, false⟩)]

theorem wholeMutations_keep_expiry :
    (applyLog msgpack wholeMutations expiringKey).2.get? (userKey [107]) =
      some ⟨[50, 50, 51], 1010⟩ ∧ (⟨[50, 50, 51], 1010⟩ : Entry).expiresAt = 1010 :=
  ⟨by decide,
    expiry_kept msgpack wholeMutations expiringKey [107] ⟨[49], 1010⟩ ⟨[50, 50, 51], 1010⟩
      (by decide) (by decide) (by decide) (by decide)
      (by decide) (by decide)⟩

end Badis
