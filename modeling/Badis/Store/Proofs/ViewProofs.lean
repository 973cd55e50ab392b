import Badis.Store.Proofs.ExpiryProofs

/-!
# What a key holds after an action, and as time passes

Two facts about the two entries of a key. As time passes, a visible key keeps its type, provided
that its type entry lives as long as its user entry (`Slot.Steady`): a type entry that goes first
turns the value into a string. And an action leaves the key holding what `KeyAct.onView` says, for a
codec that decodes what it encoded, in whatever order a map was visited.
-/

namespace Badis

open Lib

/-! ## Encoding and decoding values -/

section Codec

theorem get?_toSet (members : List Bytes) (m : Bytes) :
    (toSet members).get? m = if m ∈ members then some () else none := by
  have hloop : ∀ (l : List Bytes) (s : GoSet),
      (l.foldl (fun set m => set.insert m ()) s).get? m = if m ∈ l then some () else s.get? m := by
    intro l
    induction l with
    | nil => intro s; simp
    | cons a l ih =>
      intro s
      rw [List.foldl_cons, ih, OrdMap.get?_insert]
      by_cases ha : a = m
      · simp [ha]
      · have ha' : ¬ m = a := fun h => ha h.symm
        simp [ha, ha']
  exact hloop members OrdMap.empty

/-- A set is rebuilt from its members in any order. -/
theorem toSet_eq_of_perm {s : GoSet} {l : List Bytes} (h : l.Perm s.keys) : toSet l = s := by
  apply OrdMap.ext_get?
  intro m
  rw [get?_toSet]
  by_cases hm : m ∈ l
  · obtain ⟨u, hu⟩ := OrdMap.mem_keys.mp (h.mem_iff.mp hm)
    rw [if_pos hm, hu]
  · rw [if_neg hm]
    cases hs : s.get? m with
    | none => rfl
    | some u => exact absurd (h.mem_iff.mpr (OrdMap.mem_keys.mpr ⟨u, hs⟩)) hm

/-- A `range` over a map visits its bindings, in some order. -/
theorem rangeMap_perm (order : RangeOrder) (h : GoMap) : (rangeMap order h).Perm h.entries := by
  have hkeys : h.keys.map (fun k => (k, (h.get? k).getD [])) = h.entries := by
    rw [OrdMap.keys, List.map_map]
    refine List.map_congr_left (fun e he => ?_) |>.trans (List.map_id _)
    have hget : h.get? e.1 = some e.2 := OrdMap.get?_eq_some_iff.mpr he
    simp [hget]
  have hperm := (order.perm h.keys).map fun k => (k, (h.get? k).getD [])
  rw [hkeys] at hperm
  exact hperm

/-- The values a command writes: never bytes that did not decode. -/
def Value.proper : Value → Bool
  | raw _ _ => false
  | _ => true

theorem decode_encode {c : Codec} (hc : c.Lawful) (env : Env) {v : Value} (hv : v.proper = true) :
    Value.decode c v.typ (v.encode c env) = v := by
  have h1 : typeList ≠ typeString := by decide
  have h2 : typeHash ≠ typeString := by decide
  have h3 : typeHash ≠ typeList := by decide
  have h4 : typeSet ≠ typeString := by decide
  have h5 : typeSet ≠ typeList := by decide
  have h6 : typeSet ≠ typeHash := by decide
  cases v with
  | string b => simp [Value.decode, Value.typ, Value.encode]
  | list l =>
    simp [Value.decode, Value.typ, Value.encode, h1, hc.decodeStrings_encodeStrings]
  | hash h =>
    simp [Value.decode, Value.typ, Value.encode, h2, h3, encodeHash,
      hc.decodeMap_encodeMap h _ (rangeMap_perm env.encode h)]
  | set s =>
    simp [Value.decode, Value.typ, Value.encode, h4, h5, h6, encodeSet, decodeSet,
      hc.decodeStrings_encodeStrings, toSet_eq_of_perm (env.members.perm s.keys)]
  | raw typ b => cases hv

end Codec

/-! ## Time -/

/-- What is left at the clock reading `t` of a key that holds `x`. -/
def View.at (t : Nat) (x : View) : View :=
  x.filter fun p => Entry.live t ⟨[], p.2⟩

theorem Slot.view_eq_some {c : Codec} {t : Nat} {s : Slot} {v : Value} {exp : UInt64}
    (h : s.view c t = some (v, exp)) :
    ∃ e, s.user = some e ∧ e.live t = true ∧ e.expiresAt = exp ∧
      v = Value.decode c (s.typ t) e.value := by
  unfold Slot.view at h
  obtain ⟨e, he, hv⟩ := Option.map_eq_some_iff.mp h
  obtain ⟨huser, hlive⟩ := Option.filter_eq_some_iff.mp he
  cases hv
  exact ⟨e, huser, hlive, rfl, rfl⟩

theorem Slot.view_of_live {c : Codec} {t : Nat} {s : Slot} {e : Entry} (h : s.user = some e)
    (hlive : e.live t = true) :
    s.view c t = some (Value.decode c (s.typ t) e.value, e.expiresAt) := by
  unfold Slot.view
  rw [h]
  simp [Option.filter, hlive]

theorem Slot.view_of_not_live {c : Codec} {t : Nat} {s : Slot}
    (h : ∀ e, s.user = some e → e.live t = false) : s.view c t = none := by
  unfold Slot.view
  cases huser : s.user with
  | none => rfl
  | some e => simp [Option.filter, h e huser]

/-- While the user entry of a key that is not a string is visible, so is its type entry. -/
def Slot.Steady (t : Nat) (s : Slot) : Prop :=
  ∀ e te, s.user = some e → e.live t = true → s.type = some te → te.live t = true →
    te.value ≠ typeString → Outlives te.expiresAt e.expiresAt

theorem Slot.Steady.mono {t t' : Nat} (h : t ≤ t') {s : Slot} (hs : s.Steady t) : s.Steady t' :=
  fun e te he hlive hte htlive hne => hs e te he (live_mono h hlive) hte (live_mono h htlive) hne

/-- The type of a visible key does not change as time passes. -/
theorem Slot.Steady.typ_eq {t t' : Nat} (h : t ≤ t') {s : Slot} (hs : s.Steady t) {e : Entry}
    (he : s.user = some e) (hlive : e.live t' = true) : s.typ t' = s.typ t := by
  unfold Slot.typ
  cases hte : s.type with
  | none => rfl
  | some te =>
    by_cases hlt : te.live t = true
    · by_cases hstr : te.value = typeString
      · by_cases hlt' : te.live t' = true <;> simp [Option.filter, hlt, hlt', hstr]
      · have hlt' : te.live t' = true :=
          (hs e te he (live_mono h hlive) hte hlt hstr).live hlive
        simp [Option.filter, hlt, hlt']
    · have hlt' : ¬ te.live t' = true := fun hl => hlt (live_mono h hl)
      simp [Option.filter, hlt, hlt']

/-! ## Actions -/

/-- The expiry that EXPIRE gives the user entry. -/
def expireAt (t : Nat) (ttlMs : Int64) : UInt64 :=
  ((newEntry []).withTTL t (ttlMs * 1000000)).expiresAt

/-- What a key that holds `x` holds after an action. -/
def KeyAct.onView (clock : Clock) (act : KeyAct) (x : View) : View :=
  match act with
  | .keep => x
  | .put v ttlMs => some (v, expiryOf clock.ttl ttlMs)
  | .expire ttlMs => x.map fun p => (p.1, expireAt clock.ttl ttlMs)
  | .persist => x.map fun p => (p.1, 0)
  | .drop | .unset | .flush => none

/-- The actions that keep the type entry of a key alive as long as its user entry, on a key whose
entries are `s`. -/
def KeyAct.Safe (clock : Clock) (act : KeyAct) (s : Slot) : Prop :=
  match act with
  | .put v ttlMs =>
    v.typ = typeString ∨ Outlives (expiryOf clock.ttlType ttlMs) (expiryOf clock.ttl ttlMs)
  | .expire ttlMs => ∀ te, s.type = some te → te.live clock.now = true → te.value ≠ typeString →
      Outlives te.expiresAt (expireAt clock.ttl ttlMs)
  | _ => True

/-- What FLUSHDB leaves behind was not visible. -/
theorem dead_onSlot_flush (c : Codec) (env : Env) {s : Slot} {e : Entry}
    (he : (KeyAct.flush.onSlot c env s).user = some e) : e.live env.clock.now = false := by
  obtain ⟨-, hdead⟩ := Option.filter_eq_some_iff.mp he
  simpa using hdead

/-- While a written value is visible, it is read under its type. -/
theorem typ_onSlot_put (c : Codec) (env : Env) {v : Value} {ttlMs : Int64} {s : Slot}
    (hsafe : (KeyAct.put v ttlMs).Safe env.clock s) {e : Entry} {t : Nat}
    (he : ((KeyAct.put v ttlMs).onSlot c env s).user = some e) (hlive : e.live t = true) :
    ((KeyAct.put v ttlMs).onSlot c env s).typ t = v.typ := by
  simp only [KeyAct.onSlot, withTTLMs_newEntry, Option.some.injEq] at he
  subst he
  simp only [Slot.typ, KeyAct.onSlot, withTTLMs_newEntry]
  rcases hsafe with hstr | hout
  · rw [hstr]
    by_cases hl : Entry.live t ⟨typeString, expiryOf env.clock.ttlType ttlMs⟩ = true <;>
      simp [Option.filter, hl]
  · have hl : Entry.live t ⟨v.typ, expiryOf env.clock.ttlType ttlMs⟩ = true :=
      Outlives.live hout hlive
    simp [Option.filter, hl]

theorem steady_onSlot (c : Codec) (env : Env) {act : KeyAct} {s : Slot}
    (hsafe : act.Safe env.clock s) (hs : act = .keep → s.Steady env.clock.now) :
    (act.onSlot c env s).Steady env.clock.now := by
  cases act with
  | keep => exact hs rfl
  | put v ttlMs =>
    intro e te he _ hte _ hne
    simp only [KeyAct.onSlot, withTTLMs_newEntry, Option.some.injEq] at he hte
    subst he hte
    exact hsafe.resolve_left hne
  | expire ttlMs =>
    intro e te he _ hte htlive hne
    obtain ⟨e0, he0, rfl⟩ := Option.map_eq_some_iff.mp he
    exact hsafe te hte htlive hne
  | persist =>
    intro e te _ _ hte _ _
    simp only [KeyAct.onSlot, Option.some.injEq] at hte
    subst hte
    exact Or.inl rfl
  | drop => intro e te he; cases he
  | unset => intro e te he; cases he
  | flush =>
    intro e te he hlive
    rw [dead_onSlot_flush c env he] at hlive
    cases hlive

theorem view_some_entry (c : Codec) (t : Nat) {s : Slot} {b : Bytes} {exp : UInt64} {v : Value}
    (huser : s.user = some ⟨b, exp⟩)
    (hv : Entry.live t ⟨b, exp⟩ = true → Value.decode c (s.typ t) b = v) :
    s.view c t = View.at t (some (v, exp)) := by
  by_cases hlive : Entry.live t ⟨b, exp⟩ = true
  · rw [Slot.view_of_live huser hlive, hv hlive]
    have : Entry.live t ⟨[], exp⟩ = true := hlive
    simp [View.at, Option.filter, this]
  · have hdead : s.view c t = none := Slot.view_of_not_live fun e he => by
      rw [huser] at he
      cases he
      simpa using hlive
    have : ¬ Entry.live t ⟨[], exp⟩ = true := hlive
    simp [hdead, View.at, Option.filter, this]

/-- From its clock reading on, an action leaves the key holding what `KeyAct.onView` says, and its
expiry does the rest. -/
theorem view_onSlot {c : Codec} (hc : c.Lawful) (env : Env) {act : KeyAct} {s : Slot} {t : Nat}
    (ht : env.clock.now ≤ t) (hkeep : act ≠ .keep)
    (hput : ∀ v ttlMs, act = .put v ttlMs → v.proper = true)
    (hsome : (∃ ttlMs, act = .expire ttlMs) ∨ act = .persist → (s.view c env.clock.now).isSome)
    (hsafe : act.Safe env.clock s) :
    (act.onSlot c env s).view c t =
      View.at t (act.onView env.clock (s.view c env.clock.now)) := by
  have hsteady : (act.onSlot c env s).Steady env.clock.now :=
    steady_onSlot c env hsafe fun h => absurd h hkeep
  cases act with
  | keep => exact absurd rfl hkeep
  | put v ttlMs =>
    have huser : (KeyAct.onSlot c env (.put v ttlMs) s).user =
        some ⟨v.encode c env, expiryOf env.clock.ttl ttlMs⟩ := by
      simp [KeyAct.onSlot, withTTLMs_newEntry]
    refine view_some_entry c t huser fun hlive => ?_
    rw [typ_onSlot_put c env hsafe huser hlive]
    exact decode_encode hc env (hput v ttlMs rfl)
  | expire ttlMs =>
    obtain ⟨⟨v, exp⟩, hx⟩ := Option.isSome_iff_exists.mp (hsome (Or.inl ⟨ttlMs, rfl⟩))
    obtain ⟨e, he, -, -, hv⟩ := Slot.view_eq_some hx
    have huser : (KeyAct.onSlot c env (.expire ttlMs) s).user =
        some ⟨e.value, expireAt env.clock.ttl ttlMs⟩ := by
      simp only [KeyAct.onSlot, he, Option.map_some]
      rfl
    rw [hx]
    refine view_some_entry c t huser fun hlive => ?_
    rw [hsteady.typ_eq ht huser hlive, hv]
    rfl
  | persist =>
    obtain ⟨⟨v, exp⟩, hx⟩ := Option.isSome_iff_exists.mp (hsome (Or.inr rfl))
    obtain ⟨e, he, -, -, hv⟩ := Slot.view_eq_some hx
    rw [hx]
    refine view_some_entry c t (b := e.value) ?_ fun _ => hv.symm
    simp only [KeyAct.onSlot, he, Option.map_some]
    rfl
  | drop => rfl
  | unset => rfl
  | flush =>
    refine Slot.view_of_not_live fun e he => ?_
    have hdead := dead_onSlot_flush c env he
    by_contra hlive
    rw [live_mono ht (by simpa using hlive)] at hdead
    cases hdead

end Badis
