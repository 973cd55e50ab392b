import Badis.Lib.OrdMap

/-!
# Functions that can be replayed

A log that is replayed on its own result changes nothing if its effect is idempotent, but idempotent
functions do not compose. The functions here do: on one register, those that overwrite it or fill it
in when it is empty (`Overwrites`); on a map, those that do one or the other at every key
(`OrdMap.Overwriting`); on a map that may be missing, those that write the map back, or drop it when
nothing is left of it (`Absorbing`). Each class contains the identity, is closed under composition,
and consists of idempotent functions.
-/

namespace Lib

variable {α β : Type}

/-! ## One register -/

/-- Overwriting a register, or filling it in when it is empty. -/
inductive Overwrites : (Option β → Option β) → Prop where
  | const (o : Option β) : Overwrites fun _ => o
  | fill (o : Option β) : Overwrites fun x => x <|> o

namespace Overwrites

theorem id : Overwrites (fun x : Option β => x) := by
  have h : (fun x : Option β => x) = fun x => x <|> none := by
    funext x
    cases x <;> rfl
  rw [h]
  exact fill none

/-- Of two writes the later one counts, and filling in comes after it. -/
theorem comp {f g : Option β → Option β} (hf : Overwrites f) (hg : Overwrites g) :
    Overwrites fun x => f (g x) := by
  cases hf with
  | const o => exact const o
  | fill o =>
    cases hg with
    | const p => exact const (p <|> o)
    | fill p =>
      have h : (fun x : Option β => (x <|> p) <|> o) = fun x => x <|> (p <|> o) := by
        funext x
        cases x <;> rfl
      rw [h]
      exact fill (p <|> o)

/-- Writing a register a second time changes nothing. -/
theorem idem {f : Option β → Option β} (hf : Overwrites f) (x : Option β) : f (f x) = f x := by
  cases hf with
  | const o => rfl
  | fill o => cases x <;> cases o <;> rfl

end Overwrites

/-! ## Maps -/

variable [LinearOrder α]

/-- Overwriting or filling in, key by key. -/
def OrdMap.Overwriting (g : OrdMap α β → OrdMap α β) : Prop :=
  ∀ k, ∃ f, Overwrites f ∧ ∀ m, (g m).get? k = f (m.get? k)

namespace OrdMap.Overwriting

variable {g g' : OrdMap α β → OrdMap α β}

theorem id : OrdMap.Overwriting (fun m : OrdMap α β => m) :=
  fun _ => ⟨_, Overwrites.id, fun _ => rfl⟩

/-- Key by key, as for registers. -/
theorem comp (hg : OrdMap.Overwriting g) (hg' : OrdMap.Overwriting g') :
    OrdMap.Overwriting fun m => g (g' m) := by
  intro k
  obtain ⟨f, hf, hfg⟩ := hg k
  obtain ⟨f', hf', hfg'⟩ := hg' k
  exact ⟨_, hf.comp hf', fun m => by rw [hfg, hfg']⟩

theorem idem (hg : OrdMap.Overwriting g) (m : OrdMap α β) : g (g m) = g m := by
  apply OrdMap.ext_get?
  intro k
  obtain ⟨f, hf, hfg⟩ := hg k
  rw [hfg, hfg, hf.idem]

theorem insert (a : α) (b : β) : OrdMap.Overwriting fun m : OrdMap α β => m.insert a b := by
  intro k
  by_cases hk : a = k
  · exact ⟨_, Overwrites.const (some b), fun m => by rw [OrdMap.get?_insert, if_pos hk]⟩
  · exact ⟨_, Overwrites.id, fun m => by rw [OrdMap.get?_insert, if_neg hk]⟩

/-- Binding a key that has no value fills it in. -/
theorem insertNew (a : α) (b : β) :
    OrdMap.Overwriting fun m : OrdMap α β => if m.contains a then m else m.insert a b := by
  intro k
  by_cases hk : a = k
  · subst hk
    refine ⟨_, Overwrites.fill (some b), fun m => ?_⟩
    unfold OrdMap.contains
    cases hm : m.get? a <;> simp [hm]
  · refine ⟨_, Overwrites.id, fun m => ?_⟩
    show (if m.contains a = true then m else m.insert a b).get? k = m.get? k
    split_ifs
    · rfl
    · rw [OrdMap.get?_insert, if_neg hk]

/-- Removing a key that has a value overwrites it with none. -/
theorem eraseOld (a : α) :
    OrdMap.Overwriting fun m : OrdMap α β => if m.contains a then m.erase a else m := by
  intro k
  by_cases hk : a = k
  · subst hk
    refine ⟨_, Overwrites.const none, fun m => ?_⟩
    unfold OrdMap.contains
    cases hm : m.get? a <;> simp [hm]
  · refine ⟨_, Overwrites.id, fun m => ?_⟩
    show (if m.contains a = true then m.erase a else m).get? k = m.get? k
    split_ifs
    · rw [OrdMap.get?_erase, if_neg hk]
    · rfl

end OrdMap.Overwriting

/-! ## Maps that may be missing -/

/-- A map that is written back; an empty one is dropped unless `keepEmpty`. -/
def settle (keepEmpty : Bool) (m : OrdMap α β) : Option (OrdMap α β) :=
  if m.entries = [] ∧ keepEmpty = false then none else some m

theorem getD_settle (keepEmpty : Bool) (m : OrdMap α β) :
    (settle keepEmpty m).getD OrdMap.empty = m := by
  unfold settle
  split_ifs with h
  · exact (OrdMap.eq_empty_of_entries h.1).symm
  · rfl

/-- Leaving a map alone, or writing back what an overwriting function makes of it (of the empty map,
if it is missing). -/
inductive Absorbing : (Option (OrdMap α β) → Option (OrdMap α β)) → Prop where
  | id : Absorbing fun x => x
  | write (keepEmpty : Bool) (g : OrdMap α β → OrdMap α β) (hg : OrdMap.Overwriting g) :
      Absorbing fun x => settle keepEmpty (g (x.getD OrdMap.empty))

namespace Absorbing

variable {f f' : Option (OrdMap α β) → Option (OrdMap α β)}

/-- The map that one function writes back is the one that the next starts from. -/
theorem comp (hf : Absorbing f) (hf' : Absorbing f') : Absorbing fun x => f (f' x) := by
  cases hf with
  | id => exact hf'
  | write b g hg =>
    cases hf' with
    | id => exact write b g hg
    | write b' g' hg' =>
      simp only [getD_settle]
      exact write b _ (hg.comp hg')

theorem idem (hf : Absorbing f) (x : Option (OrdMap α β)) : f (f x) = f x := by
  cases hf with
  | id => rfl
  | write b g hg => simp only [getD_settle, hg.idem]

end Absorbing

end Lib
