import Badis.Store.Encoding
import Badis.Store.Reachable
import Badis.Store.Proofs.BadgerProofs
import Badis.Store.Proofs.FailureProofs
import Badis.Store.Proofs.LogStoreProofs
import Badis.Store.Proofs.ReadsProofs
import Badis.Store.Proofs.TypeProofs

/-!
# MSET and SET, MGET and GET

SET and GET look at the type of a key before they write or read it; MSET and MGET do not. MSET is
therefore a sequence of SETs, and MGET a sequence of GETs, exactly as far as the keys hold nothing
or what reads as a string (`mset_eq_sets_iff`, `getStrings_agrees_iff`).
-/

namespace Badis

open Lib

/-- At the clock reading `t` the key holds nothing, or what reads as a string. -/
def Slot.StringOrNone (t : Nat) (s : Slot) : Prop :=
  (s.user.filter (Entry.live t)).isSome → s.typ t = typeString

instance (t : Nat) (s : Slot) : Decidable (s.StringOrNone t) :=
  inferInstanceAs (Decidable ((s.user.filter (Entry.live t)).isSome → s.typ t = typeString))

/-- What a plain SET leaves of a key. -/
def Slot.plain (val : Bytes) : Slot := ⟨some (newEntry val), some (newEntry typeString)⟩

theorem filter_live_mono {t t' : Nat} (h : t ≤ t') {o : Option Entry} {e : Entry}
    (he : o.filter (Entry.live t') = some e) : o.filter (Entry.live t) = some e := by
  obtain ⟨rfl, hlive⟩ := Option.filter_eq_some_iff.mp he
  exact Option.filter_eq_some_iff.mpr ⟨rfl, live_mono h hlive⟩

theorem Slot.StringOrNone.mono {t t' : Nat} (h : t ≤ t') {s : Slot} (hs : s.StringOrNone t) :
    s.StringOrNone t' := by
  intro hlive
  obtain ⟨e, he⟩ := Option.isSome_iff_exists.mp hlive
  have htyp := hs (by rw [filter_live_mono h he]; rfl)
  unfold Slot.typ at htyp ⊢
  cases htype : s.type.filter (Entry.live t') with
  | none => rfl
  | some item =>
    -- a type entry that is visible later was visible before
    rw [filter_live_mono h htype] at htyp
    exact htyp

@[simp] theorem Slot.stringOrNone_plain (t : Nat) (val : Bytes) : (Slot.plain val).StringOrNone t :=
  fun _ => rfl

/-! ## MSET -/

/-- A plain SET in an execution of its own. -/
def setStep (s : Env × Bytes × Bytes) : Step := (s.1, { op := .set, key := s.2.1, args := [s.2.2] })

/-- One MSET of all the pairs. -/
def msetCommand (sets : List (Env × Bytes × Bytes)) : Command :=
  { op := .mset, args := sets.flatMap fun s => [s.2.1, s.2.2] }

/-- The values stored one after the other, whatever the keys hold. -/
def storeAll (sets : List (Env × Bytes × Bytes)) (db : DB) : DB :=
  sets.foldl (fun db s => DB.setSlot db s.2.1 (.plain s.2.2)) db

section MSet

variable (c : Codec) (env : Env) (sets : List (Env × Bytes × Bytes)) (db : DB)

theorem set_run (s : Env × Bytes × Bytes) :
    applyCmd c s.1 (setStep s).2 db =
      if (Slot.of db s.2.1).StringOrNone s.1.clock.now then
        (.ok (.str (ascii "OK")), DB.setSlot db s.2.1 (.plain s.2.2))
      else (.error .wrongType, db) := by
  rw [applyCmd_eq_plan c s.1 (setStep s).2 db rfl]
  show (planSet s.1 (setStep s).2 ((Slot.of db s.2.1).view c s.1.clock.now)).run c s.1 s.2.1 db = _
  rcases Slot.view_cases c s.1.clock.now (Slot.of db s.2.1) with
    ⟨huser, hview⟩ | ⟨item, huser, htyp, hview⟩ | ⟨item, v, huser, htyp, hv, hview⟩
  · rw [hview, if_pos (by simp [Slot.StringOrNone, huser])]
    rfl
  · rw [hview, if_pos (by simp [Slot.StringOrNone, htyp])]
    rfl
  · rw [hview, if_neg (by simp [Slot.StringOrNone, huser, htyp])]
    cases v with
    | string b => exact absurd hv.symm htyp
    | list l => rfl
    | hash h => rfl
    | set s => rfl
    | raw typ b => rfl

theorem applySets_cons (s : Env × Bytes × Bytes) :
    applyLog c ((s :: sets).map setStep) db =
      ((applyCmd c s.1 (setStep s).2 db).1 ::
          (applyLog c (sets.map setStep) (applyCmd c s.1 (setStep s).2 db).2).1,
        (applyLog c (sets.map setStep) (applyCmd c s.1 (setStep s).2 db).2).2) := rfl

theorem msetLoop_eq_storeAll :
    (msetLoop env (msetCommand sets).args).run db = (.ok (), storeAll sets db) := by
  induction sets generalizing db with
  | nil => rfl
  | cons s sets ih => exact ih (DB.setSlot db s.2.1 (.plain s.2.2))

theorem length_msetCommand : (msetCommand sets).args.length % 2 = 0 := by
  simp [msetCommand]

theorem mset_run :
    applyCmd c env (msetCommand sets) db = (.ok (.str (ascii "OK")), storeAll sets db) := by
  have hrun : (applyData c env (msetCommand sets)).run db =
      (.ok (.str (ascii "OK")), storeAll sets db) := by
    show (applyMSet env (msetCommand sets)).run db = _
    unfold applyMSet
    rw [if_neg (by simp [length_msetCommand])]
    exact Txn.run_bind_ok (msetLoop_eq_storeAll env sets db)
  unfold applyCmd Txn.atomically
  rw [hrun]

variable {sets db}

theorem stringOrNone_setSlot {t : Nat} {k : Bytes} (key val : Bytes)
    (h : (Slot.of db k).StringOrNone t) :
    (Slot.of (DB.setSlot db key (.plain val)) k).StringOrNone t := by
  by_cases hk : key = k
  · subst hk
    simp
  · rwa [Slot.of_setSlot_of_ne db _ hk]

/-- As long as no key holds another type, the SETs store what they are given. -/
theorem sets_run (h : ∀ s ∈ sets, (Slot.of db s.2.1).StringOrNone s.1.clock.now) :
    applyLog c (sets.map setStep) db =
      (sets.map fun _ => .ok (.str (ascii "OK")), storeAll sets db) := by
  induction sets generalizing db with
  | nil => rfl
  | cons s sets ih =>
    have hs := set_run c db s
    rw [if_pos (h s List.mem_cons_self)] at hs
    have hrest := ih fun s' hs' =>
      stringOrNone_setSlot s.2.1 s.2.2 (h s' (List.mem_cons_of_mem _ hs'))
    rw [applySets_cons, hs, hrest]
    rfl

/-- If all SETs succeed, no key held another type at the start: the first SET of such a key would
have failed. -/
theorem stringOrNone_of_sets {t : Nat} (hord : Ordered t (sets.map setStep))
    (hok : ∀ r ∈ (applyLog c (sets.map setStep) db).1, ∃ a, r = .ok a) :
    ∀ s ∈ sets, (Slot.of db s.2.1).StringOrNone s.1.clock.now := by
  induction sets generalizing db t with
  | nil => simp
  | cons s sets ih =>
    rw [applySets_cons] at hok
    have hs := set_run c db s
    by_cases hnone : (Slot.of db s.2.1).StringOrNone s.1.clock.now
    · rw [if_pos hnone] at hs
      intro s' hs'
      rcases List.mem_cons.mp hs' with rfl | hs'
      · exact hnone
      · by_cases hk : s.2.1 = s'.2.1
        · -- the key of an earlier SET: it was a string then, and stays one
          have hle : s.1.clock.ttlType ≤ s'.1.clock.now :=
            hord.2.le_of_mem (List.mem_map_of_mem hs')
          rw [← hk]
          exact hnone.mono (s.1.clock.now_le_ttlType.trans hle)
        · have hrest := ih hord.2 (fun r hr => hok r (List.mem_cons_of_mem _ hr)) s' hs'
          rwa [hs, Slot.of_setSlot_of_ne db _ hk] at hrest
    · rw [if_neg hnone] at hs
      obtain ⟨a, ha⟩ := hok _ List.mem_cons_self
      rw [hs] at ha
      cases ha

/-- MSET against the SETs of its pairs in order, each SET with clock readings of its own that do not
go back: they leave the same value, type and expiry of every key and MSET succeeds iff the SETs do,
exactly if every key at the instant of its SET holds nothing or a string. -/
theorem mset_eq_sets_iff (c : Codec) (env : Env) (sets : List (Env × Bytes × Bytes)) (db : DB)
    (hord : Ordered 0 (sets.map setStep)) :
    ((∀ t k, DB.view c t (applyCmd c env (msetCommand sets) db).2 k =
          DB.view c t (applyLog c (sets.map setStep) db).2 k) ∧
        ((∃ a, (applyCmd c env (msetCommand sets) db).1 = .ok a) ↔
          ∀ r ∈ (applyLog c (sets.map setStep) db).1, ∃ a, r = .ok a)) ↔
      ∀ s ∈ sets, (Slot.of db s.2.1).StringOrNone s.1.clock.now := by
  rw [mset_run c env sets db]
  constructor
  · rintro ⟨-, hiff⟩
    exact stringOrNone_of_sets c hord (hiff.mp ⟨_, rfl⟩)
  · intro h
    rw [sets_run c h]
    refine ⟨fun _ _ => rfl, fun _ r hr => ?_, fun _ => ⟨_, rfl⟩⟩
    obtain ⟨s, -, rfl⟩ := List.mem_map.mp hr
    exact ⟨_, rfl⟩

end MSet

/-- The list `l` with one element, pushed into an empty database. -/
def pushedList : DB :=
  (applyCmd msgpack (Env.at 1000000000000)
    { op := .lpush, key := ascii "l", args := [ascii "x"] } OrdMap.empty).2

theorem pushedList_reachable (lc : LogCodec) : Reachable noScripts msgpack lc pushedList :=
  Reachable.apply Reachable.empty 0 (fun _ => Env.at 1000000000000)
    { op := .lpush, key := ascii "l", args := [ascii "x"] }

/-- Two pairs, the second for the key of the list. -/
def pairsOverList : List (Env × Bytes × Bytes) :=
  [(Env.at 1001000000000, ascii "s", ascii "a"), (Env.at 1002000000000, ascii "l", ascii "b")]

/-- Three pairs, two of them for one key, in a database that holds a string with an expiry and a
list. -/
def pairsOverString : List (Env × Bytes × Bytes) :=
  [(Env.at 1001000000000, ascii "s", ascii "a"), (Env.at 1002000000000, ascii "n", ascii "b"),
    (Env.at 1003000000000, ascii "s", ascii "c")]

def stringAndList : DB :=
  (applyCmd msgpack (Env.at 1000000000000)
    { op := .set, key := ascii "s", args := [ascii "x"], ttlMs := 60000 } pushedList).2

theorem mset_eq_sets_over_string :
    DB.view msgpack 1001000000000 stringAndList (ascii "s") = some (.string (ascii "x"), 1060) ∧
      (∀ t k, DB.view msgpack t
          (applyCmd msgpack (Env.at 1000000000000) (msetCommand pairsOverString) stringAndList).2
            k =
        DB.view msgpack t (applyLog msgpack (pairsOverString.map setStep) stringAndList).2 k) ∧
      ((∃ a, (applyCmd msgpack (Env.at 1000000000000) (msetCommand pairsOverString)
          stringAndList).1 = .ok a) ↔
        ∀ r ∈ (applyLog msgpack (pairsOverString.map setStep) stringAndList).1, ∃ a, r = .ok a) :=
  ⟨by decide, (mset_eq_sets_iff msgpack (Env.at 1000000000000) pairsOverString stringAndList
    (by decide)).mpr (by decide)⟩

/-- Over a list MSET succeeds and leaves a string, the SETs fail at the list and leave it. -/
theorem mset_overwrites_list :
    Ordered 0 (pairsOverList.map setStep) ∧
      (∃ a, (applyCmd msgpack (Env.at 1003000000000) (msetCommand pairsOverList) pushedList).1 =
        .ok a) ∧
      .error .wrongType ∈ (applyLog msgpack (pairsOverList.map setStep) pushedList).1 ∧
      DB.view msgpack 1004000000000
          (applyCmd msgpack (Env.at 1003000000000) (msetCommand pairsOverList) pushedList).2
            (ascii "l") =
        some (.string (ascii "b"), 0) ∧
      DB.view msgpack 1004000000000 (applyLog msgpack (pairsOverList.map setStep) pushedList).2
          (ascii "l") = some (.list [ascii "x"], 0) := by
  refine ⟨by decide, ⟨_, rfl⟩, ?_, by decide, by decide⟩
  exact List.mem_cons_of_mem _ List.mem_cons_self

/-! ## MGET -/

/-- The value `FSM.GetString` returns: the nil slice beside an error. -/
def stringValue (t : Nat) (db : DB) (key : Bytes) : Option Bytes :=
  match ((getString t key).run db).1 with
  | .ok val => val
  | .error _ => none

/-- `FSM.GetStrings` at the clock reading `t` returns for each key what `FSM.GetString` returns, and
nil for every key that is absent or holds no string. -/
def MGetAgrees (t : Nat) (db : DB) (keys : List Bytes) : Prop :=
  ∃ vals, ((getStrings t keys).run db).1 = .ok vals ∧ vals = keys.map (stringValue t db) ∧
    ∀ (i : Nat) (key : Bytes), keys[i]? = some key → ((fsmType t key).run db).1 ≠ .ok typeString →
      vals[i]? = some none

section MGet

variable {t : Nat} {db : DB} {k : Bytes}

theorem stringValue_of_none (h : db.getLive t (userKey k) = none) : stringValue t db k = none := by
  rw [stringValue, getString_of_none h]

theorem stringValue_of_some {e : Entry} (h : db.getLive t (userKey k) = some e) :
    stringValue t db k = if (Slot.of db k).typ t = typeString then e.valueCopy else none := by
  rw [stringValue, getString_of_some h]
  split_ifs <;> rfl

/-- A key is read alike by MGET and GET if and only if it is absent or holds a string. -/
theorem valueCopy_eq_stringValue_iff :
    (db.getLive t (userKey k)).bind Entry.valueCopy = stringValue t db k ↔
      ∀ e, db.getLive t (userKey k) = some e → (Slot.of db k).typ t = typeString := by
  cases h : db.getLive t (userKey k) with
  | none => simp [stringValue_of_none h]
  | some e =>
    rw [stringValue_of_some h]
    by_cases htyp : (Slot.of db k).typ t = typeString
    · simp [htyp]
    · simp [htyp, Entry.valueCopy]

theorem stringValue_of_fsmType_ne (h : ((fsmType t k).run db).1 ≠ .ok typeString) :
    stringValue t db k = none := by
  cases he : db.getLive t (userKey k) with
  | none => exact stringValue_of_none he
  | some e =>
    rw [fsmType_run t k db (by rw [he]; rfl)] at h
    rw [stringValue_of_some he, if_neg fun htyp => h (congrArg _ htyp)]

end MGet

/-- MGET agrees with GET exactly if no listed key is live with another type than string: the bytes
of an encoded list, hash or set are returned as they are. -/
theorem getStrings_agrees_iff (t : Nat) (db : DB) (keys : List Bytes) :
    MGetAgrees t db keys ↔
      ∀ k ∈ keys, ∀ e, db.getLive t (userKey k) = some e → (Slot.of db k).typ t = typeString := by
  unfold MGetAgrees
  rw [getStrings_run]
  constructor
  · rintro ⟨vals, hvals, hmap, -⟩ k hk
    cases hvals
    exact valueCopy_eq_stringValue_iff.mp (List.map_inj_left.mp hmap k hk)
  · intro h
    refine ⟨_, rfl, List.map_inj_left.mpr fun k hk => valueCopy_eq_stringValue_iff.mpr (h k hk), ?_⟩
    intro i k hk htype
    have hval := valueCopy_eq_stringValue_iff.mpr (h k (List.mem_of_getElem? hk))
    rw [List.getElem?_map, hk, Option.map_some, hval, stringValue_of_fsmType_ne htype]

/-- The list `l` is read by MGET as the bytes it is encoded in; GET reports the wrong type. -/
theorem mget_returns_encoded_list :
    Reachable noScripts msgpack sampleCodec pushedList ∧
      (getStrings 1001000000000 [ascii "l"]).run pushedList =
        (.ok [some (msgpack.encodeStrings [ascii "x"])], pushedList) ∧
      (getString 1001000000000 (ascii "l")).run pushedList = (.error .wrongType, pushedList) :=
  ⟨pushedList_reachable sampleCodec, by decide, by decide⟩

end Badis
