import Badis.Lib.Wrap
import Badis.Store.Proofs.CheckedProofs
import Badis.Store.Proofs.GlobProofs
import Badis.Store.Proofs.PlanProofs

/-!
# What the reads return

The reads of a string and of an aggregate by the entries of its key, and the bounds of all reads:
none of them indexes or slices out of range, whatever integers it is given, but for the length that
SRANDMEMBER allocates for a negative count.
-/

namespace Badis

open Lib

section Entries

variable {t : Nat} {key : Bytes} {db : DB}

theorem getString_of_none (h : db.getLive t (userKey key) = none) :
    (getString t key).run db = (.ok none, db) := by
  rw [getString, Txn.run_bind_ok (txnGet_run db _ _), show Option.filter _ _ = none from h]
  rfl

/-- `FSM.GetString` tests the type of a key that is live. -/
theorem getString_of_some {item : Entry} (h : db.getLive t (userKey key) = some item) :
    (getString t key).run db =
      (if (Slot.of db key).typ t = typeString then .ok item.valueCopy else .error .wrongType,
        db) := by
  rw [getString, Txn.run_bind_ok (txnGet_run db _ _), show Option.filter _ _ =
    some item from h, Txn.run_bind, ensureExistingType_run]
  split_ifs <;> rfl

end Entries

section Reading

variable (c : Codec) (t : Nat) (key : Bytes) (db : DB)

/-- GET reads what the key shows: the bytes of a string, nothing of a free key. -/
theorem getString_run :
    (getString t key).run db =
      (match DB.view c t db key with
      | none => .ok none
      | some (.string b, _) => .ok (some b)
      | some _ => .error .wrongType, db) := by
  rw [DB.view]
  rcases Slot.view_cases c t (Slot.of db key) with ⟨hnone, hview⟩ | ⟨item, hitem, hstr, hview⟩ |
      ⟨item, v, hitem, hstr, hv, hview⟩
  · rw [hview, getString_of_none hnone]
  · rw [hview, getString_of_some hitem, if_pos hstr]
    rfl
  · rw [hview, getString_of_some hitem, if_neg hstr]
    cases v with
    | string b => exact absurd hv.symm hstr
    | _ => rfl

/-- The loop of MGET copies the user entries without looking at the types. -/
theorem getStrings_run (keys : List Bytes) :
    (getStrings t keys).run db =
      (.ok (keys.map fun k => (db.getLive t (userKey k)).bind Entry.valueCopy), db) := by
  induction keys with
  | nil => rfl
  | cons key rest ih =>
    rw [getStrings, Txn.run_bind_ok (txnGet_run db _ _), Txn.run_bind_ok ih]
    rfl

/-- The loop of EXISTS counts a key as often as it is listed. -/
theorem existsLoop_run (keys : List Bytes) (count : Nat) :
    (existsLoop t keys count).run db =
      (.ok (count + keys.countP fun k => (db.getLive t (userKey k)).isSome), db) := by
  induction keys generalizing count with
  | nil => rfl
  | cons key rest ih =>
    have hread : (txnGet t (userKey key) : Tx (Option Entry)).run db =
        (.ok (db.getLive t (userKey key)), db) := rfl
    rw [existsLoop, Txn.run_bind_ok hread, List.countP_cons]
    cases hget : db.getLive t (userKey key) with
    | none => exact ih count
    | some item =>
      have hrun := ih (count + 1)
      rw [Nat.add_right_comm] at hrun
      exact hrun

/-- The reading part of the aggregate reads: a live key has to hold the right type and bytes that
decode. -/
theorem readAs_run {α : Type} (want : Bytes) (decode : Bytes → Option α) :
    (readAs t key want decode).run db =
      match (db.get? (userKey key)).filter (Entry.live t) with
      | none => (.ok none, db)
      | some item =>
        if (Slot.of db key).typ t = want then
          match decode item.value with
          | none => (.error .decode, db)
          | some a => (.ok (some a), db)
        else (.error .wrongType, db) := by
  rw [readAs, Txn.run_bind_ok (txnGet_run db _ _)]
  cases (db.get? (userKey key)).filter (Entry.live t) with
  | none => rfl
  | some item =>
    have htyp := ensureExistingType_run key db t want
    by_cases h : (Slot.of db key).typ t = want
    · rw [if_pos h] at htyp
      simp only [Txn.run_bind_ok htyp, if_pos h]
      cases decode item.value <;> rfl
    · rw [if_neg h] at htyp
      simp only [Txn.run_bind_error htyp, if_neg h]

theorem readAs_of_none {α : Type} {want : Bytes} {decode : Bytes → Option α}
    (hview : DB.view c t db key = none) : (readAs t key want decode).run db = (.ok none, db) := by
  have hget : (db.get? (userKey key)).filter (Entry.live t) = none :=
    Option.map_eq_none_iff.mp hview
  rw [readAs_run, hget]

/-- The reading part of the aggregate reads, by what the key holds. -/
theorem readAs_of_view {α : Type} {want : Bytes} {decode : Bytes → Option α}
    {as : Value → Except Err α} (has : ReadsAs c as want decode) {v : Value} {exp : UInt64}
    (hview : DB.view c t db key = some (v, exp)) {a : α} (hv : as v = .ok a) :
    (readAs t key want decode).run db = (.ok (some a), db) := by
  obtain ⟨item, hitem, heq⟩ := Option.map_eq_some_iff.mp hview
  have hget : (db.get? (userKey key)).filter (Entry.live t) = some item := hitem
  have hread := has ((Slot.of db key).typ t) item.value
  rw [(Prod.mk.inj heq).1, hv] at hread
  rw [readAs_run, hget]
  by_cases htyp : (Slot.of db key).typ t = want
  · rw [if_pos htyp] at hread
    cases hdec : decode item.value with
    | none =>
      rw [hdec] at hread
      cases hread
    | some b =>
      rw [hdec] at hread
      cases hread
      simp only [if_pos htyp, hdec]
  · rw [if_neg htyp] at hread
    cases hread

/-- For an aggregate that is absent when it is empty. -/
theorem readAs_unless {α : Type} {want : Bytes} {decode : Bytes → Option α}
    {as : Value → Except Err α} (has : ReadsAs c as want decode) {empty : Prop} [Decidable empty]
    {v : Value} {exp : UInt64} {a : α} (hv : as v = .ok a)
    (hview : DB.view c t db key = if empty then none else some (v, exp)) :
    (readAs t key want decode).run db = (.ok (if empty then none else some a), db) := by
  split_ifs at hview ⊢
  · exact readAs_of_none c t key db hview
  · exact readAs_of_view c t key db has hview hv

/-- The key holds what a read of a set refuses: another type, or bytes that do not decode. -/
def DB.RefusesSet (db : DB) : Prop :=
  ∃ item, (db.get? (userKey key)).filter (Entry.live t) = some item ∧
    ((Slot.of db key).typ t = typeSet → c.decodeStrings item.value = none)

/-- The key holds a set with a member. -/
def DB.HoldsMember (db : DB) : Prop :=
  ∃ item m rest, (db.get? (userKey key)).filter (Entry.live t) = some item ∧
    (Slot.of db key).typ t = typeSet ∧ c.decodeStrings item.value = some (m :: rest)

/-- `FSM.SIsMember` fails only at a key that holds no set, and never panics. -/
theorem sIsMember_error (member : Bytes) {e : Err} :
    ((sIsMember c t key member).run db).1 = .error e → e ≠ .panic ∧ DB.RefusesSet c t key db := by
  intro h
  rw [sIsMember, Txn.run_bind, readAs_run] at h
  cases hget : (db.get? (userKey key)).filter (Entry.live t) with
  | none =>
    rw [hget] at h
    cases h
  | some item =>
    simp only [hget] at h
    by_cases htyp : (Slot.of db key).typ t = typeSet
    · rw [if_pos htyp] at h
      cases hdec : c.decodeStrings item.value with
      | none =>
        rw [hdec] at h
        cases h
        exact ⟨by decide, item, hget, fun _ => hdec⟩
      | some members =>
        rw [hdec] at h
        cases h
    · rw [if_neg htyp] at h
      cases h
      exact ⟨by decide, item, hget, fun h' => absurd h' htyp⟩

theorem sIsMember_of_refuses (member : Bytes) (h : DB.RefusesSet c t key db) :
    ∃ e, e ≠ .panic ∧ ((sIsMember c t key member).run db).1 = .error e := by
  obtain ⟨item, hget, hdec⟩ := h
  rw [sIsMember, Txn.run_bind, readAs_run, hget]
  by_cases htyp : (Slot.of db key).typ t = typeSet
  · refine ⟨.decode, by decide, ?_⟩
    simp only [if_pos htyp, hdec htyp]
  · refine ⟨.wrongType, by decide, ?_⟩
    simp only [if_neg htyp]

end Reading

/-! ## Bounds -/

/-- No run of a read ends in a panic. -/
abbrev NoPanic {α : Type} (m : Tx α) : Prop := Txn.Raises (fun e => e ≠ Err.panic) m

section Bounds

variable (c : Codec) (t : Nat) (key : Bytes)

theorem ensureExistingType_noPanic (want : Bytes) : NoPanic (ensureExistingType t key want) := by
  intro db e h
  rw [ensureExistingType_run] at h
  split_ifs at h
  cases h
  decide

theorem getString_noPanic : NoPanic (getString t key) := by
  refine Txn.Raises.bind (Txn.raises_reads _) fun item => ?_
  cases item with
  | none => exact Txn.raises_pure _
  | some item => exact (ensureExistingType_noPanic t key _).bind fun _ => Txn.raises_pure _

theorem fsmType_noPanic : NoPanic (fsmType t key) := by
  refine Txn.Raises.bind (Txn.raises_reads _) fun item => ?_
  cases item with
  | none => exact Txn.raises_pure _
  | some item =>
    refine Txn.Raises.bind (Txn.raises_reads _) fun item => ?_
    cases item <;> exact Txn.raises_pure _

theorem getStrings_noPanic (keys : List Bytes) : NoPanic (getStrings t keys) := by
  induction keys with
  | nil => exact Txn.raises_pure _
  | cons key rest ih =>
    exact Txn.Raises.bind (Txn.raises_reads _) fun _ => ih.bind fun _ => Txn.raises_pure _

theorem existsLoop_noPanic (keys : List Bytes) (count : Nat) :
    NoPanic (existsLoop t keys count) := by
  induction keys generalizing count with
  | nil => exact Txn.raises_pure _
  | cons key rest ih =>
    refine Txn.Raises.bind (Txn.raises_reads _) fun item => ?_
    cases item with
    | none => exact ih count
    | some _ => exact ih (count + 1)

theorem timeToLive_noPanic (unit : Int → Int) : NoPanic (timeToLive unit t key) := by
  refine Txn.Raises.bind (Txn.raises_reads _) fun item => ?_
  cases item with
  | none => exact Txn.raises_pure _
  | some item =>
    dsimp only
    split_ifs <;> exact Txn.raises_pure _

theorem strLen_noPanic : NoPanic (strLen t key) :=
  (getString_noPanic t key).bind fun _ => Txn.raises_pure _

theorem readAs_noPanic {α : Type} (want : Bytes) (decode : Bytes → Option α) :
    NoPanic (readAs t key want decode) := by
  refine Txn.Raises.bind (Txn.raises_reads _) fun item => ?_
  cases item with
  | none => exact Txn.raises_pure _
  | some item =>
    refine (ensureExistingType_noPanic t key want).bind fun _ => ?_
    split
    · exact Txn.raises_throw (by decide)
    · exact Txn.raises_pure _

theorem hGetAll_noPanic : NoPanic (hGetAll c t key) :=
  (readAs_noPanic t key _ _).bind fun _ => Txn.raises_pure _

theorem sMembers_noPanic : NoPanic (sMembers c t key) :=
  (readAs_noPanic t key _ _).bind fun _ => Txn.raises_pure _

theorem lRange_noPanic (start stop : Int) : NoPanic (lRange c t key start stop) := by
  refine (readAs_noPanic t key _ _).bind fun list => ?_
  rw [sliceListChecked_eq]
  exact Txn.raises_pure _

theorem lLen_noPanic : NoPanic (lLen c t key) :=
  (lRange_noPanic c t key 0 (-1)).bind fun _ => Txn.raises_pure _

theorem lIndex_noPanic (index : Int) : NoPanic (lIndex c t key index) := by
  refine (lRange_noPanic c t key 0 (-1)).bind fun list => ?_
  dsimp only
  generalize (if index < 0 then (list.length : Int) + index else index) = i
  split_ifs with hrange
  · exact Txn.raises_pure _
  · refine Txn.Raises.bind (Txn.raises_lift ?_) fun _ => Txn.raises_pure _
    obtain ⟨a, -, ha⟩ := goIndex_of_range (l := list) (i := i) (by omega)
    intro e he
    rw [ha] at he
    cases he

/-- The only error of a pattern is that it is bad. -/
theorem globStar_error {rest : Bytes → Except Err Bool} {text : Bytes} {e : Err}
    (hrest : ∀ text e, rest text = .error e → e = .badPattern) (h : globStar rest text = .error e) :
    e = .badPattern := by
  fun_induction globStar rest text with
  | case1 => exact hrest _ _ h
  | case2 c text hfalse ih => exact ih h
  | case3 c text hr => exact hrest _ _ h

/-- A pattern is bad, and nothing else is wrong. -/
theorem globFrom_error {fuel : Nat} {pattern text : Bytes} {e : Err}
    (h : globFrom fuel pattern text = .error e) : e = .badPattern := by
  induction fuel generalizing pattern text e with
  | zero => cases h
  | succ fuel ih =>
    cases pattern with
    | nil => cases h
    | cons p pattern =>
      by_cases hstar : p = 42
      · subst hstar
        rw [globFrom_star] at h
        split_ifs at h
        exact globStar_error (fun text e => ih) h
      by_cases hany : p = 63
      · subst hany
        rw [globFrom_any] at h
        split at h
        · cases h
        · exact ih h
      by_cases hclass : p = 91
      · subst hclass
        rw [globFrom_class] at h
        split at h
        · cases h
          rfl
        · cases h
        · dsimp only at h
          split_ifs at h
          · exact ih h
          · exact ih h
      · rw [globFrom_byte _ _ _ hstar hany hclass] at h
        split at h
        · cases h
          rfl
        · cases h
        · split_ifs at h
          exact ih h

theorem keysLoop_error {pattern : Bytes} {items : List (Bytes × Entry)} {e : Err}
    (h : keysLoop pattern items = .error e) : e = .badPattern := by
  induction items generalizing e with
  | nil => cases h
  | cons item rest ih =>
    rw [keysLoop] at h
    dsimp only [bind, Except.bind] at h
    cases hglob : redisGlobMatch pattern (item.1.drop 1) with
    | error e' =>
      rw [hglob] at h
      cases h
      exact globFrom_error hglob
    | ok matched =>
      cases hrest : keysLoop pattern rest with
      | error e' =>
        rw [hglob, hrest] at h
        cases h
        exact ih hrest
      | ok keys =>
        rw [hglob, hrest] at h
        cases h

/-- `FSM.Keys` does not panic, also with every index of the matcher checked. -/
theorem fsmKeysChecked_noPanic (pattern : Bytes) : NoPanic (fsmKeysChecked t pattern) := by
  intro db e h
  rw [fsmKeysChecked_run] at h
  have hrun : (keysLoop pattern (db.scanPrefix t [75])) = .error e := h
  rw [keysLoop_error hrun]
  decide

/-! ### SRANDMEMBER -/

/-- The loop runs to its end when the length can be allocated. -/
theorem repeatMembers_ok {members : List Bytes} (hmembers : members ≠ []) {count : Int64}
    (hcount : 0 ≤ (-count).toInt ∧ (-count).toInt ≤ maxStrings) :
    ∃ res, repeatMembers members count = .ok res := by
  have hcast : (-count).toInt = ((-count).toInt.toNat : Int) := by omega
  have hle : (-count).toInt.toNat ≤ maxStrings := by omega
  have hpos : 0 < members.length := List.length_pos_iff.mpr hmembers
  have hget : ∀ i : Nat, i < (-count).toInt.toNat →
      goIndex members (i % members.length : Nat) = .ok (members.getD (i % members.length) []) := by
    intro i _
    have hi : i % members.length < members.length := Nat.mod_lt _ hpos
    refine goIndex_natCast ?_
    rw [List.getD_eq_getElem?_getD, List.getElem?_eq_getElem hi]
    rfl
  unfold repeatMembers
  rw [hcast, Slice.make_natCast _ _ hle]
  dsimp only [bind, Except.bind]
  rw [List.length_replicate]
  exact ⟨_, Slice.fill_range hget []⟩

/-- A length that cannot be allocated is the one error of the loop. -/
theorem repeatMembers_of_not {members : List Bytes} {count : Int64}
    (hcount : ¬ (0 ≤ (-count).toInt ∧ (-count).toInt ≤ maxStrings)) :
    repeatMembers members count = .error .panic := by
  have hmake : Slice.make Err.panic maxStrings ([] : Bytes) (-count).toInt = .error .panic :=
    if_neg hcount
  rw [repeatMembers, hmake]
  rfl

/-- With a member at hand, the only failure of the loop with repetitions is that of `make`. -/
theorem repeatMembers_error {members : List Bytes} (hmembers : members ≠ []) {count : Int64}
    {e : Err} (h : repeatMembers members count = .error e) : e = .panic := by
  by_cases hcount : 0 ≤ (-count).toInt ∧ (-count).toInt ≤ maxStrings
  · obtain ⟨res, hres⟩ := repeatMembers_ok hmembers hcount
    rw [hres] at h
    cases h
  · rw [repeatMembers_of_not hcount] at h
    cases h
    rfl

/-- The negation of a negative count is a length `make` takes, but for the counts below the
interval: the least integer has a negative negation, the others ask for too much. -/
theorem neg_toInt_allocates_iff {count : Int64} (hneg : count < 0) :
    (0 ≤ (-count).toInt ∧ (-count).toInt ≤ maxStrings) ↔ -(maxStrings : Int) ≤ count.toInt := by
  have hlt : count.toInt < 0 := Int64.lt_iff_toInt_lt.mp hneg
  by_cases hmin : count = Int64.minValue
  · subst hmin
    decide
  · rw [toInt_neg_of_ne_minValue hmin]
    omega

theorem sMembers_run (db : DB) :
    (sMembers c t key).run db =
      match (db.get? (userKey key)).filter (Entry.live t) with
      | none => (.ok [], db)
      | some item =>
        if (Slot.of db key).typ t = typeSet then
          match c.decodeStrings item.value with
          | none => (.error .decode, db)
          | some members => (.ok members, db)
        else (.error .wrongType, db) := by
  rw [sMembers, Txn.run_bind, readAs_run]
  cases (db.get? (userKey key)).filter (Entry.live t) with
  | none => rfl
  | some item =>
    dsimp only
    split_ifs
    · cases c.decodeStrings item.value <;> rfl
    · rfl

/-- A read of the members finds one. -/
theorem holdsMember_iff (db : DB) :
    DB.HoldsMember c t key db ↔ ∃ m rest, (sMembers c t key).run db = (.ok (m :: rest), db) := by
  rw [sMembers_run]
  constructor
  · rintro ⟨item, m, rest, hget, htyp, hdec⟩
    refine ⟨m, rest, ?_⟩
    rw [hget]
    simp only [if_pos htyp, hdec]
  · rintro ⟨m, rest, h⟩
    cases hget : (db.get? (userKey key)).filter (Entry.live t) with
    | none =>
      rw [hget] at h
      cases h
    | some item =>
      simp only [hget] at h
      by_cases htyp : (Slot.of db key).typ t = typeSet
      · rw [if_pos htyp] at h
        cases hdec : c.decodeStrings item.value with
        | none =>
          rw [hdec] at h
          cases h
        | some members =>
          rw [hdec] at h
          cases h
          exact ⟨item, m, rest, hget, htyp, hdec⟩
      · rw [if_neg htyp] at h
        cases h

/-- `make` panics if and only if more strings are asked for than a slice can hold. -/
theorem repeatMembers_panic_iff {members : List Bytes} (hmembers : members ≠ []) {count : Int64}
    (hneg : count < 0) :
    repeatMembers members count = .error .panic ↔ count.toInt < -(maxStrings : Int) := by
  by_cases hcount : 0 ≤ (-count).toInt ∧ (-count).toInt ≤ maxStrings
  · obtain ⟨res, hres⟩ := repeatMembers_ok hmembers hcount
    rw [hres]
    exact iff_of_false nofun (not_lt.mpr ((neg_toInt_allocates_iff hneg).mp hcount))
  · have hlt := mt (neg_toInt_allocates_iff hneg).mpr hcount
    exact iff_of_true (repeatMembers_of_not hcount) (not_le.mp hlt)

/-- A count below the number of members is within the bounds of the slice. -/
theorem firstMembers_ok {members : List Bytes} {count : Int64} (hneg : ¬ count < 0)
    (hlt : ¬ (members.length : Int) ≤ count.toInt) :
    ∃ res, Slice.slice Err.panic members 0 count.toInt = .ok res := by
  have hnot : ¬ count.toInt < 0 := fun h => hneg (Int64.lt_iff_toInt_lt.mpr h)
  have hbounds : (0 : Int) ≤ 0 ∧ 0 ≤ count.toInt ∧ count.toInt ≤ members.length := by omega
  exact ⟨_, Slice.slice_eq_ok _ hbounds⟩

/-- SRANDMEMBER panics on a set with a member, for the counts whose negation no slice has as its
length. -/
theorem sRandMember_panic_iff (count : Option Int64) (db : DB) :
    ((sRandMember c t key count).run db).1 = .error .panic ↔
      (∃ n, count = some n ∧ n.toInt < -(maxStrings : Int)) ∧ DB.HoldsMember c t key db := by
  rw [holdsMember_iff]
  have hmembers := sMembers_noPanic c t key db
  have hdb : ((sMembers c t key).run db).2 = db := by
    rw [sMembers_run]
    repeat' split
    all_goals rfl
  rw [sRandMember, Txn.run_bind]
  revert hmembers hdb
  generalize (sMembers c t key).run db = out
  obtain ⟨r, db'⟩ := out
  rintro hmembers rfl
  cases r with
  | error e =>
    have he : e ≠ .panic := hmembers e rfl
    refine iff_of_false (fun h => he (Except.error.inj h)) ?_
    rintro ⟨-, m, rest, h⟩
    cases h
  | ok members =>
    cases count with
    | none => exact iff_of_false nofun fun ⟨⟨_, h, _⟩, _⟩ => nomatch h
    | some count =>
      dsimp only
      have hsome : (∃ n, some count = some n ∧ n.toInt < -(maxStrings : Int)) ↔
          count.toInt < -(maxStrings : Int) := by
        simp only [Option.some_inj, exists_eq_left']
      rw [hsome]
      by_cases hneg : count < 0
      · rw [if_pos hneg]
        cases members with
        | nil => exact iff_of_false nofun fun ⟨_, _, _, h⟩ => nomatch h
        | cons m rest =>
          rw [if_neg (by simp)]
          have hpanic := repeatMembers_panic_iff (List.cons_ne_nil m rest) hneg
          exact hpanic.trans (and_iff_left ⟨m, rest, rfl⟩).symm
      · rw [if_neg hneg]
        have hnonneg : ¬ count.toInt < 0 := fun h => hneg (Int64.lt_iff_toInt_lt.mpr h)
        refine iff_of_false ?_ fun h => hnonneg (by omega)
        split_ifs with hle
        · exact nofun
        · obtain ⟨res, hres⟩ := firstMembers_ok hneg hle
          rw [hres]
          exact nofun

end Bounds

end Badis
