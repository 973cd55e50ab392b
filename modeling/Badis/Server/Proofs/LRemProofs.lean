import Badis.Server.ListSpec
import Badis.Server.Proofs.SessionProofs

/-!
# LREM

The loops of LREM remove the first or the last occurrences, as many as the count allows
(`lremLoop_eq`). The count that cannot be negated allows none (`lremLoop_least`), so the request is
exact for every other one (`lrem_exact_iff`).
-/

namespace Badis

open Lib

/-! ## The loops -/

theorem foldl_snoc (l kept : List Bytes) :
    l.foldl (fun kept v => kept ++ [v]) kept = kept ++ l := by
  induction l generalizing kept with
  | nil => simp
  | cons v l ih => rw [List.foldl_cons, ih, List.append_assoc, List.singleton_append]

theorem foldl_push (l kept : List Bytes) :
    l.foldl (fun kept v => v :: kept) kept = l.reverse ++ kept := by
  induction l generalizing kept with
  | nil => rfl
  | cons v l ih =>
    rw [List.foldl_cons, ih, List.reverse_cons, List.append_assoc, List.singleton_append]

/-- The forward loop, with a limit or without one. -/
theorem lremLoop_forward {limit : Int64} (h : 0 ≤ limit) (x : Bytes) (l : List Bytes) :
    lremLoop limit x l = (lremRest l x limit.toInt, lremCount l x limit.toInt) := by
  have hnonneg : 0 ≤ limit.toInt := Int64.le_iff_toInt_le.mp h
  have hzero : limit = 0 ↔ limit.toInt = 0 := (Int64.toInt_inj (y := 0)).symm
  have hloop := foldl_removing (x := x) (l := l) (fun kept v => kept ++ [v])
    (fun count => limit = 0 ∨ (count : Int) < limit.toInt) (n := lremCount l x limit.toInt) [] 0 ?_
  · rw [lremLoop, if_pos h, lremRest, if_pos hnonneg]
    refine hloop.trans ?_
    rw [foldl_snoc, List.nil_append, Nat.sub_zero, Nat.zero_add]
    congr 1
    unfold lremCount
    split_ifs <;> omega
  · intro j _ hj
    rw [hzero, lremCount]
    split_ifs with hlimit <;> omega

/-- The backward loop, which reads the negated limit. -/
theorem lremLoop_backward {limit : Int64} (h : ¬ 0 ≤ limit) (x : Bytes) (l : List Bytes) :
    lremLoop limit x l =
      (removeLast x (-limit).toInt.toNat l, min (l.count x) (-limit).toInt.toNat) := by
  have hloop := foldl_removing (x := x) (l := l.reverse) (fun kept v => v :: kept)
    (fun count => (count : Int) < (-limit).toInt) (n := (-limit).toInt.toNat) ([] : List Bytes) 0
    (fun j _ _ => by omega)
  rw [lremLoop, if_neg h]
  refine hloop.trans ?_
  rw [foldl_push, List.append_nil, Nat.sub_zero, Nat.zero_add, List.count_reverse]
  rfl

/-- The least count is its own negation, so that the backward loop removes nothing. -/
theorem lremLoop_least (x : Bytes) (l : List Bytes) : lremLoop Int64.minValue x l = (l, 0) := by
  have hneg : (-Int64.minValue).toInt.toNat = 0 := by decide
  rw [lremLoop_backward (by decide), hneg, Nat.min_zero, removeLast, removeFirst_zero,
    List.reverse_reverse]

theorem lremLoop_eq {limit : Int64} {x : Bytes} {l : List Bytes}
    (h : limit ≠ Int64.minValue ∨ x ∉ l) :
    lremLoop limit x l = (lremRest l x limit.toInt, lremCount l x limit.toInt) := by
  by_cases hsign : 0 ≤ limit
  · exact lremLoop_forward hsign x l
  · have hneg : limit.toInt < 0 := by
      rw [Int64.le_iff_toInt_le] at hsign
      exact not_le.mp hsign
    by_cases hleast : limit = Int64.minValue
    · have hnone : l.count x = 0 := List.count_eq_zero.mpr (h.resolve_left (not_not.mpr hleast))
      have hcount : lremCount l x limit.toInt = 0 := by
        rw [lremCount, hnone, Nat.zero_min, ite_self]
      rw [hleast, lremLoop_least, ← hleast, lremRest, if_neg (not_le.mpr hneg), hcount, removeLast,
        removeFirst_zero, List.reverse_reverse]
    · have hnegate : (-limit).toInt = -limit.toInt := toInt_neg_of_ne_minValue hleast
      have hcount : min (l.count x) (-limit).toInt.toNat = lremCount l x limit.toInt := by
        rw [lremCount, if_neg hneg.ne, hnegate]
        omega
      rw [lremLoop_backward hsign, lremRest, if_neg (not_le.mpr hneg), ← hcount]
      refine Prod.ext ?_ rfl
      show removeLast x _ l = removeLast x _ l
      rw [removeLast, removeLast, ← List.count_reverse, removeFirst_min]

/-! ## The request -/

/-- The command reads the list, whatever its expiry, and puts back what the loop keeps. -/
theorem planLRem_holdsList {c : Codec} {env : Env} {l : List Bytes} {s : Slot}
    (h : HoldsList c env.clock.now l s) (key x : Bytes) (count : Numeral) :
    ∃ ttlMs, plan env { op := .lrem, key := key, args := [count.text, x] }
      (s.view c env.clock.now) =
      .ok (.int (lremLoop (parseInt count.text).1 x l).2,
        putList (lremLoop (parseInt count.text).1 x l).1 ttlMs) := by
  rcases h with ⟨hview, rfl⟩ | ⟨exp, hview⟩
  · exact ⟨0, by rw [hview]; rfl⟩
  · exact ⟨remainingTTLMs env exp, by rw [hview]; rfl⟩

theorem handleLRem_eq (srv : Server) (name key x : Bytes) (count : Numeral) :
    handleLRem srv [name, key, count.text, x] =
      applyCommand srv { op := .lrem, key := key, args := [count.text, x] } := by
  show (if (parseInt count.text).2 = false then _ else _) = _
  rw [count.accepted]
  rfl

section Request

variable (vm : LuaVM) (fuel : Nat) (envs : List Nat → Env) {srv : Server} (views : Nat → ReadView)
  (conn : Conn) {name : Bytes} (hname : srv.verb? name = some .lrem) {key x : Bytes} {db : DB}
  {l : List Bytes} (hheld : HoldsList srv.codec (envs []).clock.now l (Slot.of db key))
  (count : Numeral)

include hname hheld

/-- The reply to the request, and the entries it leaves. -/
theorem serveNode_lrem :
    ∃ ttlMs,
      (serveNode vm fuel envs srv views conn [name, key, count.text, x] db).1 =
        .ok [.int (lremLoop (parseInt count.text).1 x l).2] ∧
      Slot.of (serveNode vm fuel envs srv views conn [name, key, count.text, x] db).2 key =
        (putList (lremLoop (parseInt count.text).1 x l).1 ttlMs).onSlot srv.codec (envs [])
          (Slot.of db key) := by
  have hserve : serveRESP srv views conn [name, key, count.text, x] = _ :=
    (serveRESP_of_verb srv views conn name _ hname).trans (handleLRem_eq srv name key x count)
  obtain ⟨ttlMs, hplan⟩ := planLRem_holdsList hheld key x count
  refine ⟨ttlMs, ?_⟩
  rw [serveNode_of_command vm hserve rfl, applyCmd_eq_plan _ _ _ _ rfl]
  have hview : DB.view srv.codec (envs []).clock.now db key =
    (Slot.of db key).view srv.codec (envs []).clock.now := rfl
  dsimp only
  rw [hview, hplan]
  exact ⟨rfl, Slot.of_setSlot _ _ _⟩

/-- LREM removes as many occurrences as its count asks for, from the end it asks for, unless the
count is the least integer and there is something to remove. -/
theorem lrem_exact_iff (hc : srv.codec.Lawful) :
    RemovesExactly srv.codec l x count.value
        (serveNode vm fuel envs srv views conn [name, key, count.text, x] db).1
        (Slot.of (serveNode vm fuel envs srv views conn [name, key, count.text, x] db).2 key) ↔
      (count.value ≠ -2 ^ 63 ∨ x ∉ l) := by
  obtain ⟨ttlMs, hreply, hslot⟩ := serveNode_lrem vm fuel envs views conn hname hheld count (x := x)
  have hleast : count.value = -2 ^ 63 ↔ (parseInt count.text).1 = Int64.minValue :=
    Int64.toInt_inj (y := Int64.minValue)
  rw [hreply, hslot]
  constructor
  · intro hexact
    by_contra hbad
    obtain ⟨hvalue, hmem⟩ := not_or.mp hbad
    -- the loop finds nothing to remove, and the reply should be positive
    have hreply := hexact.reply
    rw [hleast.mp (not_not.mp hvalue), lremLoop_least] at hreply
    have hpos := List.count_pos_iff.mpr (not_not.mp hmem)
    have hcount : (lremCount l x count.value : Int) = 0 := by
      simpa using (Except.ok.inj hreply).symm
    rw [not_not.mp hvalue, lremCount, if_neg (by decide)] at hcount
    omega
  · intro hgood
    have hloop : lremLoop (parseInt count.text).1 x l =
        (lremRest l x count.value, lremCount l x count.value) :=
      lremLoop_eq (hgood.imp_left fun hne heq => hne (hleast.mpr heq))
    rw [hloop]
    by_cases hrest : lremRest l x count.value = []
    · rw [putList, if_pos hrest]
      exact ⟨rfl, fun hne => absurd hrest hne, fun _ => hrest, fun _ => rfl⟩
    · rw [putList, if_neg hrest, KeyAct.onSlot, withTTLMs_newEntry, withTTLMs_newEntry]
      refine ⟨rfl, fun _ => ⟨_, _, rfl, rfl, hc.decodeStrings_encodeStrings _⟩, ?_, ?_⟩
      · intro heq
        cases heq
      · intro hnil
        exact absurd hnil hrest

end Request

/-- A list that holds an element twice. -/
def twiceStored : DB :=
  storeAfter { op := .rpush, key := ascii "l", args := [ascii "a", ascii "b", ascii "a"] }

theorem holdsList_twiceStored :
    HoldsList msgpack 1000000000000 [ascii "a", ascii "b", ascii "a"]
      (Slot.of twiceStored (ascii "l")) :=
  Or.inr ⟨0, by decide⟩

/-- `LREM l -1 a` removes the last occurrence. -/
theorem lrem_last_exact :
    lremRest [ascii "a", ascii "b", ascii "a"] (ascii "a") (-1) = [ascii "a", ascii "b"] ∧
    RemovesExactly msgpack [ascii "a", ascii "b", ascii "a"] (ascii "a") (-1)
      (serveNode noScripts 0 (fun _ => Env.at 1000000000000) asciiServer (viewOf twiceStored)
        newConn
        [ascii "LREM", ascii "l", ascii "-1", ascii "a"] twiceStored).1
      (Slot.of (serveNode noScripts 0 (fun _ => Env.at 1000000000000) asciiServer
        (viewOf twiceStored) newConn
        [ascii "LREM", ascii "l", ascii "-1", ascii "a"] twiceStored).2 (ascii "l")) := by
  have hname : asciiServer.verb? (ascii "LREM") = some .lrem := rfl
  have hexact :=
    lrem_exact_iff noScripts 0 (fun _ => Env.at 1000000000000) (viewOf twiceStored) newConn hname
    holdsList_twiceStored ⟨ascii "-1", rfl⟩ msgpack_lawful (x := ascii "a")
  exact ⟨by decide, hexact.mpr (Or.inl (by decide))⟩

/-- `LREM l -9223372036854775808 a` replies that nothing was removed. -/
theorem lrem_least_removes_nothing :
    HoldsList msgpack 1000000000000 [ascii "a", ascii "b", ascii "a"]
      (Slot.of twiceStored (ascii "l")) ∧
    lremCount [ascii "a", ascii "b", ascii "a"] (ascii "a") (-9223372036854775808) = 2 ∧
    serveNode noScripts 0 (fun _ => Env.at 1000000000000) asciiServer (viewOf twiceStored) newConn
        [ascii "LREM", ascii "l", ascii "-9223372036854775808", ascii "a"] twiceStored =
      (.ok [.int 0], twiceStored) :=
  ⟨holdsList_twiceStored, by decide, rfl⟩

end Badis
