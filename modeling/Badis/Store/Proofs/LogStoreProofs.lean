import Mathlib.Data.Set.Finite.Lemmas
import Badis.Store.LogStore
import Badis.Store.Proofs.IsolationProofs

/-!
# The log store refines a finite map

`LogRefines` ties the database to the map: under every log key lies the encoding of the map's entry,
and no other key can be mistaken for one of the log. Every call keeps it (`LogRefines.run`), and
under it the answers are those of the map (`LogRefines.answers`): big-endian keys sort as their
indices, so the two cursors stop at the least and the greatest index. `DeleteRange` comes first: it
deletes its range if one transaction takes the deletions, and nothing otherwise. A range that ends
with the greatest index, at which the counter wraps, never fits.
-/

namespace Badis

open Lib

/-! ## Log keys -/

/-- Indices are stored big-endian, so that keys are ordered as their indices are. -/
theorem logKey_lt_iff (i j : UInt64) : logKey i < logKey j ↔ i < j := by
  have hi : i.toNat < 256 ^ 8 := i.toNat_lt
  have hj : j.toNat < 256 ^ 8 := j.toNat_lt
  rw [logKey, logKey, List.cons_lt_cons_iff, bigEndian_lt_iff hi hj, UInt64.lt_iff_toNat_lt]
  simp

theorem logKey_le_iff (i j : UInt64) : logKey i ≤ logKey j ↔ i ≤ j := by
  rw [← not_lt, ← not_lt, logKey_lt_iff]

theorem logKey_inj {i j : UInt64} : logKey i = logKey j ↔ i = j := by
  rw [le_antisymm_iff, le_antisymm_iff, logKey_le_iff, logKey_le_iff]

/-- The index is read back from the key. -/
theorem indexAt_logKey (i : UInt64) (e : Entry) : indexAt (some (logKey i, e)) = .ok i := by
  have hpre : ([76] : Bytes).isPrefixOf (logKey i) = true := isPrefixOf_log_iff.mpr rfl
  have hdrop : (logKey i).drop 1 = bigEndian 8 i.toNat := rfl
  have htake : (bigEndian 8 i.toNat).take 8 = bigEndian 8 i.toNat :=
    List.take_of_length_le (length_bigEndian 8 _).le
  have hi : i.toNat < 256 ^ 8 := i.toNat_lt
  simp only [indexAt, if_pos hpre, hdrop, readUint64, length_bigEndian, le_refl, if_true, htake,
    fromBigEndian_bigEndian hi, UInt64.ofNat_toNat]

/-! ## `DeleteRange` -/

section DeleteRange

variable {i max : UInt64}

/-- The counter does not wrap below the greatest index. -/
theorem toNat_succ_of_le (hmax : max.toNat < 2 ^ 64 - 1) (hi : i ≤ max) :
    (i + 1).toNat = i.toNat + 1 := by
  have hi' : i.toNat ≤ max.toNat := UInt64.le_iff_toNat_le.mp hi
  have hone : (1 : UInt64).toNat = 1 := rfl
  rw [UInt64.toNat_add]
  exact Nat.mod_eq_of_lt (by omega)

/-- The first round deletes `i`, the others what is left of the range. -/
theorem mem_range_iff (hmax : max.toNat < 2 ^ 64 - 1) (hi : i ≤ max) (j : UInt64) :
    i ≤ j ∧ j ≤ max ↔ j = i ∨ (i + 1 ≤ j ∧ j ≤ max) := by
  rw [← UInt64.toNat_inj, UInt64.le_iff_toNat_le, UInt64.le_iff_toNat_le, UInt64.le_iff_toNat_le,
    toNat_succ_of_le hmax hi]
  have hi' : i.toNat ≤ max.toNat := UInt64.le_iff_toNat_le.mp hi
  omega

/-- Every index is at most the greatest one. -/
theorem le_greatest (i : UInt64) : i ≤ 18446744073709551615 := by
  rw [UInt64.le_iff_toNat_le]
  exact Nat.le_pred_of_lt i.toNat_lt

theorem lt_greatest (hne : max ≠ 18446744073709551615) : max.toNat < 2 ^ 64 - 1 := by
  have hlt := max.toNat_lt
  have hne' : max.toNat ≠ 2 ^ 64 - 1 := fun heq => hne (UInt64.toNat_inj.mp heq)
  omega

variable (lim : TxnLimit)

/-- All keys of the log have one length, so that each deletion costs the same. -/
theorem cost_logKey (i : UInt64) : lim.cost (logKey i) [] = lim.cost (logKey 0) [] := by
  have hlen : ∀ j, (logKey j).length = 9 :=
    fun j => by rw [logKey, List.length_cons, length_bigEndian]
  rw [TxnLimit.cost, TxnLimit.cost, hlen, hlen]

variable {lim} {count size : Nat}

/-- A loop that comes to its end got there by deletions of indices in the range. -/
theorem deleteLoop_induct {P : UInt64 → DB → DB → Prop} (hdone : ∀ i db, max < i → P i db db)
    (hstep : ∀ i db db', i ≤ max → P (i + 1) (db.erase (logKey i)) db' → P i db db') {db db' : DB}
    (h : deleteLoop lim count size i max db = .ok db') : P i db db' := by
  induction count generalizing size i db with
  | zero =>
    unfold deleteLoop at h
    split_ifs at h with hi
    cases h
    exact hdone i _ (not_le.mp hi)
  | succ count ih =>
    unfold deleteLoop at h
    split_ifs at h with hi
    · exact hstep i db db' hi (ih h)
    · cases h
      exact hdone i _ (not_le.mp hi)

/-- Badger takes the deletions of the range from `i` on, in number and in bytes. With the greatest
index at its end there is no last deletion. -/
def LoopFits (lim : TxnLimit) (count size : Nat) (i max : UInt64) : Prop :=
  max < i ∨ max ≠ 18446744073709551615 ∧ max.toNat + 1 - i.toNat ≤ count ∧
    (max.toNat + 1 - i.toNat) * lim.cost (logKey 0) [] < size

/-- The first deletion is taken and the others fit into what it leaves. -/
theorem loopFits_succ (hi : i ≤ max) :
    LoopFits lim (count + 1) size i max ↔ lim.cost (logKey 0) [] < size ∧
      LoopFits lim count (size - lim.cost (logKey 0) []) (i + 1) max := by
  have hnot : ¬ max < i := not_lt.mpr hi
  by_cases hne : max = 18446744073709551615
  · have hnot' : ¬ max < i + 1 := not_lt.mpr (hne ▸ le_greatest (i + 1))
    simp only [LoopFits, hne, ne_eq, not_true_eq_false, false_and, or_false] at hnot hnot' ⊢
    exact iff_of_false hnot fun h => hnot' h.2
  · have hsucc := toNat_succ_of_le (lt_greatest hne) hi
    have hi' : i.toNat ≤ max.toNat := UInt64.le_iff_toNat_le.mp hi
    obtain ⟨n, hn⟩ : ∃ n, max.toNat + 1 - i.toNat = n + 1 := ⟨max.toNat - i.toNat, by omega⟩
    have hn' : max.toNat + 1 - (i + 1).toNat = n := by omega
    have hend : max < i + 1 ↔ n = 0 := by rw [UInt64.lt_iff_toNat_lt]; omega
    simp only [LoopFits, hnot, false_or, hn, hn', hend, ne_eq, hne, not_false_eq_true, true_and,
      Nat.add_le_add_iff_right, Nat.add_mul, Nat.one_mul]
    rcases Nat.eq_zero_or_pos n with rfl | hpos
    · simp
    · omega

/-- The loop comes to its end if the deletions fit, and is refused one of them otherwise. -/
theorem deleteLoop_cases (lim : TxnLimit) (count size : Nat) (i max : UInt64) (db : DB) :
    (LoopFits lim count size i max ∧ ∃ db', deleteLoop lim count size i max db = .ok db') ∨
      ¬ LoopFits lim count size i max ∧ deleteLoop lim count size i max db = .error .txnTooBig := by
  induction count generalizing size i db with
  | zero =>
    unfold deleteLoop
    split_ifs with hi
    · refine Or.inr ⟨?_, rfl⟩
      rintro (hlt | ⟨-, hle, -⟩)
      · exact not_lt.mpr hi hlt
      · have hi' : i.toNat ≤ max.toNat := UInt64.le_iff_toNat_le.mp hi
        omega
    · exact Or.inl ⟨Or.inl (not_le.mp hi), db, rfl⟩
  | succ count ih =>
    unfold deleteLoop
    split_ifs with hi hcost
    · rw [loopFits_succ hi]
      rw [cost_logKey] at hcost ⊢
      rcases ih (size - lim.cost (logKey 0) []) (i + 1) (db.erase (logKey i)) with hok | herr
      · exact Or.inl ⟨⟨hcost, hok.1⟩, hok.2⟩
      · exact Or.inr ⟨fun h => herr.1 h.2, herr.2⟩
    · rw [loopFits_succ hi]
      rw [cost_logKey] at hcost
      exact Or.inr ⟨fun h => hcost h.1, rfl⟩
    · exact Or.inl ⟨Or.inl (not_le.mp hi), db, rfl⟩

/-- The loop fits into an empty transaction exactly if the range does. -/
theorem loopFits_iff (min : UInt64) :
    LoopFits lim lim.writes lim.bytes min max ↔ rangeFits lim min max = true := by
  simp [LoopFits, rangeFits, and_assoc]

variable (lim) (min max : UInt64) (db : DB)

/-- `DeleteRange` goes through its range, or reports that the transaction is too big and leaves the
database as it was. -/
theorem deleteRange_cases :
    (rangeFits lim min max = true ∧ ∃ db', deleteLoop lim lim.writes lim.bytes min max db =
      .ok db' ∧
      deleteRange lim min max db = (.ok (), db')) ∨
    rangeFits lim min max = false ∧ deleteRange lim min max db = (.error .txnTooBig, db) := by
  unfold deleteRange
  rcases deleteLoop_cases lim lim.writes lim.bytes min max db with ⟨hfits, db', hrun⟩ |
    ⟨hfits, hrun⟩
  · rw [hrun]
    exact Or.inl ⟨(loopFits_iff min).mp hfits, db', rfl, rfl⟩
  · rw [hrun]
    exact Or.inr ⟨Bool.eq_false_iff.mpr fun h => hfits ((loopFits_iff min).mpr h), rfl⟩

/-- A range that fits and is not empty does not end with the greatest index. -/
theorem lt_greatest_of_fits {lim : TxnLimit} {min max : UInt64}
    (hfits : rangeFits lim min max = true) (hle : min ≤ max) : max.toNat < 2 ^ 64 - 1 := by
  rcases (loopFits_iff min).mpr hfits with hlt | ⟨hne, -⟩
  · exact absurd hle (not_le.mpr hlt)
  · exact lt_greatest hne

variable {lim min max db}

/-- The loop removes the entries of the range and no others. -/
theorem deleteLoop_get? {db' : DB} (hmax : i ≤ max → max.toNat < 2 ^ 64 - 1)
    (h : deleteLoop lim count size i max db = .ok db') (j : UInt64) :
    db'.get? (logKey j) = if i ≤ j ∧ j ≤ max then none else db.get? (logKey j) := by
  refine deleteLoop_induct (P := fun i db db' => (i ≤ max → max.toNat < 2 ^ 64 - 1) →
    db'.get? (logKey j) = if i ≤ j ∧ j ≤ max then none else db.get? (logKey j)) ?_ ?_ h hmax
  · intro i db hi _
    rw [if_neg fun hj => not_lt.mpr (hj.1.trans hj.2) hi]
  · intro i db db' hi hrest hmax
    rw [hrest fun _ => hmax hi]
    by_cases hj : i + 1 ≤ j ∧ j ≤ max
    · rw [if_pos hj, if_pos ((mem_range_iff (hmax hi) hi j).mpr (Or.inr hj))]
    · rw [if_neg hj]
      by_cases hji : j = i
      · subst hji
        rw [OrdMap.get?_erase_self, if_pos ((mem_range_iff (hmax hi) hi j).mpr (Or.inl rfl))]
      · have hout : ¬ (i ≤ j ∧ j ≤ max) :=
          fun h => ((mem_range_iff (hmax hi) hi j).mp h).elim hji hj
        rw [if_neg hout, OrdMap.get?_erase_of_ne db fun hkey => hji (logKey_inj.mp hkey).symm]

/-- `GetLog` finds nothing in the range afterwards, and answers as before outside it. -/
def DeletesExactly (lc : LogCodec) (min max : UInt64) (db db' : DB) : Prop :=
  (∀ t i, getLog lc t i db' = if min ≤ i ∧ i ≤ max then .error .logNotFound else getLog lc t i db) ∧
    (max < min → db' = db)

theorem deletesExactly_of_fits (lc : LogCodec) {db' : DB} (hfits : rangeFits lim min max = true)
    (h : deleteLoop lim lim.writes lim.bytes min max db = .ok db') :
    DeletesExactly lc min max db db' := by
  constructor
  · intro t i
    simp only [getLog, DB.getLive, deleteLoop_get? (lt_greatest_of_fits hfits) h]
    split_ifs <;> rfl
  · refine deleteLoop_induct (P := fun i db db' => max < i → db' = db) (fun _ _ _ _ => rfl) ?_ h
    intro i db db' hi _ hlt
    exact absurd hi (not_le.mpr hlt)

variable (lim) (lc : LogCodec) (min max db)

/-- `DeleteRange` always returns, without an error if and only if one transaction takes its
deletions. It deletes its range, and nothing else, if and only if they fit or there is nothing to
delete. -/
theorem deleteRange_exact_iff :
    ((deleteRange lim min max db).1 = .ok () ↔ rangeFits lim min max = true) ∧
    (DeletesExactly lc min max db (deleteRange lim min max db).2 ↔
      rangeFits lim min max = true ∨
        ∀ t i, min ≤ i → i ≤ max → getLog lc t i db = .error .logNotFound) := by
  rcases deleteRange_cases lim min max db with ⟨hfits, db', hrun, heq⟩ | ⟨hfits, heq⟩
  · rw [heq, hfits]
    exact ⟨iff_of_true rfl rfl, iff_of_true (deletesExactly_of_fits lc hfits hrun) (Or.inl rfl)⟩
  · rw [heq, hfits]
    refine ⟨iff_of_false nofun nofun, ?_⟩
    constructor
    · rintro ⟨hgone, -⟩
      exact Or.inr fun t i hge hle => (hgone t i).trans (if_pos ⟨hge, hle⟩)
    · rintro (hno | hnone)
      · cases hno
      · refine ⟨fun t i => ?_, fun _ => rfl⟩
        split_ifs with hin
        · exact hnone t i hin.1 hin.2
        · rfl

/-- A log entry with one byte of data. -/
def sampleLog (index : UInt64) : RaftLog := ⟨index, 2, 0, ascii "x", [], 0⟩

/-- The msgpack map of a sample entry with an index below 128. -/
def sampleBytes (index : UInt64) : Bytes :=
  134 :: 170 :: ascii "AppendedAt" ++ 192 :: 164 :: ascii "Data" ++ 161 :: ascii "x" ++
    170 :: ascii "Extensions" ++ 192 :: 165 :: ascii "Index" ++ index.toUInt8 ::
    164 :: ascii "Term" ++ 2 :: 164 :: ascii "Type" ++ [0]

/-- The codec on two sample entries. -/
def sampleCodec : LogCodec where
  encode log :=
    if log = sampleLog 5 then some (sampleBytes 5)
    else if log = sampleLog 6 then some (sampleBytes 6) else none
  decode b :=
    if b = sampleBytes 5 then some (sampleLog 5)
    else if b = sampleBytes 6 then some (sampleLog 6) else none

theorem sampleCodec_lawful : sampleCodec.Lawful := by
  intro log b h
  unfold sampleCodec at h ⊢
  dsimp only at h ⊢
  split_ifs at h with h5 h6
  · cases h
    rw [h5, if_pos rfl]
  · cases h
    rw [h6, if_neg (by decide), if_pos rfl]

/-- With badger's own limits, `DeleteRange(1, 104856)` on a store with entry 5 fails and leaves the
entry. -/
theorem deleteRange_too_big :
    let db := (storeLogs TxnLimit.default sampleCodec [sampleLog 5] OrdMap.empty).2
    deleteRange TxnLimit.default 1 104856 db = (.error .txnTooBig, db) ∧
      getLog sampleCodec 0 5 db = .ok (sampleLog 5) := by
  intro db
  refine ⟨?_, by decide⟩
  rcases deleteRange_cases TxnLimit.default 1 104856 db with ⟨hfits, -⟩ | ⟨-, heq⟩
  · exact absurd hfits (by decide)
  · exact heq

end DeleteRange

/-! ## Calls that fail -/

section Outcome

variable {lim : TxnLimit} {lc : LogCodec} {op : LogOp}

theorem LogOp.store_of_ok (h : op.outcome lim lc = .ok ()) (m : LogMap) :
    op.store lim lc m = op.effect m := by
  rw [LogOp.store, h]

/-- A call that fails has no effect. -/
theorem LogOp.store_of_error {e : RaftErr} (h : op.outcome lim lc = .error e) (m : LogMap) :
    op.store lim lc m = m := by
  rw [LogOp.store, h]

end Outcome

/-! ## The invariant -/

/-- The database holds the map `m` under the log keys, and nothing else that could pass for a log
entry. -/
structure LogRefines (lc : LogCodec) (db : DB) (m : LogMap) : Prop where
  wf : StoreWF db
  present : ∀ i log, m.get? i = some log →
    ∃ b, db.get? (logKey i) = some (newEntry b) ∧ lc.decode b = some log
  absent : ∀ i, m.get? i = none → db.get? (logKey i) = none
  pos : ∀ i log, m.get? i = some log → i ≠ 0

namespace LogRefines

variable {lim : TxnLimit} {lc : LogCodec} {db : DB} {m : LogMap}

theorem empty (lc : LogCodec) : LogRefines lc OrdMap.empty OrdMap.empty where
  wf := ⟨(fun key e he => by cases he), (fun key e _ he => by cases he)⟩
  present i log h := by cases h
  absent i _ := rfl
  pos i log h := by cases h

/-- Storing one encoded entry. -/
theorem insert (h : LogRefines lc db m) {log : RaftLog} {b : Bytes} (hb : lc.decode b = some log)
    (hpos : log.index ≠ 0) :
    LogRefines lc (db.insert (logKey log.index) (newEntry b)) (m.insert log.index log) where
  wf := h.wf.insert (fun hscript => logKey_not_data _ (Or.inr (Or.inr hscript)))
    (Or.inl ⟨log.index, rfl⟩) b
  present i log' hget := by
    by_cases hi : log.index = i
    · subst hi
      rw [OrdMap.get?_insert_self] at hget
      cases hget
      exact ⟨b, OrdMap.get?_insert_self _ _ _, hb⟩
    · rw [OrdMap.get?_insert_of_ne m _ hi] at hget
      obtain ⟨b', hb', hdec⟩ := h.present i log' hget
      refine ⟨b', ?_, hdec⟩
      rw [OrdMap.get?_insert_of_ne db _ fun hkey => hi (logKey_inj.mp hkey)]
      exact hb'
  absent i hget := by
    have hi : log.index ≠ i := by
      rintro rfl
      rw [OrdMap.get?_insert_self] at hget
      cases hget
    rw [OrdMap.get?_insert_of_ne m _ hi] at hget
    rw [OrdMap.get?_insert_of_ne db _ fun hkey => hi (logKey_inj.mp hkey)]
    exact h.absent i hget
  pos i log' hget := by
    by_cases hi : log.index = i
    · exact hi ▸ hpos
    · rw [OrdMap.get?_insert_of_ne m _ hi] at hget
      exact h.pos i log' hget

/-- What the first loop of `StoreLogs` encodes, the second stores. -/
theorem storeAll (hlc : lc.Lawful) {logs : List RaftLog} (hpos : ∀ log ∈ logs, log.index ≠ 0)
    {data : List (Bytes × Bytes)} (hdata : encodeLogs lc logs = .ok data) (h : LogRefines lc db m) :
    LogRefines lc (data.foldl (fun db d => db.insert d.1 (newEntry d.2)) db)
      (logs.foldl (fun m log => m.insert log.index log) m) := by
  induction logs generalizing data db m with
  | nil =>
    cases hdata
    exact h
  | cons log rest ih =>
    unfold encodeLogs at hdata
    cases henc : lc.encode log with
    | none => rw [henc] at hdata; cases hdata
    | some b =>
      cases hrest : encodeLogs lc rest with
      | error e => rw [henc, hrest] at hdata; cases hdata
      | ok data' =>
        rw [henc, hrest] at hdata
        cases hdata
        have hstored := ih (fun log' hlog' => hpos log' (List.mem_cons_of_mem _ hlog')) hrest
          (h.insert (hlc log b henc) (hpos log List.mem_cons_self))
        exact hstored

/-- `StoreLogs` stores the whole batch, or reports an error and stores nothing. -/
theorem storeLogs (hlc : lc.Lawful) (h : LogRefines lc db m) {logs : List RaftLog}
    (hpos : ∀ log ∈ logs, log.index ≠ 0) :
    ∃ db', Badis.storeLogs lim lc logs db = (storeOutcome lim lc logs, db') ∧
      LogRefines lc db' (LogOp.store lim lc (.storeLogs logs) m) := by
  have hout : LogOp.outcome lim lc (.storeLogs logs) = storeOutcome lim lc logs := rfl
  unfold storeOutcome at hout ⊢
  unfold Badis.storeLogs
  cases hdata : encodeLogs lc logs with
  | error e =>
    rw [hdata] at hout
    exact ⟨db, rfl, (LogOp.store_of_error hout m).symm ▸ h⟩
  | ok data =>
    simp only [hdata] at hout
    dsimp only
    rw [update_eq]
    by_cases hfits : lim.fits (data.map fun d => (d.1, some d.2)) = true
    · rw [if_pos hfits] at hout
      rw [if_pos hfits, if_pos hfits, LogOp.store_of_ok hout, List.foldl_map]
      exact ⟨_, rfl, h.storeAll hlc hpos hdata⟩
    · rw [if_neg hfits] at hout
      rw [if_neg hfits, if_neg hfits, LogOp.store_of_error hout]
      exact ⟨db, rfl, h⟩

/-- Deleting one index. -/
theorem erase (h : LogRefines lc db m) (i : UInt64) :
    LogRefines lc (db.erase (logKey i)) (m.filter fun e => e.1 ≠ i) where
  wf := h.wf.erase _
  present j log hget := by
    rw [OrdMap.get?_filter, Option.filter_eq_some_iff] at hget
    obtain ⟨b, hb, hdec⟩ := h.present j log hget.1
    have hne : logKey i ≠ logKey j := fun hkey => by simp [logKey_inj.mp hkey] at hget
    exact ⟨b, by rw [OrdMap.get?_erase_of_ne db hne]; exact hb, hdec⟩
  absent j hget := by
    by_cases hij : i = j
    · rw [hij, OrdMap.get?_erase_self]
    · have hji : ¬ j = i := fun h => hij h.symm
      rw [OrdMap.get?_filter] at hget
      rw [OrdMap.get?_erase_of_ne db fun hkey => hij (logKey_inj.mp hkey)]
      refine h.absent j ?_
      cases hm : m.get? j with
      | none => rfl
      | some log => simp [hm, Option.filter, hji] at hget
  pos j log hget := by
    rw [OrdMap.get?_filter, Option.filter_eq_some_iff] at hget
    exact h.pos j log hget.1

/-- A loop that comes to its end has deleted the indices from `i` to `max`. -/
theorem deleteLoop {count size : Nat} {i max : UInt64} {db' : DB}
    (hmax : i ≤ max → max.toNat < 2 ^ 64 - 1) (h : LogRefines lc db m)
    (hrun : Badis.deleteLoop lim count size i max db = .ok db') :
    LogRefines lc db' (m.filter fun e => ¬ (i ≤ e.1 ∧ e.1 ≤ max)) := by
  refine deleteLoop_induct (P := fun i db db' => (i ≤ max → max.toNat < 2 ^ 64 - 1) →
    ∀ m : LogMap, LogRefines lc db m →
      LogRefines lc db' (m.filter fun e => ¬ (i ≤ e.1 ∧ e.1 ≤ max)))
    ?_ ?_ hrun hmax m h
  · intro i db hi _ m h
    have hkeep : (m.filter fun e => ¬ (i ≤ e.1 ∧ e.1 ≤ max)) = m := by
      apply OrdMap.ext_get?
      intro j
      have hj : ¬ (i ≤ j ∧ j ≤ max) := fun hj => not_lt.mpr (hj.1.trans hj.2) hi
      rw [OrdMap.get?_filter]
      cases m.get? j <;> simp [Option.filter, hj]
    rw [hkeep]
    exact h
  · intro i db db' hi hrest hmax m h
    have hfilter : (m.filter fun e => e.1 ≠ i).filter (fun e => ¬ (i + 1 ≤ e.1 ∧ e.1 ≤ max)) =
        m.filter fun e => ¬ (i ≤ e.1 ∧ e.1 ≤ max) := by
      apply OrdMap.ext_get?
      intro j
      simp only [OrdMap.get?_filter, Option.filter_filter]
      congr 1
      funext log
      rw [← Bool.decide_and]
      refine decide_eq_decide.mpr ?_
      rw [mem_range_iff (hmax hi) hi, not_or]
    rw [← hfilter]
    exact hrest (fun _ => hmax hi) _ (h.erase i)

/-- `DeleteRange` deletes its range, or reports that it is too big. -/
theorem deleteRange (h : LogRefines lc db m) (min max : UInt64) :
    ∃ db', Badis.deleteRange lim min max db = (LogOp.outcome lim lc (.deleteRange min max), db') ∧
      LogRefines lc db' (LogOp.store lim lc (.deleteRange min max) m) := by
  have hout : LogOp.outcome lim lc (.deleteRange min max) =
      if rangeFits lim min max then .ok () else .error .txnTooBig := rfl
  rcases deleteRange_cases lim min max db with ⟨hfits, db', hrun, heq⟩ | ⟨hfits, heq⟩
  · rw [if_pos hfits] at hout
    rw [heq, hout, LogOp.store_of_ok hout]
    exact ⟨db', rfl, h.deleteLoop (lt_greatest_of_fits hfits) hrun⟩
  · rw [if_neg (Bool.eq_false_iff.mp hfits)] at hout
    rw [heq, hout, LogOp.store_of_error hout]
    exact ⟨db, rfl, h⟩

/-- No command touches the log. -/
theorem apply (vm : LuaVM) (c : Codec) (h : LogRefines lc db m) (depth : Nat)
    (envs : List Nat → Env) (cmd : Command) :
    LogRefines lc (fsmApply vm c depth envs cmd db).2 m := by
  have hsame := (fsmApply_keepsRaft vm c depth envs cmd db h.wf.scripts).2
  refine ⟨h.wf.apply vm c depth envs cmd, fun i log hget => ?_, fun i hget => ?_, h.pos⟩
  · rw [hsame (logKey i) (Or.inl rfl)]
    exact h.present i log hget
  · rw [hsame (logKey i) (Or.inl rfl)]
    exact h.absent i hget

/-- Every call returns its outcome and keeps the refinement. -/
theorem run (lim : TxnLimit) (vm : LuaVM) (c : Codec) (hlc : lc.Lawful) (h : LogRefines lc db m)
    {op : LogOp} (hop : op.Valid) :
    ∃ db', op.run lim vm c lc db = (op.outcome lim lc, db') ∧
      LogRefines lc db' (op.store lim lc m) := by
  cases op with
  | storeLog log =>
    have hpos : ∀ log' ∈ [log], log'.index ≠ 0 := fun log' hlog' =>
      (congrArg RaftLog.index (List.mem_singleton.mp hlog')).trans_ne hop
    exact h.storeLogs hlc hpos
  | storeLogs logs => exact h.storeLogs hlc hop
  | deleteRange min max => exact h.deleteRange min max
  | apply depth envs cmd => exact ⟨_, rfl, h.apply vm c depth envs cmd⟩

/-- Every call of a run returns what the map says, and the database refines the map after it. -/
theorem runLogOps (lim : TxnLimit) (vm : LuaVM) (c : Codec) (hlc : lc.Lawful)
    (h : LogRefines lc db m) {ops : List LogOp} (hops : ∀ op ∈ ops, op.Valid) :
    ∃ db', Badis.runLogOps lim vm c lc ops db = (ops.map (LogOp.outcome lim lc), db') ∧
      LogRefines lc db' (ops.foldl (fun m op => op.store lim lc m) m) := by
  induction ops generalizing db m with
  | nil => exact ⟨db, rfl, h⟩
  | cons op rest ih =>
    obtain ⟨db', hrun, h'⟩ := h.run lim vm c hlc (hops op List.mem_cons_self)
    obtain ⟨db'', hrest, h''⟩ := ih h' fun op' hop' => hops op' (List.mem_cons_of_mem _ hop')
    refine ⟨db'', ?_, h''⟩
    simp only [Badis.runLogOps, hrun, hrest, List.map_cons]

/-! ## The answers -/

theorem getLog (h : LogRefines lc db m) (t : Nat) (i : UInt64) :
    Badis.getLog lc t i db =
      match m.get? i with
      | some log => .ok log
      | none => .error .logNotFound := by
  unfold Badis.getLog DB.getLive
  cases hm : m.get? i with
  | none => rw [h.absent i hm]; rfl
  | some log =>
    obtain ⟨b, hb, hdec⟩ := h.present i log hm
    have hlive : (newEntry b).live t = true := rfl
    have hval : lc.decode (newEntry b).value = some log := hdec
    simp only [hb, Option.filter, hlive, if_true, hval]

/-- The visible keys between the two ends of the log are the log keys of the stored indices. -/
theorem mem_log (h : LogRefines lc db m) {t : Nat} {x : Bytes × Entry} (hx : x ∈ db.liveEntries t)
    (hge : [76] ≤ x.1) (hle : x.1 ≤ [77]) : ∃ i ∈ m.stored, x.1 = logKey i := by
  obtain ⟨key, e⟩ := x
  obtain ⟨hget, -⟩ := Option.filter_eq_some_iff.mp (mem_liveEntries.mp hx)
  have hraft : RaftKey key := (between_log_keys hge hle).imp_right Or.inl
  obtain ⟨-, ⟨i, rfl⟩ | ⟨name, -, rfl⟩⟩ := h.wf.raft key e hraft hget
  · refine ⟨i, ?_, rfl⟩
    show m.contains i = true
    unfold OrdMap.contains
    cases hm : m.get? i with
    | none => rw [h.absent i hm] at hget; cases hget
    | some log => rfl
  · rcases between_log_keys hge hle with hkey | hkey <;> cases hkey

theorem logKey_mem (h : LogRefines lc db m) {i : UInt64} (hi : i ∈ m.stored) (t : Nat) :
    ∃ e, (logKey i, e) ∈ db.liveEntries t := by
  obtain ⟨log, hlog⟩ := Option.isSome_iff_exists.mp hi
  obtain ⟨b, hb, -⟩ := h.present i log hlog
  refine ⟨newEntry b, mem_liveEntries.mpr ?_⟩
  rw [DB.getLive, hb]
  rfl

theorem ne_zero (h : LogRefines lc db m) {i : UInt64} (hi : i ∈ m.stored) : i ≠ 0 := by
  obtain ⟨log, hlog⟩ := Option.isSome_iff_exists.mp hi
  exact h.pos i log hlog

/-- The iterator finds the least index, since the log keys come in order. -/
theorem firstIndex_of_least (h : LogRefines lc db m) {i : UInt64} (hi : IsLeast m.stored i)
    (t : Nat) :
    firstIndex t db = .ok i := by
  obtain ⟨e, he⟩ := h.logKey_mem hi.1 t
  have hlog : [76] ≤ logKey i ∧ logKey i ≤ [77] := le_of_head rfl
  have hseek : db.seek t [76] = some (logKey i, e) := by
    refine seek_eq_some_iff.mpr ⟨he, hlog.1, fun x hx hge => ?_⟩
    rcases le_or_gt x.1 [77] with hle | hgt
    · obtain ⟨j, hj, hxj⟩ := h.mem_log hx hge hle
      rw [hxj]
      exact (logKey_le_iff i j).mpr (hi.2 hj)
    · exact hlog.2.trans hgt.le
  rw [firstIndex, hseek, indexAt_logKey]

theorem lastIndex_of_greatest (h : LogRefines lc db m) {i : UInt64} (hi : IsGreatest m.stored i)
    (t : Nat) : lastIndex t db = .ok i := by
  obtain ⟨e, he⟩ := h.logKey_mem hi.1 t
  have hlog : [76] ≤ logKey i ∧ logKey i ≤ [77] := le_of_head rfl
  have hseek : db.seekReverse t [77] = some (logKey i, e) := by
    refine seekReverse_eq_some_iff.mpr ⟨he, hlog.2, fun x hx hle => ?_⟩
    rcases le_or_gt [76] x.1 with hge | hlt
    · obtain ⟨j, hj, hxj⟩ := h.mem_log hx hge hle
      rw [hxj]
      exact (logKey_le_iff j i).mpr (hi.2 hj)
    · exact hlt.le.trans hlog.1
  rw [lastIndex, hseek, indexAt_logKey]

/-- Without entries neither cursor finds a key of the log. -/
theorem indices_of_empty (h : LogRefines lc db m) (hm : m.stored = ∅) (t : Nat) :
    firstIndex t db = .ok 0 ∧ lastIndex t db = .ok 0 := by
  have hno : ∀ key e, (key, e) ∈ db.liveEntries t → key.head? ≠ some 76 := by
    intro key e he hkey
    obtain ⟨i, hi, -⟩ := h.mem_log he (le_of_head hkey).1 (le_of_head hkey).2
    rw [hm] at hi
    exact hi
  constructor
  · exact indexAt_of_not_log fun key e hseek => hno key e (seek_eq_some_iff.mp hseek).1
  · exact indexAt_of_not_log fun key e hseek => hno key e (seekReverse_eq_some_iff.mp hseek).1

/-- A database that refines a map answers as the map does. -/
theorem answers (h : LogRefines lc db m) : AnswersAs lc db m := by
  refine ⟨h.getLog, fun t => ?_⟩
  rcases Set.eq_empty_or_nonempty m.stored with hm | hm
  · obtain ⟨hfirst, hlast⟩ := h.indices_of_empty hm t
    refine ⟨0, 0, hfirst, hlast, fun hne => ?_, by simp [hm], by simp [hm]⟩
    rw [hm] at hne
    exact absurd hne Set.not_nonempty_empty
  · have hfin : m.stored.Finite := by
      refine (List.finite_toSet m.keys).subset fun i hi => ?_
      exact OrdMap.mem_keys.mpr (Option.isSome_iff_exists.mp hi)
    obtain ⟨first, hfirst, hleast⟩ := Set.exists_min_image m.stored id hfin hm
    obtain ⟨last, hlast, hgreatest⟩ := Set.exists_max_image m.stored id hfin hm
    have hne : m.stored ≠ ∅ := hm.ne_empty
    refine ⟨first, last, h.firstIndex_of_least ⟨hfirst, hleast⟩ t,
      h.lastIndex_of_greatest ⟨hlast, hgreatest⟩ t,
      fun _ => ⟨⟨hfirst, hleast⟩, ⟨hlast, hgreatest⟩⟩, ?_, ?_⟩
    · exact iff_of_false (h.ne_zero hfirst) hne
    · exact iff_of_false (h.ne_zero hlast) hne

end LogRefines

/-- After every sequence of calls the log store answers as the finite map: `GetLog` gives the entry
stored last and not deleted since, `FirstIndex` and `LastIndex` the bounds of the stored indices. A
call whose writes do not fit into one transaction reports it and counts for nothing. -/
theorem logStore_refines (lim : TxnLimit) (vm : LuaVM) (c : Codec) (lc : LogCodec) (hlc : lc.Lawful)
    (ops : List LogOp) (hops : ∀ op ∈ ops, op.Valid) :
    ∃ db, runLogOps lim vm c lc ops OrdMap.empty = (ops.map (LogOp.outcome lim lc), db) ∧
      AnswersAs lc db (LogMap.after lim lc ops) := by
  obtain ⟨db, hrun, h⟩ := (LogRefines.empty lc).runLogOps lim vm c hlc hops
  exact ⟨db, hrun, h.answers⟩

/-- Two entries are stored, a command is applied, a range that is too big and the first entry
deleted. -/
def sampleOps : List LogOp :=
  [.storeLogs [sampleLog 5, sampleLog 6],
    .apply 1 (fun _ => Env.at 1000000000000) ⟨.set, ascii "k", [ascii "v"], 0, .always, false⟩,
    .deleteRange 1 104856, .deleteRange 1 5]

theorem sampleOps_answers :
    sampleOps.map (LogOp.outcome TxnLimit.default sampleCodec) =
      [.ok (), .ok (), .error .txnTooBig, .ok ()] ∧
    (LogMap.after TxnLimit.default sampleCodec sampleOps).get? 5 = none ∧
    (LogMap.after TxnLimit.default sampleCodec sampleOps).get? 6 = some (sampleLog 6) ∧
    ∃ db, runLogOps TxnLimit.default flushingVM msgpack sampleCodec sampleOps OrdMap.empty =
        (sampleOps.map (LogOp.outcome TxnLimit.default sampleCodec), db) ∧
      AnswersAs sampleCodec db (LogMap.after TxnLimit.default sampleCodec sampleOps) := by
  refine ⟨by decide, by decide, by decide, ?_⟩
  refine logStore_refines TxnLimit.default flushingVM msgpack sampleCodec sampleCodec_lawful
    sampleOps
    fun op hop => ?_
  simp only [sampleOps, List.mem_cons, List.not_mem_nil, or_false] at hop
  rcases hop with rfl | rfl | rfl | rfl
  · show ∀ log ∈ [sampleLog 5, sampleLog 6], log.index ≠ 0
    decide
  · trivial
  · trivial
  · trivial

end Badis
