import Badis.Store.Proofs.ExpiryProofs

/-!
# Reading the database

What a lookup finds as time passes, what the visible entries are, and where a cursor stands.
-/

namespace Badis

open Lib

/-! ## Lookups and time -/

theorem getLive_mono {t t' : Nat} (h : t ≤ t') {db : DB} {key : Bytes} {e : Entry}
    (he : db.getLive t' key = some e) : db.getLive t key = some e := by
  obtain ⟨hget, hlive⟩ := Option.filter_eq_some_iff.mp he
  exact Option.filter_eq_some_iff.mpr ⟨hget, live_mono h hlive⟩

theorem filter_getLive {t t' : Nat} (h : t ≤ t') (db : DB) (key : Bytes) :
    (db.getLive t key).filter (Entry.live t') = db.getLive t' key := by
  apply Option.ext
  intro e
  unfold DB.getLive
  simp only [Option.filter_eq_some_iff]
  constructor
  · rintro ⟨⟨hget, -⟩, hlive⟩
    exact ⟨hget, hlive⟩
  · rintro ⟨hget, hlive⟩
    exact ⟨⟨hget, live_mono h hlive⟩, hlive⟩

theorem getLive_none_mono {t t' : Nat} (h : t ≤ t') {db : DB} {key : Bytes}
    (hnone : db.getLive t key = none) : db.getLive t' key = none := by
  rw [← filter_getLive h, hnone]
  rfl

/-! ## Visible entries and cursors -/

section Cursor

variable {t : Nat} {db : DB}

theorem mem_liveEntries {key : Bytes} {e : Entry} :
    (key, e) ∈ db.liveEntries t ↔ db.getLive t key = some e := by
  unfold DB.liveEntries DB.getLive
  rw [List.mem_filter, Option.filter_eq_some_iff, OrdMap.get?_eq_some_iff]

theorem nodup_liveEntries (t : Nat) (db : DB) : ((db.liveEntries t).map Prod.fst).Nodup :=
  List.Nodup.sublist (List.filter_sublist.map Prod.fst) db.keys_nodup

theorem sorted_liveEntries (t : Nat) (db : DB) :
    (db.liveEntries t).Pairwise (fun a b => a.1 < b.1) := db.sorted.filter _

theorem key_eq_of_le {e e' : Bytes × Entry} (he : e ∈ db.liveEntries t)
    (he' : e' ∈ db.liveEntries t) (h : e'.1 = e.1) : e' = e := by
  obtain ⟨k, a⟩ := e
  obtain ⟨k', a'⟩ := e'
  obtain rfl : k' = k := h
  rw [mem_liveEntries] at he he'
  rw [he] at he'
  rw [Option.some.inj he']

/-- A cursor stands on the least visible key not below the one it was placed at. -/
theorem seek_eq_some_iff {p : Bytes} {e : Bytes × Entry} :
    db.seek t p = some e ↔ e ∈ db.liveEntries t ∧ p ≤ e.1 ∧
      ∀ e' ∈ db.liveEntries t, p ≤ e'.1 → e.1 ≤ e'.1 := by
  unfold DB.seek
  rw [head?_dropWhile_eq_some_iff (sorted_liveEntries t db) fun a b => lt_asymm]
  simp only [decide_eq_false_iff_not, not_lt]
  constructor
  · rintro ⟨hmem, hp, hleast⟩
    refine ⟨hmem, hp, fun e' he' hpe' => ?_⟩
    rcases hleast e' he' hpe' with rfl | hlt
    · exact le_rfl
    · exact hlt.le
  · rintro ⟨hmem, hp, hleast⟩
    refine ⟨hmem, hp, fun e' he' hpe' => ?_⟩
    rcases (hleast e' he' hpe').eq_or_lt with heq | hlt
    · exact Or.inl (key_eq_of_le hmem he' heq.symm)
    · exact Or.inr hlt

/-- A reverse cursor stands on the greatest visible key not above the one it was placed at. -/
theorem seekReverse_eq_some_iff {p : Bytes} {e : Bytes × Entry} :
    db.seekReverse t p = some e ↔ e ∈ db.liveEntries t ∧ e.1 ≤ p ∧
      ∀ e' ∈ db.liveEntries t, e'.1 ≤ p → e'.1 ≤ e.1 := by
  unfold DB.seekReverse
  have hsorted : (db.liveEntries t).reverse.Pairwise (fun a b => b.1 < a.1) :=
    List.pairwise_reverse.mpr (sorted_liveEntries t db)
  rw [head?_dropWhile_eq_some_iff hsorted fun a b => lt_asymm]
  simp only [decide_eq_false_iff_not, not_lt, List.mem_reverse]
  constructor
  · rintro ⟨hmem, hp, hgreatest⟩
    refine ⟨hmem, hp, fun e' he' hpe' => ?_⟩
    rcases hgreatest e' he' hpe' with rfl | hlt
    · exact le_rfl
    · exact hlt.le
  · rintro ⟨hmem, hp, hgreatest⟩
    refine ⟨hmem, hp, fun e' he' hpe' => ?_⟩
    rcases (hgreatest e' he' hpe').eq_or_lt with heq | hlt
    · exact Or.inl (key_eq_of_le hmem he' heq)
    · exact Or.inr hlt

end Cursor

/-! ## Writes within the limits of a transaction -/

section Limits

variable (lim : TxnLimit)

/-- All writes are made if they fit in number and in bytes, and otherwise none. -/
theorem writeAll_eq (count size : Nat) (ws : List (Bytes × Option Bytes)) (db : DB) :
    lim.writeAll count size ws db =
      if ws = [] ∨ ws.length ≤ count ∧ (ws.map lim.costOf).sum < size then
        some (ws.foldl DB.write db)
      else none := by
  induction ws generalizing count size db with
  | nil => simp [TxnLimit.writeAll]
  | cons w rest ih =>
    cases count with
    | zero => simp [TxnLimit.writeAll]
    | succ count =>
      rw [TxnLimit.writeAll, ih]
      simp only [List.foldl_cons, List.length_cons, List.map_cons, List.sum_cons, reduceCtorEq,
        false_or]
      by_cases hw : lim.costOf w < size
      · rw [if_pos hw]
        refine if_congr ?_ rfl rfl
        -- the first write is paid for, and so is the last one of a list that ends here
        rcases rest with _ | ⟨w', rest⟩
        · simp [hw]
        · simp only [List.length_cons, List.map_cons, List.sum_cons, reduceCtorEq, false_or]
          omega
      · rw [if_neg hw, if_neg (by omega)]

theorem update_eq (ws : List (Bytes × Option Bytes)) (db : DB) :
    lim.update ws db = if lim.fits ws then some (ws.foldl DB.write db) else none := by
  rw [TxnLimit.update, writeAll_eq]
  simp [TxnLimit.fits]

/-- What a transaction that was taken preserves, if each of its writes does. -/
theorem update_induct {P : DB → Prop} {ws : List (Bytes × Option Bytes)} {db db' : DB}
    (h : lim.update ws db = some db') (hP : P db) (hstep : ∀ db, P db → ∀ w ∈ ws, P (db.write w)) :
    P db' := by
  rw [update_eq] at h
  split_ifs at h
  cases h
  exact List.foldlRecOn ws DB.write hP hstep

end Limits

end Badis
