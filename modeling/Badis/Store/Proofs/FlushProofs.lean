import Badis.Store.Lua
import Badis.Store.Proofs.BadgerProofs

/-!
# What SCRIPT_FLUSH deletes

The loop stands on the visible script keys (`flushKeys`, of which it stands on the first
`flushCount`) and hands `txn.Delete` the slices of the iterator. With at most two scripts and no
short key two places after one, the slices keep their keys (`tombstones_eq`). These are the only
flushes that delete every script they stand on (`clears_of_deleted`).
-/

namespace Badis

open Lib

/-! ## The keys the loop reads -/

/-- The visible keys from the first script on. -/
def flushKeys (t : Nat) (db : DB) : List Bytes :=
  (db.liveEntries t).map Prod.fst |>.dropWhile fun k => k < scriptPrefix

/-- How many of them the loop stands on. -/
def flushCount (t : Nat) (db : DB) : Nat :=
  ((flushKeys t db).takeWhile fun k => scriptPrefix.isPrefixOf k).length

/-- What SCRIPT FLUSH deletes when its transaction is committed. -/
theorem scriptFlush_run (t : Nat) (db : DB) :
    ((scriptFlush t).run db).2 = (tombstones (flushCount t db)
      ((flushKeys t db).take (flushCount t db + 2))).foldl (fun db k => db.erase k) db := rfl

theorem le_of_mem_dropWhile {p : Bytes} {l : List Bytes} (hl : l.Pairwise (· < ·)) {key : Bytes}
    (hkey : key ∈ l.dropWhile fun k => k < p) : p ≤ key := by
  induction l with
  | nil => cases hkey
  | cons a l ih =>
    obtain ⟨hhead, htail⟩ := List.pairwise_cons.mp hl
    by_cases ha : a < p
    · rw [List.dropWhile_cons, if_pos (by simpa using ha)] at hkey
      exact ih htail hkey
    · rw [List.dropWhile_cons, if_neg (by simpa using ha)] at hkey
      rcases List.mem_cons.mp hkey with rfl | hkey
      · exact not_lt.mp ha
      · exact (not_lt.mp ha).trans (hhead key hkey).le

section Keys

variable {t : Nat} {db : DB} {key : Bytes}

theorem sorted_flushKeys : (flushKeys t db).Pairwise (· < ·) := by
  have hsorted : ((db.liveEntries t).map Prod.fst).Pairwise (· < ·) :=
    List.pairwise_map.mpr (sorted_liveEntries t db)
  exact hsorted.sublist (List.dropWhile_sublist _)

theorem le_of_mem_flushKeys (h : key ∈ flushKeys t db) : scriptPrefix ≤ key :=
  le_of_mem_dropWhile (List.pairwise_map.mpr (sorted_liveEntries t db)) h

theorem stored_of_mem_flushKeys (h : key ∈ flushKeys t db) : ∃ e, db.get? key = some e := by
  obtain ⟨⟨key, e⟩, he, rfl⟩ := List.mem_map.mp (List.dropWhile_subset _ h)
  exact ⟨e, (Option.filter_eq_some_iff.mp (mem_liveEntries.mp he)).1⟩

theorem take_flushCount : (flushKeys t db).take (flushCount t db) =
    (flushKeys t db).takeWhile fun k => scriptPrefix.isPrefixOf k :=
  (List.prefix_iff_eq_take.mp (List.takeWhile_prefix _)).symm

theorem flushCount_le : flushCount t db ≤ (flushKeys t db).length :=
  (List.takeWhile_sublist _).length_le

/-- The keys that SCRIPT FLUSH means to delete are script keys. -/
theorem script_of_mem_take (h : key ∈ (flushKeys t db).take (flushCount t db)) :
    scriptPrefix <+: key := by
  rw [take_flushCount] at h
  exact List.isPrefixOf_iff_prefix.mp (List.mem_takeWhile_imp h)

/-- The loop stands on every visible script key. -/
theorem mem_take_flushCount {e : Entry} (hget : db.get? key = some e) (hlive : e.live t = true)
    (hkey : scriptPrefix <+: key) : key ∈ (flushKeys t db).take (flushCount t db) := by
  have hscan : (db.scanPrefix t scriptPrefix).map Prod.fst =
      (flushKeys t db).takeWhile fun k => scriptPrefix.isPrefixOf k := by
    rw [flushKeys, List.dropWhile_map, List.takeWhile_map]
    rfl
  rw [take_flushCount, ← hscan, DB.scanPrefix, OrdMap.scan_eq_filter (sorted_liveEntries t db)]
  have hmem : (key, e) ∈ db.liveEntries t := by
    rw [mem_liveEntries, DB.getLive, hget]
    exact Option.filter_eq_some_iff.mpr ⟨rfl, hlive⟩
  exact List.mem_map.mpr ⟨(key, e), List.mem_filter.mpr ⟨hmem, List.isPrefixOf_iff_prefix.mpr hkey⟩,
    rfl⟩

end Keys

/-! ## The slices -/

/-- A slice keeps its length when its buffer is overwritten. -/
theorem length_reuseBuffer (slice key : Bytes) : (reuseBuffer slice key).length = slice.length := by
  unfold reuseBuffer
  split_ifs
  · simp only [List.length_append, List.length_take, List.length_drop]
    omega
  · rfl

theorem mem_everySecond {k : Bytes} : ∀ {l : List Bytes}, k ∈ everySecond l → k ∈ l
  | [], h => h
  | [_], h => h
  | a :: b :: rest, h => by
    rcases List.mem_cons.mp h with rfl | h
    · exact List.mem_cons_self
    · exact List.mem_cons_of_mem _ (List.mem_cons_of_mem _ (mem_everySecond h))

/-- A key that does not fit gets a buffer of its own. -/
theorem reuseBuffer_of_long {slice key : Bytes} (h : 48 < key.length) :
    reuseBuffer slice key = slice :=
  if_neg (by omega)

/-- With at most two scripts, and no short key two places after one, the slices keep their keys. -/
theorem tombstones_eq {n : Nat} {keys : List Bytes} (hn : n ≤ 2)
    (hlong : ∀ i < n, ∀ key, keys[i + 2]? = some key → 48 < key.length) :
    tombstones n (keys.take (n + 2)) = keys.take n := by
  match n, keys, hn, hlong with
  | 0, _, _, _ => simp [tombstones]
  | _ + 1, [], _, _ => simp [tombstones]
  | 1, [s], _, _ => rfl
  | 1, [s, x], _, _ => rfl
  | 1, s :: x :: y :: rest, _, hlong =>
    have hy := hlong 0 Nat.one_pos y rfl
    show [[y].foldl reuseBuffer s] = [s]
    rw [List.foldl_cons, List.foldl_nil, reuseBuffer_of_long hy]
  | 2, [s], _, _ => rfl
  | 2, [s, s'], _, _ => rfl
  | 2, [s, s', x], _, hlong =>
    have hx := hlong 0 Nat.two_pos x rfl
    show [[x].foldl reuseBuffer s, s'] = [s, s']
    rw [List.foldl_cons, List.foldl_nil, reuseBuffer_of_long hx]
  | 2, s :: s' :: x :: y :: rest, _, hlong =>
    have hx := hlong 0 Nat.two_pos x rfl
    have hy := hlong 1 Nat.one_lt_two y rfl
    show [[x].foldl reuseBuffer s, [y].foldl reuseBuffer s'] = [s, s']
    rw [List.foldl_cons, List.foldl_nil, List.foldl_cons, List.foldl_nil, reuseBuffer_of_long hx,
      reuseBuffer_of_long hy]

/-! ## Which flushes delete every script -/

/-- A script key, or a key after the scripts. -/
def AtScripts (key : Bytes) : Prop :=
  (scriptPrefix <+: key ∧ key.length = 47) ∨ (¬ scriptPrefix <+: key ∧ scriptPrefix ≤ key)

/-- A buffer that is reused for a key after the scripts holds no script key. -/
theorem not_script_reuseBuffer {slice key : Bytes} (hslice : slice.length = 47)
    (hforeign : ¬ scriptPrefix <+: key) (hle : scriptPrefix ≤ key) (hshort : key.length ≤ 48) :
    ¬ scriptPrefix <+: reuseBuffer slice key := by
  intro hpre
  have hbuffer : reuseBuffer slice key = key.take slice.length ++ slice.drop key.length :=
    if_pos hshort
  rw [hbuffer] at hpre
  have htake : key.take slice.length <+: key := List.take_prefix _ _
  rcases List.prefix_or_prefix_of_prefix hpre (List.prefix_append _ _) with h | h
  · exact hforeign (h.trans htake)
  · -- the key is shorter than the prefix, and lies before it
    have hlen : (key.take slice.length).length ≤ 7 := h.length_le
    rw [List.length_take, hslice] at hlen
    have hall : key.take slice.length = key := List.take_of_length_le (by omega)
    rw [hall] at h
    have heq : key = scriptPrefix := le_antisymm (le_of_isPrefix h) hle
    rw [heq] at hforeign
    exact hforeign (List.prefix_refl _)

/-- What a buffer holds at the end, if it is a script key: the key it had, if it was not reused, or
one it was reused for. -/
theorem foldl_reuseBuffer_script {l : List Bytes} (hl : ∀ key ∈ l, AtScripts key) {slice : Bytes}
    (hslice : slice.length = 47) (hpre : scriptPrefix <+: l.foldl reuseBuffer slice) :
    (l.foldl reuseBuffer slice = slice ∧ ∀ key ∈ l, 48 < key.length) ∨
      l.foldl reuseBuffer slice ∈ l := by
  induction l generalizing slice with
  | nil => exact .inl ⟨rfl, fun key hkey => nomatch hkey⟩
  | cons key rest ih =>
    have hrest : ∀ key ∈ rest, AtScripts key := fun key hkey => hl key (List.mem_cons_of_mem _ hkey)
    rw [List.foldl_cons] at hpre ⊢
    by_cases hshort : key.length ≤ 48
    · have hlen : (reuseBuffer slice key).length = 47 := (length_reuseBuffer slice key).trans hslice
      rcases ih hrest hlen hpre with ⟨heq, -⟩ | hmem
      · rw [heq] at hpre ⊢
        rcases hl key List.mem_cons_self with ⟨-, hkey⟩ | ⟨hforeign, hle⟩
        · have hnew : reuseBuffer slice key = key := by
            unfold reuseBuffer
            rw [if_pos hshort, hslice, hkey, List.drop_of_length_le hslice.le, List.append_nil,
              List.take_of_length_le hkey.le]
          rw [hnew]
          exact .inr List.mem_cons_self
        · exact absurd hpre (not_script_reuseBuffer hslice hforeign hle hshort)
      · exact .inr (List.mem_cons_of_mem _ hmem)
    · have hkeep : reuseBuffer slice key = slice := if_neg hshort
      rw [hkeep] at hpre ⊢
      rcases ih hrest hslice hpre with ⟨heq, hlong⟩ | hmem
      · refine .inl ⟨heq, fun key' hkey' => ?_⟩
        rcases List.mem_cons.mp hkey' with rfl | hkey'
        · omega
        · exact hlong key' hkey'
      · exact .inr (List.mem_cons_of_mem _ hmem)

/-- A script that SCRIPT_FLUSH deletes is one of the keys it has read. -/
theorem script_mem_of_tombstones {n : Nat} {keys : List Bytes} (hkeys : ∀ key ∈ keys, AtScripts key)
    (hscripts : ∀ key ∈ keys.take n, key.length = 47) {key : Bytes} (hpre : scriptPrefix <+: key)
    (hkey : key ∈ tombstones n keys) : key ∈ keys := by
  induction n generalizing keys with
  | zero => cases hkey
  | succ n ih =>
    cases keys with
    | nil => cases hkey
    | cons first ahead =>
      have hahead : ∀ key ∈ ahead, AtScripts key :=
        fun key hkey => hkeys key (List.mem_cons_of_mem _ hkey)
      have hsecond : ∀ key ∈ everySecond (ahead.drop 1), key ∈ ahead := fun key hkey =>
        List.mem_of_mem_drop (mem_everySecond hkey)
      rcases List.mem_cons.mp hkey with rfl | hkey
      · rcases foldl_reuseBuffer_script (fun key hkey => hahead key (hsecond key hkey))
          (hscripts first List.mem_cons_self) hpre with ⟨heq, -⟩ | hmem
        · rw [heq]
          exact List.mem_cons_self
        · exact List.mem_cons_of_mem _ (hsecond _ hmem)
      · exact List.mem_cons_of_mem _
          (ih hahead (fun key hkey => hscripts key (List.mem_cons_of_mem _ hkey)) hkey)

/-- A flush that deletes its first script does not reuse the buffer of that script. -/
theorem long_of_first_deleted {n : Nat} {first : Bytes} {ahead : List Bytes}
    (hkeys : ∀ key ∈ ahead, AtScripts key)
    (hscripts : ∀ key ∈ (first :: ahead).take (n + 1), key.length = 47)
    (hpre : scriptPrefix <+: first) (hfresh : first ∉ ahead)
    (hdeleted : first ∈ tombstones (n + 1) (first :: ahead)) :
    ∀ key ∈ everySecond (ahead.drop 1), 48 < key.length := by
  have hsecond : ∀ key ∈ everySecond (ahead.drop 1), key ∈ ahead := fun key hkey =>
    List.mem_of_mem_drop (mem_everySecond hkey)
  rcases List.mem_cons.mp hdeleted with heq | hmem
  · have hpre' : scriptPrefix <+: (everySecond (ahead.drop 1)).foldl reuseBuffer first := by
      rw [← heq]
      exact hpre
    rcases foldl_reuseBuffer_script (fun key hkey => hkeys key (hsecond key hkey))
      (hscripts first List.mem_cons_self) hpre' with ⟨-, hlong⟩ | hmem
    · exact hlong
    · rw [← heq] at hmem
      exact absurd (hsecond _ hmem) hfresh
  · exact absurd (script_mem_of_tombstones hkeys
      (fun key hkey => hscripts key (List.mem_cons_of_mem _ hkey)) hpre hmem) hfresh

theorem head_mem_everySecond (key : Bytes) (rest : List Bytes) :
    key ∈ everySecond (key :: rest) := by
  cases rest with
  | nil => exact List.mem_cons_self
  | cons _ _ => exact List.mem_cons_self

section Deleted

variable {m : Nat} {s : Bytes} {rest : List Bytes} (hkeys : ∀ key ∈ s :: rest, AtScripts key)
variable (hscripts : ∀ key ∈ (s :: rest).take (m + 1), scriptPrefix <+: key ∧ key.length = 47)
variable (hnodup : (s :: rest).Nodup)
variable (hdeleted : ∀ key ∈ (s :: rest).take (m + 1),
  key ∈ tombstones (m + 1) ((s :: rest).take (m + 3)))

include hkeys hscripts hnodup hdeleted

theorem first_buffer_kept : ∀ key ∈ everySecond ((rest.take (m + 2)).drop 1), 48 < key.length := by
  have hwindow : ∀ key ∈ rest.take (m + 2), AtScripts key := fun key hkey =>
    hkeys key (List.mem_cons_of_mem _ (List.mem_of_mem_take hkey))
  have hlength : ∀ key ∈ (s :: rest.take (m + 2)).take (m + 1), key.length = 47 := by
    intro key hkey
    refine (hscripts key ?_).2
    have htake : (s :: rest.take (m + 2)) = (s :: rest).take (m + 3) := rfl
    rw [htake, List.take_take, Nat.min_eq_left (by omega)] at hkey
    exact hkey
  have hfresh : s ∉ rest.take (m + 2) := fun hmem =>
    (List.nodup_cons.mp hnodup).1 (List.mem_of_mem_take hmem)
  exact long_of_first_deleted hwindow hlength (hscripts s List.mem_cons_self).1 hfresh
    (hdeleted s List.mem_cons_self)

/-- The key two places after the first script. -/
theorem third_key_long {key : Bytes} (hkey : rest[1]? = some key) : 48 < key.length := by
  have hlong := first_buffer_kept hkeys hscripts hnodup hdeleted
  match rest, hkey, hlong with
  | _ :: key' :: rest', hkey, hlong =>
    have heq : key' = key := Option.some.inj hkey
    subst heq
    exact hlong _ (head_mem_everySecond _ _)

theorem at_most_two_scripts (hn : m + 1 ≤ (s :: rest).length) : m + 1 ≤ 2 := by
  by_contra hmany
  have hlen : 1 < rest.length := by
    rw [List.length_cons] at hn
    omega
  have hthird := List.getElem?_eq_getElem hlen
  have hlong := third_key_long hkeys hscripts hnodup hdeleted hthird
  have hmem : rest[1] ∈ (s :: rest).take (m + 1) := by
    refine List.mem_of_getElem? (i := 2) ?_
    rw [List.getElem?_take_of_lt (by omega)]
    exact hthird
  rw [(hscripts _ hmem).2] at hlong
  omega

end Deleted

/-- The key two places after the second script. -/
theorem fourth_key_long {s s' : Bytes} {rest : List Bytes}
    (hkeys : ∀ key ∈ s :: s' :: rest, AtScripts key) (hscripts : ∀ key ∈ [s, s'],
      scriptPrefix <+: key ∧ key.length = 47) (hnodup : (s :: s' :: rest).Nodup)
    (hdeleted : ∀ key ∈ [s, s'], key ∈ tombstones 2 ((s :: s' :: rest).take 4)) {key : Bytes}
    (hkey : rest[1]? = some key) : 48 < key.length := by
  have hs' := hscripts s' (by simp)
  have hkept : ∀ key ∈ everySecond ((rest.take 2).drop 0), 48 < key.length :=
    first_buffer_kept hkeys hscripts hnodup hdeleted
  have hdeleted' : s' ∈ tombstones 1 ((s' :: rest).take 3) := by
    rcases List.mem_cons.mp (hdeleted s' (by simp)) with heq | hmem
    · -- the buffer of the first script was not reused, so it does not hold the second
      have hpre : scriptPrefix <+: (everySecond (rest.take 2)).foldl reuseBuffer s := heq ▸ hs'.1
      have hwindow : ∀ key ∈ everySecond (rest.take 2), AtScripts key := fun key hkey =>
        hkeys key (List.mem_cons_of_mem _ (List.mem_cons_of_mem _
          (List.mem_of_mem_take (mem_everySecond hkey))))
      rcases foldl_reuseBuffer_script hwindow (hscripts s (by simp)).2 hpre with ⟨hsame, -⟩ | hmem
      · have hss' : s' = s := heq.trans hsame
        exact absurd (hss' ▸ List.mem_cons_self) (List.nodup_cons.mp hnodup).1
      · have hlong := hkept _ hmem
        have hlen : ((everySecond (rest.take 2)).foldl reuseBuffer s).length = 47 := heq ▸ hs'.2
        omega
    · exact hmem
  have hone : ∀ key ∈ (s' :: rest).take 1, key = s' := fun key hkey => List.mem_singleton.mp hkey
  refine third_key_long (m := 0) (fun key hkey => hkeys key (List.mem_cons_of_mem _ hkey)) ?_
    (List.nodup_cons.mp hnodup).2 ?_ hkey
  · intro key hkey
    rw [hone key hkey]
    exact hs'
  · intro key hkey
    rw [hone key hkey]
    exact hdeleted'

/-- A flush that deletes every script finds at most two, and no short key two places after one. -/
theorem clears_of_deleted {n : Nat} {keys : List Bytes} (hkeys : ∀ key ∈ keys, AtScripts key)
    (hscripts : ∀ key ∈ keys.take n, scriptPrefix <+: key ∧ key.length = 47) (hn : n ≤ keys.length)
    (hnodup : keys.Nodup) (hdeleted : ∀ key ∈ keys.take n, key ∈ tombstones n (keys.take (n + 2))) :
    n ≤ 2 ∧ ∀ i < n, ∀ key, keys[i + 2]? = some key → 48 < key.length := by
  match n, keys, hkeys, hscripts, hn, hnodup, hdeleted with
  | 0, _, _, _, _, _, _ => exact ⟨Nat.zero_le 2, fun i hi => absurd hi (Nat.not_lt_zero i)⟩
  | m + 1, s :: rest, hkeys, hscripts, hn, hnodup, hdeleted =>
    have htwo := at_most_two_scripts hkeys hscripts hnodup hdeleted hn
    refine ⟨htwo, fun i hi key hkey => ?_⟩
    rcases Nat.eq_zero_or_pos i with rfl | hpos
    · exact third_key_long hkeys hscripts hnodup hdeleted hkey
    · obtain ⟨rfl, rfl⟩ : i = 1 ∧ m = 1 := by omega
      match rest, hkeys, hscripts, hnodup, hdeleted, hkey with
      | s' :: rest, hkeys, hscripts, hnodup, hdeleted, hkey =>
        exact fourth_key_long hkeys hscripts hnodup hdeleted hkey

end Badis
