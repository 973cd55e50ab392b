import Badis.Store.RaftStore
import Badis.Store.Proofs.BadgerProofs

/-!
# What the raft store reads

The answers of the raft store depend on the entries under `'L'`, on the key `"M"` at which the
reverse cursor of `LastIndex` starts, and on the three stable keys, and on nothing else
(`answers_of_sameRaft`).
-/

namespace Badis

open Lib

/-! ## The keys of the log -/

/-- The keys between the two ends of the log: those with its prefix, and `"M"`. -/
theorem between_log_keys {key : Bytes} (h : [76] ≤ key) (h' : key ≤ [77]) :
    key.head? = some 76 ∨ key = [77] := by
  cases key with
  | nil => exact absurd h (by decide)
  | cons b rest =>
    rw [cons_le_cons_iff_lex] at h h'
    rcases h' with hlt | ⟨rfl, hle⟩
    · rcases h with hgt | ⟨heq, -⟩
      · exfalso
        rw [UInt8.lt_iff_toNat_lt] at hlt hgt
        have h76 : (76 : UInt8).toNat = 76 := rfl
        have h77 : (77 : UInt8).toNat = 77 := rfl
        omega
      · exact Or.inl (by rw [← heq]; rfl)
    · cases rest with
      | nil => exact Or.inr rfl
      | cons c rest => exact absurd hle (not_le.mpr (List.nil_lt_cons c rest))

theorem isPrefixOf_log_iff {key : Bytes} :
    ([76] : Bytes).isPrefixOf key = true ↔ key.head? = some 76 := by
  cases key with
  | nil => simp
  | cons b rest =>
    simp only [List.isPrefixOf, Bool.and_true, beq_iff_eq, List.head?_cons, Option.some.injEq]
    exact eq_comm

/-! ## What the answers depend on -/

/-- The same keys of the log, and the same end of it, are visible. -/
def SameLogKeys (db db' : DB) : Prop :=
  ∀ t key, key.head? = some 76 ∨ key = [77] → (db'.getLive t key).isSome = (db.getLive t key).isSome

theorem SameLogKeys.symm {db db' : DB} (h : SameLogKeys db db') : SameLogKeys db' db :=
  fun t key hkey => (h t key hkey).symm

section Index

variable {t : Nat} {db db' : DB}

theorem SameLogKeys.mem (h : SameLogKeys db db') {key : Bytes} {e : Entry}
    (hkey : key.head? = some 76 ∨ key = [77]) (he : (key, e) ∈ db.liveEntries t) :
    ∃ e', (key, e') ∈ db'.liveEntries t := by
  rw [mem_liveEntries] at he
  obtain ⟨e', he'⟩ := Option.isSome_iff_exists.mp ((h t key hkey).trans (by rw [he]; rfl))
  exact ⟨e', mem_liveEntries.mpr he'⟩

theorem le_of_head {key : Bytes} (h : key.head? = some 76) : [76] ≤ key ∧ key ≤ [77] := by
  cases key with
  | nil => cases h
  | cons b rest =>
    obtain rfl : b = 76 := by simpa using h
    rw [cons_le_cons_iff_lex, cons_le_cons_iff_lex]
    exact ⟨Or.inr ⟨rfl, not_lt.mp (List.not_lt_nil _)⟩, Or.inl (by decide)⟩

/-- The key a forward cursor placed at the log finds, if it is a key of the log. -/
theorem seek_of_sameLogKeys (h : SameLogKeys db db') {key : Bytes} {e : Entry}
    (hkey : key.head? = some 76) (hseek : db.seek t [76] = some (key, e)) :
    ∃ e', db'.seek t [76] = some (key, e') := by
  obtain ⟨hmem, hge, hleast⟩ := seek_eq_some_iff.mp hseek
  obtain ⟨e', he'⟩ := h.mem (Or.inl hkey) hmem
  refine ⟨e', seek_eq_some_iff.mpr ⟨he', hge, fun x hx hxge => ?_⟩⟩
  rcases le_or_gt x.1 [77] with hle | hgt
  · obtain ⟨y, hy⟩ := h.symm.mem (between_log_keys hxge hle) hx
    exact hleast (x.1, y) hy hxge
  · exact (le_of_head hkey).2.trans hgt.le

/-- The key a reverse cursor placed at the end of the log finds, if it is a key of the log. -/
theorem seekReverse_of_sameLogKeys (h : SameLogKeys db db') {key : Bytes} {e : Entry}
    (hkey : key.head? = some 76) (hseek : db.seekReverse t [77] = some (key, e)) :
    ∃ e', db'.seekReverse t [77] = some (key, e') := by
  obtain ⟨hmem, hle, hgreatest⟩ := seekReverse_eq_some_iff.mp hseek
  obtain ⟨e', he'⟩ := h.mem (Or.inl hkey) hmem
  refine ⟨e', seekReverse_eq_some_iff.mpr ⟨he', hle, fun x hx hxle => ?_⟩⟩
  rcases le_or_gt [76] x.1 with hge | hlt
  · obtain ⟨y, hy⟩ := h.symm.mem (between_log_keys hge hxle) hx
    exact hgreatest (x.1, y) hy hxle
  · exact hlt.le.trans (le_of_head hkey).1

/-- A cursor that stands on no key of the log gives no index. -/
theorem indexAt_of_not_log {o : Option (Bytes × Entry)}
    (ho : ∀ key e, o = some (key, e) → key.head? ≠ some 76) : indexAt o = .ok 0 := by
  cases o with
  | none => rfl
  | some x =>
    obtain ⟨key, e⟩ := x
    have hne := fun hp => ho key e rfl (isPrefixOf_log_iff.mp hp)
    simp only [indexAt, if_neg hne]

/-- Cursors that find the same keys of the log give the same index. -/
theorem indexAt_eq {o o' : Option (Bytes × Entry)}
    (h : ∀ key e, key.head? = some 76 → o = some (key, e) → ∃ e', o' = some (key, e'))
    (h' : ∀ key e, key.head? = some 76 → o' = some (key, e) → ∃ e', o = some (key, e')) :
    indexAt o' = indexAt o := by
  by_cases hlog : ∃ key e, key.head? = some 76 ∧ o = some (key, e)
  · obtain ⟨key, e, hkey, ho⟩ := hlog
    obtain ⟨e', ho'⟩ := h key e hkey ho
    rw [ho, ho']
    rfl
  · have hno : ∀ key e, o = some (key, e) → key.head? ≠ some 76 := fun key e ho hkey =>
      hlog ⟨key, e, hkey, ho⟩
    have hno' : ∀ key e, o' = some (key, e) → key.head? ≠ some 76 := by
      intro key e ho' hkey
      obtain ⟨e', ho⟩ := h' key e hkey ho'
      exact hno key e' ho hkey
    rw [indexAt_of_not_log hno, indexAt_of_not_log hno']

theorem firstIndex_eq (h : SameLogKeys db db') : firstIndex t db' = firstIndex t db :=
  indexAt_eq (fun _ _ hkey => seek_of_sameLogKeys h hkey)
    fun _ _ hkey => seek_of_sameLogKeys h.symm hkey

theorem lastIndex_eq (h : SameLogKeys db db') : lastIndex t db' = lastIndex t db :=
  indexAt_eq (fun _ _ hkey => seekReverse_of_sameLogKeys h hkey)
    fun _ _ hkey => seekReverse_of_sameLogKeys h.symm hkey

end Index

/-- The raft store of `db'` answers as that of `db`, at every instant. -/
def RaftAnswersKept (lc : LogCodec) (db db' : DB) : Prop :=
  ∀ t, (∀ i, getLog lc t i db' = getLog lc t i db) ∧ firstIndex t db' = firstIndex t db ∧
    lastIndex t db' = lastIndex t db ∧
    ∀ name ∈ stableKeys, raftGet t name db' = raftGet t name db ∧
      raftGetUint64 t name db' = raftGetUint64 t name db

/-- The keys the answers depend on. -/
def RaftKey (key : Bytes) : Prop :=
  key.head? = some 76 ∨ key = [77] ∨ ∃ name ∈ stableKeys, key = stableKey name

/-- The databases agree on what the raft store reads. -/
def SameRaft (db db' : DB) : Prop := ∀ key, RaftKey key → db'.get? key = db.get? key

theorem answers_of_sameRaft (lc : LogCodec) {db db' : DB} (h : SameRaft db db') :
    RaftAnswersKept lc db db' := by
  have hlive : ∀ t key, RaftKey key → db'.getLive t key = db.getLive t key := by
    intro t key hkey
    rw [DB.getLive, DB.getLive, h key hkey]
  have hkeys : SameLogKeys db db' := by
    intro t key hkey
    rw [hlive t key (hkey.imp_right Or.inl)]
  intro t
  refine ⟨fun i => ?_, firstIndex_eq hkeys, lastIndex_eq hkeys, fun name hname => ?_⟩
  · rw [getLog, getLog, hlive t (logKey i) (Or.inl rfl)]
  · have hget : raftGet t name db' = raftGet t name db := by
      rw [raftGet, raftGet, hlive t (stableKey name) (Or.inr (Or.inr ⟨name, hname, rfl⟩))]
    exact ⟨hget, by rw [raftGetUint64, raftGetUint64, hget]⟩

end Badis
