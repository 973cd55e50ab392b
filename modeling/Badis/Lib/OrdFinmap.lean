import Mathlib.Data.Finmap
import Badis.Lib.OrdMap

/-!
# Ordered maps as finite maps

An ordered map is a finite map with a canonical list of entries; `toFinmap` forgets the order. A
loop that binds or removes keys one after the other and counts the new or the found ones counts a
difference or an intersection with the set of keys.
-/

namespace Lib

namespace OrdMap

variable {α β : Type} [LinearOrder α]

/-- The entries as dependent pairs. -/
def sigmaEntries (m : OrdMap α β) : List (Sigma fun _ : α => β) := m.entries.map fun e => ⟨e.1, e.2⟩

theorem nodupKeys_sigmaEntries (m : OrdMap α β) : m.sigmaEntries.NodupKeys := by
  have hkeys : m.sigmaEntries.keys = m.keys := by
    simp [sigmaEntries, List.keys, keys, Function.comp_def]
  rw [List.NodupKeys, hkeys]
  exact m.keys_nodup

/-- The finite map with the same entries. -/
def toFinmap (m : OrdMap α β) : Finmap fun _ : α => β :=
  (⟨m.sigmaEntries, m.nodupKeys_sigmaEntries⟩ : AList fun _ : α => β).toFinmap

theorem entries_toFinmap (m : OrdMap α β) : m.toFinmap.entries = (m.sigmaEntries : Multiset _) :=
  rfl

theorem keys_toFinmap (m : OrdMap α β) : m.toFinmap.keys.val = (m.keys : Multiset α) := by
  show Multiset.keys m.toFinmap.entries = _
  rw [entries_toFinmap, Multiset.coe_keys]
  simp [sigmaEntries, List.keys, keys, Function.comp_def]

theorem card_keys_toFinmap (m : OrdMap α β) : m.toFinmap.keys.card = m.entries.length := by
  rw [Finset.card_def, keys_toFinmap]
  simp [keys]

@[simp] theorem toFinmap_empty : (empty : OrdMap α β).toFinmap = ∅ := rfl

variable [DecidableEq α]

/-- Forgetting the order does not change what is bound. -/
@[simp] theorem lookup_toFinmap (m : OrdMap α β) (k : α) : m.toFinmap.lookup k = m.get? k := by
  refine Option.ext fun v => ?_
  rw [toFinmap, Finmap.lookup_toFinmap, get?_eq_some_iff]
  refine AList.mem_lookup_iff.trans ?_
  simp [sigmaEntries]

theorem mem_toFinmap {m : OrdMap α β} {k : α} : k ∈ m.toFinmap ↔ m.contains k = true := by
  rw [← Finmap.lookup_isSome, lookup_toFinmap]
  rfl

theorem contains_iff_mem_keys (m : OrdMap α β) (k : α) :
    m.contains k = true ↔ k ∈ m.toFinmap.keys := by
  rw [Finmap.mem_keys, mem_toFinmap]

/-- An ordered map is empty if its finite map is. -/
theorem toFinmap_eq_empty_iff {m : OrdMap α β} : m.toFinmap = ∅ ↔ m.entries = [] := by
  constructor
  · intro h
    cases hentries : m.entries with
    | nil => rfl
    | cons e rest =>
      have hget : m.get? e.1 = some e.2 := get?_eq_some_iff.mpr (hentries ▸ List.mem_cons_self)
      rw [← lookup_toFinmap, h, Finmap.lookup_empty] at hget
      cases hget
  · intro h
    rw [show m = empty from eq_empty_of_entries h, toFinmap_empty]

@[simp] theorem toFinmap_insert (m : OrdMap α β) (k : α) (v : β) :
    (m.insert k v).toFinmap = m.toFinmap.insert k v := by
  refine Finmap.ext_lookup fun k' => ?_
  by_cases hk : k' = k
  · rw [hk, lookup_toFinmap, get?_insert_self, Finmap.lookup_insert]
  · rw [lookup_toFinmap, get?_insert_of_ne m v (Ne.symm hk), Finmap.lookup_insert_of_ne _ hk,
      lookup_toFinmap]

@[simp] theorem toFinmap_erase (m : OrdMap α β) (k : α) :
    (m.erase k).toFinmap = m.toFinmap.erase k := by
  refine Finmap.ext_lookup fun k' => ?_
  by_cases hk : k' = k
  · rw [hk, lookup_toFinmap, get?_erase_self, Finmap.lookup_erase]
  · rw [lookup_toFinmap, get?_erase_of_ne m (Ne.symm hk), Finmap.lookup_erase_ne hk,
      lookup_toFinmap]

theorem keys_insert (m : OrdMap α β) (k : α) (v : β) :
    (m.insert k v).toFinmap.keys = Insert.insert k m.toFinmap.keys := by
  ext k'
  rw [toFinmap_insert, Finmap.mem_keys, Finmap.mem_insert, Finset.mem_insert, Finmap.mem_keys]

theorem keys_erase (m : OrdMap α β) (k : α) :
    (m.erase k).toFinmap.keys = m.toFinmap.keys.erase k := by
  rw [toFinmap_erase, Finmap.keys_erase]

end OrdMap

/-! ## Counting keys one after the other -/

variable {α : Type} [DecidableEq α]

/-- A key counts as new if it was not there. -/
theorem card_insert_sdiff (k : α) (ks s : Finset α) :
    (insert k ks \ s).card = (if k ∈ s then 0 else 1) + (ks \ insert k s).card := by
  by_cases hk : k ∈ s
  · rw [if_pos hk, Finset.insert_sdiff_of_mem _ hk, Finset.insert_eq_of_mem hk, Nat.zero_add]
  · have hsplit : insert k ks \ s = insert k (ks \ insert k s) := by
      ext k'
      by_cases hk' : k' = k <;> simp [hk', hk]
    have hnot : k ∉ ks \ insert k s := by simp
    rw [if_neg hk, hsplit, Finset.card_insert_of_notMem hnot, Nat.add_comm]

/-- A key counts as found if it was there, and is not found again. -/
theorem card_insert_inter (k : α) (ks s : Finset α) :
    (insert k ks ∩ s).card = (if k ∈ s then 1 else 0) + (ks ∩ s.erase k).card := by
  by_cases hk : k ∈ s
  · have hsplit : insert k ks ∩ s = insert k (ks ∩ s.erase k) := by
      ext k'
      by_cases hk' : k' = k <;> simp [hk', hk]
    have hnot : k ∉ ks ∩ s.erase k := by simp
    rw [if_pos hk, hsplit, Finset.card_insert_of_notMem hnot, Nat.add_comm]
  · rw [if_neg hk, Finset.insert_inter_of_notMem hk, Finset.erase_eq_of_notMem hk, Nat.zero_add]

/-- A loop that removes keys and counts those it finds. -/
theorem OrdMap.eraseLoop_eq {β : Type} [LinearOrder α]
    {loop : List α → OrdMap α β → Nat → OrdMap α β × Nat} (hnil : ∀ m n, loop [] m n = (m, n))
    (hcons : ∀ k ks m n, loop (k :: ks) m n =
      if m.contains k then loop ks (m.erase k) (n + 1) else loop ks m n)
    (ks : List α) (m : OrdMap α β) (n : Nat) :
    loop ks m n =
      (ks.foldl (fun m k => m.erase k) m, n + (ks.toFinset ∩ m.toFinmap.keys).card) := by
  induction ks generalizing m n with
  | nil => simp [hnil]
  | cons k ks ih =>
    rw [hcons, List.toFinset_cons, card_insert_inter, List.foldl_cons, ← OrdMap.keys_erase]
    by_cases hk : m.contains k = true
    · rw [if_pos hk, if_pos ((m.contains_iff_mem_keys _).mp hk), ih, Nat.add_assoc]
    · rw [if_neg hk, if_neg fun h => hk ((m.contains_iff_mem_keys _).mpr h),
        OrdMap.erase_of_not_contains hk, ih, Nat.zero_add]

end Lib
