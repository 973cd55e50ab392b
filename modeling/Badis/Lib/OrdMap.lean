import Mathlib.Data.List.Sort
import Mathlib.Order.Basic
import Mathlib.Order.Defs.LinearOrder

/-!
# Finite maps with ordered keys

A finite map kept as the list of its bindings in strictly increasing key order. Two maps with the
same lookups are equal (`OrdMap.ext_get?`), and a cursor over the map sees the bindings in key
order, which is what an embedded ordered store offers: the cursor is positioned at the least key not
below the one given (`head?_dropWhile_eq_some_iff`), and a scan runs on from there.
-/

namespace Lib

/-- A finite map from `α` to `β`: its bindings in strictly increasing key order. -/
structure OrdMap (α β : Type) [LinearOrder α] where
  /-- The bindings. -/
  entries : List (α × β)
  /-- The keys increase strictly, so every key is bound at most once. -/
  sorted : entries.Pairwise (fun a b => a.1 < b.1)
deriving DecidableEq

namespace OrdMap

variable {α β : Type} [LinearOrder α]

/-- The map without bindings. -/
def empty : OrdMap α β := ⟨[], List.Pairwise.nil⟩

instance : Inhabited (OrdMap α β) := ⟨empty⟩

/-- The value bound to `k` in a list of bindings (the first one). -/
def lookup (k : α) : List (α × β) → Option β
  | [] => none
  | (a, b) :: l => if a = k then some b else lookup k l

/-- The value bound to `k`. -/
def get? (m : OrdMap α β) (k : α) : Option β := lookup k m.entries

/-- Whether `k` is bound. -/
def contains (m : OrdMap α β) (k : α) : Bool := (m.get? k).isSome

/-- The keys in increasing order. -/
def keys (m : OrdMap α β) : List α := m.entries.map Prod.fst

/-- Binding `k` to `v` in an ordered list of bindings. -/
def insertEntry (k : α) (v : β) : List (α × β) → List (α × β)
  | [] => [(k, v)]
  | (a, b) :: l =>
    if k < a then (k, v) :: (a, b) :: l
    else if k = a then (k, v) :: l
    else (a, b) :: insertEntry k v l

theorem mem_insertEntry {k : α} {v : β} {x : α × β} {l : List (α × β)}
    (hx : x ∈ insertEntry k v l) : x = (k, v) ∨ x ∈ l := by
  induction l with
  | nil => exact Or.inl (by simpa [insertEntry] using hx)
  | cons e l ih =>
    obtain ⟨a, b⟩ := e
    simp only [insertEntry] at hx
    split_ifs at hx with h1 h2
    · rcases List.mem_cons.mp hx with h | h
      · exact Or.inl h
      · exact Or.inr h
    · rcases List.mem_cons.mp hx with h | h
      · exact Or.inl h
      · exact Or.inr (List.mem_cons_of_mem _ h)
    · rcases List.mem_cons.mp hx with h | h
      · exact Or.inr (h ▸ List.mem_cons_self)
      · rcases ih h with h | h
        · exact Or.inl h
        · exact Or.inr (List.mem_cons_of_mem _ h)

/-- Insertion keeps the entries sorted. -/
theorem insertEntry_sorted (k : α) (v : β) {l : List (α × β)}
    (h : l.Pairwise (fun a b => a.1 < b.1)) :
    (insertEntry k v l).Pairwise (fun a b => a.1 < b.1) := by
  induction l with
  | nil => simp [insertEntry]
  | cons e l ih =>
    obtain ⟨a, b⟩ := e
    obtain ⟨hhead, htail⟩ := List.pairwise_cons.mp h
    simp only [insertEntry]
    split_ifs with h1 h2
    · refine List.pairwise_cons.mpr ⟨fun x hx => ?_, h⟩
      rcases List.mem_cons.mp hx with rfl | hx
      · exact h1
      · exact h1.trans (hhead x hx)
    · subst h2
      exact List.pairwise_cons.mpr ⟨hhead, htail⟩
    · refine List.pairwise_cons.mpr ⟨fun x hx => ?_, ih htail⟩
      rcases mem_insertEntry hx with rfl | hx
      · exact lt_of_le_of_ne (not_lt.mp h1) (Ne.symm h2)
      · exact hhead x hx

/-- Binding `k` to `v`, over any earlier binding of `k`. -/
def insert (m : OrdMap α β) (k : α) (v : β) : OrdMap α β :=
  ⟨insertEntry k v m.entries, insertEntry_sorted k v m.sorted⟩

/-- Removing the bindings that fail `p`. -/
def filter (p : α × β → Bool) (m : OrdMap α β) : OrdMap α β :=
  ⟨m.entries.filter p, m.sorted.filter p⟩

/-- Removing the binding of `k`. -/
def erase (m : OrdMap α β) (k : α) : OrdMap α β := m.filter (fun e => e.1 ≠ k)

/-! ## Lookups -/

/-- Among sorted entries a lookup finds what is there. -/
theorem lookup_eq_some_iff {k : α} {v : β} {l : List (α × β)}
    (h : l.Pairwise (fun a b => a.1 < b.1)) : lookup k l = some v ↔ (k, v) ∈ l := by
  induction l with
  | nil => simp [lookup]
  | cons e l ih =>
    obtain ⟨a, b⟩ := e
    obtain ⟨hhead, htail⟩ := List.pairwise_cons.mp h
    simp only [lookup, List.mem_cons, Prod.mk.injEq]
    split_ifs with hak
    · subst hak
      refine ⟨fun hv => Or.inl ⟨rfl, (Option.some.inj hv).symm⟩, ?_⟩
      rintro (⟨-, rfl⟩ | hmem)
      · rfl
      · exact absurd (hhead _ hmem) (lt_irrefl _)
    · rw [ih htail]
      exact ⟨Or.inr, fun hv => hv.resolve_left fun he => hak he.1.symm⟩

theorem get?_eq_some_iff {m : OrdMap α β} {k : α} {v : β} :
    m.get? k = some v ↔ (k, v) ∈ m.entries :=
  lookup_eq_some_iff m.sorted

@[simp] theorem get?_empty (k : α) : (empty : OrdMap α β).get? k = none := rfl

theorem lookup_insertEntry (k k' : α) (v : β) {l : List (α × β)}
    (h : l.Pairwise (fun a b => a.1 < b.1)) :
    lookup k' (insertEntry k v l) = if k = k' then some v else lookup k' l := by
  induction l with
  | nil => simp [insertEntry, lookup]
  | cons e l ih =>
    obtain ⟨a, b⟩ := e
    simp only [insertEntry]
    split_ifs with h1 h2 h3 h4 h5
    · simp [lookup, h2]
    · simp [lookup, h2]
    · simp [lookup, h4]
    · subst h3; simp [lookup, h4]
    · subst h5
      have hak : a ≠ k := fun e => h3 e.symm
      simp only [lookup, if_neg hak]
      rw [ih (List.pairwise_cons.mp h).2, if_pos rfl]
    · simp only [lookup]
      rw [ih (List.pairwise_cons.mp h).2, if_neg h5]

theorem get?_insert (m : OrdMap α β) (k k' : α) (v : β) [Decidable (k = k')] :
    (m.insert k v).get? k' = if k = k' then some v else m.get? k' := by
  refine (lookup_insertEntry k k' v m.sorted).trans ?_
  split_ifs <;> rfl

@[simp] theorem get?_insert_self (m : OrdMap α β) (k : α) (v : β) :
    (m.insert k v).get? k = some v := by
  rw [get?_insert, if_pos rfl]

theorem get?_insert_of_ne (m : OrdMap α β) {k k' : α} (v : β) (h : k ≠ k') :
    (m.insert k v).get? k' = m.get? k' := by
  rw [get?_insert, if_neg h]

/-- A filter drops bindings by key and value. -/
theorem get?_filter (m : OrdMap α β) (p : α × β → Bool) (k : α) :
    (m.filter p).get? k = (m.get? k).filter (fun v => p (k, v)) := by
  apply Option.ext
  intro v
  rw [get?_eq_some_iff, Option.filter_eq_some_iff, get?_eq_some_iff]
  exact List.mem_filter

theorem get?_erase (m : OrdMap α β) (k k' : α) [Decidable (k = k')] :
    (m.erase k).get? k' = if k = k' then none else m.get? k' := by
  rw [erase, get?_filter]
  by_cases h : k = k'
  · subst h
    cases m.get? k <;> simp
  · have h' : k' ≠ k := fun e => h e.symm
    cases m.get? k' <;> simp [h, h']

@[simp] theorem get?_erase_self (m : OrdMap α β) (k : α) : (m.erase k).get? k = none := by
  rw [get?_erase, if_pos rfl]

theorem get?_erase_of_ne (m : OrdMap α β) {k k' : α} (h : k ≠ k') :
    (m.erase k).get? k' = m.get? k' := by
  rw [get?_erase, if_neg h]

/-- A map is determined by its lookups. -/
theorem ext_get? {m m' : OrdMap α β} (h : ∀ k, m.get? k = m'.get? k) : m = m' := by
  obtain ⟨l, hl⟩ := m
  obtain ⟨l', hl'⟩ := m'
  have hnd : ∀ {l : List (α × β)}, l.Pairwise (fun a b => a.1 < b.1) → l.Nodup := fun hl =>
    hl.imp fun hab e => absurd (e ▸ hab) (lt_irrefl _)
  have hmem : ∀ x, x ∈ l ↔ x ∈ l' := fun x => by
    rw [← Prod.mk.eta (p := x), ← lookup_eq_some_iff hl, ← lookup_eq_some_iff hl']
    exact Eq.congr_left (h x.1)
  have hperm : l.Perm l' := (List.perm_ext_iff_of_nodup (hnd hl) (hnd hl')).mpr hmem
  have heq : l = l' :=
    hperm.eq_of_pairwise (fun a b _ _ hab hba => absurd hab (lt_asymm hba)) hl hl'
  subst heq
  rfl

/-- Binding a list of distinct keys in turn. -/
theorem get?_foldl_insert {l : List (α × β)}
    (hnd : (l.map Prod.fst).Nodup) (m : OrdMap α β) {k : α} {v : β} :
    (l.foldl (fun m p => m.insert p.1 p.2) m).get? k = some v ↔
      (k, v) ∈ l ∨ k ∉ l.map Prod.fst ∧ m.get? k = some v := by
  induction l generalizing m with
  | nil => simp
  | cons e l ih =>
    obtain ⟨a, b⟩ := e
    rw [List.map_cons, List.nodup_cons] at hnd
    rw [List.foldl_cons, ih hnd.2, OrdMap.get?_insert]
    by_cases hak : a = k
    · subst hak
      have hnotin : (a, v) ∉ l := fun h => hnd.1 (List.mem_map.mpr ⟨_, h, rfl⟩)
      simp [hnotin, hnd.1, eq_comm]
    · have hka : ¬ k = a := fun h => hak h.symm
      simp [hak, hka]

/-- Removing a list of keys in turn. -/
theorem get?_foldl_erase (l : List α) (m : OrdMap α β) (k : α) [∀ l : List α, Decidable (k ∈ l)] :
    (l.foldl (fun m a => m.erase a) m).get? k = if k ∈ l then none else m.get? k := by
  induction l generalizing m with
  | nil => simp
  | cons a l ih =>
    rw [List.foldl_cons, ih, get?_erase]
    by_cases hk : a = k
    · simp [hk]
    · have hk' : ¬ k = a := fun h => hk h.symm
      simp only [hk, if_false, List.mem_cons, hk', false_or]

theorem eq_empty_of_entries {m : OrdMap α β} (h : m.entries = []) : m = empty := by
  obtain ⟨l, hl⟩ := m
  cases h
  rfl

/-- Removing a key that is not there changes nothing. -/
theorem erase_of_not_contains {m : OrdMap α β} {k : α} (h : ¬ m.contains k = true) :
    m.erase k = m := by
  refine ext_get? fun k' => ?_
  rw [get?_erase]
  split_ifs with hk
  · subst hk
    exact (Option.not_isSome_iff_eq_none.mp h).symm
  · rfl

/-- A map with a binding is not empty. -/
theorem entries_ne_nil {m : OrdMap α β} {k : α} {v : β} (h : m.get? k = some v) :
    m.entries ≠ [] := by
  intro hnil
  have hmem : (k, v) ∈ m.entries := get?_eq_some_iff.mp h
  rw [hnil] at hmem
  cases hmem

theorem mem_keys {m : OrdMap α β} {k : α} : k ∈ m.keys ↔ ∃ v, m.get? k = some v := by
  simp only [keys, List.mem_map, get?_eq_some_iff]
  constructor
  · rintro ⟨⟨a, b⟩, hab, rfl⟩
    exact ⟨b, hab⟩
  · rintro ⟨v, hv⟩
    exact ⟨(k, v), hv, rfl⟩

theorem keys_nodup (m : OrdMap α β) : m.keys.Nodup := by
  rw [keys, List.Nodup, List.pairwise_map]
  exact m.sorted.imp fun hab => ne_of_lt hab

end OrdMap

/-! ## Cursors -/

/-- In a list ordered by `r`, the first element after those that satisfy `p` is the `r`-least one
that does not satisfy it. -/
theorem head?_dropWhile_eq_some_iff {γ : Type} {r : γ → γ → Prop} {p : γ → Bool} {l : List γ}
    (hl : l.Pairwise r) (hasymm : ∀ a b, r a b → ¬ r b a) {e : γ} :
    (l.dropWhile p).head? = some e ↔ e ∈ l ∧ p e = false ∧ ∀ e' ∈ l, p e' = false →
      e' = e ∨ r e e' := by
  induction l with
  | nil => simp
  | cons a l ih =>
    obtain ⟨hhead, htail⟩ := List.pairwise_cons.mp hl
    cases hp : p a with
    | true =>
      have hne : p e = false → e ≠ a := by
        rintro he rfl
        rw [hp] at he
        cases he
      rw [List.dropWhile_cons, hp, if_pos rfl, ih htail]
      constructor
      · rintro ⟨hmem, he, hleast⟩
        refine ⟨List.mem_cons_of_mem _ hmem, he, fun e' he' hpe' => ?_⟩
        rcases List.mem_cons.mp he' with rfl | he'
        · rw [hp] at hpe'
          cases hpe'
        · exact hleast e' he' hpe'
      · rintro ⟨hmem, he, hleast⟩
        refine ⟨(List.mem_cons.mp hmem).resolve_left (hne he), he, fun e' he' => ?_⟩
        exact hleast e' (List.mem_cons_of_mem _ he')
    | false =>
      rw [List.dropWhile_cons, hp, if_neg (by simp), List.head?_cons]
      constructor
      · rintro ⟨rfl⟩
        refine ⟨List.mem_cons_self, hp, fun e' he' _ => ?_⟩
        rcases List.mem_cons.mp he' with rfl | he'
        · exact Or.inl rfl
        · exact Or.inr (hhead e' he')
      · rintro ⟨hmem, he, hleast⟩
        rcases List.mem_cons.mp hmem with rfl | hmem
        · rfl
        · rcases hleast a List.mem_cons_self hp with rfl | hea
          · rfl
          · exact absurd hea (hasymm _ _ (hhead e hmem))

end Lib
