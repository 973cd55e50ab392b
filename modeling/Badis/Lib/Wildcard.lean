import Mathlib.Computability.Language

/-!
# Patterns with wildcards

A pattern is a list of tokens, each of which stands for any string or for one letter that passes a
test. Its language has the strings that are a piece for each token, one after the other. The lemmas
follow a matcher that reads a text from the left: what a pattern says of the empty text, and of a
letter and a rest.
-/

namespace Lib

variable {α : Type}

/-- A token of a pattern. -/
inductive Token (α : Type) where
  /-- Any string. -/
  | star
  /-- One letter that satisfies `p`. -/
  | letter (p : α → Prop)

/-- The pieces that a token matches. -/
def Token.language : Token α → Language α
  | star => (Set.univ : Set (List α))
  | letter p => { w : List α | ∃ a, p a ∧ w = [a] }

/-- The concatenations of pieces that the tokens match, in order. -/
def patternLanguage (ts : List (Token α)) : Language α := (ts.map Token.language).prod

variable {p : α → Prop} {ts : List (Token α)} {a : α} {w : List α}

theorem mem_patternLanguage_cons {t : Token α} :
    w ∈ patternLanguage (t :: ts) ↔ ∃ u ∈ t.language, ∃ v ∈ patternLanguage ts, u ++ v = w :=
  Language.mem_mul

@[simp] theorem mem_patternLanguage_nil : w ∈ patternLanguage ([] : List (Token α)) ↔ w = [] :=
  Iff.rfl

/-! ## A letter -/

@[simp] theorem nil_mem_letter : [] ∉ patternLanguage (.letter p :: ts) := by
  intro h
  obtain ⟨_, ⟨a, -, rfl⟩, v, -, hv⟩ := mem_patternLanguage_cons.mp h
  cases hv

@[simp] theorem cons_mem_letter :
    a :: w ∈ patternLanguage (.letter p :: ts) ↔ p a ∧ w ∈ patternLanguage ts := by
  rw [mem_patternLanguage_cons]
  constructor
  · rintro ⟨_, ⟨b, hb, rfl⟩, v, hv, heq⟩
    obtain ⟨rfl, rfl⟩ := List.cons.inj heq
    exact ⟨hb, hv⟩
  · rintro ⟨ha, hw⟩
    exact ⟨[a], ⟨a, ha, rfl⟩, w, hw, rfl⟩

/-! ## A wildcard -/

/-- A wildcard leaves some suffix of the text to the rest of the pattern. -/
theorem mem_star_iff :
    w ∈ patternLanguage (.star :: ts) ↔ ∃ v, v <:+ w ∧ v ∈ patternLanguage ts := by
  rw [mem_patternLanguage_cons]
  constructor
  · rintro ⟨u, -, v, hv, rfl⟩
    exact ⟨v, List.suffix_append u v, hv⟩
  · rintro ⟨v, ⟨u, rfl⟩, hv⟩
    exact ⟨u, trivial, v, hv, rfl⟩

@[simp] theorem nil_mem_star : [] ∈ patternLanguage (.star :: ts) ↔ [] ∈ patternLanguage ts := by
  rw [mem_star_iff]
  constructor
  · rintro ⟨v, hsuffix, hv⟩
    rwa [List.suffix_nil.mp hsuffix] at hv
  · intro h
    exact ⟨[], List.suffix_refl _, h⟩

@[simp] theorem cons_mem_star :
    a :: w ∈ patternLanguage (.star :: ts) ↔ a :: w ∈ patternLanguage ts ∨
      w ∈ patternLanguage (.star :: ts) := by
  rw [mem_star_iff, mem_star_iff]
  constructor
  · rintro ⟨v, hsuffix, hv⟩
    rcases List.suffix_cons_iff.mp hsuffix with rfl | hsuffix
    · exact Or.inl hv
    · exact Or.inr ⟨v, hsuffix, hv⟩
  · rintro (h | ⟨v, hsuffix, hv⟩)
    · exact ⟨a :: w, List.suffix_refl _, h⟩
    · exact ⟨v, hsuffix.trans (List.suffix_cons a w), hv⟩

/-- A wildcard at the end matches every text. -/
theorem mem_star_nil (w : List α) : w ∈ patternLanguage [Token.star] :=
  mem_star_iff.mpr ⟨[], List.nil_suffix, rfl⟩

/-- A run of wildcards is one wildcard. -/
theorem mem_star_star :
    w ∈ patternLanguage (.star :: .star :: ts) ↔ w ∈ patternLanguage (.star :: ts) := by
  rw [mem_star_iff]
  constructor
  · rintro ⟨v, hsuffix, hv⟩
    obtain ⟨u, hsuffix', hu⟩ := mem_star_iff.mp hv
    exact mem_star_iff.mpr ⟨u, hsuffix'.trans hsuffix, hu⟩
  · intro h
    exact ⟨w, List.suffix_refl _, h⟩

end Lib
