import Mathlib.Data.List.Basic

/-!
# Slices with bounds checks

Indexing, slicing and allocating as a language with bounds checks does them: an index or a length
out of range ends the computation with the error `panic`. A slice is a list; its capacity is not
modelled, so that a slice expression is checked against the length. An allocation is out of range if
its length is negative or more than a slice can have.
-/

namespace Lib

namespace Slice

variable {α β σ ε : Type} (panic : ε)

/-- `l[i]`. -/
def index (l : List α) (i : Int) : Except ε α :=
  if 0 ≤ i then
    match l[i.toNat]? with
    | some a => .ok a
    | none => .error panic
  else .error panic

/-- `l[i] = a`. -/
def update (l : List α) (i : Int) (a : α) : Except ε (List α) :=
  if 0 ≤ i ∧ i < l.length then .ok (l.set i.toNat a) else .error panic

/-- `l[lo:hi]`. -/
def slice (l : List α) (lo hi : Int) : Except ε (List α) :=
  if 0 ≤ lo ∧ lo ≤ hi ∧ hi ≤ l.length then .ok ((l.take hi.toNat).drop lo.toNat) else .error panic

/-- `make([]α, n)`, where `zero` is the zero value and `maxLen` the greatest length of a slice. -/
def make (maxLen : Nat) (zero : α) (n : Int) : Except ε (List α) :=
  if 0 ≤ n ∧ n ≤ maxLen then .ok (List.replicate n.toNat zero) else .error panic

theorem index_natCast {l : List α} {i : Nat} {a : α} (h : l[i]? = some a) :
    index panic l (i : Int) = .ok a := by
  simp only [index, Int.natCast_nonneg, if_true, Int.toNat_natCast, h]

theorem update_natCast {l : List α} {i : Nat} (h : i < l.length) (a : α) :
    update panic l (i : Int) a = .ok (l.set i a) := by
  have hi : (i : Int) < l.length := by omega
  simp only [update, Int.natCast_nonneg, hi, and_self, if_true, Int.toNat_natCast]

theorem slice_eq_ok {l : List α} {lo hi : Int} (h : 0 ≤ lo ∧ lo ≤ hi ∧ hi ≤ l.length) :
    slice panic l lo hi = .ok ((l.take hi.toNat).drop lo.toNat) := if_pos h

theorem slice_natCast {l : List α} {lo hi : Nat} (h : lo ≤ hi) (h' : hi ≤ l.length) :
    slice panic l (lo : Int) (hi : Int) = .ok ((l.take hi).drop lo) := by
  have hb : (0 : Int) ≤ lo ∧ (lo : Int) ≤ hi ∧ (hi : Int) ≤ l.length := by omega
  exact slice_eq_ok panic hb

theorem make_natCast {maxLen n : Nat} (zero : α) (h : n ≤ maxLen) :
    make panic maxLen zero (n : Int) = .ok (List.replicate n zero) := by
  have hn : (0 : Int) ≤ n ∧ (n : Int) ≤ maxLen := by omega
  rw [make, if_pos hn, Int.toNat_natCast]

variable {panic}

/-- The rule for a loop that counts up to `n`: an invariant of the rounds gives the result. -/
theorem foldlM_range_ok {body : σ → Nat → Except ε σ} (inv : Nat → σ → Prop) {n : Nat} {s : σ}
    (hinit : inv 0 s) (hstep : ∀ i s, i < n → inv i s → ∃ s', body s i = .ok s' ∧ inv (i + 1) s') :
    ∃ s', (List.range n).foldlM body s = .ok s' ∧ inv n s' := by
  induction n with
  | zero => exact ⟨s, rfl, hinit⟩
  | succ n ih =>
    obtain ⟨s', hrun, hinv⟩ := ih fun i s hi => hstep i s (by omega)
    obtain ⟨s'', hbody, hinv'⟩ := hstep n s' (by omega) hinv
    refine ⟨s'', ?_, hinv'⟩
    rw [List.range_succ, List.foldlM_append, hrun]
    show List.foldlM body s' [n] = .ok s''
    rw [List.foldlM_cons, hbody]
    rfl

/-- Filling an allocated slice from the front. -/
theorem fill_range {f : Nat → Except ε α} {g : Nat → α} {n : Nat}
    (hf : ∀ i, i < n → f i = .ok (g i)) (zero : α) :
    (List.range n).foldlM (fun l i => do let a ← f i; update panic l (i : Int) a)
      (List.replicate n zero) = .ok ((List.range n).map g) := by
  have hinv : ∃ l, (List.range n).foldlM (fun l i => do let a ← f i; update panic l (i : Int) a)
      (List.replicate n zero) = .ok l ∧ l = (List.range n).map g ++
        List.replicate (n - n) zero := by
    refine foldlM_range_ok (fun i l => l = (List.range i).map g ++ List.replicate (n - i) zero)
      (by simp) ?_
    rintro i l hi rfl
    refine ⟨_, ?_, rfl⟩
    have hlen : i < ((List.range i).map g ++ List.replicate (n - i) zero).length := by
      simp only [List.length_append, List.length_map, List.length_range, List.length_replicate]
      omega
    show (f i >>= fun a => update panic _ (i : Int) a) = _
    rw [hf i hi]
    show update panic _ (i : Int) (g i) = _
    rw [update_natCast panic hlen, List.set_append_right _ _ (by simp)]
    obtain ⟨m, hm⟩ : ∃ m, n - i = m + 1 := ⟨n - i - 1, by omega⟩
    have hm' : n - (i + 1) = m := by omega
    rw [hm, hm', List.range_succ]
    simp [List.replicate_succ]
  obtain ⟨l, hrun, hl⟩ := hinv
  rw [hrun, hl, Nat.sub_self]
  simp

end Slice

end Lib
