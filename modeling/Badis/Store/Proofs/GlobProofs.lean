import Badis.Store.Reads
import Badis.Store.Proofs.CheckedProofs
import Badis.Store.Proofs.EffectProofs

/-!
# The indices of `redisGlobMatch`

The matcher with indices computes what the matcher on suffixes does, and never indexes out of range
(`redisGlobMatchChecked_eq`).
-/

namespace Badis

open Lib

/-! ## Indices and suffixes -/

theorem goIndex_of_drop {α : Type} {l rest : List α} {i : Nat} {a : α} (h : l.drop i = a :: rest) :
    goIndex l (i : Int) = .ok a := by
  refine goIndex_natCast ?_
  have hget : (l.drop i)[0]? = some a := by rw [h]; rfl
  simpa using hget

theorem drop_succ_of_drop {α : Type} {l rest : List α} {i : Nat} {a : α}
    (h : l.drop i = a :: rest) :
    l.drop (i + 1) = rest := by
  rw [← List.drop_drop, h]
  rfl

theorem goIndex_of_drop_take {α : Type} {l rest : List α} {i n : Nat} {a : α}
    (h : (l.take n).drop i = a :: rest) : goIndex l (i : Int) = .ok a := by
  refine goIndex_natCast ?_
  have hget : ((l.take n).drop i)[0]? = some a := by rw [h]; rfl
  rw [List.getElem?_drop, Nat.add_zero] at hget
  obtain ⟨hlt, -⟩ := List.getElem?_eq_some_iff.mp hget
  rw [List.length_take] at hlt
  rw [List.getElem?_take_of_lt (by omega)] at hget
  exact hget

theorem lt_length_of_drop {α : Type} {l rest : List α} {i : Nat} {a : α}
    (h : l.drop i = a :: rest) :
    i < l.length := by
  by_contra hge
  rw [List.drop_of_length_le (not_lt.mp hge)] at h
  cases h

theorem drop_takeWhile_length {α : Type} (p : α → Bool) (l : List α) :
    l.drop (l.takeWhile p).length = l.dropWhile p := by
  have hsplit : l.takeWhile p ++ l.dropWhile p = l := List.takeWhile_append_dropWhile
  calc l.drop (l.takeWhile p).length
      = (l.takeWhile p ++ l.dropWhile p).drop (l.takeWhile p).length := by rw [hsplit]
    _ = l.dropWhile p := List.drop_left

/-! ## The loops -/

/-- A scan stops behind the elements that satisfy `p`. -/
theorem scanFrom_eq (p : UInt8 → Bool) (pattern : Bytes) {rounds i : Nat}
    (h : pattern.length ≤ i + rounds) :
    scanFrom p pattern rounds i = .ok (i + ((pattern.drop i).takeWhile p).length) := by
  induction rounds generalizing i with
  | zero =>
    have hnil : pattern.drop i = [] := List.drop_of_length_le h
    rw [scanFrom, hnil]
    rfl
  | succ rounds ih =>
    rw [scanFrom]
    cases hdrop : pattern.drop i with
    | nil =>
      have hi : ¬ i < pattern.length := not_lt.mpr (List.drop_eq_nil_iff.mp hdrop)
      rw [if_neg hi]
      rfl
    | cons b rest =>
      rw [if_pos (lt_length_of_drop hdrop), goIndex_of_drop hdrop]
      show (if p b then scanFrom p pattern rounds (i + 1) else .ok i) = _
      have hih : scanFrom p pattern rounds (i + 1) = .ok (i + 1 + (rest.takeWhile p).length) := by
        rw [ih (by omega), drop_succ_of_drop hdrop]
      by_cases hb : p b
      · rw [if_pos hb, hih, List.takeWhile_cons_of_pos hb, List.length_cons]
        congr 1
        omega
      · rw [if_neg hb, List.takeWhile_cons_of_neg hb]
        rfl

/-- The loop over a class is the match of the listed bytes. -/
theorem classLoop_eq (c : UInt8) (pattern : Bytes) {stop : Nat} (hstop : stop ≤ pattern.length)
    {rounds i : Nat} (h : stop ≤ i + rounds) (matched : Bool) :
    classLoop c pattern stop rounds i matched =
      .ok (matched || classMatch c ((pattern.take stop).drop i)) := by
  have hlen : (pattern.take stop).length = stop := by
    rw [List.length_take]
    omega
  induction rounds generalizing i matched with
  | zero =>
    have hnil : (pattern.take stop).drop i = [] := List.drop_of_length_le (by omega)
    rw [classLoop, hnil, classMatch, Bool.or_false]
  | succ rounds ih =>
    rw [classLoop]
    cases hdrop : (pattern.take stop).drop i with
    | nil =>
      have hi : stop ≤ i := hlen ▸ List.drop_eq_nil_iff.mp hdrop
      rw [if_neg (not_lt.mpr hi), classMatch, Bool.or_false]
    | cons b rest =>
      have hi : i < stop := hlen ▸ lt_length_of_drop hdrop
      have hnext := drop_succ_of_drop hdrop
      rw [if_pos hi, goIndex_of_drop_take hdrop]
      -- a byte that is no lower end of a range
      have hbyte : (∀ hi rest', rest ≠ 45 :: hi :: rest') →
          classLoop c pattern stop rounds (i + 1) (matched || decide (c = b)) =
            .ok (matched || classMatch c (b :: rest)) := by
        intro hrange
        rw [ih (by omega), hnext, classMatch.eq_2 c b rest fun hi rest' hr => hrange hi rest' hr,
          Bool.or_assoc]
      have hleft : stop - i = rest.length + 1 := by
        rw [← hlen, ← List.length_drop, hdrop, List.length_cons]
      by_cases hmore : i + 2 < stop
      · rcases rest with _ | ⟨d, _ | ⟨hi', rest⟩⟩
        · simp only [List.length_nil] at hleft
          omega
        · simp only [List.length_cons, List.length_nil] at hleft
          omega
        · have hnext' := drop_succ_of_drop hnext
          rw [if_pos hmore, goIndex_of_drop_take hnext]
          show (if d = 45 then _ else _) = _
          by_cases hd : d = 45
          · subst hd
            rw [if_pos rfl, goIndex_of_drop_take hnext']
            show classLoop c pattern stop rounds (i + 3) _ = _
            rw [ih (by omega), drop_succ_of_drop hnext', classMatch, Bool.or_assoc]
          · rw [if_neg hd]
            refine hbyte fun hi rest' hr => hd ?_
            cases hr
            rfl
      · rw [if_neg hmore]
        refine hbyte fun hi rest' hr => ?_
        rw [hr, List.length_cons, List.length_cons] at hleft
        omega

/-- The positions of the text are tried in order. -/
theorem starLoop_eq {rest : Nat → Except Err Bool} {rest' : Bytes → Except Err Bool} {text : Bytes}
    (h : ∀ i, i ≤ text.length → rest i = rest' (text.drop i)) {ti : Nat} (hti : ti ≤ text.length) :
    starLoop rest (text.length + 1 - ti) ti = globStar rest' (text.drop ti) := by
  generalize hn : text.length - ti = n
  induction n generalizing ti with
  | zero =>
    have hrounds : text.length + 1 - ti = 1 := by omega
    have hnil : text.drop ti = [] := List.drop_of_length_le (by omega)
    rw [hrounds, hnil, starLoop, h ti hti, hnil, globStar]
    split
    · rename_i hr
      rw [hr]
      rfl
    · rfl
  | succ n ih =>
    have hrounds : text.length + 1 - ti = (text.length + 1 - (ti + 1)) + 1 := by omega
    rw [hrounds, starLoop, h ti hti, ih (by omega) (by omega)]
    cases hdrop : text.drop ti with
    | nil =>
      have := List.drop_eq_nil_iff.mp hdrop
      omega
    | cons a rest'' => rw [globStar, drop_succ_of_drop hdrop]

/-! ## The matcher -/

theorem decide_eq_length_iff {text : Bytes} {ti : Nat} (h : ti ≤ text.length) :
    decide (ti = text.length) = decide (text.drop ti = []) := by
  refine decide_eq_decide.mpr ?_
  rw [List.drop_eq_nil_iff]
  omega

section Cases

variable (rounds : Nat) (rest text : Bytes)

/-- Stars in a row are one star, and a star at the end matches everything. -/
theorem globFrom_star : globFrom (rounds + 1) (42 :: rest) text =
    if rest.dropWhile (fun b => b = 42) = [] then .ok true
    else globStar (globFrom rounds (rest.dropWhile fun b => b = 42)) text := by
  cases text <;> rfl

theorem globFrom_any : globFrom (rounds + 1) (63 :: rest) text =
    match text with
    | [] => .ok false
    | _ :: text => globFrom rounds rest text := by
  cases text <;> rfl

/-- A class that is not closed makes a bad pattern. -/
theorem globFrom_class : globFrom (rounds + 1) (91 :: rest) text =
    match rest.dropWhile (fun b => b ≠ 93), text with
    | [], _ => .error .badPattern
    | _ :: _, [] => .ok false
    | _ :: pattern, c :: text =>
      let listed := rest.takeWhile fun b => b ≠ 93
      let negated := listed.head? = some 94
      if classMatch c (if negated then listed.tail else listed) = negated then .ok false
      else globFrom rounds pattern text := by
  cases text <;> rfl

/-- A backslash makes the next byte stand for itself; at the end it makes a bad pattern. -/
theorem globFrom_byte {p : UInt8} (h : p ≠ 42) (h' : p ≠ 63) (h'' : p ≠ 91) :
    globFrom (rounds + 1) (p :: rest) text =
      match (if p = 92 then rest else p :: rest), text with
      | [], _ => .error .badPattern
      | _ :: _, [] => .ok false
      | b :: pattern, c :: text => if b = c then globFrom rounds pattern text else .ok false := by
  cases text <;> simp only [globFrom, if_neg h, if_neg h', if_neg h''] <;> rfl

end Cases

section Step

variable {pattern text rest : Bytes} {rounds pi ti : Nat}

/-- Where a scan stops, the pattern goes on with what is left of it. -/
theorem drop_scan {i : Nat} (p : UInt8 → Bool) (h : pattern.drop i = rest) :
    pattern.drop (i + (rest.takeWhile p).length) = rest.dropWhile p := by
  rw [← List.drop_drop, h, drop_takeWhile_length]

theorem scan_le {i : Nat} (p : UInt8 → Bool) (h : pattern.drop i = rest) (hi : i ≤ pattern.length) :
    i + (rest.takeWhile p).length ≤ pattern.length := by
  have hle := (List.takeWhile_sublist p (l := rest)).length_le
  have hlen : rest.length = pattern.length - i := by rw [← h, List.length_drop]
  omega

variable (ih : ∀ {pi ti : Nat}, pattern.length ≤ pi + rounds → ti ≤ text.length →
  globAt pattern text rounds pi ti = globFrom rounds (pattern.drop pi) (text.drop ti))

include ih in
/-- The matcher by indices at a star does what the matcher by suffixes does. -/
theorem globAt_star (hp : pattern.drop pi = 42 :: rest) (hpi : pattern.length ≤ pi + (rounds + 1))
    (hti : ti ≤ text.length) :
    globAt pattern text (rounds + 1) pi ti = globFrom (rounds + 1) (42 :: rest) (text.drop ti) := by
  have hlt := lt_length_of_drop hp
  have hwhile : ((42 : UInt8) :: rest).takeWhile (fun b => b = 42) =
      42 :: rest.takeWhile (fun b => b = 42) := rfl
  have hstop := drop_scan (fun b => b = 42) hp
  have hle := scan_le (fun b => b = 42) hp hlt.le
  have hdrop : ((42 : UInt8) :: rest).dropWhile (fun b => b = 42) = rest.dropWhile fun b =>
    b = 42 := rfl
  rw [globAt, if_pos hlt, goIndex_of_drop hp, globFrom_star]
  dsimp only [bind, Except.bind]
  rw [if_pos rfl, scanFrom_eq _ pattern (Nat.le_add_left _ _), hp]
  dsimp only
  rw [hdrop] at hstop
  generalize hpi' : pi + (((42 : UInt8) :: rest).takeWhile fun b => b = 42).length =
    pi' at hstop hle ⊢
  have hgt : pi + 1 ≤ pi' := by
    rw [← hpi', hwhile, List.length_cons]
    omega
  by_cases hend : rest.dropWhile (fun b => b = 42) = []
  · have hlen : pi' = pattern.length := by
      rw [hend, List.drop_eq_nil_iff] at hstop
      omega
    rw [if_pos hend, if_pos hlen]
  · have hlen : pi' ≠ pattern.length := by
      rintro rfl
      rw [List.drop_length] at hstop
      exact hend hstop.symm
    rw [if_neg hend, if_neg hlen, ← hstop]
    exact starLoop_eq (fun i hi => ih (by omega) hi) hti

include ih in
theorem globAt_byte {p : UInt8} (hp : pattern.drop pi = p :: rest)
    (hpi : pattern.length ≤ pi + (rounds + 1)) (h : p ≠ 42) (h' : p ≠ 63) (h'' : p ≠ 91) :
    globAt pattern text (rounds + 1) pi ti = globFrom (rounds + 1) (p :: rest) (text.drop ti) := by
  have hlt := lt_length_of_drop hp
  rw [globAt, if_pos hlt, goIndex_of_drop hp, globFrom_byte _ _ _ h h' h'']
  dsimp only [bind, Except.bind]
  rw [if_neg h, if_neg h', if_neg h'']
  -- the byte to match is `p`, or the one after the backslash
  have hbyte : pattern.drop (if p = 92 then pi + 1 else pi) = if p = 92 then rest
      else p :: rest := by
    split_ifs
    · exact drop_succ_of_drop hp
    · exact hp
  have hbound : pi ≤ if p = 92 then pi + 1 else pi := by split_ifs <;> omega
  have hbound' : (if p = 92 then pi + 1 else pi) ≤ pattern.length := by split_ifs <;> omega
  generalize (if p = 92 then pi + 1 else pi) = pi' at hbyte hbound hbound' ⊢
  cases hrest : (if p = 92 then rest else p :: rest) with
  | nil =>
    rw [hrest, List.drop_eq_nil_iff] at hbyte
    rw [if_pos (by omega)]
  | cons b rest' =>
    rw [hrest] at hbyte
    have hlt' := lt_length_of_drop hbyte
    rw [if_neg hlt'.ne]
    cases ht : text.drop ti with
    | nil => rw [if_pos (List.drop_eq_nil_iff.mp ht)]
    | cons c text' =>
      have htlt := lt_length_of_drop ht
      rw [if_neg (not_le.mpr htlt), goIndex_of_drop hbyte, goIndex_of_drop ht,
        ih (by omega) htlt, drop_succ_of_drop hbyte, drop_succ_of_drop ht]
      simp only [ne_eq, ite_not]

/-- A class is negated by its first byte. -/
theorem head?_class {first : UInt8} {rest' : Bytes} :
    ((first :: rest').takeWhile fun b => b ≠ 93).head? = some 94 ↔ first = 94 := by
  by_cases h : first = 93
  · subst h
    simp
  · rw [List.takeWhile_cons_of_pos (by simpa using h)]
    simp

/-- The listed bytes of a class that starts behind `pi`. -/
theorem class_listed (hp : pattern.drop (pi + 1) = rest) (negated : Bool) :
    (pattern.take (pi + 1 + (rest.takeWhile fun b => b ≠ 93).length)).drop
        (if negated then pi + 2 else pi + 1) =
      if negated then (rest.takeWhile fun b => b ≠ 93).tail
      else rest.takeWhile fun b => b ≠ 93 := by
  have htake : rest.take (rest.takeWhile fun b => b ≠ 93).length = rest.takeWhile fun b => b ≠ 93 :=
    (List.prefix_iff_eq_take.mp (List.takeWhile_prefix _)).symm
  have hlisted : (pattern.take (pi + 1 + (rest.takeWhile fun b => b ≠ 93).length)).drop (pi + 1) =
      rest.takeWhile fun b => b ≠ 93 := by
    rw [List.drop_take, hp, Nat.add_sub_cancel_left, htake]
  cases negated with
  | false => exact hlisted
  | true =>
    show (pattern.take _).drop (pi + 1 + 1) = _
    rw [← List.drop_drop, hlisted]
    simp

include ih in
theorem globAt_class (hp : pattern.drop pi = 91 :: rest)
    (hpi : pattern.length ≤ pi + (rounds + 1)) :
    globAt pattern text (rounds + 1) pi ti = globFrom (rounds + 1) (91 :: rest) (text.drop ti) := by
  have hlt := lt_length_of_drop hp
  have hnext := drop_succ_of_drop hp
  have hstop := drop_scan (fun b => b ≠ 93) hnext
  have hle := scan_le (fun b => b ≠ 93) hnext hlt
  rw [globAt, if_pos hlt, goIndex_of_drop hp, globFrom_class]
  dsimp only [bind, Except.bind]
  rw [if_neg (by decide), if_neg (by decide), if_pos rfl,
    scanFrom_eq _ pattern (Nat.le_add_left _ _), hnext]
  dsimp only
  cases hrest : rest.dropWhile (fun b => b ≠ 93) with
  | nil =>
    rw [hrest, List.drop_eq_nil_iff] at hstop
    rw [if_pos (by omega)]
  | cons x rest' =>
    rw [hrest] at hstop
    rw [if_neg (lt_length_of_drop hstop).ne]
    cases ht : text.drop ti with
    | nil => rw [if_pos (List.drop_eq_nil_iff.mp ht)]
    | cons c text' =>
      have htlt := lt_length_of_drop ht
      obtain ⟨first, rest'', hfirst⟩ : ∃ first rest'', rest = first :: rest'' := by
        cases rest with
        | nil => cases hrest
        | cons first rest'' => exact ⟨first, rest'', rfl⟩
      have hneg : ((rest.takeWhile fun b => b ≠ 93).head? = some 94) = (first = 94) := by
        rw [hfirst]
        exact propext head?_class
      have hlisted := class_listed hnext (decide (first = 94))
      simp only [decide_eq_true_eq] at hlisted
      rw [if_neg (not_le.mpr htlt), goIndex_of_drop (hnext.trans hfirst), goIndex_of_drop ht]
      dsimp only
      rw [classLoop_eq c pattern hle (by omega), hlisted, Bool.false_or,
        ih (by omega) htlt, drop_succ_of_drop hstop, drop_succ_of_drop ht]
      dsimp only
      have hbool : ∀ x : Bool, x = decide (first = 94) ↔ (x = true) = (first = 94) := by
        intro x
        by_cases h : first = 94 <;> simp [h]
      simp only [hneg, hbool]

end Step

/-- The matcher at `pi` and `ti` is the matcher on the suffixes from there on. -/
theorem globAt_eq (pattern text : Bytes) {rounds pi ti : Nat} (hpi : pattern.length ≤ pi + rounds)
    (hti : ti ≤ text.length) :
    globAt pattern text rounds pi ti = globFrom rounds (pattern.drop pi) (text.drop ti) := by
  induction rounds generalizing pi ti with
  | zero => rw [globAt, globFrom, decide_eq_length_iff hti]
  | succ rounds ih =>
    cases hp : pattern.drop pi with
    | nil =>
      have hdone : ¬ pi < pattern.length := not_lt.mpr (List.drop_eq_nil_iff.mp hp)
      rw [globAt, if_neg hdone, globFrom, decide_eq_length_iff hti]
      simp
    | cons p rest =>
      by_cases hstar : p = 42
      · subst hstar
        exact globAt_star ih hp hpi hti
      · by_cases hany : p = 63
        · subst hany
          have hlt := lt_length_of_drop hp
          rw [globAt, if_pos hlt, goIndex_of_drop hp, globFrom_any]
          dsimp only [bind, Except.bind]
          rw [if_neg hstar, if_pos rfl]
          cases ht : text.drop ti with
          | nil => rw [if_pos (List.drop_eq_nil_iff.mp ht)]
          | cons c text' =>
            rw [if_neg (not_le.mpr (lt_length_of_drop ht)),
              ih (by omega) (lt_length_of_drop ht), drop_succ_of_drop hp, drop_succ_of_drop ht]
        · by_cases hclass : p = 91
          · subst hclass
            exact globAt_class ih hp hpi
          · exact globAt_byte ih hp hpi hstar hany hclass

/-- The matcher never indexes out of range. -/
theorem redisGlobMatchChecked_eq (pattern text : Bytes) :
    redisGlobMatchChecked pattern text = redisGlobMatch pattern text :=
  globAt_eq pattern text (Nat.zero_add _).ge (Nat.zero_le _)

/-- `FSM.Keys` cuts the prefix off keys that have one. -/
theorem keysLoopChecked_eq (pattern : Bytes) {items : List (Bytes × Entry)}
    (h : ∀ item ∈ items, item.1 ≠ []) : keysLoopChecked pattern items = keysLoop pattern items := by
  induction items with
  | nil => rfl
  | cons item rest ih =>
    have hlen : 1 ≤ item.1.length := List.length_pos_iff.mpr (h item List.mem_cons_self)
    have hslice : Slice.slice Err.panic item.1 1 item.1.length = .ok (item.1.drop 1) := by
      have hcast := Slice.slice_natCast Err.panic hlen le_rfl
      rw [List.take_length] at hcast
      exact hcast
    rw [keysLoopChecked, keysLoop, hslice, ih fun item' hitem' =>
      h item' (List.mem_cons_of_mem _ hitem')]
    dsimp only [bind, Except.bind]
    rw [redisGlobMatchChecked_eq]

/-- The items under the user prefix have keys of at least one byte. -/
theorem fsmKeysChecked_run (t : Nat) (pattern : Bytes) (db : DB) :
    (fsmKeysChecked t pattern).run db = (fsmKeys t pattern).run db := by
  have hitems : ∀ item ∈ db.scanPrefix t [75], item.1 ≠ [] := by
    intro item hitem hnil
    have hpre := ((mem_scanPrefix db t [75] item).mp hitem).2
    rw [hnil] at hpre
    cases List.prefix_nil.mp hpre
  unfold fsmKeysChecked fsmKeys
  rw [Txn.run_bind, Txn.run_bind]
  simp only [Txn.run_reads, keysLoopChecked_eq pattern hitems]

end Badis
