import Badis.Store.Proofs.GlobLanguageProofs

/-!
# Patterns that end too early

A pattern that ends within a class or behind a backslash is an error only for the texts on which the
matcher gets that far: those with a beginning in the language of the tokens before (`globFrom_cut`).
`FSM.Keys` fails if there is such a key, and otherwise returns no keys.
-/

namespace Badis

open Lib

/-- The pattern reads as `ts`, and then ends within a class or behind a backslash. -/
inductive GlobCut : List GlobToken → Bytes → Prop where
  | unclosed {listed : Bytes} (hlisted : 93 ∉ listed) : GlobCut [] (91 :: listed)
  | backslash : GlobCut [] [92]
  | star {ts : List GlobToken} {rest : Bytes}
      (hrest : GlobCut ts rest) : GlobCut (.star :: ts) (42 :: rest)
  | any {ts : List GlobToken} {rest : Bytes} (hrest : GlobCut ts rest) :
      GlobCut (.any :: ts) (63 :: rest)
  | cls {listed : Bytes} {ts : List GlobToken} {rest : Bytes} (hlisted : 93 ∉ listed)
      (hrest : GlobCut ts rest) :
      GlobCut (.cls listed :: ts) (91 :: (listed ++ 93 :: rest))
  | escaped (b : UInt8) {ts : List GlobToken} {rest : Bytes} (hrest : GlobCut ts rest) :
      GlobCut (.byte b :: ts) (92 :: b :: rest)
  | byte {b : UInt8} {ts : List GlobToken} {rest : Bytes} (hb : b ≠ 42 ∧ b ≠ 63 ∧ b ≠ 91 ∧ b ≠ 92)
      (hrest : GlobCut ts rest) : GlobCut (.byte b :: ts) (b :: rest)

/-- Every pattern reads as tokens, all of it or up to where it ends too early. -/
theorem glob_or_cut (pattern : Bytes) : GlobWellFormed pattern ∨ ∃ ts, GlobCut ts pattern := by
  induction hlen : pattern.length using Nat.strong_induction_on generalizing pattern with
  | _ n ih =>
    subst hlen
    rcases pattern with - | ⟨b, rest⟩
    · exact .inl ⟨[], .nil⟩
    -- the rest behind the first token reads the same way
    have hcons : ∀ {rest' : Bytes} (t : GlobToken), rest'.length < (b :: rest).length →
        (∀ ts, Glob ts rest' → Glob (t :: ts) (b :: rest)) →
        (∀ ts, GlobCut ts rest' → GlobCut (t :: ts) (b :: rest)) →
        GlobWellFormed (b :: rest) ∨ ∃ ts, GlobCut ts (b :: rest) := by
      intro rest' t hlt hglob hcut
      rcases ih _ hlt rest' rfl with ⟨ts, hts⟩ | ⟨ts, hts⟩
      · exact .inl ⟨_, hglob ts hts⟩
      · exact .inr ⟨_, hcut ts hts⟩
    by_cases hstar : b = 42
    · subst hstar
      exact hcons .star (by simp) (fun _ => .star) fun _ => .star
    by_cases hany : b = 63
    · subst hany
      exact hcons .any (by simp) (fun _ => .any) fun _ => .any
    by_cases hescape : b = 92
    · subst hescape
      rcases rest with - | ⟨b, rest⟩
      · exact .inr ⟨_, .backslash⟩
      · exact hcons (.byte b) (by rw [List.length_cons, List.length_cons]; omega) (fun _ =>
          .escaped b)
          fun _ => .escaped b
    by_cases hclass : b = 91
    · subst hclass
      by_cases hclosed : 93 ∈ rest
      · obtain ⟨listed, rest', hrest, hlisted⟩ := List.eq_append_cons_of_mem hclosed
        subst hrest
        exact hcons (.cls listed)
          (by rw [List.length_cons, List.length_append, List.length_cons]; omega)
          (fun _ => .cls hlisted) fun _ => .cls hlisted
      · exact .inr ⟨_, .unclosed hclosed⟩
    · have hb : b ≠ 42 ∧ b ≠ 63 ∧ b ≠ 91 ∧ b ≠ 92 := ⟨hstar, hany, hclass, hescape⟩
      exact hcons (.byte b) (by simp) (fun _ => .byte hb) fun _ => .byte hb

/-- A pattern that ends too early does not read as tokens to its end. -/
theorem GlobCut.not_glob {ts ts' : List GlobToken} {pattern : Bytes} (h : GlobCut ts pattern) :
    ¬ Glob ts' pattern := by
  induction h generalizing ts' with
  | unclosed hlisted =>
    intro hglob
    cases hglob with
    | cls => exact hlisted (by simp)
    | byte hb => exact hb.2.2.1 rfl
  | backslash =>
    intro hglob
    cases hglob with
    | byte hb => exact hb.2.2.2 rfl
  | star _ ih =>
    intro hglob
    cases hglob with
    | star hrest => exact ih hrest
    | byte hb => exact hb.1 rfl
  | any _ ih =>
    intro hglob
    cases hglob with
    | any hrest => exact ih hrest
    | byte hb => exact hb.2.1 rfl
  | @cls listed ts rest hlisted _ ih =>
    intro hglob
    generalize hpattern : 91 :: (listed ++ 93 :: rest) = pattern at hglob
    cases hglob with
    | @cls listed' ts' rest' hlisted' hrest =>
      -- both classes end with the first `]`
      have hsame := (split_class hlisted rest).2
      rw [List.tail_eq_of_cons_eq hpattern, (split_class hlisted' rest').2] at hsame
      exact ih (List.tail_eq_of_cons_eq hsame ▸ hrest)
    | byte hb => exact hb.2.2.1 (List.head_eq_of_cons_eq hpattern).symm
    | _ => cases hpattern
  | escaped b _ ih =>
    intro hglob
    cases hglob with
    | escaped _ hrest => exact ih hrest
    | byte hb => exact hb.2.2.2 rfl
  | byte hb _ ih =>
    obtain ⟨hstar, hany, hcls, hescape⟩ := hb
    intro hglob
    cases hglob with
    | byte _ hrest => exact ih hrest
    | star => exact hstar rfl
    | any => exact hany rfl
    | cls => exact hcls rfl
    | escaped => exact hescape rfl

/-! ## The matcher -/

/-- The matcher fails on the texts of the language, and matches none of the others. -/
def FailsOn (run : Bytes → Except Err Bool) (L : Language UInt8) : Prop :=
  ∀ text, (text ∈ L → run text = .error .badPattern) ∧ (text ∉ L → run text = .ok false)

/-- The loop of case `'*'`. -/
theorem globStar_fails {run : Bytes → Except Err Bool} {ts : List (Token UInt8)}
    (h : FailsOn run (patternLanguage ts)) :
    FailsOn (globStar run) (patternLanguage (.star :: ts)) := by
  intro text
  induction text with
  | nil =>
    rw [nil_mem_star]
    exact h []
  | cons c text ih =>
    rw [globStar, cons_mem_star]
    by_cases hmem : c :: text ∈ patternLanguage ts
    · rw [(h _).1 hmem]
      exact ⟨fun _ => rfl, fun hno => absurd (.inl hmem) hno⟩
    · rw [(h _).2 hmem]
      exact ⟨fun hor => ih.1 (hor.resolve_left hmem), fun hno => ih.2 fun hrest => hno (.inr hrest)⟩

/-- A step that reads one byte of the text. -/
theorem fails_letter {run run' : Bytes → Except Err Bool} {p : UInt8 → Prop}
    {ts : List (Token UInt8)} (h : FailsOn run (patternLanguage ts)) (hnil : run' [] = .ok false)
    (hpos : ∀ c text, p c → run' (c :: text) = run text)
    (hneg : ∀ c text, ¬ p c → run' (c :: text) = .ok false) :
    FailsOn run' (patternLanguage (.letter p :: ts)) := by
  intro text
  cases text with
  | nil => exact ⟨fun hmem => absurd hmem nil_mem_letter, fun _ => hnil⟩
  | cons c text =>
    rw [cons_mem_letter]
    by_cases hc : p c
    · rw [hpos c text hc]
      exact ⟨fun hmem => (h text).1 hmem.2, fun hno => (h text).2 fun hmem => hno ⟨hc, hmem⟩⟩
    · exact ⟨fun hmem => absurd hmem.1 hc, fun _ => hneg c text hc⟩

/-- A step that compares one byte. -/
theorem fails_byte {run run' : Bytes → Except Err Bool} {b : UInt8} {ts : List (Token UInt8)}
    (h : FailsOn run (patternLanguage ts)) (hnil : run' [] = .ok false)
    (hcons : ∀ c text, run' (c :: text) = if b = c then run text else .ok false) :
    FailsOn run' (patternLanguage (.letter (fun c => c = b) :: ts)) := by
  refine fails_letter h hnil ?_ ?_
  · rintro c text rfl
    rw [hcons, if_pos rfl]
  · intro c text hc
    rw [hcons, if_neg (Ne.symm hc)]

variable {ts : List GlobToken} {rest : Bytes}

/-- The texts with a beginning in the language of the tokens. -/
def begunBy (ts : List GlobToken) : Language UInt8 := globLanguage (ts ++ [.star])

theorem mem_begunBy_nil (text : Bytes) : text ∈ begunBy [] := mem_star_nil text

theorem GlobCut.ne_nil (h : GlobCut ts rest) : rest ≠ [] := by
  cases h <;> exact List.cons_ne_nil _ _

/-- Behind a wildcard, further wildcards can be skipped. -/
theorem GlobCut.skip_stars (h : GlobCut ts rest) :
    ∃ ts', GlobCut ts' (rest.dropWhile fun b => b = 42) ∧
      begunBy (.star :: ts') = begunBy (.star :: ts) := by
  induction h with
  | star hrest ih =>
    obtain ⟨ts', hcut, hsame⟩ := ih
    refine ⟨ts', hcut, hsame.trans (Set.ext fun text => ?_)⟩
    exact mem_star_star.symm
  | unclosed hlisted => exact ⟨_, .unclosed hlisted, rfl⟩
  | backslash => exact ⟨_, .backslash, rfl⟩
  | any hrest => exact ⟨_, .any hrest, rfl⟩
  | cls hlisted hrest => exact ⟨_, .cls hlisted hrest, rfl⟩
  | escaped b hrest => exact ⟨_, .escaped b hrest, rfl⟩
  | byte hb hrest =>
    refine ⟨_, ?_, rfl⟩
    rw [List.dropWhile_cons_of_neg (by simp [hb.1])]
    exact .byte hb hrest

/-- The matcher on a pattern that ends too early. -/
theorem globFrom_cut {pattern : Bytes} (h : GlobCut ts pattern) {rounds : Nat}
    (hrounds : pattern.length ≤ rounds) :
    FailsOn (globFrom rounds pattern) (begunBy ts) := by
  induction rounds generalizing pattern ts with
  | zero => exact absurd (List.length_eq_zero_iff.mp (Nat.le_zero.mp hrounds)) h.ne_nil
  | succ rounds ih =>
    cases h with
    | @unclosed listed hlisted =>
      intro text
      have hend : listed.dropWhile (fun b => b ≠ 93) = [] :=
        List.dropWhile_eq_nil_iff.mpr fun b hb => decide_eq_true fun heq => hlisted (heq ▸ hb)
      refine ⟨fun _ => ?_, fun hno => absurd (mem_begunBy_nil text) hno⟩
      rw [globFrom_class, hend]
    | backslash =>
      intro text
      refine ⟨fun _ => ?_, fun hno => absurd (mem_begunBy_nil text) hno⟩
      exact globFrom_byte _ _ _ (by decide) (by decide) (by decide)
    | star hrest =>
      obtain ⟨ts', hcut, hsame⟩ := hrest.skip_stars
      have hlen := (List.dropWhile_sublist (fun b : UInt8 => b = 42) (l := _)).length_le.trans
        (Nat.le_of_succ_le_succ hrounds)
      have hstar := globStar_fails (ih hcut hlen)
      intro text
      rw [globFrom_star, ← hsame, if_neg hcut.ne_nil]
      exact hstar text
    | any hrest =>
      refine fails_letter (ih hrest (Nat.le_of_succ_le_succ hrounds)) (globFrom_any _ _ _) ?_ ?_
      · intro c text _
        exact globFrom_any _ _ _
      · intro c text hc
        exact absurd trivial hc
    | @cls listed ts rest hlisted hrest =>
      rw [List.length_cons, List.length_append, List.length_cons] at hrounds
      obtain ⟨htake, hdrop⟩ := split_class hlisted rest
      have hclass : begunBy (.cls listed :: ts) =
          patternLanguage (_ :: (ts ++ [GlobToken.star]).map GlobToken.token) :=
        congrArg (fun t => patternLanguage (t :: (ts ++ [GlobToken.star]).map GlobToken.token))
          (token_cls listed)
      rw [hclass]
      refine fails_letter (ih hrest (by omega)) ?_ ?_ ?_
      · rw [globFrom_class, hdrop]
      · intro c text hc
        rw [globFrom_class, htake, hdrop]
        exact if_neg hc
      · intro c text hc
        rw [globFrom_class, htake, hdrop]
        exact if_pos (not_not.mp hc)
    | escaped b hrest =>
      rw [List.length_cons, List.length_cons] at hrounds
      refine fails_byte (ih hrest (by omega)) ?_ ?_
      · exact globFrom_byte _ _ _ (by decide) (by decide) (by decide)
      · intro c text
        exact globFrom_byte _ _ _ (by decide) (by decide) (by decide)
    | byte hb hrest =>
      obtain ⟨hstar, hany, hcls, hescape⟩ := hb
      refine fails_byte (ih hrest (Nat.le_of_succ_le_succ hrounds)) ?_ ?_
      · rw [globFrom_byte _ _ _ hstar hany hcls, if_neg hescape]
      · intro c text
        rw [globFrom_byte _ _ _ hstar hany hcls, if_neg hescape]

/-! ## KEYS -/

/-- The loop of `FSM.Keys`. -/
theorem keysLoop_cut {pattern : Bytes} {L : Language UInt8} (h : FailsOn (redisGlobMatch pattern) L)
    (items : List (Bytes × Entry)) :
    ((∃ item ∈ items, item.1.drop 1 ∈ L) → keysLoop pattern items = .error .badPattern) ∧
      ((∀ item ∈ items, item.1.drop 1 ∉ L) → keysLoop pattern items = .ok []) := by
  induction items with
  | nil =>
    refine ⟨?_, fun _ => rfl⟩
    rintro ⟨item, hitem, -⟩
    cases hitem
  | cons item items ih =>
    simp only [keysLoop]
    by_cases hmem : item.1.drop 1 ∈ L
    · rw [(h _).1 hmem]
      exact ⟨fun _ => rfl, fun hno => absurd hmem (hno item List.mem_cons_self)⟩
    · rw [(h _).2 hmem]
      refine ⟨fun hex => ?_, fun hno => ?_⟩
      · obtain ⟨item', hitem', hin⟩ := hex
        rcases List.mem_cons.mp hitem' with rfl | hitem'
        · exact absurd hin hmem
        · rw [ih.1 ⟨item', hitem', hin⟩]
          rfl
      · rw [ih.2 fun item' hitem' => hno item' (List.mem_cons_of_mem _ hitem')]
        rfl

/-- `FSM.Keys` with a pattern on which the matcher fails. -/
theorem fsmKeys_cut {pattern : Bytes} {L : Language UInt8} (h : FailsOn (redisGlobMatch pattern) L)
    (t : Nat) (db : DB) :
    ((∃ k, DB.present t db k = true ∧ k ∈ L) →
      (fsmKeysChecked t pattern).run db = (.error .badPattern, db)) ∧
      ((∀ k, DB.present t db k = true → k ∉ L) →
        (fsmKeysChecked t pattern).run db = (.ok [], db)) := by
  have hrun : (fsmKeysChecked t pattern).run db =
      (keysLoop pattern (db.scanPrefix t [75]), db) := by
    rw [fsmKeysChecked_run, fsmKeys, Txn.run_bind_ok (Txn.run_reads _ _)]
    rfl
  obtain ⟨hsome, hnone⟩ := keysLoop_cut h (db.scanPrefix t [75])
  rw [hrun]
  refine ⟨fun hex => ?_, fun hno => ?_⟩
  · obtain ⟨k, hk, hin⟩ := hex
    obtain ⟨item, hitem, rfl⟩ := List.mem_map.mp ((mem_userKeys_iff t db k).mpr hk)
    rw [hsome ⟨item, hitem, hin⟩]
  · rw [hnone fun item hitem => hno _ ((mem_userKeys_iff t db _).mp (List.mem_map_of_mem hitem))]

/-- The patterns that cannot be read are those that end too early. With such a pattern the matcher
fails on the texts that begin with a match of the part before and matches no other; `FSM.Keys` fails
if such a key is visible and returns no keys otherwise. -/
theorem keys_of_malformed (pattern : Bytes) :
    (¬ GlobWellFormed pattern ↔ ∃ ts, GlobCut ts pattern) ∧
      ∀ ts, GlobCut ts pattern → FailsOn (redisGlobMatchChecked pattern) (begunBy ts) ∧
        ∀ t db, ((∃ k, DB.present t db k = true ∧ k ∈ begunBy ts) →
            (fsmKeysChecked t pattern).run db = (.error .badPattern, db)) ∧
          ((∀ k, DB.present t db k = true → k ∉ begunBy ts) →
            (fsmKeysChecked t pattern).run db = (.ok [], db)) := by
  refine ⟨⟨(glob_or_cut pattern).resolve_left, ?_⟩, fun ts hcut => ?_⟩
  · rintro ⟨ts, hcut⟩ ⟨ts', hglob⟩
    exact hcut.not_glob hglob
  · have hfails : FailsOn (redisGlobMatch pattern) (begunBy ts) := globFrom_cut hcut le_rfl
    refine ⟨fun text => ?_, fsmKeys_cut hfails⟩
    rw [redisGlobMatchChecked_eq]
    exact hfails text

/-- The pattern `a[` fails on `ab` and does not match `b`. -/
theorem keys_of_malformed_class :
    ¬ GlobWellFormed (ascii "a[") ∧ redisGlobMatchChecked (ascii "a[") (ascii "ab") =
      .error .badPattern ∧
      ascii "ab" ∈ begunBy [.byte 97] ∧ ascii "b" ∉ begunBy [.byte 97] := by
  have hcut : GlobCut [.byte 97] (ascii "a[") := .byte (by decide) (.unclosed (by decide))
  obtain ⟨hiff, hall⟩ := keys_of_malformed (ascii "a[")
  have hfails := (hall _ hcut).1
  have herr : redisGlobMatchChecked (ascii "a[") (ascii "ab") = .error .badPattern := by decide
  have hfalse : redisGlobMatchChecked (ascii "a[") (ascii "b") = .ok false := by decide
  refine ⟨hiff.mpr ⟨_, hcut⟩, herr, ?_, ?_⟩
  · by_contra hno
    rw [(hfails _).2 hno] at herr
    cases herr
  · intro hmem
    rw [(hfails _).1 hmem] at hfalse
    cases hfalse

end Badis
