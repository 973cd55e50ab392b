import Badis.Store.Glob
import Badis.Store.Proofs.BadgerProofs
import Badis.Store.Proofs.GlobProofs

/-!
# `redisGlobMatch` decides the language of its pattern

The matcher is followed token by token: on a pattern that reads as some tokens it returns, with no
error, whether the text is in their language (`globFrom_decides`). `FSM.Keys` returns the visible
keys in that language (`redisGlobMatch_decides`).
-/

namespace Badis

open Lib

/-- The matcher returns whether the text is in the language. -/
def Decides (run : Bytes → Except Err Bool) (L : Language UInt8) : Prop :=
  ∀ text, ∃ b, run text = .ok b ∧ (b = true ↔ text ∈ L)

/-! ## Classes -/

theorem classMatch_iff (c : UInt8) (listed : Bytes) :
    classMatch c listed = true ↔ Listed listed c := by
  induction listed using classMatch.induct with
  | case1 lo hi rest ih => simp [classMatch, ih, Listed, classItems, ClassItem.Has]
  | case2 b rest hno ih => simp [classMatch, ih, Listed, classItems, ClassItem.Has]
  | case3 => simp [classMatch, Listed, classItems]

/-- A class matches the bytes that the loop over it lets pass. -/
theorem token_cls (listed : Bytes) :
    (GlobToken.cls listed).token = .letter fun c =>
      ¬ (classMatch c (if listed.head? = some 94 then listed.tail else listed) = true) =
        (listed.head? = some 94) := by
  rcases listed with _ | ⟨b, listed⟩
  · simp [GlobToken.token, classMatch_iff]
  · by_cases hb : b = 94
    · subst hb
      simp [GlobToken.token, classMatch_iff]
    · simp [GlobToken.token, hb, classMatch_iff]

/-- The byte behind a class is the first `]`. -/
theorem split_class {listed : Bytes} (h : 93 ∉ listed) (rest : Bytes) :
    (listed ++ 93 :: rest).takeWhile (fun b => b ≠ 93) = listed ∧
      (listed ++ 93 :: rest).dropWhile (fun b => b ≠ 93) = 93 :: rest := by
  have hall : ∀ b ∈ listed, (decide (b ≠ 93)) = true := by
    intro b hb
    exact decide_eq_true fun heq => h (heq ▸ hb)
  rw [List.takeWhile_append_of_pos hall, List.dropWhile_append_of_pos hall]
  simp

/-! ## Tokens -/

variable {ts : List GlobToken} {rest : Bytes}

/-- The loop of case `'*'` decides the language of a wildcard and the rest. -/
theorem globStar_decides {run : Bytes → Except Err Bool} {ts : List (Token UInt8)}
    (h : Decides run (patternLanguage ts)) :
    Decides (globStar run) (patternLanguage (.star :: ts)) := by
  intro text
  induction text with
  | nil =>
    obtain ⟨b, hrun, hb⟩ := h []
    exact ⟨b, hrun, by rw [hb, nil_mem_star]⟩
  | cons c text ih =>
    obtain ⟨b, hrun, hb⟩ := h (c :: text)
    rw [globStar, hrun, cons_mem_star]
    cases b with
    | true => exact ⟨true, rfl, by simp [hb.mp rfl]⟩
    | false =>
      obtain ⟨b', hrun', hb'⟩ := ih
      have hno : c :: text ∉ patternLanguage ts := fun hmem => by cases hb.mpr hmem
      exact ⟨b', hrun', by rw [hb']; simp [hno]⟩

/-- Behind a wildcard, further wildcards can be skipped. -/
theorem Glob.skip_stars (h : Glob ts rest) :
    ∃ ts', Glob ts' (rest.dropWhile fun b => b = 42) ∧
      ∀ text, text ∈ globLanguage (.star :: ts') ↔ text ∈ globLanguage (.star :: ts) := by
  induction h with
  | star hrest ih =>
    obtain ⟨ts', hglob, hsame⟩ := ih
    refine ⟨ts', hglob, fun text => ?_⟩
    rw [hsame]
    exact mem_star_star.symm
  | nil => exact ⟨[], .nil, fun text => Iff.rfl⟩
  | any hrest => exact ⟨_, .any hrest, fun text => Iff.rfl⟩
  | cls hlisted hrest => exact ⟨_, .cls hlisted hrest, fun text => Iff.rfl⟩
  | escaped b hrest => exact ⟨_, .escaped b hrest, fun text => Iff.rfl⟩
  | byte hb hrest =>
    refine ⟨_, ?_, fun text => Iff.rfl⟩
    rw [List.dropWhile_cons_of_neg (by simp [hb.1])]
    exact .byte hb hrest

/-- A step of the matcher that reads one byte of the text decides the language of a letter and the
rest. -/
theorem decides_letter {run run' : Bytes → Except Err Bool} {p : UInt8 → Prop}
    {ts : List (Token UInt8)} (h : Decides run (patternLanguage ts)) (hnil : run' [] = .ok false)
    (hpos : ∀ c text, p c → run' (c :: text) = run text)
    (hneg : ∀ c text, ¬ p c → run' (c :: text) = .ok false) :
    Decides run' (patternLanguage (.letter p :: ts)) := by
  intro text
  cases text with
  | nil => exact ⟨false, hnil, by simp⟩
  | cons c text =>
    rw [cons_mem_letter]
    by_cases hc : p c
    · obtain ⟨b, hrun, hb⟩ := h text
      exact ⟨b, (hpos c text hc).trans hrun, by simp [hb, hc]⟩
    · exact ⟨false, hneg c text hc, by simp [hc]⟩

/-- So does a step that compares one byte. -/
theorem decides_byte {run run' : Bytes → Except Err Bool} {b : UInt8} {ts : List (Token UInt8)}
    (h : Decides run (patternLanguage ts)) (hnil : run' [] = .ok false)
    (hcons : ∀ c text, run' (c :: text) = if b = c then run text else .ok false) :
    Decides run' (patternLanguage (.letter (fun c => c = b) :: ts)) := by
  refine decides_letter h hnil ?_ ?_
  · rintro c text rfl
    rw [hcons, if_pos rfl]
  · intro c text hc
    rw [hcons, if_neg (Ne.symm hc)]

section Step

variable {rounds : Nat} (ih : Decides (globFrom rounds rest) (globLanguage ts))

include ih

theorem globFrom_any_decides :
    Decides (globFrom (rounds + 1) (63 :: rest)) (globLanguage (.any :: ts)) := by
  refine decides_letter ih (globFrom_any _ _ _) ?_ ?_
  · intro c text _
    exact globFrom_any _ _ _
  · intro c text hc
    exact absurd trivial hc

theorem globFrom_byte_decides {b : UInt8} (hb : b ≠ 42 ∧ b ≠ 63 ∧ b ≠ 91 ∧ b ≠ 92) :
    Decides (globFrom (rounds + 1) (b :: rest)) (globLanguage (.byte b :: ts)) := by
  obtain ⟨hstar, hany, hcls, hescape⟩ := hb
  refine decides_byte ih ?_ ?_
  · rw [globFrom_byte _ _ _ hstar hany hcls, if_neg hescape]
  · intro c text
    rw [globFrom_byte _ _ _ hstar hany hcls, if_neg hescape]

theorem globFrom_escaped_decides (b : UInt8) :
    Decides (globFrom (rounds + 1) (92 :: b :: rest)) (globLanguage (.byte b :: ts)) := by
  refine decides_byte ih ?_ ?_
  · exact globFrom_byte _ _ _ (by decide) (by decide) (by decide)
  · intro c text
    exact globFrom_byte _ _ _ (by decide) (by decide) (by decide)

theorem globFrom_class_decides {listed : Bytes} (hlisted : 93 ∉ listed) :
    Decides (globFrom (rounds + 1) (91 :: (listed ++ 93 :: rest)))
      (globLanguage (.cls listed :: ts)) := by
  obtain ⟨htake, hdrop⟩ := split_class hlisted rest
  have hclass : globLanguage (.cls listed :: ts) = patternLanguage (_ :: ts.map GlobToken.token) :=
    congrArg (fun t => patternLanguage (t :: ts.map GlobToken.token)) (token_cls listed)
  rw [hclass]
  refine decides_letter ih ?_ ?_ ?_
  · rw [globFrom_class, hdrop]
  · intro c text hc
    rw [globFrom_class, htake, hdrop]
    exact if_neg hc
  · intro c text hc
    rw [globFrom_class, htake, hdrop]
    exact if_pos (not_not.mp hc)

end Step

theorem globFrom_nil (rounds : Nat) (text : Bytes) : globFrom rounds [] text = .ok (text = []) := by
  cases rounds <;> rfl

/-- A pattern is read in at most as many rounds as it has bytes. -/
theorem globFrom_decides {pattern : Bytes} (h : Glob ts pattern) {rounds : Nat}
    (hrounds : pattern.length ≤ rounds) : Decides (globFrom rounds pattern) (globLanguage ts) := by
  induction rounds generalizing pattern ts with
  | zero =>
    obtain rfl := List.length_eq_zero_iff.mp (Nat.le_zero.mp hrounds)
    cases h
    intro text
    exact ⟨_, globFrom_nil 0 text, decide_eq_true_iff⟩
  | succ rounds ih =>
    cases h with
    | nil =>
      intro text
      exact ⟨_, globFrom_nil _ text, decide_eq_true_iff⟩
    | star hrest =>
      obtain ⟨ts', hglob, hsame⟩ := hrest.skip_stars
      intro text
      rw [globFrom_star, ← hsame]
      split
      · rename_i hnil
        rw [hnil] at hglob
        cases hglob
        exact ⟨true, rfl, ⟨fun _ => mem_star_nil text, fun _ => rfl⟩⟩
      · have hlen := (List.dropWhile_sublist (fun b : UInt8 => b = 42) (l := _)).length_le.trans
          (Nat.le_of_succ_le_succ hrounds)
        exact globStar_decides (ih hglob hlen) text
    | any hrest => exact globFrom_any_decides (ih hrest (Nat.le_of_succ_le_succ hrounds))
    | cls hlisted hrest =>
      rw [List.length_cons, List.length_append, List.length_cons] at hrounds
      exact globFrom_class_decides (ih hrest (by omega)) hlisted
    | escaped b hrest =>
      rw [List.length_cons, List.length_cons] at hrounds
      exact globFrom_escaped_decides (ih hrest (by omega)) b
    | byte hb hrest => exact globFrom_byte_decides (ih hrest (Nat.le_of_succ_le_succ hrounds)) hb

theorem globAt_decides {pattern : Bytes} (h : Glob ts pattern) (text : Bytes) :
    ∃ b, (∀ rounds, pattern.length ≤ rounds → globAt pattern text rounds 0 0 = .ok b) ∧
      (b = true ↔ text ∈ globLanguage ts) := by
  obtain ⟨b, hrun, hb⟩ := globFrom_decides h le_rfl text
  refine ⟨b, ?_, hb⟩
  intro rounds hrounds
  rw [globAt_eq pattern text (by omega) (Nat.zero_le _)]
  obtain ⟨b', hrun', hb'⟩ := globFrom_decides h hrounds text
  have hsame : b' = b := Bool.eq_iff_iff.mpr (hb'.trans hb.symm)
  rw [← hsame]
  exact hrun'

/-! ## KEYS -/

/-- The loop of `FSM.Keys` keeps the keys that match. -/
theorem keysLoop_eq {pattern : Bytes} {f : Bytes → Bool}
    (hf : ∀ text, redisGlobMatch pattern text = .ok (f text)) (items : List (Bytes × Entry)) :
    keysLoop pattern items = .ok ((items.map fun item => item.1.drop 1).filter f) := by
  induction items with
  | nil => rfl
  | cons item items ih =>
    rw [keysLoop, hf, ih, List.map_cons, List.filter_cons]
    rfl

/-- An item under the user prefix is the visible entry of a key. -/
theorem mem_userKeys {t : Nat} {db : DB} {item : Bytes × Entry} (h : item ∈ db.scanPrefix t [75]) :
    item.1 = userKey (item.1.drop 1) ∧ db.getLive t item.1 = some item.2 := by
  obtain ⟨hget, rest, hrest⟩ := (mem_scanPrefix db t [75] item).mp h
  refine ⟨?_, hget⟩
  rw [← hrest]
  rfl

theorem nodup_userKeys (t : Nat) (db : DB) :
    ((db.scanPrefix t [75]).map fun item => item.1.drop 1).Nodup := by
  have hscan : ((db.scanPrefix t [75]).map Prod.fst).Nodup := by
    rw [DB.scanPrefix, OrdMap.scan_eq_filter (sorted_liveEntries t db)]
    exact (nodup_liveEntries t db).sublist (List.filter_sublist.map _)
  refine List.Nodup.map_on ?_ hscan.of_map
  intro x hx y hy heq
  have hkey : x.1 = y.1 := by rw [(mem_userKeys hx).1, (mem_userKeys hy).1, heq]
  have hval := (mem_userKeys hx).2
  rw [hkey, (mem_userKeys hy).2] at hval
  exact Prod.ext hkey (Option.some.inj hval).symm

theorem mem_userKeys_iff (t : Nat) (db : DB) (k : Bytes) :
    k ∈ (db.scanPrefix t [75]).map (fun item => item.1.drop 1) ↔ DB.present t db k = true := by
  rw [List.mem_map, DB.present, Option.isSome_iff_exists]
  constructor
  · rintro ⟨item, hitem, rfl⟩
    obtain ⟨hkey, hget⟩ := mem_userKeys hitem
    rw [← hkey]
    exact ⟨item.2, hget⟩
  · rintro ⟨e, he⟩
    have hprefix : [75] <+: userKey k := List.cons_prefix_cons.mpr ⟨rfl, List.nil_prefix⟩
    exact ⟨(userKey k, e), (mem_scanPrefix db t [75] _).mpr ⟨he, hprefix⟩, rfl⟩

theorem fsmKeys_run {pattern : Bytes} {f : Bytes → Bool}
    (hf : ∀ text, redisGlobMatch pattern text = .ok (f text)) (t : Nat) (db : DB) :
    (fsmKeysChecked t pattern).run db =
      (.ok (((db.scanPrefix t [75]).map fun item => item.1.drop 1).filter f), db) := by
  rw [fsmKeysChecked_run, fsmKeys, Txn.run_bind_ok (Txn.run_reads _ _), keysLoop_eq hf]
  rfl

/-- For a pattern that reads as `ts`, the matcher returns whether the text is in the language of
`ts`, after at most as many rounds as the pattern has bytes, and `FSM.Keys` returns the visible keys
in that language, each once. An error means that the pattern cannot be read. -/
theorem redisGlobMatch_decides (pattern : Bytes) :
    (∀ text e, redisGlobMatchChecked pattern text = .error e → ¬ GlobWellFormed pattern) ∧
    ∀ ts, Glob ts pattern →
      (∀ text, ∃ b, redisGlobMatchChecked pattern text = .ok b ∧
        (∀ rounds, pattern.length ≤ rounds → globAt pattern text rounds 0 0 = .ok b) ∧
        (b = true ↔ text ∈ globLanguage ts)) ∧
      ∀ t db, ∃ keys, (fsmKeysChecked t pattern).run db = (.ok keys, db) ∧ keys.Nodup ∧
        ∀ k, k ∈ keys ↔ DB.present t db k = true ∧ k ∈ globLanguage ts := by
  refine ⟨?_, ?_⟩
  · rintro text e herr ⟨ts, hglob⟩
    obtain ⟨b, hrun, -⟩ := globAt_decides hglob text
    have hok : redisGlobMatchChecked pattern text = .ok b := hrun _ le_rfl
    rw [herr] at hok
    cases hok
  · intro ts hglob
    have hdecides := globAt_decides hglob
    refine ⟨?_, ?_⟩
    · intro text
      obtain ⟨b, hrun, hb⟩ := hdecides text
      exact ⟨b, hrun _ le_rfl, hrun, hb⟩
    · intro t db
      choose f hrun hf using hdecides
      have hmatch : ∀ text, redisGlobMatch pattern text = .ok (f text) := fun text =>
        (redisGlobMatchChecked_eq pattern text).symm.trans (hrun text _ le_rfl)
      refine ⟨_, fsmKeys_run hmatch t db, (nodup_userKeys t db).filter _, ?_⟩
      intro k
      rw [List.mem_filter, mem_userKeys_iff, hf]

/-- The pattern `h[^a-d]l*\?` and the keys `hello?` and `hbllo?`. -/
theorem hello_pattern_matches :
    redisGlobMatchChecked (ascii "h[^a-d]l*\\?") (ascii "hello?") = .ok true ∧
    ascii "hello?" ∈ globLanguage [.byte 104, .cls (ascii "^a-d"), .byte 108, .star, .byte 63] ∧
    ascii "hbllo?" ∉ globLanguage [.byte 104, .cls (ascii "^a-d"), .byte 108, .star, .byte 63] := by
  have hglob :
      Glob [.byte 104, .cls (ascii "^a-d"), .byte 108, .star, .byte 63] (ascii "h[^a-d]l*\\?") :=
    .byte (by decide) (.cls (by decide) (.byte (by decide) (.star (.escaped 63 .nil))))
  have hdecides := ((redisGlobMatch_decides (ascii "h[^a-d]l*\\?")).2 _ hglob).1
  have hyes : redisGlobMatchChecked (ascii "h[^a-d]l*\\?") (ascii "hello?") = .ok true := by decide
  have hno : redisGlobMatchChecked (ascii "h[^a-d]l*\\?") (ascii "hbllo?") = .ok false := by decide
  obtain ⟨b, hb, -, hmem⟩ := hdecides (ascii "hello?")
  obtain ⟨b', hb', -, hmem'⟩ := hdecides (ascii "hbllo?")
  rw [hyes] at hb
  rw [hno] at hb'
  cases hb
  cases hb'
  exact ⟨hyes, hmem.mp rfl, fun h => by cases hmem'.mpr h⟩

end Badis
