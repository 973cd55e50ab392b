import Badis.Server.Proofs.SetGrammarProofs
import Badis.Store.Proofs.NumeralProofs

/-!
# Proofs: SET in a script and on the wire

On words that spell options, the loop of `parseCommandForLua` does what the loop of `handleSet`
does, but for EXAT and PXAT, which it skips together with their numbers (`Spells.scriptLoop`). On
other words the request is rejected, and the call only if an EX or PX lacks its number
(`parseSetOptions_error_iff`).
-/

namespace Badis

open Lib

variable {vm : LuaVM} {t : Nat}

/-! ## Single words -/

theorem parseSetOptions_flag {f : SetFlag} {word : Bytes} (h : vm.toUpper word = f.word)
    (rest : List Bytes) (cmd : Command) :
    parseSetOptions vm (word :: rest) cmd =
      parseSetOptions vm rest (SetOption.apply t cmd (.flag f)) := by
  rw [parseSetOptions.eq_def]
  simp only [h]
  cases f <;> rfl

theorem parseSetOptions_timed {o : TimeOption} {n : Int64} {word arg : Bytes}
    (ho : o.inScript = true) (h : vm.toUpper word = o.word) (harg : parseInt arg = (n, true))
    (rest : List Bytes) (cmd : Command) :
    parseSetOptions vm (word :: arg :: rest) cmd =
      parseSetOptions vm rest (SetOption.apply t cmd (.timed o n)) := by
  rw [parseSetOptions.eq_def]
  simp only [h, harg]
  cases o with
  | ex => rfl
  | px => rfl
  | exat => cases ho
  | pxat => cases ho

/-- A word that the loop does not know is skipped. -/
theorem parseSetOptions_other {word : Bytes} (hflag : ∀ f : SetFlag, vm.toUpper word ≠ f.word)
    (htime : ∀ o : TimeOption, o.inScript = true → vm.toUpper word ≠ o.word) (rest : List Bytes)
    (cmd : Command) : parseSetOptions vm (word :: rest) cmd = parseSetOptions vm rest cmd := by
  have hnot : ¬ (vm.toUpper word = ascii "EX" ∨ vm.toUpper word = ascii "PX") := by
    rintro (h | h)
    · exact htime .ex rfl h
    · exact htime .px rfl h
  have hnx : vm.toUpper word ≠ ascii "NX" := hflag .nx
  have hxx : vm.toUpper word ≠ ascii "XX" := hflag .xx
  have hget : vm.toUpper word ≠ ascii "GET" := hflag .get
  rw [parseSetOptions.eq_def]
  simp only [if_neg hnot, if_neg hnx, if_neg hxx, if_neg hget]

theorem numeral_ne_word (vm : LuaVM) {arg : Bytes} (harg : (parseInt arg).2 = true) :
    (∀ f : SetFlag, vm.toUpper arg ≠ f.word) ∧ ∀ o : TimeOption, vm.toUpper arg ≠ o.word := by
  have hhead : ∀ word : Bytes, (∀ b, word.head? = some b → ¬ numeralByte b) → arg ≠ word := by
    rintro word hword rfl
    obtain ⟨hne, hbytes⟩ := bytes_of_parseInt harg
    obtain ⟨b, rest, rfl⟩ := List.exists_cons_of_ne_nil hne
    exact hword b rfl (hbytes b List.mem_cons_self)
  rw [show vm.toUpper arg = arg from toUpper_numeral vm.upper harg]
  constructor
  · intro f
    refine hhead f.word fun b hb => ?_
    cases f <;> cases hb <;> decide
  · intro o
    refine hhead o.word fun b hb => ?_
    cases o <;> cases hb <;> decide

/-! ## The loop -/

/-- Options in a script: EXAT and PXAT do nothing. -/
theorem Spells.scriptLoop {options : List SetOption} {words : List Bytes}
    (h : Spells vm.upper options words) (cmd : Command) :
    parseSetOptions vm words cmd =
      .ok (applyOptions t (options.filter SetOption.inScript) cmd) := by
  induction h generalizing cmd with
  | nil => rw [parseSetOptions]; rfl
  | flag hword _ ih => rw [parseSetOptions_flag (t := t) hword, ih]; rfl
  | @timed o n word arg options words hword harg _ ih =>
    by_cases ho : o.inScript = true
    · have hkept : (SetOption.timed o n).inScript = true := ho
      rw [parseSetOptions_timed (t := t) ho hword harg, ih, List.filter_cons_of_pos hkept]
      rfl
    · have hskipped : ¬ (SetOption.timed o n).inScript = true := ho
      have hnumeral := numeral_ne_word vm (show (parseInt arg).2 = true by rw [harg])
      rw [List.filter_cons_of_neg hskipped, ← ih, parseSetOptions_other, parseSetOptions_other]
      · exact hnumeral.1
      · exact fun p _ => hnumeral.2 p
      · exact fun f heq => flag_word_ne f o (heq.symm.trans hword)
      · rintro p hp heq
        exact ho (TimeOption.word_injective (heq.symm.trans hword) ▸ hp)

/-- A word other than EX and PX. -/
theorem scriptRefuses_cons_iff {word : Bytes} (words : List Bytes)
    (h : ∀ o : TimeOption, o.inScript = true → vm.toUpper word ≠ o.word) :
    ScriptRefuses vm.upper (word :: words) ↔ ScriptRefuses vm.upper words := by
  refine ⟨fun hrefuses => ?_, .other h⟩
  cases hrefuses with
  | unnumbered ho hword _ => exact absurd hword (h _ ho)
  | numbered ho hword _ _ => exact absurd hword (h _ ho)
  | other _ hrest => exact hrest

/-- EX or PX with a word after it. -/
theorem scriptRefuses_timed_iff {o : TimeOption} {word arg : Bytes} (words : List Bytes)
    (ho : o.inScript = true) (hword : vm.toUpper word = o.word) :
    ScriptRefuses vm.upper (word :: arg :: words) ↔
      ((parseInt arg).2 = true → ScriptRefuses vm.upper words) := by
  constructor
  · intro hrefuses harg
    cases hrefuses with
    | unnumbered _ _ hnone =>
      rw [hnone arg rfl] at harg
      cases harg
    | numbered _ _ _ hrest => exact hrest
    | other hother _ => exact absurd hword (hother o ho)
  · intro h
    by_cases harg : (parseInt arg).2 = true
    · exact .numbered ho hword harg (h harg)
    · refine .unnumbered ho hword ?_
      rintro _ ⟨⟩
      exact Bool.not_eq_true _ ▸ harg

/-- The loop rejects words if and only if an EX or PX lacks its number. -/
theorem parseSetOptions_error_iff (words : List Bytes) (cmd : Command) :
    (∃ e, parseSetOptions vm words cmd = .error e) ↔ ScriptRefuses vm.upper words := by
  have hflag : ∀ {word : Bytes} (f : SetFlag), vm.toUpper word = f.word →
      ∀ o : TimeOption, o.inScript = true → vm.toUpper word ≠ o.word :=
    fun f hf o _ ho => flag_word_ne f o (hf.symm.trans ho)
  have htimed : ∀ {word : Bytes}, vm.toUpper word = ascii "EX" ∨ vm.toUpper word = ascii "PX" →
      ∃ o : TimeOption, o.inScript = true ∧ vm.toUpper word = o.word := by
    rintro word (h | h)
    · exact ⟨.ex, rfl, h⟩
    · exact ⟨.px, rfl, h⟩
  fun_induction parseSetOptions vm words cmd with
  | case1 =>
    refine iff_of_false ?_ ?_
    · rintro ⟨e, ⟨⟩⟩
    · rintro ⟨⟩
  | case2 word rest cmd arg hnx ih =>
    exact ih.trans (scriptRefuses_cons_iff rest (hflag .nx hnx)).symm
  | case3 word rest cmd arg _ hxx ih =>
    exact ih.trans (scriptRefuses_cons_iff rest (hflag .xx hxx)).symm
  | case4 word rest cmd arg _ _ hget ih =>
    exact ih.trans (scriptRefuses_cons_iff rest (hflag .get hget)).symm
  | case5 word cmd arg _ _ _ ht =>
    obtain ⟨o, ho, hword⟩ := htimed ht
    refine iff_of_true ⟨_, rfl⟩ (.unnumbered ho hword ?_)
    rintro _ ⟨⟩
  | case6 word cmd arg _ _ _ ht n rest _ hn =>
    obtain ⟨o, ho, hword⟩ := htimed ht
    rw [scriptRefuses_timed_iff rest ho hword, hn]
    refine iff_of_true ⟨_, rfl⟩ ?_
    rintro ⟨⟩
  | case7 word cmd arg _ _ _ ht n rest ttl hn ih =>
    obtain ⟨o, ho, hword⟩ := htimed ht
    rw [scriptRefuses_timed_iff rest ho hword, hn]
    exact ih.trans ⟨fun h _ => h, fun h => h rfl⟩
  | case8 word rest cmd arg _ _ _ hnot ih =>
    refine ih.trans (scriptRefuses_cons_iff rest fun o ho hword => hnot ?_).symm
    cases o with
    | ex => exact .inl hword
    | px => exact .inr hword
    | exat => cases ho
    | pxat => cases ho

/-! ## The two commands -/

theorem filterMap_condition_filter (options : List SetOption) :
    (options.filter SetOption.inScript).filterMap SetOption.condition? =
      options.filterMap SetOption.condition? := by
  rw [List.filterMap_filter]
  refine List.filterMap_congr fun o _ => ?_
  rcases o with (_ | _ | _) | ⟨_ | _ | _ | _, n⟩ <;> rfl

/-- Without EXAT and PXAT the command differs in its expiry at most. -/
theorem applyOptions_filter_eq_iff (options : List SetOption) (key val : Bytes) :
    applyOptions t (options.filter SetOption.inScript) { op := .set, key := key, args := [val] } =
        applyOptions t options { op := .set, key := key, args := [val] } ↔
      lastTtlMs t options = lastTtlMs t (options.filter SetOption.inScript) := by
  have hget : SetOption.flag .get ∈ options.filter SetOption.inScript ↔
      SetOption.flag .get ∈ options := by
    simp [List.mem_filter, SetOption.inScript]
  rw [applyOptions_eq, applyOptions_eq, filterMap_condition_filter]
  simp only [Command.mk.injEq, hget, lastTtlMs, true_and, and_true]
  exact eq_comm

/-- On the words after the key and the value. -/
theorem setLoops_agree_iff {upper : Bytes → Bytes} (hupper : vm.upper = upper) (key val : Bytes)
    (words : List Bytes) :
    (parseSetOptions vm words { op := .set, key := key, args := [val] }).toOption =
        (setOptionLoop upper t words { op := .set, key := key, args := [val] }).toOption ↔
      SetWordsAgree upper t words := by
  subst hupper
  by_cases hspells : ∃ options, Spells vm.upper options words
  · obtain ⟨options, hspells⟩ := hspells
    rw [hspells.loop, hspells.scriptLoop (t := t)]
    refine Iff.trans ⟨Option.some.inj, congrArg some⟩
      ((applyOptions_filter_eq_iff options key val).trans ?_)
    constructor
    · exact fun h => .inl ⟨options, hspells, h⟩
    · rintro (⟨options', hspells', h⟩ | ⟨-, hnone⟩)
      · rwa [hspells.unique hspells']
      · exact absurd hspells (hnone options)
  · have hnone : ∀ options, ¬ Spells vm.upper options words := fun options h => hspells ⟨options, h⟩
    have hrequest : (setOptionLoop vm.upper t words
        { op := .set, key := key, args := [val] }).toOption = none := by
      cases hloop : setOptionLoop vm.upper t words { op := .set, key := key, args := [val] } with
      | error => rfl
      | ok c => exact absurd (spells_of_loop hloop) hspells
    have hscript : (parseSetOptions vm words { op := .set, key := key, args := [val] }).toOption =
      none ↔
        ∃ e, parseSetOptions vm words { op := .set, key := key, args := [val] } = .error e := by
      cases parseSetOptions vm words { op := .set, key := key, args := [val] } with
      | error e => exact iff_of_true rfl ⟨e, rfl⟩
      | ok c => exact iff_of_false (fun h => nomatch h) (fun ⟨_, h⟩ => nomatch h)
    rw [hrequest, hscript, parseSetOptions_error_iff]
    constructor
    · exact fun h => .inr ⟨h, hnone⟩
    · rintro (⟨options, h, -⟩ | ⟨h, -⟩)
      · exact absurd h (hnone options)
      · exact h

/-- A call of SET and a request with the same arguments build one command, or both are rejected, if
and only if their words agree, or there are too few of them. -/
theorem set_call_eq_request_iff (vm : LuaVM) (srv : Server) (hupper : vm.upper = srv.upper)
    (views : Nat → ReadView) (name : Bytes) (args : List Bytes) :
    SameSet vm srv views name args ↔
      ∀ key val words, args = key :: val :: words →
        SetWordsAgree srv.upper (views 0).now words := by
  unfold SameSet
  rw [requestCommand_handleSet]
  match args with
  | [] | [_] => exact iff_of_true rfl (fun _ _ _ h => nomatch h)
  | key :: val :: words =>
    refine (setLoops_agree_iff hupper key val words).trans ⟨?_, fun h => h key val words rfl⟩
    rintro h _ _ _ ⟨⟩
    exact h

/-- A request and a call of `SET k v NX EX 10` build one command. -/
theorem set_nx_ex_same :
    SameSet noScripts asciiServer (viewOf OrdMap.empty) (ascii "SET")
      [ascii "k", ascii "v", ascii "NX", ascii "EX", ascii "10"] := by
  refine (set_call_eq_request_iff noScripts asciiServer rfl _ _ _).mpr ?_
  rintro _ _ _ ⟨⟩
  exact .inl ⟨[.flag .nx, .timed .ex 10], .flag rfl (.timed rfl rfl .nil), rfl⟩

/-- The request `SET k v EXAT 2000` expires, the call does not. -/
theorem set_exat_differs :
    let args := [ascii "k", ascii "v", ascii "EXAT", ascii "2000"]
    (parseCommandForLua noScripts (ascii "SET") args).toOption =
        some { op := .set, key := ascii "k", args := [ascii "v"] } ∧
      requestCommand (handleSet asciiServer (viewOf OrdMap.empty) (ascii "SET" :: args)) =
        some { op := .set, key := ascii "k", args := [ascii "v"], ttlMs := 1000000 } ∧
      ¬ SameSet noScripts asciiServer (viewOf OrdMap.empty) (ascii "SET") args := by
  refine ⟨by decide, by decide, ?_⟩
  show ¬ (_ = _)
  decide

end Badis
