import Badis.Server.SetGrammar
import Badis.Server.Proofs.ReplyProofs

/-!
# Proofs: the options of SET

The option loop accepts exactly the words that spell options (`setOptionLoop_ok_iff`), any number of
them in any order, and the last of a kind wins (`applyOptions_*`). A request therefore follows the
documented grammar if and only if no kind is given twice and the time fits
(`handleSet_follows_iff`).
-/

namespace Badis

open Lib

variable {upper : Bytes → Bytes} {t : Nat}

/-! ## What words spell -/

theorem SetFlag.word_injective : Function.Injective SetFlag.word := by
  intro f g
  cases f <;> cases g <;> decide

theorem TimeOption.word_injective : Function.Injective TimeOption.word := by
  intro o p
  cases o <;> cases p <;> decide

theorem flag_word_ne (f : SetFlag) (o : TimeOption) : f.word ≠ o.word := by
  cases f <;> cases o <;> decide

/-- Words spell at most one list of options. -/
theorem Spells.unique {options options' : List SetOption} {words : List Bytes}
    (h : Spells upper options words) (h' : Spells upper options' words) : options = options' := by
  induction h generalizing options' with
  | nil => cases h'; rfl
  | flag hword _ ih =>
    cases h' with
    | flag hword' hrest' => rw [SetFlag.word_injective (hword.symm.trans hword'), ih hrest']
    | timed hword' => exact absurd (hword.symm.trans hword') (flag_word_ne _ _)
  | timed hword harg _ ih =>
    cases h' with
    | flag hword' => exact absurd (hword'.symm.trans hword) (flag_word_ne _ _)
    | timed hword' harg' hrest' =>
      cases harg.symm.trans harg'
      rw [TimeOption.word_injective (hword.symm.trans hword'), ih hrest']

/-- A request spells one list of options at most. -/
theorem SetRequest.unique {args : List Bytes} {options options' : List SetOption}
    (h : SetRequest upper args options) (h' : SetRequest upper args options') :
    options = options' := by
  obtain ⟨name, key, val, words, rfl, hspells⟩ := h
  obtain ⟨_, _, _, _, heq, hspells'⟩ := h'
  cases heq
  exact hspells.unique hspells'

/-! ## The option loop -/

/-- What an option does to the command. -/
def SetOption.apply (t : Nat) (c : Command) : SetOption → Command
  | flag .nx => { c with condition := .nx }
  | flag .xx => { c with condition := .xx }
  | flag .get => { c with returnOld := true }
  | timed o n => { c with ttlMs := o.ttlMs t n }

/-- The command after the options, from left to right. -/
def applyOptions (t : Nat) (options : List SetOption) (c : Command) : Command :=
  options.foldl (SetOption.apply t) c

theorem timedOption_word (o : TimeOption) : timedOption t o.word = some (o.ttlMs t) := by
  cases o <;> rfl

/-- The options with a number are the four of `TimeOption`. -/
theorem timedOption_eq_some {word : Bytes} {f : Int64 → Int64} (h : timedOption t word = some f) :
    ∃ o : TimeOption, word = o.word ∧ f = o.ttlMs t := by
  unfold timedOption at h
  split_ifs at h with hex hpx hexat hpxat
  · exact ⟨.ex, hex, (Option.some.inj h).symm⟩
  · exact ⟨.px, hpx, (Option.some.inj h).symm⟩
  · exact ⟨.exat, hexat, (Option.some.inj h).symm⟩
  · exact ⟨.pxat, hpxat, (Option.some.inj h).symm⟩

/-- One round of the loop at a flag. -/
theorem setOptionLoop_flag {f : SetFlag} {word : Bytes} (h : toUpper upper word = f.word)
    (rest : List Bytes) (c : Command) :
    setOptionLoop upper t (word :: rest) c =
      setOptionLoop upper t rest (SetOption.apply t c (.flag f)) := by
  rw [setOptionLoop.eq_def]
  simp only [h]
  cases f <;> rfl

/-- One round of the loop at a time, which takes two words. -/
theorem setOptionLoop_timed {o : TimeOption} {n : Int64} {word arg : Bytes}
    (h : toUpper upper word = o.word) (harg : parseInt arg = (n, true)) (rest : List Bytes)
    (c : Command) :
    setOptionLoop upper t (word :: arg :: rest) c =
      setOptionLoop upper t rest (SetOption.apply t c (.timed o n)) := by
  rw [setOptionLoop.eq_def]
  simp only [h, timedOption_word, harg]
  cases o <;> rfl

/-- The loop applies the options in the order in which they are spelled. -/
theorem Spells.loop {options : List SetOption} {words : List Bytes} (h : Spells upper options words)
    (c : Command) : setOptionLoop upper t words c = .ok (applyOptions t options c) := by
  induction h generalizing c with
  | nil => rw [setOptionLoop]; rfl
  | flag hword _ ih => rw [setOptionLoop_flag hword, ih]; rfl
  | timed hword harg _ ih => rw [setOptionLoop_timed hword harg, ih]; rfl

/-- What the loop accepts is spelled by some list of options. -/
theorem spells_of_loop {words : List Bytes} {c c' : Command}
    (h : setOptionLoop upper t words c = .ok c') : ∃ options, Spells upper options words := by
  fun_induction setOptionLoop upper t words c with
  | case1 => exact ⟨[], .nil⟩
  | case2 word rest c opt hopt ih =>
    obtain ⟨options, hspells⟩ := ih h
    exact ⟨_, .flag (f := .nx) hopt hspells⟩
  | case3 word rest c opt _ hopt ih =>
    obtain ⟨options, hspells⟩ := ih h
    exact ⟨_, .flag (f := .xx) hopt hspells⟩
  | case4 word rest c opt _ _ hopt ih =>
    obtain ⟨options, hspells⟩ := ih h
    exact ⟨_, .flag (f := .get) hopt hspells⟩
  | case5 => cases h
  | case6 => cases h
  | case7 => cases h
  | case8 c word opt _ _ _ ttlMs arg rest htimed n hn ih =>
    obtain ⟨options, hspells⟩ := ih h
    obtain ⟨o, hword, -⟩ := timedOption_eq_some htimed
    exact ⟨_, .timed hword hn hspells⟩

/-- The loop accepts the words that spell options. -/
theorem setOptionLoop_ok_iff {words : List Bytes} {c c' : Command} :
    setOptionLoop upper t words c = .ok c' ↔
      ∃ options, Spells upper options words ∧ c' = applyOptions t options c := by
  constructor
  · intro h
    obtain ⟨options, hspells⟩ := spells_of_loop h
    have heq := (hspells.loop c).symm.trans h
    exact ⟨options, hspells, (Except.ok.inj heq).symm⟩
  · rintro ⟨options, hspells, rfl⟩
    exact hspells.loop c

/-- Two tests of one condition whose branches correspond. -/
theorem ok_ite {p : Prop} [Decidable p] {a b : Except Err (Except Bytes Command)}
    {a' b' : Except Bytes Command} (ha : p → a = .ok a') (hb : ¬ p → b = .ok b') :
    (if p then a else b) = .ok (if p then a' else b') := by
  by_cases hp : p
  · rw [if_pos hp, if_pos hp, ha hp]
  · rw [if_neg hp, if_neg hp, hb hp]

/-- The loop over indices reads what the loop over words does. -/
theorem setOptionLoopChecked_eq (srv : Server) (args : List Bytes) {rounds i : Nat}
    (hrounds : args.length ≤ i + rounds) (c : Command) :
    setOptionLoopChecked srv args t rounds i c =
      .ok (setOptionLoop srv.upper t (args.drop i) c) := by
  induction rounds generalizing i c with
  | zero => rw [List.drop_eq_nil_of_le (by omega), setOptionLoop]; rfl
  | succ rounds ih =>
    unfold setOptionLoopChecked
    by_cases hi : i < args.length
    · have hget : goIndex args (i : Nat) = .ok args[i] :=
        goIndex_natCast (List.getElem?_eq_getElem hi)
      rw [if_pos hi, hget, List.drop_eq_getElem_cons hi, setOptionLoop.eq_def]
      simp only [bind, Except.bind]
      refine ok_ite (fun _ => ih (by omega) _) fun _ => ok_ite (fun _ => ih (by omega) _)
        fun _ => ok_ite (fun _ => ih (by omega) _) fun _ => ?_
      cases htimed : timedOption t (toUpper srv.upper args[i]) with
      | none => rfl
      | some ttlMs =>
        by_cases hi' : args.length ≤ i + 1
        · rw [List.drop_eq_nil_of_le hi']
          simp only [if_pos hi']
          rfl
        · have hlt : i + 1 < args.length := by omega
          have hget' : goIndex args ((i + 1 : Nat) : Int) = .ok args[i + 1] :=
            goIndex_natCast (List.getElem?_eq_getElem hlt)
          rw [List.drop_eq_getElem_cons hlt]
          simp only [if_neg hi', hget']
          cases hn : parseInt args[i + 1] with
          | mk n ok =>
            cases ok with
            | false => rfl
            | true => exact ih (by omega) _
    · rw [if_neg hi, List.drop_eq_nil_of_le (by omega), setOptionLoop]

/-- The command of a SET request. -/
theorem handleSet_eq (srv : Server) (views : Nat → ReadView) (name key val : Bytes)
    (words : List Bytes) :
    handleSet srv views (name :: key :: val :: words) =
      match setOptionLoop srv.upper (views 0).now words
        { op := .set, key := key, args := [val] } with
      | .error msg => refuse msg
      | .ok c => .ok (.apply c (setOutcome srv.codecText c)) := by
  have hlen : ¬ (name :: key :: val :: words).length < 3 := by
    simp only [List.length_cons]
    omega
  have hloop : setOptionLoopChecked srv (name :: key :: val :: words) (views 0).now
      (name :: key :: val :: words).length 3 { op := .set, key := key, args := [val] } =
      .ok (setOptionLoop srv.upper (views 0).now words { op := .set, key := key, args := [val] }) :=
    setOptionLoopChecked_eq srv (name :: key :: val :: words) (by omega) _
  have hkey : goIndex (name :: key :: val :: words) 1 = .ok key := goIndex_natCast (i := 1) rfl
  have hval : goIndex (name :: key :: val :: words) 2 = .ok val := goIndex_natCast (i := 2) rfl
  unfold handleSet
  rw [if_neg hlen, hkey, hval]
  simp only [bind, Except.bind, hloop]
  rfl

theorem requestCommand_handleSet (srv : Server) (views : Nat → ReadView) (args : List Bytes) :
    requestCommand (handleSet srv views args) =
      (handleSetCommand srv.upper (views 0).now args).toOption := by
  match args with
  | [] | [_] | [_, _] => rfl
  | name :: key :: val :: words =>
    rw [handleSet_eq, handleSetCommand]
    cases setOptionLoop srv.upper (views 0).now words { op := .set, key := key, args := [val] } <;>
      rfl

/-! ## The command the options build -/

section Fields

variable (options : List SetOption) (c : Command)

/-- Of several conditions the last one counts. -/
theorem applyOptions_condition : (applyOptions t options c).condition =
    (options.filterMap SetOption.condition?).getLast?.getD c.condition := by
  induction options generalizing c with
  | nil => rfl
  | cons o options ih =>
    rw [applyOptions, List.foldl_cons, ← applyOptions, ih]
    rcases o with (_ | _ | _) | ⟨o, n⟩
    all_goals simp [SetOption.apply, SetOption.condition?, List.getLast?_cons]

theorem applyOptions_returnOld : (applyOptions t options c).returnOld =
    (c.returnOld || decide (.flag .get ∈ options)) := by
  induction options generalizing c with
  | nil => simp [applyOptions]
  | cons o options ih =>
    rw [applyOptions, List.foldl_cons, ← applyOptions, ih]
    rcases o with (_ | _ | _) | ⟨o, n⟩
    all_goals simp [SetOption.apply]

/-- Of several times the last one counts. -/
theorem applyOptions_ttlMs : (applyOptions t options c).ttlMs =
    (options.filterMap SetOption.time?).getLast?.elim c.ttlMs fun p => p.1.ttlMs t p.2 := by
  induction options generalizing c with
  | nil => rfl
  | cons o options ih =>
    rw [applyOptions, List.foldl_cons, ← applyOptions, ih, List.filterMap_cons]
    rcases o with (_ | _ | _) | ⟨o, n⟩
    · rfl
    · rfl
    · rfl
    · simp only [SetOption.apply, SetOption.time?, List.getLast?_cons]
      cases (options.filterMap SetOption.time?).getLast? <;> rfl

theorem applyOptions_eq : applyOptions t options c =
    { c with
      condition := (options.filterMap SetOption.condition?).getLast?.getD c.condition
      returnOld := c.returnOld || decide (.flag .get ∈ options)
      ttlMs :=
        (options.filterMap SetOption.time?).getLast?.elim c.ttlMs fun p => p.1.ttlMs t p.2 } := by
  have hkeeps : (applyOptions t options c).op = c.op ∧ (applyOptions t options c).key = c.key ∧
      (applyOptions t options c).args = c.args := by
    induction options generalizing c with
    | nil => exact ⟨rfl, rfl, rfl⟩
    | cons o options ih =>
      rw [applyOptions, List.foldl_cons, ← applyOptions]
      rcases o with (_ | _ | _) | ⟨o, n⟩
      all_goals exact ih _
  rw [← applyOptions_condition, ← applyOptions_returnOld, ← applyOptions_ttlMs (t := t), ← hkeeps.1,
    ← hkeeps.2.1, ← hkeeps.2.2]

end Fields

theorem mem_of_length_le_one {α : Type} {l : List α} {a : α} (hl : l.length ≤ 1) (ha : a ∈ l) :
    l.getLast? = some a := by
  match l with
  | [] => cases ha
  | [b] => rw [List.mem_singleton.mp ha]; rfl
  | _ :: _ :: _ => simp at hl

/-! ## Times in an int64 -/

/-- The milliseconds up to an instant, modulo `2 ^ 64` and clamped to one. -/
theorem toInt_untilMs (ms : Int64) (x : Int) (hms : ms.toInt = x.bmod (2 ^ 64)) :
    (untilMs t ms).toInt = if (x - (unixMilli t).toInt).bmod (2 ^ 64) < 0 then 1
      else (x - (unixMilli t).toInt).bmod (2 ^ 64) := by
  have hsub : (ms - unixMilli t).toInt = (x - (unixMilli t).toInt).bmod (2 ^ 64) := by
    rw [Int64.toInt_sub, hms, Int.bmod_sub_bmod]
  show (if ms - unixMilli t < 0 then (1 : Int64) else ms - unixMilli t).toInt = _
  have hlt : ms - unixMilli t < 0 ↔ (ms - unixMilli t).toInt < 0 := Int64.lt_iff_toInt_lt
  rw [← hsub]
  by_cases h : ms - unixMilli t < 0
  · rw [if_pos h, if_pos (hlt.mp h)]
    rfl
  · rw [if_neg h, if_neg (fun hlt' => h (hlt.mpr hlt'))]

/-- A time comes out as meant if and only if the wrapped difference, clamped, is the unbounded one,
clamped. -/
theorem clamped_eq_iff (ms : Int) :
    (if ms.bmod (2 ^ 64) < 0 then 1 else ms.bmod (2 ^ 64)) = (if ms < 0 then 1 else ms) ↔
      ComesOut ms := by
  have hfits := bmod_eq_self_iff (x := ms)
  unfold ComesOut
  unfold Fits64 at hfits ⊢
  split_ifs <;> omega

/-- The loop computes the time asked for if and only if its int64 arithmetic comes out. -/
theorem toInt_ttlMs_eq_iff (o : TimeOption) (n : Int64) :
    (o.ttlMs t n).toInt = o.wantedMs t n.toInt ↔ o.Exact t n.toInt := by
  have hscaled : (n * 1000).toInt = (1000 * n.toInt).bmod (2 ^ 64) := by
    rw [Int64.toInt_mul, Int.mul_comm]
    rfl
  cases o with
  | ex => exact (Eq.congr_left hscaled).trans bmod_eq_self_iff
  | px => exact iff_of_true rfl trivial
  | exat =>
    show (untilMs t (n * 1000)).toInt = _ ↔ _
    rw [toInt_untilMs _ _ hscaled, TimeOption.Exact, ← clamped_eq_iff]
    simp only [TimeOption.wantedMs, sub_neg]
  | pxat =>
    show (untilMs t n).toInt = _ ↔ _
    rw [toInt_untilMs _ _ (fits64_toInt n).bmod_eq.symm, TimeOption.Exact, ← clamped_eq_iff]
    simp only [TimeOption.wantedMs, sub_neg]

/-! ## The grammar -/

theorem toOption_eq_some_iff {ε α : Type} {r : Except ε α} {a : α} :
    r.toOption = some a ↔ r = .ok a := by
  cases r with
  | error e => exact iff_of_false (fun h => nomatch h) (fun h => nomatch h)
  | ok b => exact ⟨fun h => congrArg _ (Option.some.inj h), fun h => congrArg _ (Except.ok.inj h)⟩

/-- The command of a request with these options. -/
def optionsCommand (t : Nat) (args : List Bytes) (options : List SetOption) : Command :=
  applyOptions t options { op := .set, key := args.getD 1 [], args := [args.getD 2 []] }

/-- A SET request is accepted if and only if its words are options. -/
theorem requestCommand_handleSet_iff (srv : Server) (views : Nat → ReadView) (args : List Bytes)
    (c : Command) : requestCommand (handleSet srv views args) = some c ↔
      ∃ options, SetRequest srv.upper args options ∧
        c = optionsCommand (views 0).now args options := by
  rw [requestCommand_handleSet]
  match args with
  | [] | [_] | [_, _] =>
    refine iff_of_false (fun h => by cases h) ?_
    rintro ⟨_, ⟨_, _, _, _, heq, _⟩, _⟩
    cases heq
  | name :: key :: val :: words =>
    rw [handleSetCommand, toOption_eq_some_iff, setOptionLoop_ok_iff]
    constructor
    · rintro ⟨options, hspells, rfl⟩
      exact ⟨options, ⟨_, _, _, _, rfl, hspells⟩, rfl⟩
    · rintro ⟨options, ⟨_, _, _, _, heq, hspells⟩, rfl⟩
      cases heq
      exact ⟨options, hspells, rfl⟩

theorem SetRequest.command {srv : Server} {args : List Bytes} {options : List SetOption}
    (h : SetRequest srv.upper args options) (views : Nat → ReadView) :
    requestCommand (handleSet srv views args) = some (optionsCommand (views 0).now args options) :=
  (requestCommand_handleSet_iff srv views args _).mpr ⟨options, h, rfl⟩

/-- Documented options whose time comes out are what the command holds. -/
theorem Documented.means {options : List SetOption} (h : Documented options) (args : List Bytes)
    (hexact : ∀ o n, (o, n) ∈ options.filterMap SetOption.time? → o.Exact t n.toInt) :
    Means t options (optionsCommand t args options) where
  condition cond hcond := by
    rw [optionsCommand, applyOptions_condition, mem_of_length_le_one h.condition hcond]
    rfl
  always hnil := by
    rw [optionsCommand, applyOptions_condition, hnil]
    rfl
  returnOld := by
    rw [optionsCommand, applyOptions_returnOld, Bool.false_or, decide_eq_true_iff]
  ttlMs o n hmem := by
    rw [optionsCommand, applyOptions_ttlMs, mem_of_length_le_one h.time hmem]
    exact (toInt_ttlMs_eq_iff o n).mpr (hexact o n hmem)
  noTtl hnil := by
    rw [optionsCommand, applyOptions_ttlMs, hnil]
    rfl

/-- A SET request follows the documented grammar if and only if its words are not options at all, or
options of which no kind is given twice and whose time comes out in an int64. -/
theorem handleSet_follows_iff (srv : Server) (views : Nat → ReadView) (args : List Bytes) :
    FollowsGrammar srv views args ↔
      ∀ options, SetRequest srv.upper args options → Documented options ∧
        ∀ o n, (o, n) ∈ options.filterMap SetOption.time? → o.Exact (views 0).now n.toInt := by
  constructor
  · intro h options hreq
    have hcommand := hreq.command views
    obtain ⟨options', hreq', hdoc⟩ := h.accepts.mp ⟨_, hcommand⟩
    rw [hreq'.unique hreq] at hdoc
    refine ⟨hdoc, fun o n hmem => (toInt_ttlMs_eq_iff o n).mp ?_⟩
    have hmeans := (h.holds _ options hcommand hreq hdoc).ttlMs o n hmem
    rwa [optionsCommand, applyOptions_ttlMs, mem_of_length_le_one hdoc.time hmem] at hmeans
  · intro h
    refine ⟨⟨?_, ?_⟩, ?_⟩
    · rintro ⟨c, hc⟩
      obtain ⟨options, hreq, -⟩ := (requestCommand_handleSet_iff srv views args c).mp hc
      exact ⟨options, hreq, (h options hreq).1⟩
    · rintro ⟨options, hreq, -⟩
      exact ⟨_, hreq.command views⟩
    · intro c options hc hreq hdoc
      rw [hreq.command views] at hc
      cases hc
      exact hdoc.means args (h options hreq).2

/-- `SET k v NX XX` is accepted, as XX. -/
theorem set_nx_xx_accepted :
    let args := [ascii "SET", ascii "k", ascii "v", ascii "NX", ascii "XX"]
    requestCommand (handleSet asciiServer (viewOf OrdMap.empty) args) =
        some { op := .set, key := ascii "k", args := [ascii "v"], condition := .xx } ∧
      ¬ FollowsGrammar asciiServer (viewOf OrdMap.empty) args := by
  refine ⟨by decide, fun h => ?_⟩
  have hspells : Spells asciiServer.upper [.flag .nx, .flag .xx] [ascii "NX", ascii "XX"] :=
    .flag rfl (.flag rfl .nil)
  obtain ⟨options, hreq, hdoc⟩ := h.accepts.mp ⟨_, SetRequest.command ⟨_, _, _, _, rfl, hspells⟩ _⟩
  rw [hreq.unique ⟨_, _, _, _, rfl, hspells⟩] at hdoc
  exact absurd hdoc.condition (by decide)

end Badis
