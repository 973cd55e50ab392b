import Badis.Server.Proofs.RespProofs
import Badis.Store.Proofs.ReadsProofs
import Badis.Store.Proofs.ViewProofs

/-!
# What the handlers do

One lemma for each kind of step of a handler, and from them what every handler does: it indexes its
arguments in range, its reply is complete, and a command it has applied carries the arguments that
the FSM goes by (`Command.Served`). Two handlers are exceptions: SMISMEMBER may break off its array,
and SRANDMEMBER may panic.
-/

namespace Badis

open Lib

/-! ## Computations that return -/

/-- The computation returns, and what it returns satisfies `P`. -/
def Returns {α : Type} (r : Except Err α) (P : α → Prop) : Prop := ∃ a, r = .ok a ∧ P a

section Rules

variable {α β : Type} {P : β → Prop}

theorem Returns.bind {Q : α → Prop} {r : Except Err α} {f : α → Except Err β} (hr : Returns r Q)
    (hf : ∀ a, Q a → Returns (f a) P) : Returns (r >>= f) P := by
  obtain ⟨a, rfl, ha⟩ := hr
  exact hf a ha

theorem returns_ite {p : Prop} [Decidable p] {r r' : Except Err β} (h : p → Returns r P)
    (h' : ¬ p → Returns r' P) : Returns (if p then r else r') P := by
  by_cases hp : p
  · rw [if_pos hp]
    exact h hp
  · rw [if_neg hp]
    exact h' hp

/-- An index within the bounds does not panic, and gives the element there. -/
theorem returns_goIndex {l : List α} {i : Int} (h : 0 ≤ i ∧ i < l.length) :
    Returns (goIndex l i) fun a => l[i.toNat]? = some a := by
  obtain ⟨a, hget, ha⟩ := goIndex_of_range h
  exact ⟨a, ha, hget⟩

/-- An argument is there. -/
theorem returns_arg {args : List Bytes} {i : Int} {f : Bytes → Except Err β}
    (h : 0 ≤ i ∧ i < args.length) (hf : ∀ a, Returns (f a) P) : Returns (goIndex args i >>= f) P :=
  (returns_goIndex h).bind fun a _ => hf a

/-- Positions within the arguments give as many arguments as there are positions. -/
theorem returns_argsAt {args : List Bytes} {positions : List Nat}
    (h : ∀ i ∈ positions, i < args.length) :
    Returns (argsAt args positions) fun l => l.length = positions.length := by
  induction positions with
  | nil => exact ⟨[], rfl, rfl⟩
  | cons i positions ih =>
    have hi : i < args.length := h i List.mem_cons_self
    have hlt : (0 : Int) ≤ (i : Int) ∧ (i : Int) < args.length := by omega
    obtain ⟨a, ha, -⟩ := returns_goIndex hlt
    obtain ⟨l, hl, hlen⟩ := ih fun j hj => h j (List.mem_cons_of_mem _ hj)
    refine ⟨a :: l, ?_, congrArg Nat.succ hlen⟩
    unfold argsAt at hl ⊢
    rw [List.mapM_cons, ha, hl]
    rfl

/-- The loop over the arguments from a position on stays within the bounds. -/
theorem returns_argsFrom (args : List Bytes) (start : Nat) :
    Returns (argsFrom args start) fun l => l.length = args.length - start := by
  have hpos : ∀ i ∈ List.range' start (args.length - start), i < args.length := by
    intro i hi
    have hmem := List.mem_range'_1.mp hi
    omega
  obtain ⟨l, hl, hlen⟩ := returns_argsAt hpos
  rw [List.length_range'] at hlen
  exact ⟨l, hl, hlen⟩

end Rules

/-! ## Sound actions -/

/-- The arguments that the FSM goes by without looking: as many as it indexes, and something to
write for the commands that create an aggregate. A script is not served this way. -/
def Command.Served (cmd : Command) : Prop :=
  match cmd.op with
  | .incrby | .decrby => cmd.args.length = 1
  | .ltrim | .lrem | .hsetnx => cmd.args.length = 2
  | .hset | .lpush | .rpush | .lpushx | .rpushx | .sadd => cmd.args ≠ []
  | .eval | .evalsha | .other _ => False
  | _ => True

/-- Every reply is complete, and a command satisfies `Q`. -/
def Action.Builds (Q : Command → Prop) : Action → Prop
  | .write ws => Complete ws
  | .client ws _ => Complete ws
  | .apply cmd reply => Q cmd ∧ ∀ o, Complete (reply o)

abbrev Action.Sound : Action → Prop := Action.Builds Command.Served

section Handlers

variable (srv : Server) (views : Nat → ReadView) (args : List Bytes)

theorem refuse_sound {Q : Command → Prop} (msg : Bytes) : Returns (refuse msg) (Action.Builds Q) :=
  ⟨_, rfl, complete_error msg⟩

theorem applyCommand_sound {Q : Command → Prop} {cmd : Command} (h : Q cmd) :
    Returns (applyCommand srv cmd) (Action.Builds Q) :=
  ⟨_, rfl, h, complete_applyReply srv.codecText⟩

/-- The reply to a read that does not panic is complete if what `ok` writes is. -/
theorem answer_sound {α : Type} {r : Except Err α} {ok : α → List Write} (hr : r ≠ .error .panic)
    (hok : ∀ a, Complete (ok a)) : Returns (answer srv r ok) Action.Sound := by
  cases r with
  | ok a => exact ⟨_, rfl, hok a⟩
  | error e =>
    have he : e ≠ .panic := fun h => hr (by rw [h])
    refine ⟨.write [.error (e.text srv.codecText)], ?_, complete_error _⟩
    unfold answer
    split
    · rename_i h
      cases h
      exact absurd rfl he
    · rename_i h
      cases h
      rfl
    · rename_i h
      cases h

theorem readFirst_noPanic {α : Type} {m : Nat → Tx α} (h : ∀ t, NoPanic (m t)) :
    readFirst views m ≠ .error .panic := fun hr => h _ _ _ hr rfl

/-- An FSM read that does not panic, and the reply to it. -/
theorem readFirst_sound {α : Type} {m : Nat → Tx α} {ok : α → List Write} (h : ∀ t, NoPanic (m t))
    (hok : ∀ a, Complete (ok a)) : Returns (answer srv (readFirst views m) ok) Action.Sound :=
  answer_sound srv (readFirst_noPanic views h) hok

/-- The handlers with a fixed number of arguments test it before they index them. -/
theorem handleFixed_sound {op : Op} {arity : Nat} {positions : List Nat} (harity : 2 ≤ arity)
    (hpos : ∀ i ∈ positions, i < arity)
    (h : ∀ key l, l.length = positions.length →
      Command.Served { op := op, key := key, args := l }) :
    Returns (handleFixed srv args op arity positions) Action.Sound := by
  refine returns_ite (fun _ => refuse_sound _) fun hlen => ?_
  have hlen' : args.length = arity := not_not.mp hlen
  refine returns_arg (by omega) fun key => ?_
  refine (returns_argsAt fun i hi => hlen' ▸ hpos i hi).bind fun l hl => ?_
  exact applyCommand_sound srv (h key l hl)

/-- A handler with at least one argument after the key builds a command that has one. -/
theorem handleVariadic_sound {op : Op}
    (h : ∀ key l, l ≠ [] → Command.Served { op := op, key := key, args := l }) :
    Returns (handleVariadic srv args op) Action.Sound := by
  refine returns_ite (fun _ => refuse_sound _) fun hlen => ?_
  refine returns_arg (by omega) fun key => ?_
  refine (returns_argsFrom args 2).bind fun l hl => ?_
  have hne : l ≠ [] := by
    rintro rfl
    simp only [List.length_nil] at hl
    omega
  exact applyCommand_sound srv (h key l hne)

/-- A handler of one key returns if its read does, and writes a complete value. -/
theorem handleKeyRead_sound {α : Type} {m : Bytes → Nat → Tx α} {ok : α → List Write}
    (h : ∀ key t, NoPanic (m key t)) (hok : ∀ a, Complete (ok a)) :
    Returns (handleKeyRead srv views args m ok) Action.Sound := by
  refine returns_ite (fun _ => refuse_sound _) fun hlen => ?_
  refine returns_arg (by omega) fun key => ?_
  exact readFirst_sound srv views (h key) hok

theorem handleFieldRead_sound {α : Type} {m : Bytes → Bytes → Nat → Tx α} {ok : α → List Write}
    (h : ∀ key field t, NoPanic (m key field t)) (hok : ∀ a, Complete (ok a)) :
    Returns (handleFieldRead srv views args m ok) Action.Sound := by
  refine returns_ite (fun _ => refuse_sound _) fun hlen => ?_
  refine returns_arg (by omega) fun key => ?_
  refine returns_arg (by omega) fun field => ?_
  exact readFirst_sound srv views (h key field) hok

/-! ## The handlers -/

theorem handleClient_sound (conn : Conn) : Returns (handleClient srv args conn) Action.Sound := by
  refine returns_ite (fun _ => refuse_sound _) fun hlen => ?_
  refine returns_arg (by omega) fun word => ?_
  refine returns_ite (fun _ => ?_) fun _ => ?_
  · refine returns_ite (fun _ => refuse_sound _) fun hlen => ?_
    refine returns_arg (by omega) fun name => ?_
    exact ⟨_, rfl, complete_single rfl⟩
  refine returns_ite (fun _ => ?_) fun _ => ?_
  · refine returns_ite (fun _ => refuse_sound _) fun hlen => ?_
    refine returns_ite (fun _ => ?_) fun _ => ?_
    · exact ⟨_, rfl, complete_single rfl⟩
    · exact ⟨_, rfl, complete_single rfl⟩
  refine returns_ite (fun _ => ?_) fun _ => ?_
  · refine returns_ite (fun _ => refuse_sound _) fun hlen => ?_
    refine returns_arg (by omega) fun attr => ?_
    refine returns_arg (by omega) fun val => ?_
    refine returns_ite (fun _ => ?_) fun _ => returns_ite (fun _ => ?_) fun _ => refuse_sound _
    · exact ⟨_, rfl, complete_single rfl⟩
    · exact ⟨_, rfl, complete_single rfl⟩
  refine returns_ite (fun _ => ?_) fun _ => refuse_sound _
  refine returns_ite (fun _ => refuse_sound _) fun hlen => ?_
  exact ⟨_, rfl, complete_single rfl⟩

/-- The option loop stays in range; the command it returns has the operation and the key it had. -/
theorem setOptionLoopChecked_returns (t : Nat) {rounds i : Nat} (c : Command) :
    Returns (setOptionLoopChecked srv args t rounds i c) fun r =>
      ∀ c', r = .ok c' → c'.op = c.op ∧ c'.key = c.key := by
  induction rounds generalizing i c with
  | zero =>
    refine ⟨_, rfl, ?_⟩
    rintro c' h
    cases h
    exact ⟨rfl, rfl⟩
  | succ rounds ih =>
    refine returns_ite (fun hi => ?_) fun _ => ⟨_, rfl, ?_⟩
    · refine returns_arg (by omega) fun word => ?_
      refine returns_ite (fun _ => ih _) fun _ => returns_ite (fun _ => ih _) fun _ =>
        returns_ite (fun _ => ih _) fun _ => ?_
      split
      · exact ⟨_, rfl, fun c' h => nomatch h⟩
      · refine returns_ite (fun _ => ⟨_, rfl, fun c' h => nomatch h⟩) fun hi' => ?_
        refine returns_arg (by omega) fun n => ?_
        split
        · exact ⟨_, rfl, fun c' h => nomatch h⟩
        · exact ih _
    · rintro c' h
      cases h
      exact ⟨rfl, rfl⟩

theorem handleSet_sound : Returns (handleSet srv views args) Action.Sound := by
  refine returns_ite (fun _ => refuse_sound _) fun hlen => ?_
  refine returns_arg (by omega) fun key => ?_
  refine returns_arg (by omega) fun val => ?_
  refine (setOptionLoopChecked_returns srv args _ _).bind fun r hr => ?_
  split
  · exact refuse_sound _
  · rename_i c
    refine ⟨_, rfl, ?_, complete_setOutcome srv.codecText c⟩
    rw [Command.Served, (hr c rfl).1]
    trivial

theorem handleDel_sound : Returns (handleDel srv args) Action.Sound := by
  refine returns_ite (fun _ => refuse_sound _) fun hlen => ?_
  refine (returns_argsFrom args 1).bind fun l hl => ?_
  exact applyCommand_sound srv trivial

/-- MSET lets only pairs through. -/
theorem handleMSet_sound : Returns (handleMSet srv args) Action.Sound := by
  refine returns_ite (fun _ => refuse_sound _) fun hlen => ?_
  refine (returns_argsFrom args 1).bind fun l hl => ?_
  exact applyCommand_sound srv trivial

theorem handleMGet_sound : Returns (handleMGet srv views args) Action.Sound := by
  refine returns_ite (fun _ => refuse_sound _) fun hlen => ?_
  refine (returns_argsFrom args 1).bind fun keys _ => ?_
  exact readFirst_sound srv views (fun t => getStrings_noPanic t keys) complete_writeBulks

theorem handleKeys_sound : Returns (handleKeys views args) Action.Sound := by
  refine returns_ite (fun _ => refuse_sound _) fun hlen => ?_
  refine returns_arg (by omega) fun pattern => ?_
  have hread := readFirst_noPanic views fun t => fsmKeysChecked_noPanic t pattern
  split
  · rename_i h
    exact absurd h hread
  · exact refuse_sound _
  · exact ⟨_, rfl, complete_writeStrings _⟩

theorem handleCount_sound : Returns (handleCount srv views args) Action.Sound := by
  refine returns_ite (fun _ => refuse_sound _) fun hlen => ?_
  refine (returns_argsFrom args 1).bind fun keys _ => ?_
  exact readFirst_sound srv views (fun t => existsLoop_noPanic t keys 0) complete_writeNat

theorem handleSetEx_sound : Returns (handleSetEx srv args) Action.Sound := by
  refine returns_ite (fun _ => refuse_sound _) fun hlen => ?_
  refine returns_arg (by omega) fun secs => ?_
  refine returns_ite (fun _ => refuse_sound _) fun _ => ?_
  refine returns_arg (by omega) fun key => ?_
  refine returns_arg (by omega) fun val => ?_
  exact applyCommand_sound srv trivial

theorem handleFlushDB_sound : Returns (handleFlushDB srv args) Action.Sound := by
  refine returns_ite (fun _ => refuse_sound _) fun hlen => ?_
  refine returns_ite (fun hlen' => ?_) fun _ => applyCommand_sound srv trivial
  refine returns_arg (by omega) fun mode => ?_
  exact returns_ite (fun _ => refuse_sound _) fun _ => applyCommand_sound srv trivial

theorem handleExpire_sound : Returns (handleExpire srv args) Action.Sound := by
  refine returns_ite (fun _ => refuse_sound _) fun hlen => ?_
  refine returns_arg (by omega) fun secs => ?_
  split
  · exact refuse_sound _
  · refine returns_arg (by omega) fun key => ?_
    exact applyCommand_sound srv trivial

/-- HSET lets only pairs through, so that its command has a field and a value at least. -/
theorem handleHSet_sound : Returns (handleHSet srv args) Action.Sound := by
  refine returns_ite (fun _ => refuse_sound _) fun hlen => ?_
  refine returns_arg (by omega) fun key => ?_
  refine (returns_argsFrom args 2).bind fun l hl => ?_
  have hne : l ≠ [] := by
    rintro rfl
    simp only [List.length_nil] at hl
    omega
  exact applyCommand_sound srv hne

/-- HGETALL writes two elements for a field, as many as its header announces. -/
theorem handleHGetAll_sound : Returns (handleHGetAll srv views args) Action.Sound := by
  refine handleKeyRead_sound srv views args (fun key t => hGetAll_noPanic srv.codec t key) ?_
  intro hash
  refine complete_array ?_ ?_
  · have hlen : ∀ l : List (Bytes × Bytes),
        (l.flatMap fun entry => [Write.bulk entry.1, .bulk entry.2]).length = l.length * 2 := by
      intro l
      induction l with
      | nil => rfl
      | cons entry l ih =>
        rw [List.flatMap_cons, List.length_append, ih]
        simp only [List.length_cons, List.length_nil]
        omega
    rw [hlen, (rangeMap_perm _ hash).length_eq]
  · intro w hw
    obtain ⟨entry, -, hw⟩ := List.mem_flatMap.mp hw
    rcases List.mem_pair.mp hw with rfl | rfl
    · rfl
    · rfl

theorem handleHMGet_sound : Returns (handleHMGet srv views args) Action.Sound := by
  refine returns_ite (fun _ => refuse_sound _) fun hlen => ?_
  refine (returns_argsFrom args 2).bind fun fields _ => ?_
  refine returns_arg (by omega) fun key => ?_
  refine readFirst_sound srv views (fun t => ?_) complete_writeBulks
  exact (hGetAll_noPanic srv.codec t key).bind fun _ => Txn.raises_pure _

theorem handlePop_sound {op : Op}
    (h : ∀ key l, Command.Served { op := op, key := key, args := l }) :
    Returns (handlePop srv args op) Action.Sound := by
  refine returns_ite (fun _ => refuse_sound _) fun hlen => ?_
  have hpos : ∀ i ∈ (if args.length = 3 then [2] else []), i < args.length := by
    intro i hi
    split_ifs at hi with hlen'
    · rw [List.mem_singleton.mp hi, hlen']
      decide
    · cases hi
  refine (returns_argsAt hpos).bind fun count _ => ?_
  refine returns_arg (by omega) fun key => ?_
  exact applyCommand_sound srv (h key count)

theorem handleLRange_sound : Returns (handleLRange srv views args) Action.Sound := by
  refine returns_ite (fun _ => refuse_sound _) fun hlen => ?_
  refine returns_arg (by omega) fun start => ?_
  refine returns_arg (by omega) fun stop => ?_
  refine returns_ite (fun _ => refuse_sound _) fun _ => ?_
  refine returns_arg (by omega) fun key => ?_
  exact readFirst_sound srv views (fun t => lRange_noPanic srv.codec t key _ _)
    complete_writeStrings

theorem handleLIndex_sound : Returns (handleLIndex srv views args) Action.Sound := by
  refine returns_ite (fun _ => refuse_sound _) fun hlen => ?_
  refine returns_arg (by omega) fun index => ?_
  split
  · exact refuse_sound _
  · refine returns_arg (by omega) fun key => ?_
    exact readFirst_sound srv views (fun t => lIndex_noPanic srv.codec t key _) complete_writeBulk

theorem handleLTrim_sound : Returns (handleLTrim srv args) Action.Sound := by
  refine returns_ite (fun _ => refuse_sound _) fun hlen => ?_
  refine returns_arg (by omega) fun start => ?_
  refine returns_ite (fun _ => refuse_sound _) fun _ => ?_
  refine returns_arg (by omega) fun stop => ?_
  refine returns_ite (fun _ => refuse_sound _) fun _ => ?_
  refine returns_arg (by omega) fun key => ?_
  refine (returns_argsAt (by simp; omega)).bind fun l hl => ?_
  exact applyCommand_sound srv hl

theorem handleLRem_sound : Returns (handleLRem srv args) Action.Sound := by
  refine returns_ite (fun _ => refuse_sound _) fun hlen => ?_
  refine returns_arg (by omega) fun count => ?_
  refine returns_ite (fun _ => refuse_sound _) fun _ => ?_
  refine returns_arg (by omega) fun key => ?_
  refine (returns_argsAt (by simp; omega)).bind fun l hl => ?_
  exact applyCommand_sound srv hl

theorem handleSPop_sound : Returns (handleSPop srv args) Action.Sound := by
  refine returns_ite (fun _ => refuse_sound _) fun hlen => ?_
  refine returns_ite (fun hlen' => ?_) fun _ => ?_
  · refine returns_arg (by omega) fun count => ?_
    refine returns_ite (fun _ => refuse_sound _) fun _ => ?_
    refine returns_arg (by omega) fun key => ?_
    refine (returns_argsAt (by simp; omega)).bind fun l _ => ?_
    exact applyCommand_sound srv trivial
  · refine returns_arg (by omega) fun key => ?_
    exact applyCommand_sound srv trivial

/-- EVAL and EVALSHA return for any number of keys that they are given, and build a command of their
own operation. -/
theorem handleScriptCall_builds (op : Op) (name : Bytes) :
    Returns (handleScriptCall srv args op name) (Action.Builds fun cmd => cmd.op = op) := by
  refine returns_ite (fun _ => refuse_sound _) fun hlen => ?_
  refine returns_arg (by omega) fun numKeys => ?_
  refine returns_ite (fun _ => refuse_sound _) fun _ => ?_
  refine returns_ite (fun _ => refuse_sound _) fun _ => ?_
  have hslice : (0 : Int) ≤ 1 ∧ (1 : Int) ≤ args.length ∧
    (args.length : Int) ≤ args.length := by omega
  rw [Slice.slice_eq_ok _ hslice]
  exact applyCommand_sound srv rfl

theorem handleScript_sound : Returns (handleScript srv args) Action.Sound := by
  refine returns_ite (fun _ => refuse_sound _) fun hlen => ?_
  refine returns_arg (by omega) fun word => ?_
  refine returns_ite (fun _ => ?_) fun _ => ?_
  · refine returns_ite (fun _ => refuse_sound _) fun hlen' => ?_
    refine (returns_argsAt (by simp; omega)).bind fun l _ => ?_
    exact applyCommand_sound srv trivial
  refine returns_ite (fun _ => ?_) fun _ => ?_
  · refine returns_ite (fun _ => refuse_sound _) fun hlen' => ?_
    have hslice : (0 : Int) ≤ 2 ∧ (2 : Int) ≤ args.length ∧
      (args.length : Int) ≤ args.length := by omega
    rw [Slice.slice_eq_ok _ hslice]
    exact applyCommand_sound srv trivial
  exact returns_ite (fun _ => applyCommand_sound srv trivial) fun _ => refuse_sound _

/-! ## SRANDMEMBER and SMISMEMBER -/

/-- The request asks, by a negative count, for more members than a slice can have, of a set that has
one. -/
def AsksTooMany : Prop :=
  ∃ name key count n, args = [name, key, count] ∧ parseInt count = (n, true) ∧
    n.toInt < -(maxStrings : Int) ∧ DB.HoldsMember srv.codec (views 0).now key (views 0).db

/-- SRANDMEMBER with a third argument, which has to be an integer. -/
theorem handleSRandMember_count (name key arg : Bytes) :
    handleSRandMember srv views [name, key, arg] =
      if (parseInt arg).2 = false then refuse (ascii "ERR value is not an integer")
      else answer srv (readFirst views fun t => sRandMember srv.codec t key (some (parseInt arg).1))
        writeStrings := by
  have hlen : [name, key, arg].length = 3 := rfl
  have hget : goIndex [name, key, arg] 2 = .ok arg := rfl
  rw [handleSRandMember, if_pos hlen, hget]
  dsimp only [bind, Except.bind]
  rcases parseInt arg with ⟨count, _ | _⟩
  · rfl
  · rfl

/-- With a count that asks for more strings than a slice can hold, `make` panics. -/
theorem handleSRandMember_panic (h : AsksTooMany srv views args) :
    handleSRandMember srv views args = .error .panic := by
  obtain ⟨name, key, arg, n, rfl, harg, hn, hholds⟩ := h
  have hread : readFirst views (fun t => sRandMember srv.codec t key (some n)) = .error .panic :=
    (sRandMember_panic_iff _ _ _ _ _).mpr ⟨⟨n, rfl, hn⟩, hholds⟩
  rw [handleSRandMember_count, harg, if_neg Bool.false_ne_true.symm, hread]
  rfl

/-- With any other count SRANDMEMBER returns with a complete reply. -/
theorem handleSRandMember_sound (h : ¬ AsksTooMany srv views args) :
    Returns (handleSRandMember srv views args) Action.Sound := by
  by_cases hlen : args.length = 3
  · obtain ⟨name, key, arg, rfl⟩ := List.length_eq_three.mp hlen
    rw [handleSRandMember_count]
    refine returns_ite (fun _ => refuse_sound _) fun hparsed => ?_
    refine answer_sound srv ?_ complete_writeStrings
    intro hpanic
    obtain ⟨⟨n, hsome, hn⟩, hholds⟩ := (sRandMember_panic_iff _ _ _ _ _).mp hpanic
    have harg : parseInt arg = (n, true) :=
      Prod.ext (Option.some.inj hsome) (Bool.not_eq_false _ ▸ hparsed)
    exact h ⟨name, key, arg, n, rfl, harg, hn, hholds⟩
  · rw [handleSRandMember, if_neg hlen]
    refine handleKeyRead_sound srv views args (fun key t => ?_) ?_
    · intro db e he hpanic
      rw [hpanic, sRandMember_panic_iff] at he
      obtain ⟨⟨n, hnone, -⟩, -⟩ := he
      cases hnone
    · rintro (_ | ⟨member, rest⟩)
      · exact complete_single rfl
      · exact complete_single rfl

/-- A lookup of the loop of SMISMEMBER. -/
theorem isMemberLoop_succ {key member : Bytes} {rounds i : Nat} (hkey : goIndex args 1 = .ok key)
    (hmember : goIndex args (i : Nat) = .ok member) :
    isMemberLoop srv views args (rounds + 1) i =
      match ((sIsMember srv.codec (views (i - 2)).now key member).run (views (i - 2)).db).1 with
      | .error .panic => .error .panic
      | .error err => .ok [.error (err.text srv.codecText)]
      | .ok n => do
        let ws ← isMemberLoop srv views args rounds (i + 1)
        return .int n :: ws := by
  rw [isMemberLoop, hkey, hmember]
  rfl

/-- A lookup that is refused ends the loop. -/
theorem isMemberLoop_refused {key member : Bytes} {rounds i : Nat} (hkey : goIndex args 1 = .ok key)
    (hmember : goIndex args (i : Nat) = .ok member) {e : Err} (he : e ≠ .panic)
    (hread : ((sIsMember srv.codec (views (i - 2)).now key member).run (views (i - 2)).db).1 =
      .error e) :
    isMemberLoop srv views args (rounds + 1) i = .ok [.error (e.text srv.codecText)] := by
  rw [isMemberLoop_succ srv views args hkey hmember, hread]
  split
  · rename_i h
    exact absurd (Except.error.inj h) he
  · rename_i h
    rw [Except.error.inj h]
  · rename_i h
    cases h

/-- No lookup but the last one: from `n` on, and from `n + 1` on if the one at `n` is known. -/
theorem forall_before_last {P : Nat → Prop} {n rounds : Nat} (h : P n) :
    (∀ j, j + 1 < rounds + 1 → P (n + j)) ↔ ∀ j, j + 1 < rounds → P (n + 1 + j) := by
  constructor
  · intro hall j hj
    rw [Nat.add_right_comm, Nat.add_assoc]
    exact hall (j + 1) (by omega)
  · intro hall j hj
    cases j with
    | zero => exact h
    | succ j =>
      rw [← Nat.add_assoc, Nat.add_right_comm]
      exact hall j (by omega)

/-- The lookups from `i` on fill the array if no lookup but the last one is refused. -/
theorem isMemberLoop_returns {key : Bytes} (hkey : goIndex args 1 = .ok key) {rounds i : Nat}
    (hi : 2 ≤ i) (hlen : i + rounds ≤ args.length) :
    Returns (isMemberLoop srv views args rounds i) fun ws =>
      (∀ w ∈ ws, w.single = true) ∧ ws.length ≤ rounds ∧
        (ws.length = rounds ↔ ∀ j, j + 1 < rounds →
          ¬ DB.RefusesSet srv.codec (views (i - 2 + j)).now key (views (i - 2 + j)).db) := by
  induction rounds generalizing i with
  | zero =>
    refine ⟨[], rfl, ?_, le_rfl, ?_⟩
    · intro w hw
      cases hw
    · exact iff_of_true rfl fun j hj => absurd hj (Nat.not_lt_zero _)
  | succ rounds ih =>
    have hin : (0 : Int) ≤ (i : Int) ∧ (i : Int) < args.length := by omega
    obtain ⟨member, hmember, -⟩ := returns_goIndex hin
    cases hread :
      ((sIsMember srv.codec (views (i - 2)).now key member).run (views (i - 2)).db).1 with
    | error e =>
      obtain ⟨he, hrefuses⟩ := sIsMember_error _ _ _ _ _ hread
      rw [isMemberLoop_refused srv views args hkey hmember he hread]
      refine ⟨[.error (e.text srv.codecText)], rfl, ?_, ?_, ?_⟩
      · intro w hw
        rw [List.mem_singleton.mp hw]
        rfl
      · simp only [List.length_singleton]
        omega
      · rw [List.length_singleton]
        constructor
        · intro h j hj
          omega
        · intro h
          by_contra hne
          exact h 0 (by omega) hrefuses
    | ok n =>
      have hhead : ¬ DB.RefusesSet srv.codec (views (i - 2)).now key (views (i - 2)).db := by
        intro hrefuses
        obtain ⟨e, -, he⟩ := sIsMember_of_refuses _ _ _ _ member hrefuses
        rw [hread] at he
        cases he
      obtain ⟨ws, hws, hsingle, hle, hiff⟩ := ih (i := i + 1) (by omega) (by omega)
      rw [isMemberLoop_succ srv views args hkey hmember, hread]
      refine ⟨.int n :: ws, ?_, ?_, ?_, ?_⟩
      · rw [hws]
        rfl
      · intro w hw
        rcases List.mem_cons.mp hw with rfl | hw
        · rfl
        · exact hsingle w hw
      · simp only [List.length_cons]
        omega
      · have hshift : i + 1 - 2 = i - 2 + 1 := by omega
        rw [hshift] at hiff
        rw [List.length_cons, Nat.add_right_cancel_iff, hiff]
        exact (forall_before_last (P := fun n =>
          ¬ DB.RefusesSet srv.codec (views n).now key (views n).db) hhead).symm

/-- A lookup of SMISMEMBER before the last one is refused. -/
def BreaksOff : Prop :=
  ∃ name key members i, args = name :: key :: members ∧ i + 1 < members.length ∧
    DB.RefusesSet srv.codec (views i).now key (views i).db

/-- SMISMEMBER always returns; its reply is complete unless a read fails after the header has been
written. -/
theorem handleSMIsMember_returns :
    Returns (handleSMIsMember srv views args) fun a =>
      ∃ ws, a = .write ws ∧ (Complete ws ↔ ¬ BreaksOff srv views args) := by
  refine returns_ite (fun hlen => ?_) fun hlen => ?_
  · refine ⟨_, rfl, _, rfl, iff_of_true (complete_error _) ?_⟩
    rintro ⟨name, key, members, i, rfl, hi, -⟩
    simp only [List.length_cons] at hlen
    omega
  · obtain ⟨name, key, members, rfl⟩ : ∃ name key members, args = name :: key :: members := by
      match args, hlen with
      | name :: key :: members, _ => exact ⟨name, key, members, rfl⟩
      | [_], h => exact absurd (by simp) h
      | [], h => exact absurd (by simp) h
    have hlen' : (name :: key :: members).length - 2 = members.length := rfl
    have hbound : 2 + members.length ≤ (name :: key :: members).length := by
      simp only [List.length_cons]
      omega
    obtain ⟨ws, hws, hsingle, hle, hiff⟩ :=
      isMemberLoop_returns srv views (name :: key :: members) rfl le_rfl hbound
    refine ⟨.write (.array members.length :: ws), ?_, _, rfl, ?_⟩
    · rw [hlen', hws]
      rfl
    · rw [complete_array_iff hsingle hle, hiff]
      constructor
      · rintro h ⟨_, _, _, i, heq, hi, hrefuses⟩
        cases heq
        exact h i hi (by simpa using hrefuses)
      · intro h j hj hrefuses
        exact h ⟨name, key, members, j, rfl, hj, by simpa using hrefuses⟩

/-! ## The mux -/

/-- The handlers that answer or have a command applied, come what may. -/
theorem handler_sound (conn : Conn) {verb : Verb} (heval : verb ≠ .eval ∧ verb ≠ .evalsha)
    (hset : verb ≠ .srandmember ∧ verb ≠ .smismember) :
    Returns (verb.handler srv views conn args) Action.Sound := by
  have hfixed : ∀ {op arity positions}, 2 ≤ arity → (∀ i ∈ positions, i < arity) →
      (∀ key l, l.length = positions.length → Command.Served { op := op, key := key, args := l }) →
      Returns (handleFixed srv args op arity positions) Action.Sound := handleFixed_sound srv args
  have hpush : ∀ {op}, (∀ key l, l ≠ [] → Command.Served { op := op, key := key, args := l }) →
      Returns (handleVariadic srv args op) Action.Sound := handleVariadic_sound srv args
  cases verb with
  | ping => exact ⟨_, rfl, complete_single rfl⟩
  | client => exact handleClient_sound srv args conn
  | set => exact handleSet_sound srv views args
  | get => exact ⟨_, rfl, complete_handleGet _ _ _ _⟩
  | del | unlink => exact handleDel_sound srv args
  | type =>
    exact handleKeyRead_sound srv views args (fun key t => fsmType_noPanic t key)
      fun _ => complete_single rfl
  | keys => exact handleKeys_sound views args
  | touch | existsKeys => exact handleCount_sound srv views args
  | persist => exact hfixed (by decide) (by decide) fun _ _ _ => trivial
  | pttl =>
    exact handleKeyRead_sound srv views args (fun key t => timeToLive_noPanic t key _)
      fun _ => complete_single rfl
  | mset => exact handleMSet_sound srv args
  | mget => exact handleMGet_sound srv views args
  | flushdb => exact handleFlushDB_sound srv args
  | append | getset => exact hfixed (by decide) (by decide) fun _ _ _ => trivial
  | incrby | decrby => exact hfixed (by decide) (by decide) fun _ _ h => h
  | incr | decr => exact hfixed (by decide) (by decide) fun _ _ _ => trivial
  | strlen =>
    exact handleKeyRead_sound srv views args (fun key t => strLen_noPanic t key) complete_writeNat
  | setex => exact handleSetEx_sound srv args
  | expire => exact handleExpire_sound srv args
  | ttl =>
    exact handleKeyRead_sound srv views args (fun key t => timeToLive_noPanic t key _)
      fun _ => complete_single rfl
  | hset => exact handleHSet_sound srv args
  | hsetnx => exact hfixed (by decide) (by decide) fun _ _ h => h
  | hget =>
    exact handleFieldRead_sound srv views args
      (fun key _ t => (readAs_noPanic t key _ _).bind fun _ => Txn.raises_pure _) complete_writeBulk
  | hgetall => exact handleHGetAll_sound srv views args
  | hdel => exact hpush fun _ _ _ => trivial
  | hexists =>
    exact handleFieldRead_sound srv views args
      (fun key _ t => (hGetAll_noPanic srv.codec t key).bind fun _ => Txn.raises_pure _)
        complete_writeNat
  | hlen =>
    exact handleKeyRead_sound srv views args
      (fun key t => (hGetAll_noPanic srv.codec t key).bind fun _ => Txn.raises_pure _)
        complete_writeNat
  | hkeys | hvals =>
    exact handleKeyRead_sound srv views args
      (fun key t => (hGetAll_noPanic srv.codec t key).bind fun _ => Txn.raises_pure _)
        complete_writeStrings
  | hmget => exact handleHMGet_sound srv views args
  | lpush | rpush | lpushx | rpushx => exact hpush fun _ _ h => h
  | lpop | rpop => exact handlePop_sound srv args fun _ _ => trivial
  | lrange => exact handleLRange_sound srv views args
  | llen =>
    exact handleKeyRead_sound srv views args (fun key t => lLen_noPanic srv.codec t key)
      complete_writeNat
  | lindex => exact handleLIndex_sound srv views args
  | ltrim => exact handleLTrim_sound srv args
  | lrem => exact handleLRem_sound srv args
  | sadd => exact hpush fun _ _ h => h
  | smembers =>
    exact handleKeyRead_sound srv views args (fun key t => sMembers_noPanic srv.codec t key)
      complete_writeStrings
  | sismember =>
    exact handleFieldRead_sound srv views args
      (fun key _ t => (readAs_noPanic t key _ _).bind fun _ => Txn.raises_pure _) complete_writeNat
  | scard =>
    exact handleKeyRead_sound srv views args
      (fun key t => (sMembers_noPanic srv.codec t key).bind fun _ => Txn.raises_pure _)
        complete_writeNat
  | srem => exact hpush fun _ _ _ => trivial
  | spop => exact handleSPop_sound srv args
  | srandmember => exact absurd rfl hset.1
  | smismember => exact absurd rfl hset.2
  | eval => exact absurd rfl heval.1
  | evalsha => exact absurd rfl heval.2
  | script => exact handleScript_sound srv args

end Handlers

/-! ## The command of a request -/

theorem requestCommand_applyCommand (srv : Server) (cmd : Command) :
    requestCommand (applyCommand srv cmd) = some cmd := rfl

/-- The arguments at consecutive positions. -/
theorem argsAt_range' {args : List Bytes} {start n : Nat} (h : start + n ≤ args.length) :
    argsAt args (List.range' start n) = .ok ((args.drop start).take n) := by
  induction n generalizing start with
  | zero => rfl
  | succ n ih =>
    have hlt : start < args.length := by omega
    have hget : goIndex args (start : Nat) = .ok args[start] :=
      goIndex_natCast (List.getElem?_eq_getElem hlt)
    have htail : argsAt args (List.range' (start + 1) n) = .ok ((args.drop (start + 1)).take n) :=
      ih (by omega)
    unfold argsAt at htail ⊢
    rw [List.range'_succ, List.mapM_cons, hget, htail, List.drop_eq_getElem_cons hlt,
      List.take_succ_cons]
    rfl

theorem argsFrom_eq (args : List Bytes) {start : Nat} (h : start ≤ args.length) :
    argsFrom args start = .ok (args.drop start) := by
  unfold argsFrom
  rw [argsAt_range' (by omega), List.take_of_length_le (by rw [List.length_drop])]

section Commands

variable (srv : Server) (name key : Bytes)

/-- What the handler builds when there is an argument after the key. -/
theorem handleVariadic_eq (op : Op) (val : Bytes) (vals : List Bytes) :
    handleVariadic srv (name :: key :: val :: vals) op =
      applyCommand srv { op := op, key := key, args := val :: vals } := by
  have hlen : ¬ (name :: key :: val :: vals).length < 3 := by
    simp only [List.length_cons]
    omega
  rw [handleVariadic, if_neg hlen, argsFrom_eq _ (by simp)]
  rfl

theorem handleDel_eq (keys : List Bytes) :
    handleDel srv (name :: key :: keys) = applyCommand srv { op := .del, args := key :: keys } := by
  have hlen : ¬ (name :: key :: keys).length < 2 := by
    simp only [List.length_cons]
    omega
  rw [handleDel, if_neg hlen, argsFrom_eq _ (by simp)]
  rfl

theorem handleMSet_eq {args : List Bytes} (hlen : 2 ≤ args.length) (heven : args.length % 2 = 0) :
    handleMSet srv (name :: args) = applyCommand srv { op := .mset, args := args } := by
  have hserved : ¬ ((name :: args).length < 3 ∨ (name :: args).length % 2 = 0) := by
    rw [List.length_cons]
    omega
  rw [handleMSet, if_neg hserved, argsFrom_eq _ (by simp)]
  rfl

theorem handleExpire_eq (secs : Bytes) :
    handleExpire srv [name, key, secs] =
      if (parseInt secs).2 = false then refuse (ascii "ERR value is not an integer")
      else applyCommand srv { op := .expire, key := key, ttlMs := (parseInt secs).1 * 1000 } := by
  have hlen : ¬ [name, key, secs].length ≠ 3 := not_not.mpr rfl
  have hget : goIndex [name, key, secs] 2 = .ok secs := rfl
  rw [handleExpire, if_neg hlen, hget]
  dsimp only [bind, Except.bind]
  rcases parseInt secs with ⟨n, _ | _⟩
  · rfl
  · rfl

theorem handleLIndex_eq (views : Nat → ReadView) (index : Bytes) :
    handleLIndex srv views [name, key, index] =
      if (parseInt index).2 = false then refuse (ascii "ERR value is not an integer")
      else answer srv (readFirst views fun t => lIndex srv.codec t key (parseInt index).1.toInt)
        writeBulk := by
  have hlen : ¬ [name, key, index].length ≠ 3 := not_not.mpr rfl
  have hget : goIndex [name, key, index] 2 = .ok index := rfl
  rw [handleLIndex, if_neg hlen, hget]
  dsimp only [bind, Except.bind]
  rcases parseInt index with ⟨n, _ | _⟩
  · rfl
  · rfl

theorem handleHSet_eq {args : List Bytes} (hlen : 2 ≤ args.length) (heven : args.length % 2 = 0) :
    handleHSet srv (name :: key :: args) =
      applyCommand srv { op := .hset, key := key, args := args } := by
  have hserved : ¬ ((name :: key :: args).length < 4 ∨ (name :: key :: args).length % 2 ≠ 0) := by
    rw [List.length_cons, List.length_cons]
    omega
  rw [handleHSet, if_neg hserved, argsFrom_eq _ (by simp)]
  rfl

end Commands

/-! ## GET -/

/-- GET answers the bytes of a string, and null for an absent key. -/
theorem handleGet_ofString (c : Codec) (codecText : Bytes) {t : Nat} (name : Bytes) {key : Bytes}
    {db : DB} {o : Option Bytes} (h : DB.view c t db key = ofString o) :
    handleGet codecText t [name, key] db = writeBulk o := by
  unfold handleGet
  dsimp only
  rw [getString_run c, h]
  cases o <;> rfl

end Badis
