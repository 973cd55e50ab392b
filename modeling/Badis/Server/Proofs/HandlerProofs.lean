import Badis.Server.Proofs.RequestsProofs
import Badis.Store.Proofs.ErrorProofs

/-!
# What a handler can do

One lemma for each handler says, for any predicate `R` on actions, what has to be in `R` for all
that the handler does to be (`Yields`): its error replies, the replies that its read writes, and the
command that it builds, with what is known of its key and arguments. Which commands come of a
request and what replies look like are such predicates.
-/

namespace Badis

open Lib

/-- Whatever comes of the request satisfies `R`. -/
def Yields (R : Action → Prop) (r : Except Err Action) : Prop := ∀ a, r = .ok a → R a

section Rules

variable {R : Action → Prop}

theorem yields_ok {a : Action} (h : R a) : Yields R (.ok a) := by
  rintro _ ⟨⟩
  exact h

theorem yields_error (e : Err) : Yields R (.error e) := by
  rintro _ ⟨⟩

/-- What follows a step of a handler only has to be looked at if the step returns. -/
theorem Yields.bind {α : Type} {m : Except Err α} {f : α → Except Err Action}
    (h : ∀ a, m = .ok a → Yields R (f a)) : Yields R (m >>= f) := by
  cases m with
  | error e => exact yields_error e
  | ok a => exact h a rfl

/-- A test that refuses the request: the rest of the handler may use that it has passed. -/
theorem Yields.ite {p : Prop} [Decidable p] {r r' : Except Err Action} (h : Yields R r)
    (h' : ¬ p → Yields R r') : Yields R (if p then r else r') := by
  split_ifs with hp
  · exact h
  · exact h' hp

end Rules

/-- Whatever command comes of the request, it satisfies `Q`. -/
def Issues (Q : Command → Prop) (r : Except Err Action) : Prop :=
  ∀ cmd, requestCommand r = some cmd → Q cmd

/-- The command of an action, if there is one, satisfies `Q`. -/
def Action.Issues (Q : Command → Prop) : Action → Prop
  | .apply cmd _ => Q cmd
  | _ => True

/-- A predicate on the commands of all actions holds for the command of the request. -/
theorem Yields.issues {Q : Command → Prop} {r : Except Err Action}
    (h : Yields (Action.Issues Q) r) :
    Issues Q r := by
  intro cmd hcmd
  cases r with
  | error e => cases hcmd
  | ok a =>
    cases a with
    | write | client => cases hcmd
    | apply cmd' reply =>
      cases hcmd
      exact h _ rfl

/-- The loop of SMISMEMBER writes integers and errors, no array headers. -/
theorem isMemberLoop_single (srv : Server) (views : Nat → ReadView) (args : List Bytes)
    {rounds i : Nat} {ws : List Write} (h : isMemberLoop srv views args rounds i = .ok ws) :
    ∀ w ∈ ws, w.single = true := by
  induction rounds generalizing i ws with
  | zero =>
    cases h
    intro w hw
    cases hw
  | succ rounds ih =>
    unfold isMemberLoop at h
    obtain ⟨key, -, h⟩ := except_bind_ok h
    obtain ⟨member, -, h⟩ := except_bind_ok h
    dsimp only at h
    split at h
    · cases h
    · cases h
      intro w hw
      rw [List.mem_singleton.mp hw]
      rfl
    · obtain ⟨rest, hrest, h⟩ := except_bind_ok h
      cases h
      intro w hw
      rcases List.mem_cons.mp hw with rfl | hw
      · rfl
      · exact ih hrest w hw

section Handlers

variable {R : Action → Prop} (srv : Server) (views : Nat → ReadView) (args : List Bytes)
variable (hrefuse : ∀ msg, R (.write [.error msg]))

include hrefuse

theorem yields_refuse (msg : Bytes) : Yields R (refuse msg) := yields_ok (hrefuse msg)

/-! ## Reads -/

section Reads

variable {α : Type}

theorem yields_answer (r : Except Err α) {ok : α → List Write} (hok : ∀ a, R (.write (ok a))) :
    Yields R (answer srv r ok) := by
  unfold answer
  split
  · exact yields_error _
  · exact yields_refuse hrefuse _
  · exact yields_ok (hok _)

theorem handleKeyRead_yields (m : Bytes → Nat → Tx α) {ok : α → List Write}
    (hok : ∀ a, R (.write (ok a))) : Yields R (handleKeyRead srv views args m ok) :=
  .ite (yields_refuse hrefuse _) fun _ => .bind fun _ _ => yields_answer srv hrefuse _ hok

theorem handleFieldRead_yields (m : Bytes → Bytes → Nat → Tx α) {ok : α → List Write}
    (hok : ∀ a, R (.write (ok a))) : Yields R (handleFieldRead srv views args m ok) :=
  .ite (yields_refuse hrefuse _) fun _ => .bind fun _ _ => .bind fun _ _ =>
    yields_answer srv hrefuse _ hok

theorem handleCount_yields (hok : ∀ n, R (.write (writeNat n))) :
    Yields R (handleCount srv views args) :=
  .ite (yields_refuse hrefuse _) fun _ => .bind fun _ _ => yields_answer srv hrefuse _ hok

theorem handleMGet_yields (hok : ∀ l, R (.write (writeBulks l))) :
    Yields R (handleMGet srv views args) :=
  .ite (yields_refuse hrefuse _) fun _ => .bind fun _ _ => yields_answer srv hrefuse _ hok

theorem handleHMGet_yields (hok : ∀ l, R (.write (writeBulks l))) :
    Yields R (handleHMGet srv views args) :=
  .ite (yields_refuse hrefuse _) fun _ => .bind fun _ _ => .bind fun _ _ =>
    yields_answer srv hrefuse _ hok

theorem handleKeys_yields (hok : ∀ l, R (.write (writeStrings l))) :
    Yields R (handleKeys views args) := by
  refine .ite (yields_refuse hrefuse _) fun _ => .bind fun _ _ => ?_
  split
  · exact yields_error _
  · exact yields_refuse hrefuse _
  · exact yields_ok (hok _)

theorem handleLRange_yields (hok : ∀ l, R (.write (writeStrings l))) :
    Yields R (handleLRange srv views args) := by
  refine .ite (yields_refuse hrefuse _) fun _ => .bind fun _ _ => .bind fun _ _ => ?_
  exact .ite (yields_refuse hrefuse _) fun _ => .bind fun _ _ => yields_answer srv hrefuse _ hok

theorem handleLIndex_yields (hok : ∀ b, R (.write (writeBulk b))) :
    Yields R (handleLIndex srv views args) := by
  refine .ite (yields_refuse hrefuse _) fun _ => .bind fun index _ => ?_
  rcases parseInt index with ⟨n, _ | _⟩
  · exact yields_refuse hrefuse _
  · exact .bind fun _ _ => yields_answer srv hrefuse _ hok

/-- SRANDMEMBER answers with one string without a count, and with an array with one. -/
theorem handleSRandMember_yields (hbulk : ∀ b, R (.write (writeBulk b)))
    (hok : ∀ l, R (.write (writeStrings l))) : Yields R (handleSRandMember srv views args) := by
  refine .ite (.bind fun count _ => ?_) fun _ =>
    handleKeyRead_yields srv views args hrefuse _ fun members => ?_
  · rcases parseInt count with ⟨n, _ | _⟩
    · exact yields_refuse hrefuse _
    · exact .bind fun _ _ => yields_answer srv hrefuse _ hok
  · cases members with
    | nil => exact hbulk none
    | cons member _ => exact hbulk (some member)

/-- SMISMEMBER writes the header and then single values. -/
theorem handleSMIsMember_yields
    (hok : ∀ n ws, (∀ w ∈ ws, w.single = true) → R (.write (.array n :: ws))) :
    Yields R (handleSMIsMember srv views args) :=
  .ite (yields_refuse hrefuse _) fun _ => .bind fun ws hws =>
    yields_ok (hok _ ws (isMemberLoop_single srv views args hws))

end Reads

/-! ## Writes -/

section Writes

variable {args}

/-- A handler with a fixed number of arguments passes on those at its positions. -/
theorem handleFixed_yields {op : Op} {arity : Nat} {positions : List Nat}
    (hpos : ∀ i ∈ positions, i < arity)
    (h : ∀ key l, goIndex args 1 = .ok key → l.length = positions.length →
      R (.apply { op := op, key := key, args := l } (applyReply srv.codecText))) :
    Yields R (handleFixed srv args op arity positions) := by
  refine .ite (yields_refuse hrefuse _) fun harity => .bind fun key hget => .bind fun l hl =>
    yields_ok ?_
  rw [not_not] at harity
  have hargs : ∀ i ∈ positions, i < args.length := fun i hi => harity ▸ hpos i hi
  obtain ⟨l', hl', hlen⟩ := returns_argsAt hargs
  rw [hl] at hl'
  cases hl'
  exact h key l hget hlen

/-- A handler with any number of arguments passes on those after the key, at least one. -/
theorem handleVariadic_yields {op : Op}
    (h : ∀ key l, goIndex args 1 = .ok key → l ≠ [] →
      R (.apply { op := op, key := key, args := l } (applyReply srv.codecText))) :
    Yields R (handleVariadic srv args op) := by
  refine .ite (yields_refuse hrefuse _) fun hlen => .bind fun key hget => .bind fun l hl =>
    yields_ok ?_
  obtain ⟨l', hl', hlen'⟩ := returns_argsFrom args 2
  rw [hl] at hl'
  cases hl'
  exact h key l hget (List.length_pos_iff.mp (by omega))

theorem handlePop_yields {op : Op}
    (h : ∀ key l, goIndex args 1 = .ok key →
      R (.apply { op := op, key := key, args := l } (applyReply srv.codecText))) :
    Yields R (handlePop srv args op) :=
  .ite (yields_refuse hrefuse _) fun _ => .bind fun l _ => .bind fun key hget =>
    yields_ok (h key l hget)

/-- The options of SET keep the operation and the key. -/
theorem handleSet_yields
    (h : ∀ key cmd, goIndex args 1 = .ok key → cmd.op = .set → cmd.key = key →
      R (.apply cmd (setOutcome srv.codecText cmd))) :
    Yields R (handleSet srv views args) := by
  refine .ite (yields_refuse hrefuse _) fun _ => .bind fun key hget => .bind fun val _ =>
    .bind fun r hr => ?_
  obtain ⟨r', hr', hkeeps⟩ := setOptionLoopChecked_returns srv args (views 0).now
    { op := .set, key := key, args := [val] }
  rw [hr'] at hr
  cases hr
  cases r with
  | error msg => exact yields_refuse hrefuse msg
  | ok cmd =>
    obtain ⟨hop, hcmd⟩ := hkeeps cmd rfl
    exact yields_ok (h key cmd hget hop hcmd)

theorem handleDel_yields
    (h : ∀ keys, argsFrom args 1 = .ok keys →
      R (.apply { op := .del, args := keys } (applyReply srv.codecText))) :
    Yields R (handleDel srv args) :=
  .ite (yields_refuse hrefuse _) fun _ => .bind fun keys hkeys => yields_ok (h keys hkeys)

theorem handleMSet_yields
    (h : ∀ pairs, argsFrom args 1 = .ok pairs →
      R (.apply { op := .mset, args := pairs } (applyReply srv.codecText))) :
    Yields R (handleMSet srv args) :=
  .ite (yields_refuse hrefuse _) fun _ => .bind fun pairs hpairs => yields_ok (h pairs hpairs)

/-- SETEX becomes a SET with the time in milliseconds. -/
theorem handleSetEx_yields
    (h : ∀ key val ttlMs, goIndex args 1 = .ok key →
      R (.apply { op := .set, key := key, args := [val], ttlMs := ttlMs }
        (applyReply srv.codecText))) :
    Yields R (handleSetEx srv args) := by
  refine .ite (yields_refuse hrefuse _) fun _ => .bind fun secs _ =>
    .ite (yields_refuse hrefuse _) fun _ => ?_
  exact .bind fun key hget => .bind fun val _ => yields_ok (h key val _ hget)

theorem handleFlushDB_yields (h : R (.apply { op := .flushdb } (applyReply srv.codecText))) :
    Yields R (handleFlushDB srv args) := by
  refine .ite (yields_refuse hrefuse _) fun _ => .ite (.bind fun _ _ => ?_) fun _ => yields_ok h
  exact .ite (yields_refuse hrefuse _) fun _ => yields_ok h

theorem handleExpire_yields
    (h : ∀ key ttlMs, goIndex args 1 = .ok key →
      R (.apply { op := .expire, key := key, ttlMs := ttlMs } (applyReply srv.codecText))) :
    Yields R (handleExpire srv args) := by
  refine .ite (yields_refuse hrefuse _) fun _ => .bind fun secs _ => ?_
  rcases parseInt secs with ⟨n, _ | _⟩
  · exact yields_refuse hrefuse _
  · exact .bind fun key hget => yields_ok (h key _ hget)

/-- HSET passes on an even number of arguments. -/
theorem handleHSet_yields
    (h : ∀ key l, goIndex args 1 = .ok key → l.length % 2 = 0 →
      R (.apply { op := .hset, key := key, args := l } (applyReply srv.codecText))) :
    Yields R (handleHSet srv args) := by
  refine .ite (yields_refuse hrefuse _) fun hlen => .bind fun key hget => .bind fun l hl =>
    yields_ok ?_
  obtain ⟨l', hl', hlen'⟩ := returns_argsFrom args 2
  rw [hl] at hl'
  cases hl'
  exact h key l hget (by omega)

theorem handleLTrim_yields
    (h : ∀ key l, goIndex args 1 = .ok key →
      R (.apply { op := .ltrim, key := key, args := l } (applyReply srv.codecText))) :
    Yields R (handleLTrim srv args) := by
  refine .ite (yields_refuse hrefuse _) fun _ => .bind fun _ _ =>
    .ite (yields_refuse hrefuse _) fun _ => ?_
  refine .bind fun _ _ => .ite (yields_refuse hrefuse _) fun _ => .bind fun key hget =>
    .bind fun l _ => ?_
  exact yields_ok (h key l hget)

theorem handleLRem_yields
    (h : ∀ key l, goIndex args 1 = .ok key →
      R (.apply { op := .lrem, key := key, args := l } (applyReply srv.codecText))) :
    Yields R (handleLRem srv args) := by
  refine .ite (yields_refuse hrefuse _) fun _ => .bind fun _ _ =>
    .ite (yields_refuse hrefuse _) fun _ => ?_
  exact .bind fun key hget => .bind fun l _ => yields_ok (h key l hget)

theorem handleSPop_yields
    (h : ∀ key l, goIndex args 1 = .ok key →
      R (.apply { op := .spop, key := key, args := l } (applyReply srv.codecText))) :
    Yields R (handleSPop srv args) := by
  refine .ite (yields_refuse hrefuse _) fun _ => .ite (.bind fun count _ => ?_) fun _ => ?_
  · refine .ite (yields_refuse hrefuse _) fun _ => .bind fun key hget => .bind fun l _ => ?_
    exact yields_ok (h key l hget)
  · exact .bind fun key hget => yields_ok (h key [] hget)

end Writes

/-! ## Connection and scripts -/

/-- CLIENT answers with one value, and may change the context of its connection. -/
theorem handleClient_yields (conn : Conn) (hwrite : ∀ w, R (.write [w]))
    (hclient : ∀ w ctx, R (.client [w] ctx)) : Yields R (handleClient srv args conn) := by
  refine .ite (yields_refuse hrefuse _) fun _ => .bind fun _ _ => ?_
  refine .ite (.ite (yields_refuse hrefuse _) fun _ => .bind fun _ _ => yields_ok (hclient _ _))
    fun _ => ?_
  refine .ite (.ite (yields_refuse hrefuse _) fun _ => .ite (yields_ok (hwrite _)) fun _ =>
    yields_ok (hwrite _)) fun _ => ?_
  refine .ite (.ite (yields_refuse hrefuse _) fun _ => .bind fun _ _ => .bind fun _ _ => ?_)
    fun _ => ?_
  · exact .ite (yields_ok (hclient _ _)) fun _ => .ite (yields_ok (hclient _ _)) fun _ =>
      yields_refuse hrefuse _
  · exact .ite (.ite (yields_refuse hrefuse _) fun _ => yields_ok (hwrite _)) fun _ =>
      yields_refuse hrefuse _

theorem handleScriptCall_yields {op : Op} (name : Bytes)
    (h : ∀ l, R (.apply { op := op, args := l } (applyReply srv.codecText))) :
    Yields R (handleScriptCall srv args op name) := by
  refine .ite (yields_refuse hrefuse _) fun _ => .bind fun _ _ =>
    .ite (yields_refuse hrefuse _) fun _ => ?_
  exact .ite (yields_refuse hrefuse _) fun _ => .bind fun l _ => yields_ok (h l)

theorem handleScript_yields
    (h : ∀ op l, R (.apply { op := op, args := l } (applyReply srv.codecText))) :
    Yields R (handleScript srv args) := by
  refine .ite (yields_refuse hrefuse _) fun _ => .bind fun _ _ => ?_
  refine .ite (.ite (yields_refuse hrefuse _) fun _ => .bind fun l _ => yields_ok (h _ l))
    fun _ => ?_
  refine .ite (.ite (yields_refuse hrefuse _) fun _ => .bind fun l _ => yields_ok (h _ l))
    fun _ => ?_
  exact .ite (yields_ok (h _ [])) fun _ => yields_refuse hrefuse _

end Handlers

end Badis
