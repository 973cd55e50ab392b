import Badis.Store.Encoding
import Badis.Store.Proofs.KeyspaceProofs
import Badis.Store.Proofs.ReplayProofs

/-!
# Many elements at once

The commands that take any number of elements read an aggregate, go through the elements in a loop
and write the aggregate back, or delete the key. `Batch` says what they have in common. A command
with the elements of two commands then does what the two do one after the other (`Batch.append`).
-/

namespace Badis

open Lib

/-- The same command with other arguments. -/
def Command.withArgs (cmd : Command) (args : List Bytes) : Command := { cmd with args := args }

@[simp] theorem Command.op_withArgs (cmd : Command) (args : List Bytes) :
    (cmd.withArgs args).op = cmd.op := rfl

/-! ## What the commands have in common -/

/-- A command that takes elements: how the aggregate is read and written, what a missing key counts
as (`none` if it is left alone), the loop over the elements with its counter, when the key is
deleted, and whether the reply is the counter or the size of the aggregate. -/
structure Batch (α : Type) where
  as : Value → Except Err α
  value : α → Value
  missing : Option α
  loop : List Bytes → α → Nat → α × Nat
  drops : α → Bool
  counts : Bool
  size : α → Nat
  as_value : ∀ a, as (value a) = .ok a
  fits : List Bytes → Bool
  loop_append : ∀ l l' a n, fits l = true → loop (l ++ l') a n =
    loop l' (loop l a n).1 (loop l a n).2
  loop_count : ∀ l a n, loop l a n = ((loop l a 0).1, n + (loop l a 0).2)
  /-- Of an aggregate that is deleted there is nothing left to take. -/
  loop_dropped : ∀ a, drops a = true → missing = none ∧ counts = true ∧ ∀ l, loop l a 0 = (a, 0)

namespace Batch

variable {α : Type} (B : Batch α)

/-- The reply and the action of the command on the aggregate `a`. -/
def act (args : List Bytes) (a : α) (ttlMs : Int64) : Result × KeyAct :=
  (.int (if B.counts then (B.loop args a 0).2 else B.size (B.loop args a 0).1),
    if B.drops (B.loop args a 0).1 then .drop else .put (B.value (B.loop args a 0).1) ttlMs)

/-- The plan of the command with these elements. -/
def plan (env : Env) (args : List Bytes) (x : View) : Plan := do
  let old ← readView env B.as x
  match old.or (B.missing.map fun a => (a, 0)) with
  | none => return (.int 0, .keep)
  | some (a, ttlMs) => return B.act args a ttlMs

/-- The aggregate that the command starts from on a key that holds `x`. -/
def start (x : View) : Except Err (Option α) :=
  match x with
  | none => .ok B.missing
  | some (v, _) => (B.as v).map some

/-- The reply and the action from such a start. -/
def actFrom (args : List Bytes) : Option α → Result × KeyAct
  | none => (.int 0, .keep)
  | some a => B.act args a 0

/-- Without an expiry a plan does not depend on the clock. -/
theorem plan_of_timeless {x : View} (hx : x.timeless = true) (env : Env) (args : List Bytes) :
    B.plan env args x = (B.start x).map (B.actFrom args) := by
  unfold plan start
  cases x with
  | none => cases B.missing <;> rfl
  | some p =>
    obtain ⟨v, exp⟩ := p
    obtain rfl : exp = 0 := by simpa [View.timeless] using hx
    simp only [readView]
    cases B.as v <;> rfl

/-- What is left of the key, and what it starts the next command with. -/
theorem start_onView (clock : Clock) (args : List Bytes) (a : α) (x : View) :
    let x' := (B.act args a 0).2.onView clock x
    x'.timeless = true ∧
      B.start x' = if B.drops (B.loop args a 0).1 then .ok none
        else .ok (some (B.loop args a 0).1) := by
  intro x'
  have hx' : x' = if B.drops (B.loop args a 0).1 then none
      else some (B.value (B.loop args a 0).1, 0) := by
    show (B.act args a 0).2.onView clock x = _
    unfold act
    dsimp only
    split_ifs
    · rfl
    · rfl
  rw [hx']
  split_ifs with hdrops
  · exact ⟨rfl, congrArg Except.ok (B.loop_dropped _ hdrops).1⟩
  · refine ⟨rfl, ?_⟩
    show (B.as (B.value (B.loop args a 0).1)).map some = _
    rw [B.as_value]
    rfl

/-- What the command writes does not depend on what it finds in the entries. -/
theorem onSlot_act (c : Codec) (env : Env) (args : List Bytes) (a : α) (s s' : Slot) :
    (B.act args a 0).2.onSlot c env s = (B.act args a 0).2.onSlot c env s' := by
  unfold act
  dsimp only
  split_ifs
  · rfl
  · rfl

/-- The reply to a command, from those to its two parts. -/
def sum (counts : Bool) : Except Err Result → Except Err Result → Except Err Result
  | .ok (.int n), .ok (.int m) => .ok (.int (if counts then n + m else m))
  | _, r => r

/-- A loop over all the elements is the second loop after the first. -/
theorem act_append (l l' : List Bytes) (a : α) (hl : B.fits l = true) :
    let a' := (B.loop l a 0).1
    (B.drops a' = true → B.act (l ++ l') a 0 = B.act l a 0) ∧
      (.ok (B.act (l ++ l') a 0).1 = sum B.counts (.ok (B.act l a 0).1) (.ok (B.act l' a' 0).1) ∧
        (B.act (l ++ l') a 0).2 = (B.act l' a' 0).2) := by
  intro a'
  have hloop :
      B.loop (l ++ l') a 0 = ((B.loop l' a' 0).1, (B.loop l a 0).2 + (B.loop l' a' 0).2) := by
    rw [B.loop_append _ _ _ _ hl, B.loop_count l' _ (B.loop l a 0).2]
  refine ⟨fun hdrops => ?_, ?_, ?_⟩
  · obtain ⟨-, hcounts, hnothing⟩ := B.loop_dropped a' hdrops
    unfold act
    rw [hloop, hnothing l', hcounts]
    rfl
  · unfold act sum
    rw [hloop]
    cases B.counts <;> rfl
  · unfold act
    rw [hloop]

/-- The action of a plan. -/
def planned (p : Plan) : KeyAct :=
  match p with
  | .error _ => .keep
  | .ok (_, act) => act

/-- The plan with all the elements, and the second plan on what the first one leaves. -/
theorem plan_append (c : Codec) (env env' : Env) {x : View} (hx : x.timeless = true)
    (l l' : List Bytes) (s : Slot) (hl : B.fits l = true) :
    let first := B.plan env l x
    let second := B.plan env' l' (View.at env'.clock.now ((planned first).onView env.clock x))
    let whole := B.plan env' (l ++ l') x
    (planned whole).onSlot c env' s =
      (planned second).onSlot c env' ((planned first).onSlot c env s) ∧
      whole.map Prod.fst = sum B.counts (first.map Prod.fst) (second.map Prod.fst) := by
  intro first second whole
  have hfirst : first = (B.start x).map (B.actFrom l) := B.plan_of_timeless hx env l
  have hwhole : whole = (B.start x).map (B.actFrom (l ++ l')) :=
    B.plan_of_timeless hx env' (l ++ l')
  have hsecond : ∀ x', (planned first).onView env.clock x = x' → x'.timeless = true →
      second = (B.start x').map (B.actFrom l') := by
    intro x' hx' htimeless
    rw [← B.plan_of_timeless htimeless env' l', ← View.at_of_timeless htimeless env'.clock.now,
      ← hx']
  cases hstart : B.start x with
  | error e =>
    rw [hstart] at hfirst hwhole
    have hkept := hsecond x (by rw [hfirst]; rfl) hx
    rw [hfirst, hwhole, hkept, hstart]
    exact ⟨rfl, rfl⟩
  | ok a =>
    cases a with
    | none =>
      rw [hstart] at hfirst hwhole
      have hkept := hsecond x (by rw [hfirst]; rfl) hx
      rw [hfirst, hwhole, hkept, hstart]
      refine ⟨rfl, ?_⟩
      cases B.counts <;> rfl
    | some a =>
      rw [hstart] at hfirst hwhole
      obtain ⟨htimeless, hnext⟩ := B.start_onView env.clock l a x
      have hleft := hsecond _ (by rw [hfirst]; rfl) htimeless
      obtain ⟨hdropped, hsum, hact⟩ := B.act_append l l' a hl
      rw [hfirst, hwhole, hleft, hnext]
      split_ifs with hdrops
      · have hdrop : (B.act l a 0).2 = .drop := if_pos hdrops
        obtain ⟨-, hcounts, -⟩ := B.loop_dropped _ hdrops
        show (B.act (l ++ l') a 0).2.onSlot c env' s = (B.act l a 0).2.onSlot c env s ∧
          .ok (B.act (l ++ l') a 0).1 = sum B.counts (.ok (B.act l a 0).1) (.ok (.int 0))
        rw [hdropped hdrops, hdrop, hcounts]
        exact ⟨rfl, rfl⟩
      · refine ⟨?_, hsum⟩
        show (B.act (l ++ l') a 0).2.onSlot c env' s =
          (B.act l' (B.loop l a 0).1 0).2.onSlot c env' ((B.act l a 0).2.onSlot c env s)
        rw [hact, B.onSlot_act]

section Apply

variable {c : Codec} (hc : c.Lawful) {env env' : Env} (hle : env.clock.now ≤ env'.clock.now)
variable {cmd : Command} (hmulti : cmd.op.multi = false) (hexpire : cmd.op ≠ .expire)
  {l l' : List Bytes}
variable (hplan : ∀ args ∈ [l, l', l ++ l'], ∀ env x, Badis.plan env (cmd.withArgs args) x =
  B.plan env args x)
variable {db : DB} (hperm : (Slot.of db cmd.key).Permanent)

include hmulti hplan in
/-- The action of the command on its own key. -/
theorem keyAct_eq {args : List Bytes} (hargs : args ∈ [l, l', l ++ l']) (env : Env) (x : View) :
    keyAct env (cmd.withArgs args) cmd.key x = planned (B.plan env args x) := by
  rw [keyAct_of_single env (cmd.withArgs args) _ hmulti, ← hplan args hargs]
  exact if_pos rfl

include hmulti hplan in
/-- The reply to the arguments, or to a part of them, is that of the plan. -/
theorem reply_eq {args : List Bytes} (hargs : args ∈ [l, l', l ++ l']) (env : Env) (db : DB) :
    (applyCmd c env (cmd.withArgs args) db).1 =
      (B.plan env args (DB.view c env.clock.now db cmd.key)).map Prod.fst := by
  rw [reply_applyCmd, reply_of_single env (cmd.withArgs args) hmulti, ← hplan args hargs]
  rfl

include hc hle hmulti hexpire hplan hperm

/-- What the key holds after the first command. -/
theorem view_first :
    let x := DB.view c env.clock.now db cmd.key
    DB.view c env'.clock.now (applyCmd c env (cmd.withArgs l) db).2 cmd.key =
      View.at env'.clock.now ((planned (B.plan env l x)).onView env.clock x) := by
  intro x
  have hview : DB.view c env'.clock.now db cmd.key = x := hperm.view_eq c _ _
  have hx : View.timeless x = true := hperm.view_timeless c _
  have hsafe : ExpireSafe env (cmd.withArgs l) db := fun h => absurd h hexpire
  rw [view_applyCmd hc hsafe cmd.key hle, B.keyAct_eq hmulti hplan (by simp)]
  split_ifs with hkeep
  · rw [hkeep, hview]
    exact (View.at_of_timeless hx _).symm
  · rfl

/-- The command with all the elements is the command with the first ones, followed by that with the
others. -/
theorem append (hl : B.fits l = true) :
    let first := applyCmd c env (cmd.withArgs l) db
    let second := applyCmd c env' (cmd.withArgs l') first.2
    let whole := applyCmd c env' (cmd.withArgs (l ++ l')) db
    whole.2 = second.2 ∧ whole.1 = sum B.counts first.1 second.1 := by
  intro first second whole
  have hview : DB.view c env'.clock.now db cmd.key = DB.view c env.clock.now db cmd.key :=
    hperm.view_eq c _ _
  have hx : View.timeless (DB.view c env.clock.now db cmd.key) = true := hperm.view_timeless c _
  have hafter := B.view_first hc hle hmulti hexpire hplan hperm
  obtain ⟨hslot, hreply⟩ := B.plan_append c env env' hx l l' (Slot.of db cmd.key) hl
  refine ⟨DB.ext_of_slots (fun k => ?_) fun raw hu ht => ?_, ?_⟩
  · by_cases hk : cmd.key = k
    · subst hk
      rw [slot_applyCmd, slot_applyCmd, slot_applyCmd, hafter, hview,
        B.keyAct_eq hmulti hplan (by simp), B.keyAct_eq hmulti hplan (by simp),
        B.keyAct_eq hmulti hplan (by simp)]
      exact hslot
    · have hkeep : ∀ args env x, keyAct env (cmd.withArgs args) k x = .keep := fun args env x =>
        (keyAct_of_single env (cmd.withArgs args) k hmulti x).trans (if_neg hk)
      rw [slot_applyCmd, slot_applyCmd, slot_applyCmd, hkeep, hkeep, hkeep]
      rfl
  · rw [applyCmd_frame c env' _ db raw hu ht, applyCmd_frame c env' _ _ raw hu ht,
      applyCmd_frame c env _ db raw hu ht]
  · show (applyCmd c env' (cmd.withArgs (l ++ l')) db).1 = _
    rw [B.reply_eq hmulti hplan (by simp), B.reply_eq hmulti hplan (by simp),
      B.reply_eq hmulti hplan (by simp), hafter, hview]
    exact hreply

end Apply

end Batch

/-! ## The loops of the source -/

section Counted

variable {α : Type} {f : α × Nat → Bytes → α × Nat}

/-- A loop that only adds to its counter can start to count at zero. -/
theorem foldl_count (hf : ∀ a n b, f (a, n) b = ((f (a, 0) b).1, n + (f (a, 0) b).2))
    (l : List Bytes) (a : α) (n : Nat) :
    l.foldl f (a, n) = ((l.foldl f (a, 0)).1, n + (l.foldl f (a, 0)).2) := by
  induction l generalizing a n with
  | nil => rfl
  | cons b l ih =>
    have hrest := ih (f (a, 0) b).1 (f (a, 0) b).2
    rw [Prod.mk.eta] at hrest
    rw [List.foldl_cons, List.foldl_cons, hf a n b, ih, hrest]
    dsimp only
    rw [Nat.add_assoc]

end Counted

/-- One round of the loop of HDEL, and of SREM. -/
def eraseRound {β : Type} (s : OrdMap Bytes β × Nat) (arg : Bytes) : OrdMap Bytes β × Nat :=
  if s.1.contains arg then (s.1.erase arg, s.2 + 1) else s

/-- One round of the loop of SADD. -/
def saddRound (s : GoSet × Nat) (arg : Bytes) : GoSet × Nat :=
  if s.1.contains arg then s else (s.1.insert arg (), s.2 + 1)

theorem hdelLoop_eq_foldl (l : List Bytes) (hash : GoMap) (n : Nat) :
    hdelLoop l hash n = l.foldl eraseRound (hash, n) := by
  induction l generalizing hash n with
  | nil => rfl
  | cons field rest ih =>
    unfold hdelLoop eraseRound
    rw [List.foldl_cons]
    split_ifs
    · exact ih _ _
    · exact ih _ _

theorem sremLoop_eq_foldl (l : List Bytes) (set : GoSet) (n : Nat) :
    sremLoop l set n = l.foldl eraseRound (set, n) := by
  induction l generalizing set n with
  | nil => rfl
  | cons arg rest ih =>
    unfold sremLoop eraseRound
    rw [List.foldl_cons]
    split_ifs
    · exact ih _ _
    · exact ih _ _

theorem saddLoop_eq_foldl (l : List Bytes) (set : GoSet) (n : Nat) :
    saddLoop l set n = l.foldl saddRound (set, n) := by
  induction l generalizing set n with
  | nil => rfl
  | cons arg rest ih =>
    unfold saddLoop saddRound
    rw [List.foldl_cons]
    split_ifs
    · exact ih _ _
    · exact ih _ _

/-- A round adds to the counter what it would count from zero. -/
theorem eraseRound_count {β : Type} (m : OrdMap Bytes β) (n : Nat) (arg : Bytes) :
    eraseRound (m, n) arg = ((eraseRound (m, 0) arg).1, n + (eraseRound (m, 0) arg).2) := by
  unfold eraseRound
  split_ifs
  · simp
  · rfl

theorem saddRound_count (set : GoSet) (n : Nat) (arg : Bytes) :
    saddRound (set, n) arg = ((saddRound (set, 0) arg).1, n + (saddRound (set, 0) arg).2) := by
  unfold saddRound
  split_ifs
  · rfl
  · simp

theorem OrdMap.eq_empty {β : Type} {m : OrdMap Bytes β} (hm : m.entries = []) :
    m = OrdMap.empty := by
  obtain ⟨entries, sorted⟩ := m
  obtain rfl : entries = [] := hm
  rfl

/-- The loop of HSET over two lists of pairs. -/
theorem hsetLoop_append (nx : Bool) :
    ∀ (l l' : List Bytes) (hash : GoMap) (n : Nat), l.length % 2 = 0 →
    hsetLoop nx (l ++ l') hash n = hsetLoop nx l' (hsetLoop nx l hash n).1 (hsetLoop nx l hash n).2
  | [], _, _, _, _ => rfl
  | field :: val :: rest, l', hash, n, hl => by
    have hrest : rest.length % 2 = 0 := by
      rw [List.length_cons, List.length_cons] at hl
      omega
    simp only [List.cons_append, hsetLoop]
    split_ifs <;> exact hsetLoop_append nx rest l' _ _ hrest

theorem hsetLoop_count (nx : Bool) : ∀ (l : List Bytes) (hash : GoMap) (n : Nat),
    hsetLoop nx l hash n = ((hsetLoop nx l hash 0).1, n + (hsetLoop nx l hash 0).2)
  | [], _, _ => rfl
  | [_], _, _ => rfl
  | field :: val :: rest, hash, n => by
    simp only [hsetLoop]
    split_ifs
    · exact hsetLoop_count nx rest _ n
    · exact hsetLoop_count nx rest _ n
    · rw [hsetLoop_count nx rest _ (n + 1), hsetLoop_count nx rest _ (0 + 1)]
      simp only [Nat.add_assoc, Nat.zero_add]

/-! ## The commands -/

namespace Batch

/-- HSET and HSETNX. -/
def hset (nx : Bool) : Batch GoMap where
  as := Value.asHash
  value := .hash
  missing := some OrdMap.empty
  loop := hsetLoop nx
  drops := fun _ => false
  counts := true
  size := fun _ => 0
  fits := fun l => l.length % 2 = 0
  as_value _ := rfl
  loop_append l l' a n hl := hsetLoop_append nx l l' a n (of_decide_eq_true hl)
  loop_count := hsetLoop_count nx
  loop_dropped _ h := absurd h Bool.false_ne_true

def hdel : Batch GoMap where
  as := Value.asHash
  value := .hash
  missing := none
  loop := hdelLoop
  drops := fun hash => hash.entries = []
  counts := true
  size := fun _ => 0
  fits := fun _ => true
  as_value _ := rfl
  loop_append l l' a n
    _ := by rw [hdelLoop_eq_foldl, hdelLoop_eq_foldl, hdelLoop_eq_foldl, List.foldl_append]
  loop_count l a n := by rw [hdelLoop_eq_foldl, hdelLoop_eq_foldl, foldl_count eraseRound_count]
  loop_dropped a h := by
    rw [OrdMap.eq_empty (of_decide_eq_true h)]
    exact ⟨rfl, rfl, hdelLoop_empty⟩

/-- LPUSH and RPUSH, and LPUSHX and RPUSHX for an `existing` list only. -/
def push (left existing : Bool) : Batch (List Bytes) where
  as := Value.asList
  value := .list
  missing := if existing then none else some []
  loop l a n := (pushLoop left l a, n)
  drops := fun _ => false
  counts := false
  size := List.length
  fits := fun _ => true
  as_value _ := rfl
  loop_append l l' a n _ := by rw [pushLoop, List.foldl_append]; rfl
  loop_count _ _ _ := rfl
  loop_dropped _ h := absurd h Bool.false_ne_true

def sadd : Batch GoSet where
  as := Value.asSet
  value := .set
  missing := some OrdMap.empty
  loop := saddLoop
  drops := fun _ => false
  counts := true
  size := fun _ => 0
  fits := fun _ => true
  as_value _ := rfl
  loop_append l l' a n
    _ := by rw [saddLoop_eq_foldl, saddLoop_eq_foldl, saddLoop_eq_foldl, List.foldl_append]
  loop_count l a n := by rw [saddLoop_eq_foldl, saddLoop_eq_foldl, foldl_count saddRound_count]
  loop_dropped _ h := absurd h Bool.false_ne_true

def srem : Batch GoSet where
  as := Value.asSet
  value := .set
  missing := none
  loop := sremLoop
  drops := fun set => set.entries = []
  counts := true
  size := fun _ => 0
  fits := fun _ => true
  as_value _ := rfl
  loop_append l l' a n
    _ := by rw [sremLoop_eq_foldl, sremLoop_eq_foldl, sremLoop_eq_foldl, List.foldl_append]
  loop_count l a n := by rw [sremLoop_eq_foldl, sremLoop_eq_foldl, foldl_count eraseRound_count]
  loop_dropped a h := by
    rw [OrdMap.eq_empty (of_decide_eq_true h)]
    exact ⟨rfl, rfl, sremLoop_empty⟩

variable (env : Env) (cmd : Command) (args : List Bytes) (x : View)

theorem planHSet_eq (h : args.length % 2 = 0) :
    planHSet env (cmd.withArgs args) x = (hset (cmd.op = .hsetnx)).plan env args x := by
  refine (if_neg (not_not.mpr h)).trans
    (congrArg (readView env Value.asHash x >>= ·) (funext fun old => ?_))
  cases old <;> rfl

theorem planHDel_eq : planHDel env (cmd.withArgs args) x = hdel.plan env args x := by
  refine congrArg (readView env Value.asHash x >>= ·) (funext fun old => ?_)
  cases old with
  | none => rfl
  | some old =>
    simp only [act, hdel, decide_eq_true_eq]
    rfl

/-- The pushes as one plan, with the end and the test for presence as parameters. -/
theorem planPush_eq : planPush env (cmd.withArgs args) x =
    (push (cmd.op = .lpush ∨ cmd.op = .lpushx) (cmd.op = .lpushx ∨ cmd.op = .rpushx)).plan env args
      x := by
  refine congrArg (readView env Value.asList x >>= ·) (funext fun old => ?_)
  cases old with
  | none =>
    simp only [push, true_and, decide_eq_true_eq, Command.op_withArgs]
    split_ifs
    · rfl
    · rfl
  | some old => rfl

theorem planSAdd_eq : planSAdd env (cmd.withArgs args) x = sadd.plan env args x := by
  refine congrArg (readView env Value.asSet x >>= ·) (funext fun old => ?_)
  cases old <;> rfl

theorem planSRem_eq (h : cmd.op = .srem) :
    planSRem env (cmd.withArgs args) x = srem.plan env args x := by
  have hop : (cmd.withArgs args).op = .srem := h
  refine congrArg (readView env Value.asSet x >>= ·) (funext fun old => ?_)
  cases old with
  | none => rw [hop]; rfl
  | some old =>
    simp only [hop, act, srem, decide_eq_true_eq]
    rfl

end Batch

/-- The operations that take any number of elements. -/
def Op.takesElements : Op → Bool
  | .hset | .hsetnx | .hdel | .lpush | .rpush | .lpushx | .rpushx | .sadd | .srem => true
  | _ => false

/-- The operations that reply with the number of elements that were new, or were there to remove. -/
def Op.countsElements : Op → Bool
  | .hset | .hsetnx | .hdel | .sadd | .srem => true
  | _ => false

/-- A command that takes elements can be split. With the elements `l ++ l'` it leaves the database
that it leaves with `l` and then `l'`, and it replies what the second part replies, plus what the
first one replied if replies are counts. The pairs of an HSET must not be torn apart, the clock must
not go back between the parts, and the key must have no expiry, which a part would round anew. -/
theorem batch_splits {c : Codec} (hc : c.Lawful) {env env' : Env}
    (hle : env.clock.now ≤ env'.clock.now) {cmd : Command} (hop : cmd.op.takesElements = true)
    (l l' : List Bytes)
    (hpairs : cmd.op = .hset ∨ cmd.op = .hsetnx → l.length % 2 = 0 ∧ l'.length % 2 = 0) {db : DB}
    (hperm : (Slot.of db cmd.key).Permanent) :
    let first := applyCmd c env (cmd.withArgs l) db
    let second := applyCmd c env' (cmd.withArgs l') first.2
    let whole := applyCmd c env' (cmd.withArgs (l ++ l')) db
    whole.2 = second.2 ∧ whole.1 = Batch.sum cmd.op.countsElements first.1 second.1 := by
  have hmulti : cmd.op.multi = false := by
    cases h : cmd.op <;> rw [h] at hop <;> first | rfl | cases hop
  have hexpire : cmd.op ≠ .expire := by
    intro h
    rw [h] at hop
    cases hop
  have hgroups : (cmd.op = .hset ∨ cmd.op = .hsetnx) ∨ cmd.op = .hdel ∨
      (cmd.op = .lpush ∨ cmd.op = .rpush ∨ cmd.op = .lpushx ∨ cmd.op = .rpushx) ∨ cmd.op = .sadd ∨
      cmd.op = .srem := by
    cases h : cmd.op <;> rw [h] at hop <;> first | (simp; done) | cases hop
  rcases hgroups with h | h | h | h | h
  · obtain ⟨hl, hl'⟩ := hpairs h
    have hcounts : cmd.op.countsElements = true := by rcases h with h | h <;> rw [h] <;> rfl
    rw [hcounts]
    refine (Batch.hset (cmd.op = .hsetnx)).append hc hle hmulti hexpire (fun args hargs env x => ?_)
      hperm
      (decide_eq_true hl)
    have hargs : args.length % 2 = 0 := by
      simp only [List.mem_cons, List.not_mem_nil, or_false] at hargs
      rcases hargs with rfl | rfl | rfl
      · exact hl
      · exact hl'
      · rw [List.length_append]
        omega
    rw [← Batch.planHSet_eq env cmd args x hargs]
    rcases h with h | h <;> simp [plan, h]
  · rw [h]
    refine Batch.hdel.append hc hle hmulti hexpire (fun args _ env x => ?_) hperm rfl
    rw [← Batch.planHDel_eq env cmd args x]
    simp [plan, h]
  · have hcounts :
      cmd.op.countsElements = false := by rcases h with h | h | h | h <;> rw [h] <;> rfl
    rw [hcounts]
    refine (Batch.push (cmd.op = .lpush ∨ cmd.op = .lpushx) (cmd.op = .lpushx ∨
      cmd.op = .rpushx)).append hc hle hmulti
      hexpire (fun args _ env x => ?_) hperm rfl
    rw [← Batch.planPush_eq env cmd args x]
    rcases h with h | h | h | h <;> simp [plan, h]
  · rw [h]
    refine Batch.sadd.append hc hle hmulti hexpire (fun args _ env x => ?_) hperm rfl
    rw [← Batch.planSAdd_eq env cmd args x]
    simp [plan, h]
  · rw [h]
    refine Batch.srem.append hc hle hmulti hexpire (fun args _ env x => ?_) hperm rfl
    rw [← Batch.planSRem_eq env cmd args x h]
    simp [plan, h]

/-- The one set `k` with the member `a`. -/
def oneMember : DB :=
  (applyCmd msgpack (Env.at 1000000000000) ⟨.sadd, ascii "k", [ascii "a"], 0, .always, false⟩
    OrdMap.empty).2

/-- An SREM of the only member and of another one. -/
theorem srem_in_two_parts :
    let srem : Command := ⟨.srem, ascii "k", [], 0, .always, false⟩
    let first := applyCmd msgpack (Env.at 1001000000000) (srem.withArgs [ascii "a"]) oneMember
    let second := applyCmd msgpack (Env.at 1002000000000) (srem.withArgs [ascii "b"]) first.2
    let whole :=
      applyCmd msgpack (Env.at 1002000000000) (srem.withArgs [ascii "a", ascii "b"]) oneMember
    whole.2 = second.2 ∧ whole.1 = Batch.sum true first.1 second.1 := by
  intro srem
  have hperm : DB.Permanent oneMember := permanent_applyCmd msgpack (by decide) DB.permanent_empty
  have hle : (Env.at 1001000000000).clock.now ≤ (Env.at 1002000000000).clock.now := by decide
  have hop : srem.op.takesElements = true := rfl
  refine batch_splits msgpack_lawful hle hop [ascii "a"] [ascii "b"] (fun h => ?_) (hperm _)
  rcases h with h | h <;> cases h

end Badis
