import Badis.Lib.Overwrite
import Badis.Store.Replay
import Badis.Store.Proofs.StepProofs

/-!
# Replaying a log on its own result

Without expiries a key evolves on its own: what it holds after a run is a fold over what it held
before (`view_applyLog`). Two runs of one log end in the same state once the log has reset the key
(`viewRun_eq`), and a log that never resets it can still be replayed if it acts on the key by
functions that are closed under composition and idempotent (`viewRun_replay`).
-/

namespace Badis

open Lib

/-! ## Data without expiries -/

/-- No entry of a key has an expiry. -/
def DB.Permanent (db : DB) : Prop := ∀ k, (Slot.of db k).Permanent

theorem DB.permanent_empty : DB.Permanent OrdMap.empty :=
  fun _ => ⟨fun _ he => (by cases he), fun _ he => (by cases he)⟩

/-- A value a command wrote, without an expiry. -/
def View.plain (x : View) : Bool := x.all fun p => p.1.proper && p.2 = 0

/-- A plain view is nothing, or a value of a known type without an expiry. -/
theorem View.plain_cases {x : View} (h : x.plain = true) :
    x = none ∨ ∃ v, v.proper = true ∧ x = some (v, 0) := by
  cases x with
  | none => exact Or.inl rfl
  | some p =>
    obtain ⟨v, exp⟩ := p
    obtain ⟨hv, rfl⟩ : v.proper = true ∧ exp = 0 := by simpa [View.plain] using h
    exact Or.inr ⟨v, hv, rfl⟩

theorem View.plain.timeless {x : View} (h : x.plain = true) : x.timeless = true := by
  rcases View.plain_cases h with rfl | ⟨v, -, rfl⟩ <;> rfl

section Step

variable {env env' : Env} {cmd : Command} {k : Bytes} {x : View}

/-- A plain command gives no expiry. -/
theorem Command.plain_op (h : cmd.plain = true) : cmd.op ≠ .expire ∧ ¬ 0 < cmd.ttlMs := by
  unfold Command.plain at h
  simp only [Bool.and_eq_true, Bool.not_eq_true', decide_eq_true_eq, decide_eq_false_iff_not] at h
  exact ⟨h.1.2, h.2⟩

/-- What a plain command writes over a key without expiry has no expiry. -/
theorem expiryOf_ttlWritten (hcmd : cmd.plain = true) (hx : x.timeless = true) (t : Nat) :
    expiryOf t (ttlWritten env cmd x) = 0 :=
  expiryOf_of_nonpos (not_pos_ttlWritten hx fun _ => (Command.plain_op hcmd).2)

/-- A plain command leaves a key without expiry alone, deletes it, or writes a value under its type,
again without an expiry. -/
theorem viewStep_cases (env : Env) (k : Bytes) (hcmd : cmd.plain = true) (hx : x.timeless = true) :
    viewStep k x (env, cmd) = x ∨
    (viewStep k x (env, cmd) = none ∧ (cmd.op = .del ∨ cmd.op = .flushdb ∨
      ∃ typ, typeWritten cmd k = some typ ∧ typ ≠ typeString ∧ ∀ p, x = some p → p.1.typ = typ)) ∨
    ∃ v, v.proper = true ∧ typeWritten cmd k = some v.typ ∧
      (∀ p, x = some p → cmd.op ≠ .mset → p.1.typ = v.typ) ∧
      viewStep k x (env, cmd) = some (v, 0) := by
  have hacts := keyAct_acts env cmd k x
  unfold viewStep
  generalize keyAct env cmd k x = act at hacts
  cases hacts with
  | keep => exact Or.inl rfl
  | put v hv htyp hold =>
    refine Or.inr (Or.inr ⟨v, hv, htyp, hold, ?_⟩)
    simp only [KeyAct.onView, expiryOf_ttlWritten hcmd hx]
  | expire hop hk hsome => exact absurd hop (Command.plain_op hcmd).1
  | persist hop hk p hp hexp =>
    rw [hp] at hx
    exact absurd (by simpa [View.timeless] using hx) hexp
  | drop hop => exact Or.inr (Or.inl ⟨rfl, hop.imp_right Or.inr⟩)
  | unset hop => exact Or.inr (Or.inl ⟨rfl, Or.inl hop⟩)
  | flush hop => exact Or.inr (Or.inl ⟨rfl, Or.inr (Or.inl hop)⟩)

theorem viewStep_timeless (hcmd : cmd.plain = true) (hx : x.timeless = true) :
    (viewStep k x (env, cmd)).timeless = true := by
  rcases viewStep_cases env k hcmd hx with h | ⟨h, -⟩ | ⟨v, -, -, -, h⟩ <;> rw [h]
  · exact hx
  · rfl
  · rfl

/-- Plain commands keep plain views plain. -/
theorem viewStep_plain (hcmd : cmd.plain = true) (hx : x.plain = true) :
    (viewStep k x (env, cmd)).plain = true := by
  rcases viewStep_cases env k hcmd (View.plain.timeless hx) with h | ⟨h, -⟩ | ⟨v, hv, -, -, h⟩ <;>
    rw [h]
  · exact hx
  · rfl
  · simp [View.plain, hv]

theorem permanent_onSlot (c : Codec) {s : Slot} {act : KeyAct} (hs : s.Permanent)
    (hput : ∀ v ttlMs, act = .put v ttlMs → ¬ 0 < ttlMs) (hexp : ∀ ttlMs, act ≠ .expire ttlMs) :
    (act.onSlot c env s).Permanent := by
  cases act with
  | keep => exact hs
  | put v ttlMs =>
    have hpos := hput v ttlMs rfl
    simp only [KeyAct.onSlot, withTTLMs_newEntry, expiryOf_of_nonpos hpos]
    exact ⟨fun e he => by cases he; rfl, fun e he => by cases he; rfl⟩
  | expire ttlMs => exact absurd rfl (hexp ttlMs)
  | persist =>
    refine ⟨fun e he => ?_, fun e he => by cases he; rfl⟩
    obtain ⟨e0, -, rfl⟩ := Option.map_eq_some_iff.mp he
    rfl
  | drop => exact ⟨(fun e he => by cases he), (fun e he => by cases he)⟩
  | unset => exact ⟨(fun e he => by cases he), hs.2⟩
  | flush =>
    exact ⟨fun e he => hs.1 e (Option.filter_eq_some_iff.mp he).1,
      fun e he => hs.2 e (Option.filter_eq_some_iff.mp he).1⟩

/-- Plain commands give no entry of the database an expiry. -/
theorem permanent_applyCmd (c : Codec) {db : DB} (hcmd : cmd.plain = true) (hdb : db.Permanent) :
    (applyCmd c env cmd db).2.Permanent := by
  intro k
  rw [slot_applyCmd]
  have hx : (DB.view c env.clock.now db k).timeless = true := (hdb k).view_timeless c _
  have hacts := keyAct_acts env cmd k (DB.view c env.clock.now db k)
  generalize keyAct env cmd k (DB.view c env.clock.now db k) = act at hacts
  refine permanent_onSlot c (hdb k) ?_ ?_
  · rintro v ttlMs rfl
    cases hacts with
    | put v hv htyp hold => exact not_pos_ttlWritten hx fun _ => (Command.plain_op hcmd).2
  · rintro ttlMs rfl
    cases hacts with
    | expire hop hk hsome => exact (Command.plain_op hcmd).1 hop

/-- A plain step on data without expiries acts on every key on its own, whatever the clock. -/
theorem view_applyCmd_plain {c : Codec} (hc : c.Lawful) {db : DB} (hcmd : cmd.plain = true)
    (hdb : db.Permanent) (t : Nat) :
    DB.view c t (applyCmd c env cmd db).2 k = viewStep k (DB.view c t db k) (env, cmd) := by
  have hsafe : ExpireSafe env cmd db := fun hop => absurd hop (Command.plain_op hcmd).1
  have hnow : DB.view c t db k = DB.view c env.clock.now db k := (hdb k).view_eq c _ _
  have hafter : DB.view c t (applyCmd c env cmd db).2 k =
      DB.view c env.clock.now (applyCmd c env cmd db).2 k :=
    (permanent_applyCmd c hcmd hdb k).view_eq c _ _
  have hx : (DB.view c env.clock.now db k).timeless = true := (hdb k).view_timeless c _
  rw [hafter, hnow, view_applyCmd hc hsafe k le_rfl]
  split_ifs with hkeep
  · rw [viewStep, hkeep]
    rfl
  · have htimeless : (viewStep k _ (env, cmd)).timeless = true := viewStep_timeless hcmd hx
    change View.at _ (viewStep k _ (env, cmd)) = viewStep k _ (env, cmd)
    generalize viewStep k (DB.view c env.clock.now db k) (env, cmd) = y at htimeless
    cases y with
    | none => rfl
    | some p =>
      have hexp : p.2 = 0 := by simpa [View.timeless] using htimeless
      simp [View.at, Option.filter, Entry.live, hexp]

end Step

/-- A run of plain steps on data without expiries acts on every key on its own, whatever the
clock. -/
theorem view_applyLog {c : Codec} (hc : c.Lawful) (k : Bytes) {steps : List Step} {db : DB}
    (hsteps : ∀ s ∈ steps, s.2.plain = true) (hdb : db.Permanent) :
    (applyLog c steps db).2.Permanent ∧
      ∀ t, DB.view c t (applyLog c steps db).2 k = viewRun k steps (DB.view c t db k) := by
  induction steps generalizing db with
  | nil => exact ⟨hdb, fun t => rfl⟩
  | cons s rest ih =>
    obtain ⟨env, cmd⟩ := s
    have hcmd : cmd.plain = true := hsteps _ List.mem_cons_self
    have hstep : (applyCmd c env cmd db).2.Permanent := permanent_applyCmd c hcmd hdb
    obtain ⟨hperm, hview⟩ := ih (fun s hs => hsteps s (List.mem_cons_of_mem _ hs)) hstep
    refine ⟨hperm, fun t => ?_⟩
    rw [applyLog_cons, hview, view_applyCmd_plain hc hcmd hdb]
    rfl

theorem viewRun_plain {k : Bytes} {steps : List Step} {x : View}
    (hsteps : ∀ s ∈ steps, s.2.plain = true) (hx : x.plain = true) :
    (viewRun k steps x).plain = true := by
  induction steps generalizing x with
  | nil => exact hx
  | cons s rest ih =>
    exact ih (fun s hs => hsteps s (List.mem_cons_of_mem _ hs))
      (viewStep_plain (hsteps s List.mem_cons_self) hx)

theorem viewRun_append (k : Bytes) (steps steps' : List Step) (x : View) :
    viewRun k (steps ++ steps') x = viewRun k steps' (viewRun k steps x) := List.foldl_append

/-! ## Two runs of one log -/

section Sync

variable {env env' : Env} {cmd : Command} {k : Bytes} {x y : View}

/-- A command that does not touch a key keeps it. -/
theorem keyAct_of_not_touches (h : cmd.touches k = false) : keyAct env cmd k x = .keep := by
  cases hmulti : cmd.op.multi with
  | true =>
    unfold Command.touches at h
    unfold keyAct
    cases hop : cmd.op <;> rw [hop] at hmulti h
    case mset =>
      simp only [Bool.and_eq_false_iff, decide_eq_false_iff_not] at h ⊢
      rcases h with h | h
      · rw [if_pos h]
      · rw [Option.isSome_eq_false_iff, Option.isNone_iff_eq_none] at h
        simp [h]
    case del =>
      simp only [Bool.or_eq_false_iff, Bool.and_eq_false_iff, decide_eq_false_iff_not,
        not_not] at h ⊢
      have hunset : ¬ (cmd.args = [] ∧ cmd.key ≠ [] ∧ cmd.key = k) := by
        rintro ⟨hargs, hkey, hk⟩
        rcases h.2 with (h | h) | h
        · exact h hargs
        · exact hkey h
        · exact h hk
      simp [h.1, hunset]
    case flushdb => simp at h
    all_goals cases hmulti
  | false =>
    have hkey : cmd.key ≠ k := by
      unfold Command.touches at h
      cases hop : cmd.op <;> rw [hop] at hmulti h <;>
        first | exact of_decide_eq_false h | cases hmulti
    rw [keyAct_of_single env cmd k hmulti, if_neg hkey]

theorem viewStep_of_not_touches (h : cmd.touches k = false) : viewStep k x (env, cmd) = x := by
  rw [viewStep, keyAct_of_not_touches h]
  rfl

/-- What MSET, DEL and FLUSHDB leave does not depend on what was there. -/
theorem viewStep_of_resets (h : cmd.resets k = true) :
    viewStep k x (env, cmd) = viewStep k y (env', cmd) := by
  unfold Command.resets Command.touches at h
  rw [Bool.and_eq_true] at h
  obtain ⟨hmulti, h⟩ := h
  unfold viewStep keyAct
  cases hop : cmd.op <;> rw [hop] at hmulti h
  case mset =>
    simp only [Bool.and_eq_true, decide_eq_true_eq] at h
    obtain ⟨v, hv⟩ := Option.isSome_iff_exists.mp h.2
    simp [h.1, hv, KeyAct.onView, expiryOf_of_nonpos]
  case del =>
    have hgone : ∀ (x : View) (clock : Clock), (if x.isNone then KeyAct.keep
        else if k ∈ cmd.args then .drop
        else if cmd.args = [] ∧ cmd.key ≠ [] ∧ cmd.key = k then .unset
        else .keep).onView clock x = none := by
      intro x clock
      cases x with
      | none => rfl
      | some p =>
        by_cases hmem : k ∈ cmd.args
        · simp [hmem, KeyAct.onView]
        · have hunset : cmd.args = [] ∧ cmd.key ≠ [] ∧ cmd.key = k := by
            simpa [hmem, and_assoc] using h
          simp only [Option.isNone_some, Bool.false_eq_true, if_false, if_neg hmem, if_pos hunset]
          rfl
    simp only
    rw [hgone, hgone]
  case flushdb => rfl
  all_goals cases hmulti

/-- Without SPOP, what a plain command leaves does not depend on the execution. -/
theorem viewStep_eq (hcmd : cmd.plain = true) (hx : x.timeless = true)
    (hpop : cmd.popsFrom k = false) : viewStep k x (env, cmd) = viewStep k x (env', cmd) := by
  have hact : keyAct env cmd k x = keyAct env' cmd k x := by
    refine keyAct_eq_of_plan fun _ hk => plan_eq_of_timeless hx fun hop => ?_
    simp [Command.popsFrom, hop, hk] at hpop
  have hacts := keyAct_acts env cmd k x
  unfold viewStep
  simp only
  rw [← hact]
  generalize keyAct env cmd k x = act at hacts
  cases hacts with
  | put v hv htyp hold => simp only [KeyAct.onView, expiryOf_ttlWritten hcmd hx]
  | expire hop hk hsome => exact absurd hop (Command.plain_op hcmd).1
  | keep => rfl
  | persist hop hk p hp hexp => rfl
  | drop hop => rfl
  | unset hop => rfl
  | flush hop => rfl

end Sync

/-- Two runs of one log, from states that agree on `k` if they are `known` to, agree on `k` once it
is known. -/
theorem viewRun_eq {k : Bytes} {steps steps' : List Step} {x y : View} {known : Bool}
    (hlog : steps.map Prod.snd = steps'.map Prod.snd) (hsteps : ∀ s ∈ steps, s.2.plain = true)
    (hx : x.timeless = true) (hy : y.timeless = true) (hxy : known = true → x = y)
    (hknown : (steps.map Prod.snd).foldl (Command.known k) known = true) :
    viewRun k steps x = viewRun k steps' y := by
  induction steps generalizing steps' x y known with
  | nil =>
    have hnil : steps' = [] := by simpa using hlog.symm
    rw [hnil]
    exact hxy hknown
  | cons s rest ih =>
    obtain ⟨env, cmd⟩ := s
    obtain _ | ⟨⟨env', cmd'⟩, rest'⟩ := steps'
    · cases hlog
    · simp only [List.map_cons, List.cons.injEq] at hlog
      obtain ⟨rfl, hrest⟩ := hlog
      have hcmd : cmd.plain = true := hsteps _ List.mem_cons_self
      show viewRun k rest (viewStep k x (env, cmd)) = viewRun k rest' (viewStep k y (env', cmd))
      refine ih hrest (fun s hs => hsteps s (List.mem_cons_of_mem _ hs)) (viewStep_timeless hcmd hx)
        (viewStep_timeless hcmd hy) (fun h => ?_) hknown
      rcases Bool.or_eq_true_iff.mp h with hreset | h
      · exact viewStep_of_resets hreset
      · obtain ⟨hk, hpop⟩ := Bool.and_eq_true_iff.mp h
        rw [hxy hk]
        exact viewStep_eq hcmd hy (by simpa using hpop)

/-! ## One type of data -/

section Class

variable {k : Bytes} {steps : List Step}

/-- A view that every step leaves as it is comes through the run. -/
theorem viewRun_of_fixed {x : View} (h : ∀ s ∈ steps, viewStep k x s = x) :
    viewRun k steps x = x := by
  induction steps with
  | nil => rfl
  | cons s rest ih =>
    show viewRun k rest (viewStep k x s) = x
    rw [h s List.mem_cons_self]
    exact ih fun s hs => h s (List.mem_cons_of_mem _ hs)

/-- A class of functions that contains the identity and is closed under composition describes runs
if it describes steps. -/
theorem viewRun_emb {γ : Type} (k : Bytes) (steps : List Step) (emb : γ → View) (P : (γ → γ) → Prop)
    (hid : P fun y => y)
    (hcomp : ∀ f g, P f → P g → P fun y => f (g y))
    (hstep : ∀ s ∈ steps, ∃ f, P f ∧ ∀ y, viewStep k (emb y) s = emb (f y)) :
    ∃ f, P f ∧ ∀ y, viewRun k steps (emb y) = emb (f y) := by
  induction steps with
  | nil => exact ⟨_, hid, fun y => rfl⟩
  | cons s rest ih =>
    obtain ⟨f, hf, hfs⟩ := hstep s List.mem_cons_self
    obtain ⟨g, hg, hgs⟩ := ih fun s hs => hstep s (List.mem_cons_of_mem _ hs)
    refine ⟨_, hcomp g f hg hf, fun y => ?_⟩
    show viewRun k rest (viewStep k (emb y) s) = emb (g (f y))
    rw [hfs, hgs]

/-- A command on one key that works on its key under the type `typ` alone, and not by the iteration
order of a map. -/
def UsesAs (typ : Bytes) (cmd : Command) : Prop :=
  cmd.op.multi = false ∧ cmd.op ≠ .spop ∧ typeWritten cmd cmd.key = some typ

theorem key_of_touches {cmd : Command} (hmulti : cmd.op.multi = false) (h : cmd.touches k = true) :
    cmd.key = k := by
  unfold Command.touches at h
  cases hop : cmd.op <;> rw [hop] at hmulti h <;> first | exact of_decide_eq_true h | cases hmulti

/-- A command leaves a key of another type alone. -/
theorem viewStep_of_other_type {typ : Bytes} {env : Env} {cmd : Command} {v : Value}
    (hcmd : cmd.plain = true) (huses : UsesAs typ cmd) (hk : cmd.key = k) (hv : v.typ ≠ typ) :
    viewStep k (some (v, 0)) (env, cmd) = some (v, 0) := by
  obtain ⟨hmulti, -, htyp⟩ := huses
  rw [hk] at htyp
  rcases viewStep_cases env k hcmd (rfl : View.timeless (some (v, 0)) = true) with
    h | ⟨-, hop | hop | ⟨typ', htyp', -, hold⟩⟩ | ⟨w, -, hw, hold, -⟩
  · exact h
  · rw [hop] at hmulti
    cases hmulti
  · rw [hop] at hmulti
    cases hmulti
  · rw [htyp'] at htyp
    exact absurd ((hold _ rfl).trans (Option.some.inj htyp)) hv
  · rw [hw] at htyp
    have hmset : cmd.op ≠ .mset := fun h => by rw [h] at hmulti; cases hmulti
    exact absurd ((hold _ rfl hmset).trans (Option.some.inj htyp)) hv

/-- PERSIST does nothing to a key without expiry. -/
theorem viewStep_of_persist {env : Env} {cmd : Command} {x : View} (hcmd : cmd.plain = true)
    (hop : cmd.op = .persist) (hx : x.timeless = true) : viewStep k x (env, cmd) = x := by
  have hnone : typeWritten cmd k = none := by simp [typeWritten, hop]
  rcases viewStep_cases env k hcmd hx with
    h | ⟨-, hop' | hop' | ⟨typ, htyp, -⟩⟩ | ⟨w, -, hw, -⟩
  · exact h
  · rw [hop] at hop'
    cases hop'
  · rw [hop] at hop'
    cases hop'
  · rw [hnone] at htyp
    cases htyp
  · rw [hnone] at hw
    cases hw

/-- A step of a log in which only the allowed operations work on `k`. -/
theorem viewStep_of_onlyOps {allowed : Command → Bool}
    (honly : onlyOps k allowed (steps.map Prod.snd) = true) {s : Step} (hs : s ∈ steps)
    (hcmd : s.2.plain = true) :
    (∀ x : View, x.timeless = true → viewStep k x s = x) ∨
      (allowed s.2 = true ∧ s.2.touches k = true) := by
  have h := List.all_eq_true.mp honly s.2 (List.mem_map_of_mem hs)
  simp only [Bool.or_eq_true, Bool.not_eq_true', decide_eq_true_eq] at h
  cases htouch : s.2.touches k with
  | false => exact Or.inl fun x _ => viewStep_of_not_touches htouch
  | true =>
    rcases h with (h | h) | h
    · rw [htouch] at h
      cases h
    · exact Or.inl fun x hx => viewStep_of_persist hcmd h hx
    · exact Or.inr ⟨h, rfl⟩

/-- As long as nothing is popped from a key, its contents are known. -/
theorem known_of_not_popsFrom {log : List Command} (h : ∀ cmd ∈ log, cmd.popsFrom k = false) :
    log.foldl (Command.known k) true = true := by
  induction log with
  | nil => rfl
  | cons cmd rest ih =>
    have hknown : Command.known k true cmd = true := by
      simp [Command.known, h cmd List.mem_cons_self]
    rw [List.foldl_cons, hknown]
    exact ih fun cmd hcmd => h cmd (List.mem_cons_of_mem _ hcmd)

variable {steps' : List Step} {allowed : Command → Bool} {typ : Bytes} {γ : Type} {emb : γ → View}

/-- A log that uses `k` under one type can be replayed if it is idempotent on the data of that type:
on anything else it does nothing. -/
theorem replay_of_onlyOps (emb : γ → View) (hlog : steps.map Prod.snd = steps'.map Prod.snd)
    (hsteps : ∀ s ∈ steps, s.2.plain = true)
    (honly : onlyOps k allowed (steps.map Prod.snd) = true)
    (huses : ∀ cmd, allowed cmd = true → UsesAs typ cmd)
    (hrange : ∀ v : Value, v.proper = true → v.typ = typ → ∃ y, some (v, 0) = emb y)
    (hnone : ∃ y, none = emb y)
    (hidem : ∀ y, viewRun k steps (viewRun k steps (emb y)) = viewRun k steps (emb y))
    {x : View} (hx : x.plain = true) :
    viewRun k steps' (viewRun k steps x) = viewRun k steps x := by
  have hrun : ∀ z : View, z.timeless = true → viewRun k steps' z = viewRun k steps z := by
    intro z hz
    refine (viewRun_eq hlog hsteps hz hz (fun _ => rfl) (known_of_not_popsFrom (k := k) ?_)).symm
    intro cmd hmem
    obtain ⟨s, hs, rfl⟩ := List.mem_map.mp hmem
    have h := List.all_eq_true.mp honly s.2 hmem
    simp only [Bool.or_eq_true, Bool.not_eq_true', decide_eq_true_eq] at h
    unfold Command.popsFrom
    by_cases hpop : s.2.op = .spop
    · rcases h with (h | h) | h
      · have hk : ¬ s.2.key = k := by simpa [Command.touches, hpop] using h
        simp [hk]
      · rw [hpop] at h
        cases h
      · exact absurd hpop (huses s.2 h).2.1
    · simp [hpop]
  rw [hrun _ (View.plain.timeless (viewRun_plain hsteps hx))]
  rcases View.plain_cases hx with rfl | ⟨v, hv, rfl⟩
  · obtain ⟨y, hy⟩ := hnone
    rw [hy]
    exact hidem y
  · by_cases htyp : v.typ = typ
    · obtain ⟨y, hy⟩ := hrange v hv htyp
      rw [hy]
      exact hidem y
    · have hfix : viewRun k steps (some (v, 0)) = some (v, 0) := by
        refine viewRun_of_fixed fun s hs => ?_
        rcases viewStep_of_onlyOps honly hs (hsteps s hs) with h | ⟨hallowed, htouch⟩
        · exact h _ rfl
        · have h := huses s.2 hallowed
          exact viewStep_of_other_type (hsteps s hs) h (key_of_touches h.1 htouch) htyp
      rw [hfix, hfix]

/-- A run described by such a class of idempotent functions is idempotent. -/
theorem idem_of_onlyOps (P : (γ → γ) → Prop) (hid : P fun y => y)
    (hcomp : ∀ f g, P f → P g → P fun y => f (g y)) (hidem : ∀ f, P f → ∀ y, f (f y) = f y)
    (hsteps : ∀ s ∈ steps, s.2.plain = true)
    (honly : onlyOps k allowed (steps.map Prod.snd) = true)
    (huses : ∀ cmd, allowed cmd = true → UsesAs typ cmd) (hemb : ∀ y, (emb y).timeless = true)
    (hstep : ∀ env cmd, cmd.plain = true → allowed cmd = true → cmd.key = k →
      ∃ f, P f ∧ ∀ y, viewStep k (emb y) (env, cmd) = emb (f y)) (y : γ) :
    viewRun k steps (viewRun k steps (emb y)) = viewRun k steps (emb y) := by
  obtain ⟨f, hf, hrun⟩ := viewRun_emb k steps emb P hid hcomp fun s hs => by
    rcases viewStep_of_onlyOps honly hs (hsteps s hs) with h | ⟨hallowed, htouch⟩
    · exact ⟨_, hid, fun y => h (emb y) (hemb y)⟩
    · exact hstep s.1 s.2 (hsteps s hs) hallowed (key_of_touches (huses s.2 hallowed).1 htouch)
  rw [hrun, hrun, hidem f hf]

end Class

/-! ### The loops of the hash and set commands -/

section Loops

/-- What the loop of HSET makes of a hash is an overwriting of some fields, the same for every
hash. -/
theorem hsetLoop_overwriting (nx : Bool) :
    ∀ args, ∃ g, OrdMap.Overwriting g ∧ ∀ m n, (hsetLoop nx args m n).1 = g m
  | field :: val :: rest => by
    obtain ⟨g, hg, hloop⟩ := hsetLoop_overwriting nx rest
    have hstep : OrdMap.Overwriting fun m : GoMap =>
        if nx && m.contains field then m else m.insert field val := by
      cases nx
      · simpa using OrdMap.Overwriting.insert field val
      · simpa using OrdMap.Overwriting.insertNew field val
    refine ⟨_, hg.comp hstep, fun m n => ?_⟩
    simp only [hsetLoop]
    split_ifs <;> exact hloop _ _
  | [] => ⟨_, OrdMap.Overwriting.id, fun m n => rfl⟩
  | [_] => ⟨_, OrdMap.Overwriting.id, fun m n => rfl⟩

/-- So is what the loop of HDEL makes of it. -/
theorem hdelLoop_overwriting (args : List Bytes) :
    ∃ g, OrdMap.Overwriting g ∧ ∀ m n, (hdelLoop args m n).1 = g m := by
  induction args with
  | nil => exact ⟨_, OrdMap.Overwriting.id, fun m n => rfl⟩
  | cons field rest ih =>
    obtain ⟨g, hg, hloop⟩ := ih
    refine ⟨_, hg.comp (OrdMap.Overwriting.eraseOld field), fun m n => ?_⟩
    simp only [hdelLoop]
    split_ifs <;> exact hloop _ _

theorem saddLoop_overwriting (args : List Bytes) :
    ∃ g, OrdMap.Overwriting g ∧ ∀ m n, (saddLoop args m n).1 = g m := by
  induction args with
  | nil => exact ⟨_, OrdMap.Overwriting.id, fun m n => rfl⟩
  | cons arg rest ih =>
    obtain ⟨g, hg, hloop⟩ := ih
    refine ⟨_, hg.comp (OrdMap.Overwriting.insertNew arg ()), fun m n => ?_⟩
    simp only [saddLoop]
    split_ifs <;> exact hloop _ _

theorem sremLoop_overwriting (args : List Bytes) :
    ∃ g, OrdMap.Overwriting g ∧ ∀ m n, (sremLoop args m n).1 = g m := by
  induction args with
  | nil => exact ⟨_, OrdMap.Overwriting.id, fun m n => rfl⟩
  | cons arg rest ih =>
    obtain ⟨g, hg, hloop⟩ := ih
    refine ⟨_, hg.comp (OrdMap.Overwriting.eraseOld arg), fun m n => ?_⟩
    simp only [sremLoop]
    split_ifs <;> exact hloop _ _

/-- HDEL finds nothing in an empty hash. -/
theorem hdelLoop_empty (args : List Bytes) : hdelLoop args OrdMap.empty 0 = (OrdMap.empty, 0) := by
  induction args with
  | nil => rfl
  | cons field rest ih => exact ih

theorem sremLoop_empty (args : List Bytes) : sremLoop args OrdMap.empty 0 = (OrdMap.empty, 0) := by
  induction args with
  | nil => rfl
  | cons arg rest ih => exact ih

end Loops

/-! ### Each type of data -/

section Types

variable {k : Bytes} {env : Env} {cmd : Command}

/-- A command that works on `k` alone, by its plan. -/
theorem viewStep_of_plan {x : View} (hmulti : cmd.op.multi = false) (hk : cmd.key = k) :
    viewStep k x (env, cmd) =
      match plan env cmd x with
      | .error _ => x
      | .ok (_, act) => act.onView env.clock x := by
  rw [viewStep, keyAct_of_single env cmd k hmulti, if_pos hk]
  cases plan env cmd x <;> rfl

theorem expiryOf_zero (t : Nat) : expiryOf t 0 = 0 := expiryOf_of_nonpos (by decide)

/-- A map that is written back, or dropped when it is empty. -/
theorem onView_settle {β : Type} (wrap : OrdMap Bytes β → Value) (m : OrdMap Bytes β)
    (clock : Clock) (x : View) :
    (if m.entries = [] then KeyAct.drop else .put (wrap m) 0).onView clock x =
      (settle false m).map fun m => (wrap m, 0) := by
  unfold settle
  by_cases hnil : m.entries = []
  · simp [hnil, KeyAct.onView]
  · simp [hnil, KeyAct.onView, expiryOf_zero]

/-- A hash command acts on the hash of its key by an absorbing function. -/
theorem viewStep_hash (hop : cmd.hashOp = true) (hk : cmd.key = k) :
    ∃ f, Absorbing f ∧ ∀ y, viewStep k (ofHash y) (env, cmd) = ofHash (f y) := by
  have hread : ∀ y, readView env Value.asHash (ofHash y) = .ok (y.map fun h => (h, 0)) := by
    intro y
    cases y <;> rfl
  have hops : cmd.op = .hset ∨ cmd.op = .hsetnx ∨ cmd.op = .hdel := by
    simpa [Command.hashOp, or_assoc] using hop
  have hmulti : cmd.op.multi = false := by rcases hops with h | h | h <;> rw [h] <;> rfl
  by_cases hdel : cmd.op = .hdel
  · obtain ⟨g, hg, hloop⟩ := hdelLoop_overwriting cmd.args
    refine ⟨_, Absorbing.write false g hg, fun y => ?_⟩
    rw [viewStep_of_plan hmulti hk]
    simp only [plan, hdel, planHDel, hread]
    cases y with
    | none =>
      have hempty : g OrdMap.empty = OrdMap.empty := by
        rw [← hloop OrdMap.empty 0, hdelLoop_empty]
      simp only [Option.getD_none, hempty]
      rfl
    | some h =>
      simp only [Option.map_some, Option.getD_some, bind, Except.bind, pure, Except.pure, hloop]
      exact onView_settle Value.hash (g h) env.clock _
  · have hset : plan env cmd = planHSet env cmd := by
      funext x
      rcases hops with h | h | h
      · simp only [plan, h]
      · simp only [plan, h]
      · exact absurd h hdel
    by_cases hodd : cmd.args.length % 2 = 0
    · obtain ⟨g, hg, hloop⟩ := hsetLoop_overwriting (cmd.op = .hsetnx) cmd.args
      refine ⟨_, Absorbing.write true g hg, fun y => ?_⟩
      rw [viewStep_of_plan hmulti hk, hset, planHSet, hread]
      have hy : ((y.map fun h => (h, (0 : Int64))).getD (OrdMap.empty, 0)) =
          (y.getD OrdMap.empty, 0) := by
        cases y <;> rfl
      simp only [hodd, ne_eq, not_true_eq_false, if_false, bind, Except.bind, hy, hloop]
      simp only [pure, Except.pure, KeyAct.onView, expiryOf_zero, settle]
      simp [ofHash]
    · refine ⟨_, Absorbing.id, fun y => ?_⟩
      rw [viewStep_of_plan hmulti hk, hset, planHSet, if_pos hodd]

/-- SADD and SREM act on the set of their key by an absorbing function. -/
theorem viewStep_set (hop : cmd.setOp = true) (hk : cmd.key = k) :
    ∃ f, Absorbing f ∧ ∀ y, viewStep k (ofSet y) (env, cmd) = ofSet (f y) := by
  have hread : ∀ y, readView env Value.asSet (ofSet y) = .ok (y.map fun s => (s, 0)) := by
    intro y
    cases y <;> rfl
  have hops : cmd.op = .sadd ∨ cmd.op = .srem := by simpa [Command.setOp] using hop
  have hmulti : cmd.op.multi = false := by rcases hops with h | h <;> rw [h] <;> rfl
  rcases hops with hadd | hrem
  · obtain ⟨g, hg, hloop⟩ := saddLoop_overwriting cmd.args
    refine ⟨_, Absorbing.write true g hg, fun y => ?_⟩
    rw [viewStep_of_plan hmulti hk]
    simp only [plan, hadd, planSAdd, hread]
    have hy : ((y.map fun s => (s, (0 : Int64))).getD (OrdMap.empty, 0)) =
        (y.getD OrdMap.empty, 0) := by
      cases y <;> rfl
    simp only [bind, Except.bind, hy, hloop, pure, Except.pure, KeyAct.onView, expiryOf_zero,
      settle]
    simp [ofSet]
  · obtain ⟨g, hg, hloop⟩ := sremLoop_overwriting cmd.args
    refine ⟨_, Absorbing.write false g hg, fun y => ?_⟩
    rw [viewStep_of_plan hmulti hk]
    simp only [plan, hrem, planSRem, hread]
    cases y with
    | none =>
      have hempty : g OrdMap.empty = OrdMap.empty := by
        rw [← hloop OrdMap.empty 0, sremLoop_empty]
      simp only [Option.getD_none, hempty]
      rfl
    | some s =>
      simp only [Option.map_some, Option.getD_some, bind, Except.bind, pure, Except.pure, if_true,
        hloop]
      exact onView_settle Value.set (g s) env.clock _

/-- SET and GETSET on a key that holds a string, or nothing. -/
theorem viewStep_assign (env : Env) {arg : Bytes} {rest : List Bytes} (hcmd : cmd.plain = true)
    (hops : cmd.op = .set ∨ cmd.op = .getset) (hk : cmd.key = k) (hargs : cmd.args = arg :: rest)
    (y : Option Bytes) :
    viewStep k (ofString y) (env, cmd) =
      if setKey cmd y.isSome then ofString (some arg) else ofString y := by
  have hmulti : cmd.op.multi = false := by rcases hops with h | h <;> rw [h] <;> rfl
  have happend : cmd.op ≠ .append := by rcases hops with h | h <;> rw [h] <;> decide
  have hexp : ∀ item, expiryOf env.clock.ttl (setTTLMs env cmd item) = 0 := by
    intro item
    refine expiryOf_of_nonpos ?_
    simpa [setTTLMs, happend] using (Command.plain_op hcmd).2
  have hset : plan env cmd = planSet env cmd := by
    funext x
    rcases hops with h | h <;> simp only [plan, h]
  rw [viewStep_of_plan hmulti hk, hset]
  unfold planSet
  rw [hargs]
  cases y with
  | none =>
    simp only [ofString, Option.map_none, setPlan, setNewVal, if_neg happend, Option.isSome_none]
    split_ifs with h
    · simp only [KeyAct.onView, hexp]
      rfl
    · rfl
  | some b =>
    simp only [ofString, Option.map_some, setPlan, setNewVal, if_neg happend, Option.isSome_some]
    split_ifs with h
    · simp only [KeyAct.onView, hexp]
    · rfl

/-- A command of a register overwrites the string of its key, or fills it in. -/
theorem viewStep_register (hcmd : cmd.plain = true) (hop : cmd.registerOp = true)
    (hk : cmd.key = k) :
    ∃ f, Overwrites f ∧ ∀ y, viewStep k (ofString y) (env, cmd) = ofString (f y) := by
  unfold Command.registerOp at hop
  simp only [Bool.and_eq_true, Bool.or_eq_true, decide_eq_true_eq] at hop
  obtain ⟨hops, hxx⟩ := hop
  have hmulti : cmd.op.multi = false := by rcases hops with h | h <;> rw [h] <;> rfl
  cases hargs : cmd.args with
  | nil =>
    have herr : ∀ x, plan env cmd x = .error (.missingArgs cmd.op) := by
      intro x
      rcases hops with h | h <;> simp only [plan, h, planSet, hargs]
    refine ⟨_, Overwrites.id, fun y => ?_⟩
    rw [viewStep_of_plan hmulti hk, herr]
  | cons arg rest =>
    have hstep := viewStep_assign env hcmd hops hk hargs
    cases hcond : cmd.condition with
    | always =>
      refine ⟨_, Overwrites.const (some arg), fun y => ?_⟩
      rw [hstep, setKey, hcond]
      rfl
    | nx =>
      refine ⟨_, Overwrites.fill (some arg), fun y => ?_⟩
      rw [hstep, setKey, hcond]
      cases y <;> rfl
    | xx => exact absurd hcond hxx

/-- A proper value of the type string is a string. -/
theorem string_of_typ {v : Value} (hv : v.proper = true) (h : v.typ = typeString) :
    ∃ b, v = .string b := by
  cases v with
  | string b => exact ⟨b, rfl⟩
  | list l => exact absurd h (show typeList ≠ typeString by decide)
  | hash m => exact absurd h (show typeHash ≠ typeString by decide)
  | set m => exact absurd h (show typeSet ≠ typeString by decide)
  | raw typ b => cases hv

theorem hash_of_typ {v : Value} (hv : v.proper = true) (h : v.typ = typeHash) :
    ∃ m, v = .hash m := by
  cases v with
  | string b => exact absurd h (show typeString ≠ typeHash by decide)
  | list l => exact absurd h (show typeList ≠ typeHash by decide)
  | hash m => exact ⟨m, rfl⟩
  | set m => exact absurd h (show typeSet ≠ typeHash by decide)
  | raw typ b => cases hv

theorem set_of_typ {v : Value} (hv : v.proper = true) (h : v.typ = typeSet) : ∃ m, v = .set m := by
  cases v with
  | string b => exact absurd h (show typeString ≠ typeSet by decide)
  | list l => exact absurd h (show typeList ≠ typeSet by decide)
  | hash m => exact absurd h (show typeHash ≠ typeSet by decide)
  | set m => exact ⟨m, rfl⟩
  | raw typ b => cases hv

theorem hashOp_uses (h : cmd.hashOp = true) : UsesAs typeHash cmd := by
  simp only [Command.hashOp, Bool.or_eq_true, decide_eq_true_eq] at h
  rcases h with (h | h) | h <;> simp [UsesAs, Op.multi, typeWritten, h]

theorem setOp_uses (h : cmd.setOp = true) : UsesAs typeSet cmd := by
  simp only [Command.setOp, Bool.or_eq_true, decide_eq_true_eq] at h
  rcases h with h | h <;> simp [UsesAs, Op.multi, typeWritten, h]

theorem stringOp_uses (h : cmd.stringOp = true) : UsesAs typeString cmd := by
  unfold Command.stringOp at h
  unfold UsesAs typeWritten
  cases hop : cmd.op <;> rw [hop] at h <;> first | simp [Op.multi]; done | cases h

theorem registerOp_uses (h : cmd.registerOp = true) : UsesAs typeString cmd := by
  simp only [Command.registerOp, Bool.and_eq_true, Bool.or_eq_true, decide_eq_true_eq] at h
  rcases h.1 with h | h <;> simp [UsesAs, Op.multi, typeWritten, h]

/-- A string command leaves a string, or nothing, where there was a string or nothing. -/
theorem viewStep_string (hcmd : cmd.plain = true) (huses : UsesAs typeString cmd) (hk : cmd.key = k)
    (y : Option Bytes) : ∃ y', viewStep k (ofString y) (env, cmd) = ofString y' := by
  have hx : (ofString y).timeless = true := by cases y <;> rfl
  rcases viewStep_cases env k hcmd hx with h | ⟨h, -⟩ | ⟨v, hv, htyp, -, h⟩
  · exact ⟨y, h⟩
  · exact ⟨none, h⟩
  · have hstr := huses.2.2
    rw [hk, htyp] at hstr
    obtain ⟨b, rfl⟩ := string_of_typ hv (Option.some.inj hstr)
    exact ⟨some b, h⟩

/-- Once a string was assigned, what it was before does not matter. -/
theorem viewRun_string {steps : List Step} (hsteps : ∀ s ∈ steps, s.2.plain = true)
    (honly : onlyOps k Command.stringOp (steps.map Prod.snd) = true) :
    (∀ y, ∃ y', viewRun k steps (ofString y) = ofString y') ∧
      (((steps.map Prod.snd).any fun cmd => cmd.assigns k) = true →
        ∀ y y', viewRun k steps (ofString y) = viewRun k steps (ofString y')) := by
  induction steps with
  | nil => exact ⟨fun y => ⟨y, rfl⟩, fun h => by cases h⟩
  | cons s rest ih =>
    obtain ⟨env, cmd⟩ := s
    have hcmd : cmd.plain = true := hsteps _ List.mem_cons_self
    have hfirst : ∀ y, ∃ y', viewStep k (ofString y) (env, cmd) = ofString y' := by
      intro y
      rcases viewStep_of_onlyOps honly List.mem_cons_self hcmd with h | ⟨hallowed, htouch⟩
      · exact ⟨y, h _ (by cases y <;> rfl)⟩
      · have huses := stringOp_uses hallowed
        exact viewStep_string hcmd huses (key_of_touches huses.1 htouch) y
    have honly' : onlyOps k Command.stringOp (rest.map Prod.snd) = true := by
      simp only [onlyOps, List.map_cons, List.all_cons, Bool.and_eq_true] at honly
      exact honly.2
    obtain ⟨hrange, hconst⟩ := ih (fun s hs => hsteps s (List.mem_cons_of_mem _ hs)) honly'
    constructor
    · intro y
      obtain ⟨y1, hy1⟩ := hfirst y
      obtain ⟨y2, hy2⟩ := hrange y1
      refine ⟨y2, ?_⟩
      show viewRun k rest (viewStep k (ofString y) (env, cmd)) = ofString y2
      rw [hy1, hy2]
    · intro hany y y'
      show viewRun k rest (viewStep k (ofString y) (env, cmd)) =
        viewRun k rest (viewStep k (ofString y') (env, cmd))
      rw [List.map_cons, List.any_cons, Bool.or_eq_true] at hany
      rcases hany with hassign | hany
      · simp only [Command.assigns, Bool.and_eq_true, Bool.or_eq_true, decide_eq_true_eq] at hassign
        obtain ⟨⟨⟨hops, hcond⟩, hargs⟩, hk⟩ := hassign
        obtain ⟨arg, rest', hargs⟩ := List.exists_cons_of_ne_nil hargs
        have hkey : ∀ present, setKey cmd present = true := by
          intro present
          rw [setKey, hcond]
          rfl
        rw [viewStep_assign _ hcmd hops hk hargs, viewStep_assign _ hcmd hops hk hargs,
          if_pos (hkey _), if_pos (hkey _)]
      · obtain ⟨y1, hy1⟩ := hfirst y
        obtain ⟨y2, hy2⟩ := hfirst y'
        rw [hy1, hy2]
        exact hconst hany y1 y2

end Types

/-! ## The replay -/

/-- A log that is replayed on its own result leaves a key for which it is safe as it was, whatever
the second execution sees. -/
theorem viewRun_replay {k : Bytes} {steps steps' : List Step} {x : View}
    (hlog : steps.map Prod.snd = steps'.map Prod.snd) (hsteps : ∀ s ∈ steps, s.2.plain = true)
    (hx : x.plain = true) (hsafe : replaySafe k (steps.map Prod.snd) = true) :
    viewRun k steps' (viewRun k steps x) = viewRun k steps x := by
  unfold replaySafe at hsafe
  simp only [Bool.or_eq_true, Bool.and_eq_true] at hsafe
  rcases hsafe with (((hreset | hhash) | hset) | hreg) | ⟨hstr, hassign⟩
  · exact (viewRun_eq hlog hsteps (View.plain.timeless hx)
      (View.plain.timeless (viewRun_plain hsteps hx)) (fun h => by cases h) hreset).symm
  · refine replay_of_onlyOps ofHash hlog hsteps hhash (fun cmd => hashOp_uses)
      (fun v hv htyp => ?_) ⟨none, rfl⟩ ?_ hx
    · obtain ⟨m, rfl⟩ := hash_of_typ hv htyp
      exact ⟨some m, rfl⟩
    · exact idem_of_onlyOps Absorbing Absorbing.id (fun f g => Absorbing.comp)
        (fun f => Absorbing.idem) hsteps hhash (fun cmd => hashOp_uses)
        (fun y => by cases y <;> rfl) fun env cmd _ => viewStep_hash
  · refine replay_of_onlyOps ofSet hlog hsteps hset (fun cmd => setOp_uses)
      (fun v hv htyp => ?_) ⟨none, rfl⟩ ?_ hx
    · obtain ⟨m, rfl⟩ := set_of_typ hv htyp
      exact ⟨some m, rfl⟩
    · exact idem_of_onlyOps Absorbing Absorbing.id (fun f g => Absorbing.comp)
        (fun f => Absorbing.idem) hsteps hset (fun cmd => setOp_uses)
        (fun y => by cases y <;> rfl) fun env cmd _ => viewStep_set
  · refine replay_of_onlyOps ofString hlog hsteps hreg (fun cmd => registerOp_uses)
      (fun v hv htyp => ?_) ⟨none, rfl⟩ ?_ hx
    · obtain ⟨b, rfl⟩ := string_of_typ hv htyp
      exact ⟨some b, rfl⟩
    · exact idem_of_onlyOps Overwrites Overwrites.id (fun f g => Overwrites.comp)
        (fun f => Overwrites.idem) hsteps hreg (fun cmd => registerOp_uses)
        (fun y => by cases y <;> rfl) fun env cmd => viewStep_register
  · obtain ⟨hrange, hconst⟩ := viewRun_string hsteps hstr
    refine replay_of_onlyOps ofString hlog hsteps hstr (fun cmd => stringOp_uses)
      (fun v hv htyp => ?_) ⟨none, rfl⟩ (fun y => ?_) hx
    · obtain ⟨b, rfl⟩ := string_of_typ hv htyp
      exact ⟨some b, rfl⟩
    · obtain ⟨y', hy'⟩ := hrange y
      have hsame := hconst hassign y' y
      rw [← hy'] at hsame
      exact hsame

end Badis
