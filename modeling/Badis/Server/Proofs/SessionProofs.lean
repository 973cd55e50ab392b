import Badis.Server.Session
import Badis.Server.Proofs.KeyUseProofs
import Badis.Server.Proofs.ReplyProofs
import Badis.Store.Proofs.ViewProofs

/-!
# Proofs: requests to one node

What every kind of requests needs: a handler that builds a command or answers (`serve_command`,
`serve_answer`), a command on one key by its plan (`Held.of_plan`), and DEL (`Held.del`).
-/

namespace Badis

open Lib

/-! ## Arguments -/

theorem Numeral.parseInt_eq (n : Numeral) : parseInt n.text = ((parseInt n.text).1, true) :=
  Prod.ext rfl n.accepted

theorem Numeral.parseInteger_eq (n : Numeral) : parseInteger n.text = .ok (parseInt n.text).1 := by
  rw [parseInteger, n.parseInt_eq]

theorem length_flatPairs (pairs : List (Bytes × Bytes)) :
    (flatPairs pairs).length = 2 * pairs.length := by
  induction pairs with
  | nil => rfl
  | cons p pairs ih =>
    show (flatPairs pairs).length + 2 = _
    rw [ih, List.length_cons]
    omega

/-! ## Serving -/

section Serving

variable {ρ : Type} [Wire ρ] (vm : LuaVM) (fuel : Nat) {srv : Server} {a : Arrival ρ} {db : DB}

theorem serve_command {cmd : Command} {reply : Outcome → List Write}
    (hnamed : srv.verb? a.name = some (Wire.verb a.request))
    (hhandler : (Wire.verb a.request).handler srv (fun _ => ⟨db, a.now, a.order⟩) a.conn
      (a.name :: Wire.args a.request) = .ok (.apply cmd reply))
    (hscript : cmd.op.script = false) :
    a.serve vm fuel srv db = (.ok (reply (.applied (applyCmd srv.codec a.env cmd db).1)),
      (applyCmd srv.codec a.env cmd db).2) := by
  refine serveNode_of_command vm ?_ hscript fuel (fun _ => a.env) db
  rw [serveRESP_of_verb srv _ a.conn a.name _ hnamed, hhandler]

theorem serve_answer {ws : List Write} (hnamed : srv.verb? a.name = some (Wire.verb a.request))
    (hhandler : (Wire.verb a.request).handler srv (fun _ => ⟨db, a.now, a.order⟩) a.conn
      (a.name :: Wire.args a.request) = .ok (.write ws)) :
    a.serve vm fuel srv db = (.ok ws, db) := by
  unfold Arrival.serve serveNode
  rw [serveRESP_of_verb srv _ a.conn a.name _ hnamed, hhandler]

end Serving

/-! ## What a key shows -/

section Shows

variable {c : Codec} {start : Nat}

theorem shows_put (hc : c.Lawful) (env : Env) {v : Value} (hv : v.proper = true) (s : Slot) :
    Shows c start (some (v, 0)) ((KeyAct.put v 0).onSlot c env s) := by
  intro t _
  have hview : ((KeyAct.put v 0).onSlot c env s).view c t =
      some (Value.decode c v.typ (v.encode c env), 0) := rfl
  rw [hview, decode_encode hc env hv]

theorem shows_nothing : Shows c start none ⟨none, none⟩ := fun _ _ => rfl

/-! An aggregate is absent when it is empty: the conditions `empty` below. -/

variable {α : Type} {empty : Prop} [Decidable empty]

theorem shows_putUnless (hc : c.Lawful) (env : Env) {v : Value} (hv : v.proper = true) (s : Slot) :
    Shows c start (if empty then none else some (v, 0))
      ((if empty then KeyAct.drop else .put v 0).onSlot c env s) := by
  split_ifs
  · exact shows_nothing
  · exact shows_put hc env hv s

theorem readView_unless (env : Env) {as : Value → Except Err α} {v : Value} {a : α}
    (has : as v = .ok a) :
    readView env as (if empty then none else some (v, 0)) =
      .ok (if empty then none else some (a, 0)) := by
  split_ifs
  · rfl
  · rw [readView, has]
    rfl

theorem getD_unless {a default : α} (h : empty → a = default) :
    (if empty then none else some a).getD default = a := by
  split_ifs with hempty
  · exact (h hempty).symm
  · rfl

end Shows

/-! ## Commands -/

section Commands

variable {α : Type} {Rep : α → Slot → Prop} {K : Bytes → Prop} {m : Bytes → α} {db : DB}
  {c : Codec} {env : Env} {cmd : Command}

/-- A command on one key, by its plan. -/
theorem Held.of_plan (h : Held Rep K m db) (hmulti : cmd.op.multi = false) {r : Result}
    {act : KeyAct} (hplan : plan env cmd (DB.view c env.clock.now db cmd.key) = .ok (r, act))
    {x : α} (hrep : Rep x (act.onSlot c env (Slot.of db cmd.key))) :
    (applyCmd c env cmd db).1 = .ok r ∧
      Held Rep K (Function.update m cmd.key x) (applyCmd c env cmd db).2 := by
  refine ⟨?_, fun k hk => ?_⟩
  · rw [reply_applyCmd, reply_of_single _ _ hmulti, hplan]
    rfl
  · rw [slot_applyCmd, keyAct_of_single _ _ _ hmulti]
    by_cases hkey : cmd.key = k
    · subst hkey
      rw [if_pos rfl, hplan, Function.update_self]
      exact hrep
    · rw [if_neg hkey, Function.update_of_ne (Ne.symm hkey)]
      exact h k hk

theorem delCount_eq_countPresent (present : Bytes → Bool) (keys : List Bytes) :
    delCount present keys = countPresent present keys := by
  induction keys generalizing present with
  | nil => rfl
  | cons k keys ih =>
    unfold countPresent at ih ⊢
    rw [delCount, List.toFinset_cons, Finset.filter_insert]
    by_cases hk : present k = true
    · -- the key is counted here, and no longer in the rest
      have hrest : insert k (keys.toFinset.filter fun k => present k = true) =
          insert k (keys.toFinset.filter fun k' => (decide (k' ≠ k) && present k') = true) := by
        ext k'
        by_cases hk' : k' = k <;> simp [hk']
      have hnot : k ∉ keys.toFinset.filter fun k' =>
        (decide (k' ≠ k) && present k') = true := by simp
      rw [if_pos hk, if_pos hk, hrest, Finset.card_insert_of_notMem hnot, ih]
    · rw [if_neg hk, if_neg hk, ih]

/-- DEL: the reply counts the keys that hold something, and they then hold nothing. -/
theorem Held.del [DecidableEq α] (h : Held Rep K m db) {empty : α} (hempty : Rep empty ⟨none, none⟩)
    (hpresent : ∀ x s, Rep x s → ((s.view c env.clock.now).isSome = true ↔ x ≠ empty))
    {keys : List Bytes} (hne : keys ≠ []) (hkeys : ∀ k ∈ keys, K k) :
    (applyCmd c env { op := .del, args := keys } db).1 =
        .ok (.int (countPresent (fun k => decide (m k ≠ empty)) keys)) ∧
      Held Rep K (fun k => if k ∈ keys then empty else m k)
        (applyCmd c env { op := .del, args := keys } db).2 := by
  have hview : ∀ k, K k → ((DB.view c env.clock.now db k).isSome = true ↔ m k ≠ empty) :=
    fun k hk => hpresent _ _ (h k hk)
  refine ⟨?_, fun k hk => ?_⟩
  · have hcount : delCount (fun k => (DB.view c env.clock.now db k).isSome) keys =
        delCount (fun k => decide (m k ≠ empty)) keys := by
      refine delCount_congr fun k hk => ?_
      rw [Bool.eq_iff_iff, hview k (hkeys k hk), decide_eq_true_iff]
    rw [reply_applyCmd, ← delCount_eq_countPresent, ← hcount]
    exact if_neg fun hargs => hne hargs.1
  · rw [slot_applyCmd]
    show Rep (if k ∈ keys then empty else m k) (KeyAct.onSlot c env
      (if (DB.view c env.clock.now db k).isNone then KeyAct.keep
      else if k ∈ keys then KeyAct.drop
      else if keys = [] ∧ _ then KeyAct.unset else KeyAct.keep) _)
    rw [if_neg (fun hargs : keys = [] ∧ _ => hne hargs.1)]
    by_cases hnone : (DB.view c env.clock.now db k).isNone
    · have hmk : m k = empty := by
        by_contra hmk
        rw [Option.isNone_iff_eq_none] at hnone
        have hsome := (hview k hk).mpr hmk
        rw [hnone] at hsome
        cases hsome
      rw [if_pos hnone, show (if k ∈ keys then empty else m k) = m k by rw [hmk, ite_self]]
      exact h k hk
    · rw [if_neg hnone]
      by_cases hmem : k ∈ keys
      · rw [if_pos hmem, if_pos hmem]
        exact hempty
      · rw [if_neg hmem, if_neg hmem]
        exact h k hk

end Commands

/-! ## One request -/

section Requests

variable {ρ α : Type} [Wire ρ] (vm : LuaVM) (fuel : Nat) {srv : Server} {a : Arrival ρ} {db : DB}
  {Rep : α → Slot → Prop} {K : Bytes → Prop} {m' : Bytes → α}

/-- A request answered with `ws` that leaves the keys holding `m'`. -/
def Arrival.Gives (srv : Server) (a : Arrival ρ) (db : DB) (ws : List Write) (Rep : α → Slot → Prop)
    (K : Bytes → Prop) (m' : Bytes → α) : Prop :=
  (a.serve vm fuel srv db).1 = .ok ws ∧ Held Rep K m' (a.serve vm fuel srv db).2

theorem gives_command {cmd : Command} {reply : Outcome → List Write} {r : Result}
    (hnamed : srv.verb? a.name = some (Wire.verb a.request))
    (hhandler : (Wire.verb a.request).handler srv (fun _ => ⟨db, a.now, a.order⟩) a.conn
      (a.name :: Wire.args a.request) = .ok (.apply cmd reply))
    (hscript : cmd.op.script = false)
    (happly : (applyCmd srv.codec a.env cmd db).1 = .ok r ∧
      Held Rep K m' (applyCmd srv.codec a.env cmd db).2) :
    a.Gives vm fuel srv db (reply (.applied (.ok r))) Rep K m' := by
  unfold Arrival.Gives
  rw [serve_command vm fuel hnamed hhandler hscript, ← happly.1]
  exact ⟨rfl, happly.2⟩

theorem gives_answer {ws : List Write} (hnamed : srv.verb? a.name = some (Wire.verb a.request))
    (hhandler : (Wire.verb a.request).handler srv (fun _ => ⟨db, a.now, a.order⟩) a.conn
      (a.name :: Wire.args a.request) = .ok (.write ws))
    (h : Held Rep K m' db) : a.Gives vm fuel srv db ws Rep K m' := by
  unfold Arrival.Gives
  rw [serve_answer vm fuel hnamed hhandler]
  exact ⟨rfl, h⟩

end Requests

/-! ## A run -/

section Sample

variable {ρ : Type}

/-- A request that arrives at a fresh connection, with every clock at the same second. -/
def sampleArrival (name : String) (r : ρ) : Arrival ρ :=
  ⟨r, ascii name, newConn, Env.at 1000000000000, 1000000000000, RangeOrder.sorted⟩

theorem sampleArrival_allowed [Wire ρ] {name : String} {r : ρ}
    (hnamed : asciiServer.verb? (ascii name) = some (Wire.verb r)) :
    (sampleArrival name r).Allowed asciiServer 1000000000000 fun _ => True :=
  ⟨hnamed, le_rfl, le_rfl, fun _ _ => trivial⟩

end Sample

end Badis
