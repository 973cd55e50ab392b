import Badis.Server.Interleaving
import Badis.Server.Proofs.SetSpecProofs
import Badis.Store.Proofs.IsolationProofs

/-!
# Multi-element reads and one state

All the requests that read several elements take one view, but SMISMEMBER takes one for each member.
A request with one view answers from the state that this view sees. An SMISMEMBER of two members or
more can be torn: a SADD of all of them between the first and the second view makes it answer that
the first is no member and the second is one, which no state says (`readsSeveral_oneState_iff`).
-/

namespace Badis

open Lib

section OneView

variable {vm : LuaVM} {srv : Server} {db : DB} {steps : List ApplyStep} {views : Nat → ReadView}

/-- A reply that depends on the first view is that of the state the view sees. -/
theorem oneState_of_first (h : Interleaves vm srv db steps views) {conn : Conn} {verb : Verb}
    {args : List Bytes}
    (hfirst : verb.handler srv views conn args = verb.handler srv (fun _ => views 0) conn args) :
    OneState vm srv db steps views conn verb args := by
  obtain ⟨pos, -, hpos⟩ := h.states
  exact ⟨(views 0).db, List.mem_of_getElem? (hpos 0), (views 0).now, (views 0).order, Nat.le_refl _,
    ⟨0, Nat.le_refl _⟩, hfirst⟩

/-- The handlers of these commands take one view, and SMISMEMBER one for each member. -/
theorem handler_first_view (srv : Server) (views : Nat → ReadView) (conn : Conn) {verb : Verb}
    {args : List Bytes} (hverb : verb.readsSeveral = true)
    (hone : ¬ (verb = .smismember ∧ 4 ≤ args.length)) :
    verb.handler srv views conn args = verb.handler srv (fun _ => views 0) conn args := by
  cases verb <;> cases hverb
  case smismember =>
    show handleSMIsMember srv views args = handleSMIsMember srv (fun _ => views 0) args
    rcases args with _ | ⟨name, _ | ⟨key, _ | ⟨member, _ | ⟨member', rest⟩⟩⟩⟩
    · rfl
    · rfl
    · rfl
    · rfl
    · exact absurd ⟨rfl, by simp⟩ hone
  all_goals rfl

end OneView

/-! ## SMISMEMBER -/

section Flags

variable (srv : Server) (views : Nat → ReadView) {key : Bytes} {flag : Nat → Nat}

/-- The loop when every view answers alike for all members. -/
theorem isMemberLoop_flags {args : List Bytes} (hkey : goIndex args 1 = .ok key)
    (h : ∀ j member, member ∈ args.drop 2 →
      ((sIsMember srv.codec (views j).now key member).run (views j).db).1 = .ok (flag j))
    {rounds i : Nat} (hi : 2 ≤ i) (hlen : i + rounds ≤ args.length) :
    isMemberLoop srv views args rounds i =
      .ok ((List.range' (i - 2) rounds).map fun j => .int (flag j)) := by
  induction rounds generalizing i with
  | zero => rfl
  | succ rounds ih =>
    have hlt : i < args.length := by omega
    have hmember : goIndex args (i : Nat) = .ok args[i] :=
      goIndex_natCast (List.getElem?_eq_getElem hlt)
    have hmem : args[i] ∈ args.drop 2 := by
      refine List.mem_of_getElem? (i := i - 2) ?_
      rw [List.getElem?_drop, show 2 + (i - 2) = i by omega, List.getElem?_eq_getElem hlt]
    rw [isMemberLoop_succ srv views args hkey hmember, h (i - 2) _ hmem, ih (by omega) (by omega),
      List.range'_succ, show i - 2 + 1 = i + 1 - 2 by omega]
    rfl

theorem handleSMIsMember_flags {name member : Bytes} {members : List Bytes}
    (h : ∀ j m, m ∈ member :: members →
      ((sIsMember srv.codec (views j).now key m).run (views j).db).1 = .ok (flag j)) :
    handleSMIsMember srv views (name :: key :: member :: members) =
      .ok (.write (.array (members.length + 1) ::
        (List.range' 0 (members.length + 1)).map fun j => .int (flag j))) := by
  have hkey : goIndex (name :: key :: member :: members) 1 = .ok key := rfl
  have hloop : isMemberLoop srv views (name :: key :: member :: members) (members.length + 1) 2 =
      .ok ((List.range' 0 (members.length + 1)).map fun j => .int (flag j)) :=
    isMemberLoop_flags srv views hkey h (Nat.le_refl 2) (by simp; omega)
  unfold handleSMIsMember
  rw [if_neg (by simp), show (name :: key :: member :: members).length - 2 =
    members.length + 1 from rfl, hloop]
  rfl

end Flags

/-! ## A torn reply -/

section Torn

variable (vm : LuaVM) (srv : Server) (key member : Bytes) (members : List Bytes)

/-- SADD of all the members that a request asks for. -/
def addAll : ApplyStep where
  fuel := 0
  envs _ := Env.at 1001000000000
  cmd := { op := .sadd, key := key, args := member :: members }

/-- The store that it leaves. -/
def addedStore : DB :=
  (applyCmd srv.codec (Env.at 1001000000000) (addAll key member members).cmd OrdMap.empty).2

/-- The first view of the request is taken before the SADD, the others after it. -/
def tornViews : Nat → ReadView
  | 0 => ⟨OrdMap.empty, 1000000000000, RangeOrder.sorted⟩
  | _ + 1 => ⟨addedStore srv key member members, 1002000000000, RangeOrder.sorted⟩

theorem committedStates_addAll :
    committedStates vm srv OrdMap.empty [addAll key member members] =
      [OrdMap.empty, addedStore srv key member members] := by
  have happly : (addAll key member members).commit vm srv.codec OrdMap.empty =
      addedStore srv key member members :=
    congrArg Prod.snd (fsmApply_of_not_script vm srv.codec rfl 0 _ _)
  rw [← happly]
  rfl

theorem tornViews_interleave :
    Interleaves vm srv OrdMap.empty [addAll key member members]
      (tornViews srv key member members) := by
  constructor
  · refine ⟨fun i => min i 1, fun i => min_le_min_right 1 (Nat.le_succ i), fun i => ?_⟩
    rw [committedStates_addAll]
    cases i with
    | zero => rfl
    | succ i =>
      have hpos : min (i + 1) 1 = 1 := by omega
      simp only [hpos]
      rfl
  · intro i
    cases i with
    | zero => exact (by decide : 1000000000000 ≤ 1002000000000)
    | succ i => exact Nat.le_refl _

/-- Before the SADD none of them is a member. -/
theorem sIsMember_empty (t : Nat) (m : Bytes) :
    ((sIsMember srv.codec t key m).run OrdMap.empty).1 = .ok 0 := by
  have hstored : StoresMembers srv.codec t (Slot.of OrdMap.empty key) [] := .nothing rfl
  rw [sIsMember_stored hstored]
  simp

/-- After it all of them are, at any time. -/
theorem sIsMember_added (hc : srv.codec.Lawful) (t : Nat) {m : Bytes} (hm : m ∈ member :: members) :
    ((sIsMember srv.codec t key m).run (addedStore srv key member members)).1 = .ok 1 := by
  have hempty : RepSet srv.codec 0 ∅ (Slot.of OrdMap.empty key) := repSet_nothing
  obtain ⟨act, hplan, l, -, hl, hstored⟩ : ∃ act,
      plan (Env.at 1001000000000) (addAll key member members).cmd
        (DB.view srv.codec (Env.at 1001000000000).clock.now OrdMap.empty
          (addAll key member members).cmd.key) =
          .ok (.int ((member :: members).toFinset \ ∅).card, act) ∧
        RepSet srv.codec 0 (∅ ∪ (member :: members).toFinset)
          (act.onSlot srv.codec (Env.at 1001000000000) (Slot.of OrdMap.empty key)) :=
    sadd_repSet hc hempty (Nat.zero_le _) key (List.cons_ne_nil member members)
  have hslot : Slot.of (addedStore srv key member members) key =
      act.onSlot srv.codec (Env.at 1001000000000) (Slot.of OrdMap.empty key) := by
    unfold addedStore
    rw [applyCmd_eq_plan _ _ _ _ rfl, hplan]
    exact Slot.of_setSlot OrdMap.empty key _
  rw [← hslot] at hstored
  rw [sIsMember_stored (hstored t (Nat.zero_le t)), if_pos]
  rwa [← List.mem_toFinset, hl, Finset.empty_union, List.mem_toFinset]

/-- The SMISMEMBER answers `0` and then `1`, and a single state answers alike for all members. -/
theorem torn_not_oneState (hc : srv.codec.Lawful) (conn : Conn) (name second : Bytes)
    (rest : List Bytes) :
    ¬ OneState vm srv OrdMap.empty [addAll key member (second :: rest)]
      (tornViews srv key member (second :: rest)) conn .smismember
      (name :: key :: member :: second :: rest) := by
  rintro ⟨state, hstate, now, order, -, -, hreply⟩
  have htorn : handleSMIsMember srv (tornViews srv key member (second :: rest))
      (name :: key :: member :: second :: rest) =
        .ok (.write (.array ((second :: rest).length + 1) ::
          (List.range' 0 ((second :: rest).length + 1)).map fun j =>
            .int ((if j = 0 then 0 else 1 : Nat) : Int))) := by
    refine handleSMIsMember_flags srv _ fun j m hm => ?_
    cases j with
    | zero => exact sIsMember_empty srv key _ m
    | succ j => exact sIsMember_added srv key member (second :: rest) hc _ hm
  have hsingle : ∃ n : Nat, handleSMIsMember srv (fun _ => ⟨state, now, order⟩)
      (name :: key :: member :: second :: rest) =
        .ok (.write (.array ((second :: rest).length + 1) ::
          (List.range' 0 ((second :: rest).length + 1)).map fun _ => .int (n : Int))) := by
    rw [committedStates_addAll, List.mem_pair] at hstate
    rcases hstate with rfl | rfl
    · exact ⟨0, handleSMIsMember_flags srv _ fun j m hm => sIsMember_empty srv key now m⟩
    · exact ⟨1, handleSMIsMember_flags srv _ fun j m hm =>
        sIsMember_added srv key member (second :: rest) hc now hm⟩
  obtain ⟨n, hsingle⟩ := hsingle
  have heq := htorn.symm.trans (hreply.trans hsingle)
  simp only [Except.ok.injEq, Action.write.injEq, List.cons.injEq, true_and,
    List.map_inj_left] at heq
  have hfirst := heq 0 (by simp)
  have hsecond := heq 1 (by simp)
  simp only [if_true, Write.int.injEq] at hfirst hsecond
  rw [← hfirst] at hsecond
  exact absurd hsecond (by decide)

end Torn

/-- The requests that read several elements, in every store and among any applies: the reply is that
of a single committed state, except that of an SMISMEMBER with two members or more. -/
theorem readsSeveral_oneState_iff (vm : LuaVM) (lc : LogCodec) (srv : Server)
    (hc : srv.codec.Lawful) (conn : Conn) (verb : Verb) (hverb : verb.readsSeveral = true)
    (args : List Bytes) :
    (∀ db, Reachable vm srv.codec lc db → ∀ steps views, Interleaves vm srv db steps views →
        OneState vm srv db steps views conn verb args) ↔
      ¬ (verb = .smismember ∧ 4 ≤ args.length) := by
  constructor
  · rintro h ⟨rfl, hlen⟩
    rcases args with _ | ⟨name, _ | ⟨key, _ | ⟨member, _ | ⟨second, rest⟩⟩⟩⟩
    · simp at hlen
    · simp at hlen
    · simp at hlen
    · simp at hlen
    · exact torn_not_oneState vm srv key member hc conn name second rest
        (h OrdMap.empty .empty _ _ (tornViews_interleave vm srv key member (second :: rest)))
  · intro hone db _ steps views hviews
    exact oneState_of_first hviews (handler_first_view srv views conn hverb hone)

/-- SMEMBERS of a set answers from a single state, while members are added. -/
theorem smembers_oneState :
    OneState noScripts asciiServer OrdMap.empty [addAll (ascii "s") (ascii "a") [ascii "b"]]
      (tornViews asciiServer (ascii "s") (ascii "a") [ascii "b"]) newConn .smembers
      [ascii "smembers", ascii "s"] :=
  (readsSeveral_oneState_iff noScripts noLogs asciiServer msgpack_lawful newConn .smembers rfl
    [ascii "smembers", ascii "s"]).mpr (by decide) OrdMap.empty .empty _ _
    (tornViews_interleave noScripts asciiServer _ _ _)

/-- SMISMEMBER of `a` and `b` while both are added: it answers that `b` is a member and `a` is
not. -/
theorem smismember_torn :
    Interleaves noScripts asciiServer OrdMap.empty [addAll (ascii "s") (ascii "a") [ascii "b"]]
        (tornViews asciiServer (ascii "s") (ascii "a") [ascii "b"]) ∧
      handleSMIsMember asciiServer (tornViews asciiServer (ascii "s") (ascii "a") [ascii "b"])
        [ascii "smismember", ascii "s", ascii "a", ascii "b"] =
          .ok (.write [.array 2, .int 0, .int 1]) ∧
      ¬ OneState noScripts asciiServer OrdMap.empty [addAll (ascii "s") (ascii "a") [ascii "b"]]
        (tornViews asciiServer (ascii "s") (ascii "a") [ascii "b"]) newConn .smismember
        [ascii "smismember", ascii "s", ascii "a", ascii "b"] :=
  ⟨tornViews_interleave noScripts asciiServer _ _ _, by rfl,
    torn_not_oneState noScripts asciiServer _ _ msgpack_lawful newConn _ _ _⟩

end Badis
