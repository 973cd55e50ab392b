import Badis.Server.Requests
import Badis.Server.Resp

/-!
# Complete replies

What it takes for a sequence of calls to be one value: single calls, and arrays of them. Conversely
the calls of a value leave nothing pending (`Complete.pending`) and tell the value
(`Resp.writes_injective`).
-/

namespace Badis

open Lib

mutual

/-- The calls of a value satisfy one value a client waits for. -/
theorem pending_writes (v : Resp) (n : Nat) (rest : List Write) :
    pending (n + 1) (v.writes ++ rest) = pending n rest := by
  cases v with
  | array elems =>
    show pending (n + elems.length) (Resp.writesAll elems ++ rest) = pending n rest
    exact pending_writesAll elems n rest
  | string | error | bulk | null | int => rfl

theorem pending_writesAll (elems : List Resp) (n : Nat) (rest : List Write) :
    pending (n + elems.length) (Resp.writesAll elems ++ rest) = pending n rest := by
  cases elems with
  | nil => rfl
  | cons v elems =>
    show pending (n + elems.length + 1) ((v.writes ++ Resp.writesAll elems) ++ rest) =
      pending n rest
    rw [List.append_assoc, pending_writes v, pending_writesAll elems]

end

mutual

/-- The calls of a value tell it, wherever they stop. -/
theorem Resp.writes_append_inj {v v' : Resp} {r r' : List Write}
    (h : v.writes ++ r = v'.writes ++ r') :
    v = v' ∧ r = r' := by
  cases v with
  | array elems =>
    cases v' with
    | array elems' =>
      obtain ⟨hlen, hrest⟩ := List.cons.inj h
      obtain ⟨rfl, hr⟩ := Resp.writesAll_append_inj (Write.array.inj hlen) hrest
      exact ⟨rfl, hr⟩
    | string | error | bulk | null | int => cases h
  | string | error | bulk | null | int =>
    cases v' <;> cases h
    exact ⟨rfl, rfl⟩

theorem Resp.writesAll_append_inj {elems elems' : List Resp} {r r' : List Write}
    (hlen : elems.length = elems'.length)
    (h : Resp.writesAll elems ++ r = Resp.writesAll elems' ++ r') : elems = elems' ∧ r = r' := by
  cases elems with
  | nil =>
    cases elems' with
    | nil => exact ⟨rfl, h⟩
    | cons v' elems' => cases hlen
  | cons v elems =>
    cases elems' with
    | nil => cases hlen
    | cons v' elems' =>
      rw [Resp.writesAll, Resp.writesAll, List.append_assoc, List.append_assoc] at h
      obtain ⟨rfl, hrest⟩ := Resp.writes_append_inj h
      obtain ⟨rfl, hr⟩ := Resp.writesAll_append_inj (Nat.succ.inj hlen) hrest
      exact ⟨rfl, hr⟩

end

theorem Resp.writes_injective : Function.Injective Resp.writes := by
  intro v v' h
  have happend : v.writes ++ [] = v'.writes ++ [] := by rw [h]
  exact (Resp.writes_append_inj happend).1

/-- After a complete reply the client waits for nothing. -/
theorem Complete.pending {ws : List Write} (h : Complete ws) : pending 1 ws = some 0 := by
  obtain ⟨v, rfl⟩ := h
  have hv := pending_writes v 0 []
  rw [List.append_nil] at hv
  exact hv

/-- The value that a single call writes. -/
theorem Write.single.resp {w : Write} (h : w.single = true) : ∃ v : Resp, v.writes = [w] := by
  cases w with
  | string s => exact ⟨.string s, rfl⟩
  | error msg => exact ⟨.error msg, rfl⟩
  | bulk b => exact ⟨.bulk b, rfl⟩
  | null => exact ⟨.null, rfl⟩
  | int n => exact ⟨.int n, rfl⟩
  | array n => cases h

theorem complete_single {w : Write} (h : w.single = true) : Complete [w] := Write.single.resp h

theorem complete_error (msg : Bytes) : Complete [.error msg] := complete_single rfl

/-- An array of as many single calls as its header says. -/
theorem complete_array {ws : List Write} {n : Nat} (hn : ws.length = n)
    (h : ∀ w ∈ ws, w.single = true) : Complete (.array n :: ws) := by
  have helems : ∃ elems : List Resp, elems.length = ws.length ∧ Resp.writesAll elems = ws := by
    clear hn
    induction ws with
    | nil => exact ⟨[], rfl, rfl⟩
    | cons w ws ih =>
      obtain ⟨v, hv⟩ := Write.single.resp (h w List.mem_cons_self)
      obtain ⟨elems, hlen, hws⟩ := ih fun w' hw' => h w' (List.mem_cons_of_mem _ hw')
      refine ⟨v :: elems, congrArg Nat.succ hlen, ?_⟩
      show v.writes ++ Resp.writesAll elems = w :: ws
      rw [hv, hws]
      rfl
  obtain ⟨elems, hlen, hws⟩ := helems
  refine ⟨.array elems, ?_⟩
  show Write.array elems.length :: Resp.writesAll elems = .array n :: ws
  rw [hws, hlen, hn]

theorem pending_single {ws : List Write} {n : Nat} (h : ∀ w ∈ ws, w.single = true)
    (hle : ws.length ≤ n) :
    pending n ws = some (n - ws.length) := by
  induction ws generalizing n with
  | nil => rfl
  | cons w ws ih =>
    obtain ⟨m, rfl⟩ : ∃ m, n = m + 1 := ⟨n - 1, by simp only [List.length_cons] at hle; omega⟩
    have hdue : w.due = 0 := by
      have hw := h w List.mem_cons_self
      cases w with
      | array n => cases hw
      | string | error | bulk | null | int => rfl
    have hlen : ws.length ≤ m := by
      simp only [List.length_cons] at hle
      omega
    show pending (m + w.due) ws = some (m + 1 - (ws.length + 1))
    rw [hdue, Nat.add_zero, ih (fun w' hw' => h w' (List.mem_cons_of_mem _ hw')) hlen,
      Nat.add_sub_add_right]

/-- An array of single calls is complete when there are as many as its header says. -/
theorem complete_array_iff {ws : List Write} {n : Nat} (h : ∀ w ∈ ws, w.single = true)
    (hle : ws.length ≤ n) : Complete (.array n :: ws) ↔ ws.length = n := by
  constructor
  · intro hc
    have hp : pending (0 + n) ws = some 0 := hc.pending
    rw [Nat.zero_add, pending_single h hle, Option.some.injEq] at hp
    omega
  · intro hn
    exact complete_array hn h

theorem complete_writeStrings (l : List Bytes) : Complete (writeStrings l) := by
  refine complete_array (List.length_map _) ?_
  intro w hw
  obtain ⟨b, -, rfl⟩ := List.mem_map.mp hw
  rfl

theorem complete_writeBulks (l : List (Option Bytes)) : Complete (writeBulks l) := by
  refine complete_array (List.length_map _) ?_
  intro w hw
  obtain ⟨b, -, rfl⟩ := List.mem_map.mp hw
  cases b <;> rfl

theorem complete_writeBulk (b : Option Bytes) : Complete (writeBulk b) := by
  cases b <;> exact complete_single rfl

theorem complete_writeNat (n : Nat) : Complete (writeNat n) := complete_single rfl

/-- The reply to an applied command is complete, whatever came of it. -/
theorem complete_applyReply (codecText : Bytes) (o : Outcome) :
    Complete (applyReply codecText o) := by
  cases o with
  | raftError text => exact complete_error _
  | applied r =>
    cases r with
    | error err => exact complete_error _
    | ok res =>
      cases res with
      | strs l => exact complete_writeStrings l
      | nil | str | bytes | int | int64 | int64s | array => exact complete_single rfl

theorem complete_handleSetReply (codecText : Bytes) (c : Command) (r : Except Err Result) :
    Complete (handleSetReply codecText c r) := by
  unfold handleSetReply
  split
  · exact complete_error _
  · exact complete_single rfl
  · split_ifs
    · split <;> exact complete_single rfl
    · exact complete_single rfl

theorem complete_setOutcome (codecText : Bytes) (c : Command) (o : Outcome) :
    Complete (setOutcome codecText c o) := by
  cases o with
  | raftError text => exact complete_error _
  | applied r => exact complete_handleSetReply codecText c r

theorem complete_handleGet (codecText : Bytes) (t : Nat) (args : List Bytes) (db : DB) :
    Complete (handleGet codecText t args db) := by
  unfold handleGet
  split
  · split <;> exact complete_single rfl
  · exact complete_error _

end Badis
