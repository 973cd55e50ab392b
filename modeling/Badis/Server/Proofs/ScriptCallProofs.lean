import Badis.Server.Proofs.CallEffectProofs
import Badis.Server.Proofs.KeyUseProofs

/-!
# When a call and a request agree

The writes of hashes, lists and sets are compared as those of strings are. Together they say for
which arguments `redis.call` does to every store what the request does: the handlers take each
command's arguments as it has them, and `parseCommandForLua` takes the first one as the key and no
expiry.
-/

namespace Badis

open Lib

/-! ## Hashes -/

section Hashes

variable {c : Codec} (srv : Server) (name : Bytes) (args : List Bytes)

/-- HSET creates a hash, be it an empty one. -/
theorem changes_hset {cmd : Command} (hop : cmd.op = .hset ∨ cmd.op = .hsetnx)
    (heven : cmd.args.length % 2 = 0) : Changes c cmd := by
  have hmulti : cmd.op.multi = false := by rcases hop with hop | hop <;> rw [hop] <;> rfl
  have hplan : plan noon cmd none = planHSet noon cmd none := by
    rcases hop with hop | hop <;> simp only [plan, hop]
  obtain ⟨r, v, ttlMs, hput⟩ : ∃ r v ttlMs, planHSet noon cmd none = .ok (r, .put v ttlMs) := by
    unfold planHSet
    rw [if_neg (not_not.mpr heven)]
    exact ⟨_, _, _, rfl⟩
  have hact : keyAct noon cmd cmd.key none = .put v ttlMs := by
    rw [keyAct_of_single _ _ _ hmulti, if_pos rfl, hplan, hput]
  exact changes_of_create hact

/-- HSET with a field that lacks its value is an error. -/
theorem inert_hset {cmd : Command} (hop : cmd.op = .hset ∨ cmd.op = .hsetnx)
    (hodd : cmd.args.length % 2 ≠ 0) : Inert c cmd := by
  refine inert_of_error ?_ fun env x => ⟨.invalidArgs cmd.op, ?_⟩
  · rcases hop with hop | hop <;> rw [hop] <;> rfl
  · have hplan : plan env cmd x = planHSet env cmd x := by
      rcases hop with hop | hop <;> simp only [plan, hop]
    rw [hplan, planHSet, if_pos hodd]

/-- The handler of HSET and the FSM refuse the same odd arguments; they differ on a key without
fields. -/
theorem hset_agrees :
    SameStores c (callCommand .hset args) (requestCommand (handleHSet srv (name :: args))) ↔
      2 ≤ args.length := by
  by_cases hserved : args.length < 3 ∨ args.length % 2 = 0
  · have hreq : requestCommand (handleHSet srv (name :: args)) = none := by
      have hlen : (name :: args).length < 4 ∨ (name :: args).length % 2 ≠ 0 := by
        simp only [List.length_cons]
        omega
      rw [handleHSet, if_pos hlen]
      rfl
    rw [hreq]
    have htail : (callCommand .hset args).args.length = args.length - 1 := List.length_tail
    by_cases hshort : 2 ≤ args.length
    · exact iff_of_true (inert_hset (.inl rfl) (by omega)).same hshort
    · exact iff_of_false (changes_hset (.inl rfl) (by omega)).not_same hshort
  · rcases args with _ | ⟨key, _ | ⟨field, rest⟩⟩
    · exact absurd (.inl (show 0 < 3 by decide)) hserved
    · exact absurd (.inl (show 1 < 3 by decide)) hserved
    · have hreq : requestCommand (handleHSet srv (name :: key :: field :: rest)) =
          some (callCommand .hset (key :: field :: rest)) := by
        have hargs : 2 ≤ (field :: rest).length ∧ (field :: rest).length % 2 = 0 := by
          simp only [List.length_cons] at hserved ⊢
          omega
        rw [handleHSet_eq srv name key hargs.1 hargs.2]
        rfl
      rw [hreq]
      exact iff_of_true (SameStores.of_ext fun _ _ _ => rfl) (by simp)

/-- HSETNX of a script may set several fields. -/
theorem hsetnx_agrees :
    SameStores c (callCommand .hsetnx args) (requestCommand (handleHSetNX srv (name :: args))) ↔
      (args.length = 3 ∨ 2 ≤ args.length ∧ args.length % 2 = 0) := by
  by_cases hlen : args.length = 3
  · obtain ⟨key, field, val, rfl⟩ := List.length_eq_three.mp hlen
    exact iff_of_true (SameStores.of_ext fun _ _ _ => rfl) (.inl rfl)
  · have hreq : requestCommand (handleHSetNX srv (name :: args)) = none :=
      fixed_refused srv name args (by omega)
    rw [hreq]
    have htail : (callCommand .hsetnx args).args.length = args.length - 1 := List.length_tail
    by_cases hgood : 2 ≤ args.length ∧ args.length % 2 = 0
    · exact iff_of_true (inert_hset (.inr rfl) (by omega)).same (.inr hgood)
    · refine iff_of_false (changes_hset (.inr rfl) (by omega)).not_same ?_
      rintro (h | h)
      · exact hlen h
      · exact hgood h

/-- A write with a key and at least one more argument agrees when it has them, if it would do
something without. -/
theorem variadic_agrees {op : Op} (h : ∀ key, Changes c { op := op, key := key }) :
    SameStores c (callCommand op args) (requestCommand (handleVariadic srv (name :: args) op)) ↔
      2 ≤ args.length := by
  by_cases hlen : 2 ≤ args.length
  · rw [variadic_command srv name args hlen]
    exact iff_of_true (SameStores.of_ext fun _ _ _ => rfl) hlen
  · rw [variadic_refused srv name args (by omega)]
    refine iff_of_false ?_ hlen
    match args, hlen with
    | [], _ => exact (h []).not_same
    | [key], _ => exact (h key).not_same
    | _ :: _ :: rest, hlen => exact absurd (by simp) hlen

end Hashes

/-! ## Writing back -/

section WriteBack

variable {c : Codec} (hc : c.Lawful) (key : Bytes)

include hc

theorem changes_hdel : Changes c { op := .hdel, key := key } := by
  let hash : GoMap := OrdMap.empty.insert [] []
  refine changes_of_rewrite hc (k := key) (v := .hash hash) rfl (.inl ⟨.hash hash, ?_⟩)
  rw [keyAct_of_single _ _ _ rfl, if_pos rfl]
  rfl

theorem changes_pushx {op : Op} (hop : op = .lpushx ∨ op = .rpushx) :
    Changes c { op := op, key := key } := by
  refine changes_of_rewrite hc (k := key) (v := .list [[]]) rfl (.inl ⟨.list [[]], ?_⟩)
  rcases hop with rfl | rfl
  · rw [keyAct_of_single _ _ _ rfl, if_pos rfl]
    rfl
  · rw [keyAct_of_single _ _ _ rfl, if_pos rfl]
    rfl

theorem changes_srem : Changes c { op := .srem, key := key } := by
  let set : GoSet := OrdMap.empty.insert [] ()
  refine changes_of_rewrite hc (k := key) (v := .set set) rfl (.inl ⟨.set set, ?_⟩)
  rw [keyAct_of_single _ _ _ rfl, if_pos rfl]
  rfl

omit hc

theorem changes_push {op : Op} (hop : op = .lpush ∨ op = .rpush) :
    Changes c { op := op, key := key } := by
  have hact : keyAct noon { op := op, key := key } key none = .put (.list []) 0 := by
    rcases hop with rfl | rfl
    · rw [keyAct_of_single _ _ _ rfl, if_pos rfl]
      rfl
    · rw [keyAct_of_single _ _ _ rfl, if_pos rfl]
      rfl
  exact changes_of_create hact

theorem changes_sadd : Changes c { op := .sadd, key := key } := by
  have hact : keyAct noon { op := .sadd, key := key } key none = .put (.set OrdMap.empty) 0 := by
    rw [keyAct_of_single _ _ _ rfl, if_pos rfl]
    rfl
  exact changes_of_create hact

end WriteBack

/-! ## Lists and sets -/

section Lists

variable {c : Codec} (srv : Server) (name : Bytes) (args : List Bytes)

/-- A list that is written back, or deleted. -/
theorem changes_of_putList (hc : c.Lawful) {cmd : Command} {r : Result} {list : List Bytes}
    (hmulti : cmd.op.multi = false)
    (h : plan noon cmd (some (.list [[]], 0)) = .ok (r, putList list 0)) : Changes c cmd := by
  refine changes_of_rewrite hc (k := cmd.key) (v := .list [[]]) rfl ?_
  rw [keyAct_of_single _ _ _ hmulti, if_pos rfl, h]
  unfold putList
  split_ifs
  · exact .inr rfl
  · exact .inl ⟨_, rfl⟩

theorem changes_of_putSet (hc : c.Lawful) {cmd : Command} {r : Result} {set : GoSet}
    (hmulti : cmd.op.multi = false)
    (h : plan noon cmd (some (.set (OrdMap.empty.insert [] ()), 0)) = .ok (r, putSet set 0)) :
    Changes c cmd := by
  refine changes_of_rewrite hc (k := cmd.key) (v := .set (OrdMap.empty.insert [] ())) rfl ?_
  rw [keyAct_of_single _ _ _ hmulti, if_pos rfl, h]
  unfold putSet
  split_ifs
  · exact .inr rfl
  · exact .inl ⟨_, rfl⟩

theorem changes_pop (hc : c.Lawful) {cmd : Command} {count : Nat}
    (hop : cmd.op = .lpop ∨ cmd.op = .rpop) (hcount : popCount cmd = .ok count) :
    Changes c cmd := by
  have hmulti : cmd.op.multi = false := by rcases hop with hop | hop <;> rw [hop] <;> rfl
  have hplan : plan noon cmd (some (.list [[]], 0)) = planPop noon cmd (some (.list [[]], 0)) := by
    rcases hop with hop | hop <;> simp only [plan, hop]
  have hput : planPop noon cmd (some (.list [[]], 0)) =
      .ok (popReply cmd (popList cmd.op (min count 1) [[]]).1,
        putList (popList cmd.op (min count 1) [[]]).2 0) := by
    unfold planPop
    rw [hcount]
    rfl
  exact changes_of_putList hc hmulti (hplan.trans hput)

/-- A pop with a bad count is an error and changes nothing. -/
theorem inert_pop {cmd : Command} {e : Err} (hop : cmd.op = .lpop ∨ cmd.op = .rpop)
    (hcount : popCount cmd = .error e) : Inert c cmd := by
  refine inert_of_keep fun env k x => ?_
  have hmulti : cmd.op.multi = false := by rcases hop with hop | hop <;> rw [hop] <;> rfl
  have hplan : plan env cmd x = planPop env cmd x := by
    rcases hop with hop | hop <;> simp only [plan, hop]
  rw [keyAct_of_single _ _ _ hmulti, hplan]
  split_ifs
  · unfold planPop
    cases readView env Value.asList x with
    | error e' => rfl
    | ok old =>
      dsimp only [bind, Except.bind]
      split_ifs
      · rfl
      · rw [hcount]
  · rfl

/-- The count of a call of LPOP or RPOP. -/
theorem popCount_call (op : Op) (key count : Bytes) (rest : List Bytes) :
    if isCount count then popCount (callCommand op (key :: count :: rest)) =
        .ok (parseInt count).1.toInt.toNat
    else ∃ e, popCount (callCommand op (key :: count :: rest)) = .error e := by
  have hcount : popCount (callCommand op (key :: count :: rest)) =
      (parseInteger count >>= fun parsed =>
        if parsed < 0 then .error .notInteger else .ok parsed.toInt.toNat) := rfl
  rw [hcount]
  unfold isCount isInteger parseInteger
  obtain ⟨n, parsed⟩ := parseInt count
  cases parsed with
  | false => exact ⟨_, rfl⟩
  | true =>
    by_cases hneg : n < 0
    · have hnot : ¬ 0 ≤ n := Int64.not_le.mpr hneg
      rw [if_neg (by simp [hnot])]
      exact ⟨.notInteger, if_pos hneg⟩
    · have hle : 0 ≤ n := Int64.not_lt.mp hneg
      rw [if_pos (by simp [hle])]
      exact if_neg hneg

/-- LPOP and RPOP. -/
theorem pop_agrees (hc : c.Lawful) {op : Op} (hop : op = .lpop ∨ op = .rpop) :
    SameStores c (callCommand op args) (requestCommand (handlePop srv (name :: args) op)) ↔
      Verb.agrees srv.upper args .lpop = true := by
  match args with
  | [] => exact iff_of_false (changes_pop hc hop rfl).not_same Bool.false_ne_true
  | [key] => exact iff_of_true (SameStores.of_ext fun _ _ _ => rfl) rfl
  | [key, count] => exact iff_of_true (SameStores.of_ext fun _ _ _ => rfl) rfl
  | key :: count :: a :: rest =>
    have hreq : requestCommand (handlePop srv (name :: key :: count :: a :: rest) op) = none := by
      have hlen : (name :: key :: count :: a :: rest).length ≠ 2 ∧
          (name :: key :: count :: a :: rest).length ≠ 3 := by
        simp only [List.length_cons]
        omega
      rw [handlePop, if_pos hlen]
      rfl
    have hagrees : Verb.agrees srv.upper (key :: count :: a :: rest) .lpop = !isCount count := rfl
    rw [hreq, hagrees]
    have hcount := popCount_call op key count (a :: rest)
    cases his : isCount count with
    | true =>
      rw [if_pos his] at hcount
      exact iff_of_false (changes_pop hc hop hcount).not_same Bool.false_ne_true
    | false =>
      rw [if_neg (by rw [his]; exact Bool.false_ne_true)] at hcount
      obtain ⟨e, he⟩ := hcount
      exact iff_of_true (inert_pop hop he).same rfl

/-- LTRIM and LREM on a list, with their two arguments. -/
theorem changes_trim (hc : c.Lawful) {op : Op} (hop : op = .ltrim ∨ op = .lrem) (key a b : Bytes)
    (rest : List Bytes) : Changes c (callCommand op (key :: a :: b :: rest)) := by
  rcases hop with rfl | rfl
  · exact changes_of_putList hc rfl rfl
  · exact changes_of_putList hc rfl rfl

/-- LTRIM and LREM without them. -/
theorem inert_trim {cmd : Command} (hop : cmd.op = .ltrim ∨ cmd.op = .lrem)
    (hargs : cmd.args.length < 2) :
    Inert c cmd := by
  have harg : cmd.arg 1 = .error .panic := by
    unfold Command.arg
    rw [List.getElem?_eq_none (by omega)]
  refine inert_of_error ?_ fun env x => ?_
  · rcases hop with hop | hop <;> rw [hop] <;> rfl
  · rcases hop with hop | hop
    · have hplan : plan env cmd x = planLTrim env cmd x := by simp only [plan, hop]
      rw [hplan]
      unfold planLTrim
      cases readView env Value.asList x with
      | error e => exact ⟨e, rfl⟩
      | ok old =>
        cases harg0 : cmd.arg 0 with
        | error e => exact ⟨e, rfl⟩
        | ok start =>
          rw [harg]
          exact ⟨.panic, rfl⟩
    · have hplan : plan env cmd x = planLRem env cmd x := by simp only [plan, hop]
      rw [hplan]
      unfold planLRem
      cases readView env Value.asList x with
      | error e => exact ⟨e, rfl⟩
      | ok old =>
        cases harg0 : cmd.arg 0 with
        | error e => exact ⟨e, rfl⟩
        | ok limit =>
          rw [harg]
          exact ⟨.panic, rfl⟩

/-- A number of arguments other than the three that LTRIM and LREM have. -/
theorem trim_agrees_of_length (hc : c.Lawful) {op : Op} (hop : op = .ltrim ∨ op = .lrem)
    (hlen : args.length ≠ 3) : SameStores c (callCommand op args) none ↔ args.length ≤ 2 := by
  by_cases hshort : args.length ≤ 2
  · refine iff_of_true (inert_trim hop ?_).same hshort
    show args.tail.length < 2
    rw [List.length_tail]
    omega
  · refine iff_of_false ?_ hshort
    match args, hshort with
    | key :: a :: b :: rest, _ => exact (changes_trim hc hop key a b rest).not_same
    | [_, _], hshort => exact absurd (Nat.le_refl 2) hshort
    | [_], hshort => exact absurd (show 1 ≤ 2 by decide) hshort
    | [], hshort => exact absurd (Nat.zero_le 2) hshort

/-- Other than three arguments are refused by the handler, so that the call must have too few to do
anything. -/
theorem agrees_of_length {verb : Verb} (hverb : verb = .ltrim ∨ verb = .lrem)
    (hlen : args.length ≠ 3) :
    Verb.agrees srv.upper args verb = true ↔ args.length ≤ 2 := by
  rcases hverb with rfl | rfl
  all_goals
    match args, hlen with
    | [], _ | [_], _ | [_, _], _ => simp [Verb.agrees]
    | [_, _, _], hlen => exact absurd rfl hlen
    | _ :: _ :: _ :: _ :: _, _ => simp [Verb.agrees]

/-- A handler of LTRIM or LREM builds the command of the call if it accepts the three arguments. -/
theorem trim_agrees (hc : c.Lawful) {op : Op} (hop : op = .ltrim ∨ op = .lrem) {verb : Verb}
    (hverb : verb = .ltrim ∨ verb = .lrem) {r : Except Err Action}
    (hthree : ∀ key a b, args = [key, a, b] → requestCommand r =
      if Verb.agrees srv.upper args verb then some (callCommand op args) else none)
    (hother : args.length ≠ 3 → requestCommand r = none) :
    SameStores c (callCommand op args) (requestCommand r) ↔
      Verb.agrees srv.upper args verb = true := by
  by_cases hlen : args.length = 3
  · obtain ⟨key, a, b, rfl⟩ := List.length_eq_three.mp hlen
    rw [hthree key a b rfl]
    split_ifs with hagrees
    · exact iff_of_true (SameStores.of_ext fun _ _ _ => rfl) hagrees
    · exact iff_of_false (changes_trim hc hop key a b []).not_same hagrees
  · rw [hother hlen, agrees_of_length srv args hverb hlen]
    exact trim_agrees_of_length args hc hop hlen

theorem ltrim_agrees (hc : c.Lawful) :
    SameStores c (callCommand .ltrim args) (requestCommand (handleLTrim srv (name :: args))) ↔
      Verb.agrees srv.upper args .ltrim = true := by
  refine trim_agrees srv args hc (.inl rfl) (.inl rfl) ?_ fun hlen => ?_
  · rintro key start stop rfl
    have hunfold : handleLTrim srv [name, key, start, stop] =
        if isInteger start = false then refuse (ascii "ERR value is not an integer")
        else if isInteger stop = false then refuse (ascii "ERR value is not an integer")
        else applyCommand srv { op := .ltrim, key := key, args := [start, stop] } := rfl
    have hagrees : Verb.agrees srv.upper [key, start, stop] .ltrim =
        (isInteger start && isInteger stop) := rfl
    rw [hunfold, hagrees]
    cases isInteger start <;> cases isInteger stop <;> rfl
  · have hlen' : (name :: args).length ≠ 4 := by simpa using hlen
    rw [handleLTrim, if_pos hlen']
    rfl

theorem lrem_agrees (hc : c.Lawful) :
    SameStores c (callCommand .lrem args) (requestCommand (handleLRem srv (name :: args))) ↔
      Verb.agrees srv.upper args .lrem = true := by
  refine trim_agrees srv args hc (.inr rfl) (.inr rfl) ?_ fun hlen => ?_
  · rintro key limit val rfl
    have hunfold : handleLRem srv [name, key, limit, val] =
        if isInteger limit = false then refuse (ascii "ERR value is not an integer")
        else applyCommand srv { op := .lrem, key := key, args := [limit, val] } := rfl
    have hagrees : Verb.agrees srv.upper [key, limit, val] .lrem = isInteger limit := rfl
    rw [hunfold, hagrees]
    cases isInteger limit <;> rfl
  · have hlen' : (name :: args).length ≠ 4 := by simpa using hlen
    rw [handleLRem, if_pos hlen']
    rfl

/-- SPOP writes back the set it pops from, or deletes it. -/
theorem changes_spop (hc : c.Lawful) {cmd : Command} (hop : cmd.op = .spop) : Changes c cmd := by
  have hmulti : cmd.op.multi = false := by rw [hop]; rfl
  obtain ⟨r, set, hput⟩ : ∃ r set, plan noon cmd (some (.set (OrdMap.empty.insert [] ()), 0)) =
      .ok (r, putSet set 0) := by
    have hplan : plan noon cmd (some (.set (OrdMap.empty.insert [] ()), 0)) =
        planSRem noon cmd (some (.set (OrdMap.empty.insert [] ()), 0)) := by simp only [plan, hop]
    have hnot : ¬ cmd.op = .srem := by rw [hop]; decide
    rw [hplan]
    unfold planSRem
    dsimp only [readView, Value.asSet, bind, Except.bind]
    rw [if_neg hnot]
    exact ⟨_, _, rfl⟩
  exact changes_of_putSet hc hmulti hput

theorem spop_agrees (hc : c.Lawful) :
    SameStores c (callCommand .spop args) (requestCommand (handleSPop srv (name :: args))) ↔
      Verb.agrees srv.upper args .spop = true := by
  match args with
  | [] => exact iff_of_false (changes_spop hc rfl).not_same Bool.false_ne_true
  | [key] => exact iff_of_true (SameStores.of_ext fun _ _ _ => rfl) rfl
  | [key, count] =>
    have hunfold : handleSPop srv [name, key, count] =
        if (parseInt count).2 = false ∨ (parseInt count).1 < 0 then
          refuse (ascii "ERR value is not an integer or out of range")
        else applyCommand srv { op := .spop, key := key, args := [count] } := rfl
    have hagrees : Verb.agrees srv.upper [key, count] .spop =
        ((parseInt count).2 && decide (0 ≤ (parseInt count).1)) := rfl
    rw [hunfold, hagrees]
    obtain ⟨n, parsed⟩ := parseInt count
    dsimp only
    by_cases hbad : parsed = false ∨ n < 0
    · rw [if_pos hbad]
      refine iff_of_false (changes_spop hc rfl).not_same ?_
      rcases hbad with rfl | hneg
      · exact Bool.false_ne_true
      · simp [Int64.not_le.mpr hneg]
    · rw [if_neg hbad]
      refine iff_of_true (SameStores.of_ext fun _ _ _ => rfl) ?_
      rw [not_or, Bool.not_eq_false, Int64.not_lt] at hbad
      simp [hbad.1, hbad.2]
  | key :: count :: a :: rest =>
    have hreq : requestCommand (handleSPop srv (name :: key :: count :: a :: rest)) = none := by
      have hlen : (name :: key :: count :: a :: rest).length ≠ 2 ∧
          (name :: key :: count :: a :: rest).length ≠ 3 := by
        simp only [List.length_cons]
        omega
      rw [handleSPop, if_pos hlen]
      rfl
    rw [hreq]
    exact iff_of_false (changes_spop hc rfl).not_same Bool.false_ne_true

end Lists

/-! ## Names -/

/-- The operation of a call: the command's name in upper case. -/
def Verb.callOp (verb : Verb) : Op :=
  Op.ofName (verb.name.map fun b => if 97 ≤ b ∧ b ≤ 122 then b - 32 else b)

/-! ## The two stores -/

section Stores

variable (vm : LuaVM) (c : Codec) (fuel : Nat) (env : Env) (db : DB)

/-- The store after a call of a write is that after its command. -/
theorem redisCallStore_eq {srv : Server} {name : Bytes} {verb : Verb} (args : List Bytes)
    (hname : name.all (· < 128) = true) (h : srv.verb? name = some verb)
    (hwrite : verb.isWrite = true) :
    redisCallStore vm c fuel env db (name :: args) =
      (applyCmd c env (callCommand verb.callOp args) db).2 := by
  have hupper : vm.toUpper name = verb.name.map fun b => if 97 ≤ b ∧ b ≤ 122 then b - 32 else b :=
    toUpper_of_verb vm.upper hname h
  -- none of the writes is a name that `luaRedisCall` or the parser singles out
  have hother : ∀ word ∈ [ascii "GET", ascii "EXISTS", ascii "TYPE", ascii "SET"],
      vm.toUpper name ≠ word := by
    rw [hupper]
    revert hwrite
    cases verb <;> decide
  have hscript : verb.callOp.script = false := by
    revert hwrite
    cases verb <;> decide
  have hparse : parseCommandForLua vm (vm.toUpper name) args =
      .ok (callCommand verb.callOp args) := by
    unfold parseCommandForLua
    rw [if_neg (hother _ (by simp)), hupper]
    rfl
  have happly : applyCmdInTxn vm c fuel (fun _ => env) (callCommand verb.callOp args) =
      applyData c env (callCommand verb.callOp args) := by
    have hnot : ¬ (callCommand verb.callOp args).op.script = true := by
      show ¬ verb.callOp.script = true
      rw [hscript]
      exact Bool.false_ne_true
    cases fuel <;> exact if_neg hnot
  have hcall : luaRedisCall vm env.clock.now (applyCmdInTxn vm c fuel fun _ => env) (name :: args) =
      (applyData c env (callCommand verb.callOp args) >>= fun res => pure (goToLuaValue res)) := by
    have hname : ¬ vm.Answers name := by
      rintro (h | h | h) <;> exact hother _ (by simp) h
    rw [luaRedisCall_command vm _ _ args hname, hparse, ← happly]
    rfl
  unfold redisCallStore applyCmd
  rw [hcall, Txn.run_bind]
  cases hrun : (applyData c env (callCommand verb.callOp args)).run db with
  | mk r db' =>
    cases r with
    | ok res => simp [Txn.atomically, hrun]
    | error e =>
      have hdb : db' = db := applyData_of_error c env _ db hrun
      simp [Txn.atomically, hrun, hdb]

/-- The command of a write is no script. -/
theorem write_noScript (srv : Server) (views : Nat → ReadView) (conn : Conn) (name : Bytes)
    (args : List Bytes) {verb : Verb} (hwrite : verb.isWrite = true) :
    Issues (fun cmd => cmd.op.script = false) (verb.handler srv views conn (name :: args)) := by
  by_cases hflush : verb = .flushdb
  · subst hflush
    apply Yields.issues
    exact handleFlushDB_yields srv (fun _ => trivial) rfl
  · have hdata : verb.isData = true := by
      revert hwrite hflush
      cases verb <;> decide
    intro cmd hcmd
    exact (handler_issues srv conn name args views hdata cmd hcmd).1

/-- The store after a request is that after its command, or as before if it was refused. -/
theorem requestStore_eq {srv : Server} (views : Nat → ReadView) (conn : Conn) {name : Bytes}
    {verb : Verb} (args : List Bytes) (h : srv.verb? name = some verb)
    (hwrite : verb.isWrite = true) :
    requestStore vm c fuel env db srv views conn (name :: args) =
      match requestCommand (verb.handler srv views conn (name :: args)) with
      | none => db
      | some cmd => (applyCmd c env cmd db).2 := by
  have hnoscript := write_noScript srv views conn name args hwrite
  unfold requestStore
  rw [serveRESP_of_verb srv views conn name args h]
  unfold Issues requestCommand at hnoscript
  unfold requestCommand
  cases hrun : verb.handler srv views conn (name :: args) with
  | error e => rfl
  | ok action =>
    rw [hrun] at hnoscript
    cases action with
    | write ws => rfl
    | client ws ctx => rfl
    | apply cmd reply =>
      dsimp only
      rw [fsmApply_of_not_script vm c (hnoscript cmd rfl)]

end Stores

/-! ## Every write -/

/-- For every write: the call and the request leave the same stores exactly for the arguments listed
in `Verb.agrees`. -/
theorem write_agrees {c : Codec} (hc : c.Lawful) (srv : Server) (views : Nat → ReadView)
    (conn : Conn) (name : Bytes) (args : List Bytes) {verb : Verb} (hwrite : verb.isWrite = true) :
    SameStores c (callCommand verb.callOp args)
      (requestCommand (verb.handler srv views conn (name :: args))) ↔
      verb.agrees srv.upper args = true := by
  have hvariadic : ∀ {op : Op}, (∀ key, Changes c { op := op, key := key }) →
      (SameStores c (callCommand op args) (requestCommand (handleVariadic srv (name :: args) op)) ↔
        decide (2 ≤ args.length) = true) :=
    fun h => (variadic_agrees srv name args h).trans decide_eq_true_iff.symm
  cases verb <;> try cases hwrite
  case del => exact del_agrees hc srv name args
  case unlink => exact unlink_agrees hc srv name args (ascii "UNLINK")
  case mset => exact mset_agrees srv name args
  case setex => exact setex_agrees srv name args (ascii "SETEX")
  case expire => exact expire_agrees srv name args
  case persist => exact persist_agrees srv name args
  case flushdb => exact flushdb_agrees srv name args
  case append => exact (append_agrees srv name args (.inr rfl)).trans decide_eq_true_iff.symm
  case getset => exact (append_agrees srv name args (.inl rfl)).trans decide_eq_true_iff.symm
  case incr => exact (incr_agrees srv name args (.inl rfl)).trans decide_eq_true_iff.symm
  case decr => exact (incr_agrees srv name args (.inr rfl)).trans decide_eq_true_iff.symm
  case incrby => exact incrby_agrees srv name args (.inl rfl)
  case decrby => exact incrby_agrees srv name args (.inr rfl)
  case hset => exact (hset_agrees srv name args).trans decide_eq_true_iff.symm
  case hsetnx =>
    have hagrees : Verb.agrees srv.upper args .hsetnx = true ↔
        (args.length = 3 ∨ 2 ≤ args.length ∧ args.length % 2 = 0) := by
      show (decide _ || (decide _ && decide _)) = true ↔ _
      simp only [Bool.or_eq_true, Bool.and_eq_true, decide_eq_true_eq]
    exact (hsetnx_agrees srv name args).trans hagrees.symm
  case hdel => exact hvariadic (changes_hdel hc)
  case lpush => exact hvariadic fun key => changes_push key (.inl rfl)
  case rpush => exact hvariadic fun key => changes_push key (.inr rfl)
  case lpushx => exact hvariadic fun key => changes_pushx hc key (.inl rfl)
  case rpushx => exact hvariadic fun key => changes_pushx hc key (.inr rfl)
  case lpop => exact pop_agrees srv name args hc (.inl rfl)
  case rpop => exact pop_agrees srv name args hc (.inr rfl)
  case ltrim => exact ltrim_agrees srv name args hc
  case lrem => exact lrem_agrees srv name args hc
  case sadd => exact hvariadic changes_sadd
  case srem => exact hvariadic (changes_srem hc)
  case spop => exact spop_agrees srv name args hc

/-- A call and a request of one write leave the same store, whatever the store and the clock were,
exactly when the arguments are of the kind that the rule of the calls gets right. -/
theorem call_agrees_with_request_iff (vm : LuaVM) {c : Codec} (hc : c.Lawful) (srv : Server)
    (views : Nat → ReadView) (conn : Conn) {name : Bytes} {verb : Verb} (args : List Bytes)
    (hname : name.all (· < 128) = true) (hverb : srv.verb? name = some verb)
    (hwrite : verb.isWrite = true) :
    (∀ fuel env db, redisCallStore vm c fuel env db (name :: args) =
        requestStore vm c fuel env db srv views conn (name :: args)) ↔
      verb.agrees srv.upper args = true := by
  rw [← write_agrees hc srv views conn name args hwrite]
  constructor
  · intro h env db
    have hsame := h 0 env db
    rw [redisCallStore_eq vm c 0 env db args hname hverb hwrite,
      requestStore_eq vm c 0 env db views conn args hverb hwrite] at hsame
    exact hsame
  · intro h fuel env db
    rw [redisCallStore_eq vm c fuel env db args hname hverb hwrite,
      requestStore_eq vm c fuel env db views conn args hverb hwrite]
    exact h env db

theorem rpush_call_agrees :
    asciiServer.verb? (ascii "RPush") = some .rpush ∧
      ∀ fuel env db, redisCallStore noScripts msgpack fuel env db
        [ascii "RPush", ascii "l", ascii "x"] =
        requestStore noScripts msgpack fuel env db asciiServer (viewOf OrdMap.empty) newConn
          [ascii "RPush", ascii "l", ascii "x"] := by
  have hverb : asciiServer.verb? (ascii "RPush") = some .rpush := by decide
  refine ⟨hverb, ?_⟩
  exact (call_agrees_with_request_iff noScripts msgpack_lawful asciiServer (viewOf OrdMap.empty)
    newConn
    [ascii "l", ascii "x"] (by decide) hverb rfl).mpr rfl

/-- `redis.call("DEL", "a", "b")` keeps `a`, which the request deletes. -/
theorem del_call_keeps_first_key :
    let db := storeAfter { op := .set, key := ascii "a", args := [ascii "1"] }
    let request := [ascii "DEL", ascii "a", ascii "b"]
    redisCallStore noScripts msgpack 0 (Env.at 1000000000000) db request ≠
      requestStore noScripts msgpack 0 (Env.at 1000000000000) db asciiServer (viewOf db) newConn
        request := by
  intro db request heq
  have hslot := congrArg (fun db => (Slot.of db (ascii "a")).user.isSome) heq
  revert hslot
  decide

end Badis
