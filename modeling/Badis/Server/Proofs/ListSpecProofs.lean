import Badis.Server.ListSpec
import Badis.Server.Proofs.SessionProofs

/-!
# Proofs: the list commands refine sequences

Each write by its plan on the view of a sequence, each read by what the store shows of it, and from
these one step (`listRequest_follows`) and every run (`lists_refine`).
-/

namespace Badis

open Lib

/-! ## Positions -/

/-- The elements of a list whose positions, counted from `n` on, are in a range. -/
theorem filter_zipIdx (l : List Bytes) (n lo hi : Nat) :
    ((l.zipIdx n).filter fun e => decide (lo ≤ e.2 ∧ e.2 < hi)).map Prod.fst =
      (l.take (hi - n)).drop (lo - n) := by
  induction l generalizing n with
  | nil => simp
  | cons x l ih =>
    rw [List.zipIdx_cons, List.filter_cons]
    by_cases hlo : lo ≤ n
    · by_cases hhi : n < hi
      · obtain ⟨j, hj⟩ : ∃ j, hi - n = j + 1 := ⟨hi - n - 1, by omega⟩
        have hdrop : lo - n = 0 := by omega
        have hdrop' : lo - (n + 1) = 0 := by omega
        have htake : hi - (n + 1) = j := by omega
        rw [if_pos (by simp [hlo, hhi]), List.map_cons, ih, hj, hdrop, hdrop', htake]
        rfl
      · have htake : hi - n = 0 := by omega
        have htake' : hi - (n + 1) = 0 := by omega
        rw [if_neg (by simp [hhi]), ih, htake, htake']
        simp
    · obtain ⟨j, hj⟩ : ∃ j, lo - n = j + 1 := ⟨lo - n - 1, by omega⟩
      have hdrop : lo - (n + 1) = j := by omega
      rw [if_neg (by simp [hlo]), ih, hj, hdrop]
      rcases hhi : hi - n with _ | i
      · have htake : hi - (n + 1) = 0 := by omega
        rw [htake]
        simp
      · have htake : hi - (n + 1) = i := by omega
        rw [htake]
        rfl

/-- A range is a `take` and a `drop`, once its ends are positions. -/
theorem elements_eq (l : List Bytes) (start stop : Int) :
    elements l start stop =
      (l.take (position l.length stop + 1).toNat).drop (position l.length start).toNat := by
  have hfilter : (fun e : Bytes × Nat =>
      decide (position l.length start ≤ e.2 ∧ (e.2 : Int) ≤ position l.length stop)) =
      fun e => decide ((position l.length start).toNat ≤ e.2 ∧
        e.2 < (position l.length stop + 1).toNat) := by
    funext e
    refine decide_eq_decide.mpr ?_
    omega
  unfold elements
  rw [hfilter, filter_zipIdx]
  rfl

/-- `sliceList` returns the elements at the positions. -/
theorem sliceList_eq_elements (l : List Bytes) (start stop : Int) :
    sliceList l start stop = elements l start stop := by
  rw [elements_eq]
  unfold sliceList position
  by_cases hnil : l = []
  · simp [hnil]
  have hlen : 0 < l.length := List.length_pos_iff.mpr hnil
  rw [if_neg hnil]
  dsimp only
  generalize hstart : (if start < 0 then (l.length : Int) + start else start) = a
  generalize hstop : (if stop < 0 then (l.length : Int) + stop else stop) = b
  by_cases hempty : (if a < 0 then 0 else a) > (if b ≥ l.length then (l.length : Int) - 1 else b) ∨
      (if a < 0 then 0 else a) ≥ l.length
  · rw [if_pos hempty]
    refine (List.drop_eq_nil_of_le ?_).symm
    rw [List.length_take]
    split_ifs at hempty <;> omega
  · rw [if_neg hempty]
    have hlo : (if a < 0 then 0 else a).toNat = a.toNat := by
      split_ifs <;> omega
    rw [hlo]
    congr 1
    by_cases hb : b ≥ l.length
    · rw [if_pos hb, List.take_of_length_le (by omega), List.take_of_length_le (by omega)]
    · rw [if_neg hb]

theorem elements_all (l : List Bytes) : elements l 0 (-1) = l := by
  rw [elements_eq]
  have hlo : (position l.length 0).toNat = 0 := rfl
  rw [hlo, List.drop_zero]
  refine List.take_of_length_le ?_
  unfold position
  split_ifs <;> omega

/-- The element at one position. -/
theorem head?_elements (l : List Bytes) (i : Int) :
    (elements l i i).head? =
      if position l.length i < 0 then none else l[(position l.length i).toNat]? := by
  rw [elements_eq]
  by_cases hneg : position l.length i < 0
  · have hzero : (position l.length i + 1).toNat = 0 := by omega
    rw [if_pos hneg, hzero]
    simp
  · have hsucc : (position l.length i + 1).toNat = (position l.length i).toNat + 1 := by omega
    rw [if_neg hneg, hsucc, List.head?_drop, List.getElem?_take_of_lt (Nat.lt_succ_self _)]

/-! ## Writes -/

section Writes

variable {c : Codec} (hc : c.Lawful) {start : Nat} (env : Env) {l : List Bytes}

theorem readView_listView : readView env Value.asList (listView l) =
    .ok (if l = [] then none else some (l, 0)) := readView_unless env rfl

theorem getD_listView :
    ((if l = [] then none else some (l, 0)) : Option (List Bytes × Int64)).getD ([], 0) = (l, 0) :=
  getD_unless fun hnil => by rw [hnil]

include hc in
/-- What is written is what the key shows from then on; an empty list is not written. -/
theorem shows_putList (s : Slot) : Shows c start (listView l) ((putList l 0).onSlot c env s) :=
  shows_putUnless hc env rfl s

/-- The operation of a push. -/
def pushOp (left ifPresent : Bool) : Op :=
  match left, ifPresent with
  | true, false => .lpush
  | false, false => .rpush
  | true, true => .lpushx
  | false, true => .rpushx

/-- A sequence after a push. -/
def pushed (left : Bool) (args l : List Bytes) : List Bytes :=
  if left then args.reverse ++ l else l ++ args

/-- The loop of the pushes adds one element at a time. -/
theorem pushLoop_eq (left : Bool) (args l : List Bytes) :
    pushLoop left args l = pushed left args l := by
  unfold pushLoop pushed
  induction args generalizing l with
  | nil => cases left <;> simp
  | cons a args ih =>
    rw [List.foldl_cons, ih]
    cases left <;> simp

/-- LPUSHX and RPUSHX do nothing without a list. -/
theorem planPush_listView (left ifPresent : Bool) (key : Bytes) (args : List Bytes) :
    plan env { op := pushOp left ifPresent, key := key, args := args } (listView l) =
      if ifPresent ∧ l = [] then .ok (.int 0, .keep)
      else .ok (.int (pushed left args l).length, .put (.list (pushed left args l)) 0) := by
  have hunfold : plan env { op := pushOp left ifPresent, key := key, args := args } (listView l) =
      planPush env { op := pushOp left ifPresent, key := key, args := args } (listView l) := by
    cases left <;> cases ifPresent <;> rfl
  have hx : (pushOp left ifPresent = .lpushx ∨ pushOp left ifPresent = .rpushx) ↔
      ifPresent = true := by
    cases left <;> cases ifPresent <;> decide
  have hleft : decide (pushOp left ifPresent = .lpush ∨ pushOp left ifPresent = .lpushx) =
      left := by
    cases left <;> cases ifPresent <;> decide
  have hnone : ((if l = [] then none else some (l, 0)) : Option (List Bytes × Int64)) = none ↔
      l = [] := by
    split_ifs with hnil <;> simp [hnil]
  rw [hunfold, planPush, readView_listView]
  simp only [bind, Except.bind, hx, hnone, getD_listView, hleft, pushLoop_eq]
  by_cases hboth : l = [] ∧ ifPresent = true
  · rw [if_pos hboth, if_pos hboth.symm]
    rfl
  · rw [if_neg hboth, if_neg (fun h => hboth h.symm)]
    rfl

/-- The operation of a pop. -/
def popOp (left : Bool) : Op := if left then .lpop else .rpop

/-- A pop takes elements from one end. -/
theorem popList_eq (left : Bool) (n : Nat) (l : List Bytes) :
    popList (popOp left) (min n l.length) l =
      ((fromEnd left l).take n, fromEnd left ((fromEnd left l).drop n)) := by
  have htake : ∀ k : List Bytes, k.length = l.length → k.take (min n l.length) = k.take n := by
    intro k hk
    rw [← hk, ← List.take_eq_take_min]
  cases left with
  | true =>
    show (l.take (min n l.length), l.drop (min n l.length)) = (l.take n, l.drop n)
    rw [htake l rfl, ← List.drop_eq_drop_min]
  | false =>
    show (l.reverse.take (min n l.length), l.take (l.length - min n l.length)) =
      (l.reverse.take n, (l.reverse.drop n).reverse)
    have hlen : l.length - min n l.length = l.length - n := by omega
    rw [htake l.reverse (List.length_reverse), List.drop_reverse, List.reverse_reverse, hlen]

theorem plan_pop (left : Bool) (key : Bytes) (args : List Bytes) (x : View) :
    plan env { op := popOp left, key := key, args := args } x =
      planPop env { op := popOp left, key := key, args := args } x := by
  cases left <;> rfl

theorem fromEnd_eq_nil_iff (left : Bool) : fromEnd left l = [] ↔ l = [] := by
  cases left <;> simp [fromEnd]

/-- LPOP and RPOP on a sequence that is not empty. -/
theorem planPop_listView (left : Bool) (key : Bytes) (args : List Bytes) {n : Nat} (hl : l ≠ [])
    (hcount : popCount { op := popOp left, key := key, args := args } = .ok n) :
    plan env { op := popOp left, key := key, args := args } (listView l) =
      .ok (popReply { op := popOp left, key := key, args := args } ((fromEnd left l).take n),
        putList (fromEnd left ((fromEnd left l).drop n)) 0) := by
  rw [plan_pop, planPop, readView_listView, if_neg hl]
  simp only [bind, Except.bind, Option.getD_some, if_neg hl, hcount, popList_eq]
  rfl

/-- LPOP and RPOP on a key that holds nothing. -/
theorem planPop_nil (left : Bool) (key : Bytes) (args : List Bytes) :
    plan env { op := popOp left, key := key, args := args } (listView []) = .ok (.nil, .keep) := by
  rw [plan_pop]
  rfl

/-- LTRIM keeps a range, and deletes the key if that is empty. -/
theorem planLTrim_listView (key : Bytes) (from_ to_ : Numeral) :
    plan env { op := .ltrim, key := key, args := [from_.text, to_.text] } (listView l) =
      .ok (.str (ascii "OK"), putList (elements l from_.value to_.value) 0) := by
  show planLTrim env { op := .ltrim, key := key, args := [from_.text, to_.text] } (listView l) = _
  rw [planLTrim, readView_listView]
  simp only [bind, Except.bind, getD_listView]
  show Except.ok
    (_, putList (sliceList l (parseInt from_.text).1.toInt (parseInt to_.text).1.toInt) 0) = _
  rw [sliceList_eq_elements]
  rfl

end Writes

/-! ## Reads -/

section Reads

variable {c : Codec} {t : Nat} {key : Bytes} {db : DB} {l : List Bytes}

theorem readList_listView (h : DB.view c t db key = listView l) :
    (readAs t key typeList c.decodeStrings).run db = (.ok (if l = [] then none else some l), db) :=
  readAs_unless c t key db (asList_reads c) rfl h

/-- LRANGE reads a range of positions. -/
theorem lRange_listView (h : DB.view c t db key = listView l) (from_ to_ : Int) :
    (lRange c t key from_ to_).run db = (.ok (elements l from_ to_), db) := by
  rw [lRange, Txn.run_bind_ok (readList_listView h), getD_unless id, sliceListChecked_eq,
    sliceList_eq_elements]
  rfl

theorem lLen_listView (h : DB.view c t db key = listView l) :
    (lLen c t key).run db = (.ok l.length, db) := by
  rw [lLen, Txn.run_bind_ok (lRange_listView h 0 (-1)), elements_all]
  rfl

/-- LINDEX reads the range of one position. -/
theorem lIndex_listView (h : DB.view c t db key = listView l) (i : Int) :
    (lIndex c t key i).run db = (.ok (elements l i i).head?, db) := by
  rw [lIndex, Txn.run_bind_ok (lRange_listView h 0 (-1)), elements_all, head?_elements]
  show ((if position l.length i < 0 ∨ (l.length : Int) ≤ position l.length i then pure none
    else (do let val ← goIndex l (position l.length i); return some val) :
      Tx (Option Bytes))).run db = _
  by_cases hneg : position l.length i < 0
  · rw [if_pos (.inl hneg), if_pos hneg]
    rfl
  · obtain ⟨j, hj⟩ := Int.eq_ofNat_of_zero_le (not_lt.mp hneg)
    rw [if_neg hneg, hj, Int.toNat_natCast]
    by_cases hlen : l.length ≤ j
    · rw [if_pos (.inr (by omega)), List.getElem?_eq_none hlen]
      rfl
    · have hlt : j < l.length := by omega
      rw [if_neg (by omega), goIndex_natCast (List.getElem?_eq_getElem hlt),
        List.getElem?_eq_getElem hlt]
      rfl

end Reads

/-! ## One request -/

section Step

variable (vm : LuaVM) (fuel : Nat) {srv : Server} (hc : srv.codec.Lawful) {start : Nat}
  {K : Bytes → Prop} {m : Bytes → List Bytes} {db : DB} {a : Arrival ListRequest}
  (hallowed : a.Allowed srv start K) (hR : HoldsLists srv.codec start K m db) {key : Bytes}

/-- The answer of the reference, and a store that holds its sequences. -/
abbrev GivesList (srv : Server) (start : Nat) (K : Bytes → Prop) (m : Bytes → List Bytes) (db : DB)
    (a : Arrival ListRequest) : Prop :=
  a.Gives vm fuel srv db (a.request.step m).1 (fun l => Shows srv.codec start (listView l)) K
    (a.request.step m).2

include hc hallowed hR

theorem push_gives {left ifPresent : Bool} {val : Bytes} {vals : List Bytes}
    (hreq : a.request = .push left ifPresent key val vals) :
    GivesList vm fuel srv start K m db a := by
  obtain ⟨request, name, conn, env, now, order⟩ := a
  obtain rfl : request = _ := hreq
  have hk : K key :=
    hallowed.keys key (by cases left <;> cases ifPresent <;> exact List.mem_cons_self)
  have hhandler : (Wire.verb (ListRequest.push left ifPresent key val vals)).handler srv
      (fun _ => ⟨db, now, order⟩) conn (name :: key :: val :: vals) =
      applyCommand srv { op := pushOp left ifPresent, key := key, args := val :: vals } := by
    cases left <;> cases ifPresent <;> exact handleVariadic_eq srv name key _ val vals
  have hmulti : (pushOp left ifPresent).multi = false := by cases left <;> cases ifPresent <;> rfl
  have hscript : (pushOp left ifPresent).script = false := by cases left <;> cases ifPresent <;> rfl
  have hplan := planPush_listView env (l := m key) left ifPresent key (val :: vals)
  rw [← hR key hk _ hallowed.applied] at hplan
  by_cases hskip : ifPresent = true ∧ m key = []
  · have hstep : ListRequest.step (.push left ifPresent key val vals) m = ([.int 0], m) :=
      if_pos hskip
    rw [if_pos hskip] at hplan
    have hheld := Held.of_plan hR hmulti hplan (x := m key) (hR key hk)
    rw [Function.update_eq_self] at hheld
    rw [GivesList, hstep]
    exact gives_command vm fuel hallowed.named hhandler hscript hheld
  · have hstep : ListRequest.step (.push left ifPresent key val vals) m =
        ([.int (pushed left (val :: vals) (m key)).length],
          Function.update m key (pushed left (val :: vals) (m key))) := if_neg hskip
    have hne : pushed left (val :: vals) (m key) ≠ [] := by cases left <;> simp [pushed]
    have hput : KeyAct.put (.list (pushed left (val :: vals) (m key))) 0 =
        putList (pushed left (val :: vals) (m key)) 0 := (if_neg hne).symm
    rw [if_neg hskip, hput] at hplan
    rw [GivesList, hstep]
    exact gives_command vm fuel hallowed.named hhandler hscript
      (Held.of_plan hR hmulti hplan (shows_putList hc env _))

/-- LPOP and RPOP, with or without a count. -/
theorem pop_gives {left : Bool} {args : List Bytes} {n : Nat}
    (hverb : Wire.verb a.request = (if left then .lpop else .rpop))
    (hargs : Wire.args a.request = key :: args) (hlen : args.length ≤ 1)
    (hcount : ∀ op, popCount { op := op, key := key, args := args } = .ok n) :
    a.Gives vm fuel srv db
      (applyReply srv.codecText (.applied (.ok (if m key = [] then .nil
        else popReply { op := popOp left, key := key, args := args }
          ((fromEnd left (m key)).take n)))))
      (fun l => Shows srv.codec start (listView l)) K
      (Function.update m key (fromEnd left ((fromEnd left (m key)).drop n))) := by
  have hk : K key := by
    refine hallowed.keys key ?_
    rw [hverb, hargs]
    cases left <;> exact List.mem_cons_self
  have hhandler : (Wire.verb a.request).handler srv (fun _ => ⟨db, a.now, a.order⟩) a.conn
      (a.name :: Wire.args a.request) =
        applyCommand srv { op := popOp left, key := key, args := args } := by
    rw [hverb, hargs]
    match args, hlen with
    | [], _ => cases left <;> rfl
    | [_], _ => cases left <;> rfl
  have hmulti : (popOp left).multi = false := by cases left <;> rfl
  have hscript : (popOp left).script = false := by cases left <;> rfl
  by_cases hnil : m key = []
  · have hplan := planPop_nil a.env left key args
    rw [← hnil, ← hR key hk _ hallowed.applied] at hplan
    have hheld := Held.of_plan hR hmulti hplan (x := m key) (hR key hk)
    have hsame : fromEnd left ((fromEnd left (m key)).drop n) = m key := by
      rw [hnil]
      cases left <;> simp [fromEnd]
    rw [if_pos hnil, hsame]
    exact gives_command vm fuel hallowed.named hhandler hscript hheld
  · have hplan := planPop_listView a.env left key args hnil (hcount _)
    rw [← hR key hk _ hallowed.applied] at hplan
    rw [if_neg hnil]
    exact gives_command vm fuel hallowed.named hhandler hscript
      (Held.of_plan hR hmulti hplan (shows_putList hc a.env _))

/-- LPOP and RPOP without a count answer with an element or null. -/
theorem popOne_gives {left : Bool} (hreq : a.request = .pop left key) :
    GivesList vm fuel srv start K m db a := by
  have hverb : Wire.verb a.request = (if left then .lpop else .rpop) := by
    rw [hreq]
    cases left <;> rfl
  have hargs : Wire.args a.request = [key] := by rw [hreq]; rfl
  have hgives := pop_gives vm fuel hc hallowed hR hverb hargs (by simp) (n := 1) fun _ => rfl
  rw [GivesList, hreq]
  rw [ListRequest.step]
  cases hl : fromEnd left (m key) with
  | nil =>
    have hnil : m key = [] := (fromEnd_eq_nil_iff left).mp hl
    rw [if_pos hnil, hl, List.drop_nil] at hgives
    have hsame : Function.update m key (fromEnd left []) = m := by
      rw [(fromEnd_eq_nil_iff left).mpr rfl, ← hnil, Function.update_eq_self]
    rwa [hsame] at hgives
  | cons x rest =>
    have hne : m key ≠ [] := fun hnil => by
      rw [(fromEnd_eq_nil_iff left).mpr hnil] at hl
      cases hl
    rwa [if_neg hne, hl] at hgives

/-- With a count they answer with an array, or null if there is no list. -/
theorem popCount_gives {left : Bool} {count : { n : Numeral // 0 ≤ n.value }}
    (hreq : a.request = .popCount left key count) : GivesList vm fuel srv start K m db a := by
  have hverb : Wire.verb a.request = (if left then .lpop else .rpop) := by
    rw [hreq]
    cases left <;> rfl
  have hargs : Wire.args a.request = [key, count.1.text] := by rw [hreq]; rfl
  have hcount : ∀ op, popCount { op := op, key := key, args := [count.1.text] } =
      .ok count.1.value.toNat := by
    intro op
    have hneg : ¬ (parseInt count.1.text).1 < 0 := by
      intro hlt
      exact absurd (Int64.lt_iff_toInt_lt.mp hlt) (not_lt.mpr count.2)
    simp only [popCount, count.1.parseInteger_eq, bind, Except.bind, if_neg hneg]
    rfl
  have hgives := pop_gives vm fuel hc hallowed hR hverb hargs (by simp) hcount
  rw [GivesList, hreq]
  rw [ListRequest.step]
  by_cases hnil : m key = []
  · rw [if_pos hnil] at hgives ⊢
    have hsame : Function.update m key
        (fromEnd left ((fromEnd left (m key)).drop count.1.value.toNat)) = m := by
      rw [hnil, (fromEnd_eq_nil_iff left).mpr rfl, List.drop_nil, (fromEnd_eq_nil_iff left).mpr rfl,
        ← hnil, Function.update_eq_self]
    rwa [hsame] at hgives
  · rwa [if_neg hnil] at hgives ⊢

theorem trim_gives {from_ to_ : Numeral} (hreq : a.request = .trim key from_ to_) :
    GivesList vm fuel srv start K m db a := by
  obtain ⟨request, name, conn, env, now, order⟩ := a
  obtain rfl : request = _ := hreq
  have hk : K key := hallowed.keys key List.mem_cons_self
  have hhandler : handleLTrim srv [name, key, from_.text, to_.text] =
      applyCommand srv { op := .ltrim, key := key, args := [from_.text, to_.text] } := by
    show (if (parseInt from_.text).2 = false then _ else if (parseInt to_.text).2 =
      false then _ else _) = _
    rw [from_.accepted, to_.accepted]
    rfl
  have hplan := planLTrim_listView env (l := m key) key from_ to_
  rw [← hR key hk _ hallowed.applied] at hplan
  exact gives_command vm fuel hallowed.named hhandler rfl
    (Held.of_plan hR rfl hplan (shows_putList hc env _))

omit hc in
/-- A read request answers from its own view and changes nothing. -/
theorem read_gives {ws : List Write} (hstep : a.request.step m = (ws, m))
    (hhandler : (Wire.verb a.request).handler srv (fun _ => ⟨db, a.now, a.order⟩) a.conn
      (a.name :: Wire.args a.request) =
        .ok (.write ws)) : GivesList vm fuel srv start K m db a := by
  rw [GivesList, hstep]
  exact gives_answer vm fuel hallowed.named hhandler hR

omit hc in
theorem listRead_gives
    (hreq : (∃ from_ to_, a.request = .range key from_ to_) ∨ a.request = .len key ∨
    ∃ i, a.request = .index key i) : GivesList vm fuel srv start K m db a := by
  obtain ⟨request, name, conn, env, now, order⟩ := a
  rcases hreq with ⟨from_, to_, h⟩ | h | ⟨i, h⟩
  all_goals
    obtain rfl : request = _ := h
    have hk : K key := hallowed.keys key List.mem_cons_self
    have hview : DB.view srv.codec now db key = listView (m key) := hR key hk _ hallowed.read
    refine read_gives vm fuel hallowed hR rfl ?_
  · show (if (parseInt from_.text).2 = false ∨ (parseInt to_.text).2 = false then _
      else answer srv
        ((lRange srv.codec now key (parseInt from_.text).1.toInt (parseInt to_.text).1.toInt).run
          db).1
        writeStrings) = _
    rw [from_.accepted, to_.accepted, lRange_listView hview]
    rfl
  · show answer srv ((lLen srv.codec now key).run db).1 writeNat = _
    rw [lLen_listView hview]
    rfl
  · show handleLIndex srv (fun _ => ⟨db, now, order⟩) [name, key, i.text] = _
    rw [handleLIndex_eq, i.parseInt_eq, if_neg Bool.false_ne_true.symm]
    show answer srv ((lIndex srv.codec now key i.value).run db).1 writeBulk = _
    rw [lIndex_listView hview]
    rfl

omit hc in
theorem listDel_gives {keys : List Bytes} (hreq : a.request = .del key keys) :
    GivesList vm fuel srv start K m db a := by
  obtain ⟨request, name, conn, env, now, order⟩ := a
  obtain rfl : request = _ := hreq
  have hpresent : ∀ x s, Shows srv.codec start (listView x) s →
      ((s.view srv.codec env.clock.now).isSome = true ↔ x ≠ []) := by
    intro x s hs
    rw [hs _ hallowed.applied, listView]
    split_ifs with hnil <;> simp [hnil]
  exact gives_command vm fuel hallowed.named (handleDel_eq srv name key keys) rfl
    (Held.del hR shows_nothing hpresent (List.cons_ne_nil _ _) hallowed.keys)

end Step

/-- A request on lists is answered as the reference answers it, and the store holds its
sequences. -/
theorem listRequest_follows (vm : LuaVM) (fuel : Nat) {srv : Server} (hc : srv.codec.Lawful)
    (start : Nat) (K : Bytes → Prop) :
    Follows (Arrival.Allowed srv start K) (fun _ _ => True) (Arrival.serve vm fuel srv)
      (Arrival.reference ListRequest.step) (HoldsLists srv.codec start K) where
  keeps a m db hallowed hR _ := by
    show GivesList vm fuel srv start K m db a
    cases hreq : a.request with
    | push left ifPresent key val vals => exact push_gives vm fuel hc hallowed hR hreq
    | pop left key => exact popOne_gives vm fuel hc hallowed hR hreq
    | popCount left key count => exact popCount_gives vm fuel hc hallowed hR hreq
    | trim key from_ to_ => exact trim_gives vm fuel hc hallowed hR hreq
    | range key from_ to_ => exact listRead_gives vm fuel hallowed hR (.inl ⟨_, _, hreq⟩)
    | len key => exact listRead_gives vm fuel hallowed hR (.inr (.inl hreq))
    | index key i => exact listRead_gives vm fuel hallowed hR (.inr (.inr ⟨_, hreq⟩))
    | del key keys => exact listDel_gives vm fuel hallowed hR hreq
  leaves _ _ _ _ _ hcond := absurd trivial hcond

/-- Every run of requests on lists is answered as the reference answers it, and leaves the keys
holding the sequences of the reference. -/
theorem lists_refine (vm : LuaVM) (fuel : Nat) {srv : Server} (hc : srv.codec.Lawful) {start : Nat}
    {K : Bytes → Prop} {m : Bytes → List Bytes} {db : DB}
    (hheld : HoldsLists srv.codec start K m db) {run : List (Arrival ListRequest)}
    (hrun : ∀ a ∈ run, a.Allowed srv start K) :
    (exec (Arrival.serve vm fuel srv) run db).1 =
      (exec (Arrival.reference ListRequest.step) run m).1 ∧
      HoldsLists srv.codec start K (exec (Arrival.reference ListRequest.step) run m).2
        (exec (Arrival.serve vm fuel srv) run db).2 :=
  (listRequest_follows vm fuel hc start K).run hrun hheld ((along_iff_forall run m).mpr fun _ _ =>
    trivial)

/-- `RPUSH l a b` and then `LRANGE l 0 -1` on an empty store. -/
theorem rpush_lrange_refines :
    (exec (Arrival.serve noScripts 0 asciiServer)
      [sampleArrival "RPUSH" (ListRequest.push false false (ascii "l") (ascii "a") [ascii "b"]),
        sampleArrival "LRANGE" (ListRequest.range (ascii "l") ⟨ascii "0", rfl⟩ ⟨ascii "-1", rfl⟩)]
      OrdMap.empty).1 =
      [.ok [.int 2], .ok [.array 2, .bulk (ascii "a"), .bulk (ascii "b")]] := by
  have hheld : HoldsLists msgpack 1000000000000 (fun _ => True) (fun _ => []) OrdMap.empty :=
    fun _ _ _ _ => rfl
  exact (lists_refine noScripts 0 msgpack_lawful hheld
    (List.forall_mem_cons.mpr ⟨sampleArrival_allowed rfl,
      List.forall_mem_cons.mpr ⟨sampleArrival_allowed rfl, List.forall_mem_nil _⟩⟩)).1

end Badis
