import Badis.Store.Checked

/-!
# The bounds checks never fail

With its indices written out, every case of the switch computes what the model without indices does
(`applyDataChecked_eq`): the only panics left are those of `Command.arg`, which the handlers
exclude.
-/

namespace Badis

open Lib

/-! ## Indices -/

theorem goIndex_natCast {α : Type} {l : List α} {i : Nat} {a : α} (h : l[i]? = some a) :
    goIndex l (i : Int) = .ok a := Slice.index_natCast _ h

theorem goIndex_of_range {α : Type} {l : List α} {i : Int} (h : 0 ≤ i ∧ i < l.length) :
    ∃ a, l[i.toNat]? = some a ∧ goIndex l i = .ok a := by
  have hlt : i.toNat < l.length := by omega
  have hget := List.getElem?_eq_getElem hlt
  refine ⟨_, hget, ?_⟩
  have hidx := goIndex_natCast hget
  rwa [Int.toNat_of_nonneg h.1] at hidx

/-- An index of the arguments panics where `Command.arg` does. -/
theorem goIndex_arg (cmd : Command) (i : Nat) : goIndex cmd.args (i : Int) = cmd.arg i := by
  simp only [goIndex, Slice.index, Int.natCast_nonneg, if_true, Int.toNat_natCast, Command.arg]
  cases cmd.args[i]? <;> rfl

/-- Two elements further on. -/
theorem goIndex_cons_cons {α : Type} (a b : α) (l : List α) (i : Nat) :
    goIndex (a :: b :: l) ((i + 2 : Nat) : Int) = goIndex l (i : Int) := by
  simp only [goIndex, Slice.index, Int.natCast_nonneg, if_true, Int.toNat_natCast]
  rfl

/-- Elements counted from the end. -/
theorem goIndex_reverse {α : Type} {l : List α} {j : Nat} {a : α} (h : l.reverse[j]? = some a) :
    goIndex l ((l.length : Int) - 1 - j) = .ok a := by
  have hj : j < l.length := by
    have hlt := (List.getElem?_eq_some_iff.mp h).1
    simpa using hlt
  have hcast : (l.length : Int) - 1 - j = ((l.length - 1 - j : Nat) : Int) := by omega
  rw [hcast]
  refine goIndex_natCast ?_
  rw [← h, List.getElem?_reverse hj]

/-! ## Loops over pairs -/

theorem rounds_cons_cons {α : Type} (a b : α) (l : List α) :
    List.range (((a :: b :: l).length + 1) / 2) =
      0 :: (List.range ((l.length + 1) / 2)).map (· + 1) := by
  have hrounds : ((a :: b :: l).length + 1) / 2 = (l.length + 1) / 2 + 1 := by
    simp only [List.length_cons]
    omega
  rw [hrounds, List.range_succ_eq_map]

/-- With pairs only, every index of the loop of MSET is within the bounds. -/
theorem msetLoopChecked_eq (env : Env) {args : List Bytes} (h : args.length % 2 = 0) :
    msetLoopChecked env args = msetLoop env args := by
  induction args using msetLoop.induct with
  | case1 k v rest ih =>
    have hrest : rest.length % 2 = 0 := by
      simp only [List.length_cons] at h
      omega
    rw [msetLoop, ← ih hrest]
    unfold msetLoopChecked
    rw [rounds_cons_cons, List.foldlM_cons]
    have hkey : ∀ j : Nat, goIndex (k :: v :: rest) (2 * (j + 1) : Nat) =
        goIndex rest (2 * j : Nat) :=
      fun j => goIndex_cons_cons k v rest (2 * j)
    have hval : ∀ j : Nat,
        goIndex (k :: v :: rest) (2 * (j + 1) + 1 : Nat) = goIndex rest (2 * j + 1 : Nat) :=
      fun j => goIndex_cons_cons k v rest (2 * j + 1)
    simp only [List.foldlM_map, hkey, hval]
    rfl
  | case2 args hargs =>
    cases args with
    | nil => rfl
    | cons a rest =>
      cases rest with
      | nil => cases h
      | cons b rest => exact absurd rfl (hargs a b rest)

/-- With pairs only, every index of the loop of HSET is within the bounds. -/
theorem hsetRounds_eq (nx : Bool) {args : List Bytes} (h : args.length % 2 = 0) (hash : GoMap)
    (count : Nat) :
    (List.range ((args.length + 1) / 2)).foldlM (hsetRound nx args) (hash, count) =
      .ok (hsetLoop nx args hash count) := by
  induction args using msetLoop.induct generalizing hash count with
  | case1 field val rest ih =>
    have hrest : rest.length % 2 = 0 := by
      simp only [List.length_cons] at h
      omega
    have hround : ∀ s j, hsetRound nx (field :: val :: rest) s (j + 1) = hsetRound nx rest s j := by
      intro s j
      have hkey := goIndex_cons_cons field val rest (2 * j)
      have hval := goIndex_cons_cons field val rest (2 * j + 1)
      unfold hsetRound
      rw [show 2 * (j + 1) = 2 * j + 2 by omega, show 2 * j + 2 + 1 =
        2 * j + 1 + 2 by omega, hkey, hval]
    have hfirst : hsetRound nx (field :: val :: rest) (hash, count) 0 =
        .ok (if nx && hash.contains field then (hash, count)
          else (hash.insert field val, if hash.contains field then count else count + 1)) := by
      have hkey : goIndex (field :: val :: rest) (2 * 0 : Nat) = .ok field := rfl
      have hval : goIndex (field :: val :: rest) (2 * 0 + 1 : Nat) = .ok val := rfl
      simp only [hsetRound, hkey, hval]
      dsimp only [bind, Except.bind]
      split_ifs <;> rfl
    rw [rounds_cons_cons, List.foldlM_cons, hfirst, hsetLoop]
    simp only [List.foldlM_map, hround]
    dsimp only [bind, Except.bind]
    split_ifs <;> exact ih hrest _ _
  | case2 args hargs =>
    cases args with
    | nil => rfl
    | cons a rest =>
      cases rest with
      | nil => cases h
      | cons b rest => exact absurd rfl (hargs a b rest)

/-! ## Lists -/

theorem map_getD_range {α : Type} {l : List α} {count : Nat} (h : count ≤ l.length) (d : α) :
    (List.range count).map (fun i => l.getD i d) = l.take count := by
  refine List.ext_getElem (by simp [h]) fun i hi hi' => ?_
  have hlt : i < l.length := by
    rw [List.length_take] at hi'
    omega
  simp [List.getD_eq_getElem?_getD, List.getElem?_eq_getElem hlt]

/-- The loop of RPOP fills the reply with the last elements, the last one first. -/
theorem popBackLoop_eq {count : Nat} {list : List Bytes} (h : count ≤ list.length) :
    (List.range count).foldlM (fun popped (i : Nat) => do
        let v ← goIndex list ((list.length : Int) - 1 - i)
        Slice.update Err.panic popped (i : Int) v) (List.replicate count []) =
          .ok (list.reverse.take count) := by
  have hget : ∀ i, i < count → goIndex list ((list.length : Int) - 1 - i) =
      .ok (list.reverse.getD i []) := by
    intro i hi
    refine goIndex_reverse ?_
    rw [List.getD_eq_getElem?_getD, List.getElem?_eq_getElem (by simp; omega)]
    rfl
  rw [← map_getD_range (by simpa using h) []]
  exact Slice.fill_range hget []

/-- A count that has been limited by the length keeps the pops within the bounds. -/
theorem popListChecked_eq (op : Op) {count : Nat} {list : List Bytes} (h : count ≤ list.length) :
    popListChecked op count list = .ok (popList op count list) := by
  have hmake : Slice.make Err.panic (max maxStrings list.length) ([] : Bytes) (count : Int) =
      .ok (List.replicate count []) :=
        Slice.make_natCast Err.panic [] (h.trans (Nat.le_max_right _ _))
  have hfront : ∀ n ≤ list.length, Slice.slice Err.panic list 0 (n : Int) = .ok (list.take n) :=
    fun n hn => Slice.slice_natCast Err.panic (Nat.zero_le n) hn
  unfold popListChecked popList
  rw [hmake]
  dsimp only [bind, Except.bind]
  split_ifs
  · have hrest : Slice.slice Err.panic list (count : Int) (list.length : Int) =
        .ok ((list.take list.length).drop count) := Slice.slice_natCast Err.panic h le_rfl
    rw [hfront count h, hrest]
    have hcopy : (list.take count).take (List.replicate count ([] : Bytes)).length ++
        (List.replicate count ([] : Bytes)).drop (list.take count).length = list.take count := by
      simp [Nat.min_eq_left h, List.take_take]
    simp only [hcopy, List.take_length]
    rfl
  · have hcast : (list.length : Int) - count = ((list.length - count : Nat) : Int) := by omega
    have hfill := popBackLoop_eq h
    dsimp only [bind, Except.bind] at hfill
    rw [hcast, hfront _ (Nat.sub_le _ _), hfill]
    rfl

/-- Without a count argument something has been popped. -/
theorem popReplyChecked_eq (cmd : Command) {popped : List Bytes} (h : cmd.args = [] → popped ≠ []) :
    popReplyChecked cmd popped = .ok (popReply cmd popped) := by
  unfold popReplyChecked popReply
  cases hargs : cmd.args with
  | cons arg rest => rfl
  | nil =>
    cases popped with
    | nil => exact absurd rfl (h hargs)
    | cons a rest => rfl

/-- `sliceList` clamps its ends before it slices. -/
theorem sliceListChecked_eq (list : List Bytes) (start stop : Int) :
    sliceListChecked list start stop = .ok (sliceList list start stop) := by
  unfold sliceListChecked sliceList
  dsimp only
  -- after the clamping `0 ≤ start` and `stop < len(list)`, in every branch
  split_ifs <;> first | rfl | (refine Slice.slice_eq_ok Err.panic ?_; omega)

theorem lremLoopChecked_eq (limit : Int64) (needle : Bytes) (list : List Bytes) :
    lremLoopChecked limit needle list = .ok (lremLoop limit needle list) := by
  unfold lremLoopChecked
  split_ifs with hlimit
  · rfl
  · unfold lremLoop
    rw [if_neg hlimit]
    -- after `i` rounds the loop has seen the last `i` elements
    have hrun : ∃ s, (List.range list.length).foldlM (lremRound limit needle list) ([], 0) = .ok s ∧
        s = (list.reverse.take list.length).foldl (fun (s : List Bytes × Nat) v =>
          if v = needle ∧ (s.2 : Int) < (-limit).toInt then (s.1, s.2 + 1)
          else (v :: s.1, s.2)) ([], 0) := by
      refine Slice.foldlM_range_ok (fun i s => s = (list.reverse.take i).foldl
        (fun (s : List Bytes × Nat) v =>
          if v = needle ∧ (s.2 : Int) < (-limit).toInt then (s.1, s.2 + 1) else (v :: s.1, s.2))
        ([], 0)) rfl ?_
      rintro i s hi rfl
      refine ⟨_, ?_, rfl⟩
      have hlt : i < list.reverse.length := by simpa using hi
      have hget := goIndex_reverse (List.getElem?_eq_getElem hlt)
      simp only [lremRound, hget, List.take_add_one, List.getElem?_eq_getElem hlt,
        Option.toList_some, List.foldl_append, List.foldl_cons, List.foldl_nil]
      dsimp only [bind, Except.bind]
      split_ifs <;> rfl
    obtain ⟨s, hs, hinv⟩ := hrun
    rw [hs, hinv, List.take_of_length_le (by simp)]

theorem spopReplyChecked_eq (cmd : Command) (popped : List Bytes) :
    spopReplyChecked cmd popped = .ok (spopReply cmd popped) := by
  unfold spopReplyChecked spopReply
  cases cmd.args with
  | cons arg rest => rfl
  | nil => cases popped <;> rfl

/-! ## The switch -/

section Switch

variable (c : Codec) (env : Env) {cmd : Command}

theorem applyMSetChecked_eq : applyMSetChecked env cmd = applyMSet env cmd := by
  unfold applyMSetChecked applyMSet
  split_ifs with hargs
  · rfl
  · rw [msetLoopChecked_eq env (not_not.mp hargs)]

theorem applyHSetChecked_eq : applyHSetChecked c env cmd = applyHSet c env cmd := by
  unfold applyHSetChecked applyHSet
  split_ifs with hargs
  · rfl
  · refine congrArg _ (funext fun old => ?_)
    dsimp only
    rw [hsetLoopChecked, hsetRounds_eq _ (not_not.mp hargs)]
    rfl

/-- A pop from a list that is not empty has an element to answer with, unless it is to take none. -/
theorem popList_fst_ne_nil {op : Op} {count : Nat} {list : List Bytes} (hlist : list ≠ [])
    (hcount : 0 < count) : (popList op count list).1 ≠ [] := by
  have hlen : 0 < list.length := List.length_pos_iff.mpr hlist
  unfold popList
  rw [← List.length_pos_iff]
  split_ifs
  · simp only [List.length_take]
    omega
  · simp only [List.length_take, List.length_reverse]
    omega

/-- What LPOP and RPOP do once the count is known, which is positive when none was given. -/
theorem popRest_eq {list : List Bytes} (hlist : list ≠ []) (ttlMs : Int64) {count : Nat}
    (hcount : cmd.args = [] → 0 < count) :
    (do
      let x ← popListChecked cmd.op (min count list.length) list
      writeList c env cmd.key x.2 ttlMs
      popReplyChecked cmd x.1 : Tx Result) =
    (do
      let x := popList cmd.op (min count list.length) list
      writeList c env cmd.key x.2 ttlMs
      return popReply cmd x.1) := by
  have hlen : 0 < list.length := List.length_pos_iff.mpr hlist
  have hpopped : cmd.args = [] → (popList cmd.op (min count list.length) list).1 ≠ [] := by
    intro hargs
    have hpos := hcount hargs
    exact popList_fst_ne_nil hlist (by omega)
  rw [popListChecked_eq cmd.op (Nat.min_le_right count list.length)]
  generalize popList cmd.op (min count list.length) list = x at hpopped ⊢
  obtain ⟨popped, rest⟩ := x
  show (writeList c env cmd.key rest ttlMs >>= fun _ => (popReplyChecked cmd popped : Tx Result)) =
    _
  rw [popReplyChecked_eq cmd hpopped]
  rfl

theorem applyPopChecked_eq : applyPopChecked c env cmd = applyPop c env cmd := by
  unfold applyPopChecked applyPop
  refine congrArg _ (funext fun old => ?_)
  dsimp only
  split_ifs with hnil
  · rfl
  · cases hargs : cmd.args with
    | nil =>
      have hcount : popCount cmd = .ok 1 := by
        unfold popCount
        rw [hargs]
      rw [hcount]
      exact popRest_eq c env hnil old.2 fun _ => Nat.one_pos
    | cons arg rest =>
      refine congrArg _ (funext fun count => popRest_eq c env hnil old.2 fun h => ?_)
      rw [hargs] at h
      cases h

theorem applyLTrimChecked_eq : applyLTrimChecked c env cmd = applyLTrim c env cmd := by
  have h0 : goIndex cmd.args 0 = cmd.arg 0 := goIndex_arg cmd 0
  have h1 : goIndex cmd.args 1 = cmd.arg 1 := goIndex_arg cmd 1
  unfold applyLTrimChecked applyLTrim
  simp only [h0, h1, sliceListChecked_eq]
  rfl

theorem applyLRemChecked_eq : applyLRemChecked c env cmd = applyLRem c env cmd := by
  have h0 : goIndex cmd.args 0 = cmd.arg 0 := goIndex_arg cmd 0
  have h1 : goIndex cmd.args 1 = cmd.arg 1 := goIndex_arg cmd 1
  unfold applyLRemChecked applyLRem
  simp only [h0, h1, lremLoopChecked_eq]
  rfl

theorem applySRemChecked_eq : applySRemChecked c env cmd = applySRem c env cmd := by
  unfold applySRemChecked applySRem
  refine congrArg _ (funext fun old => ?_)
  cases old with
  | none =>
    dsimp only
    split_ifs
    · rw [spopReplyChecked_eq]
      rfl
    · rfl
  | some x =>
    dsimp only
    split_ifs <;> first | rfl | (simp only [spopReplyChecked_eq]; rfl)

/-- The checks of the switch never fail. -/
theorem applyDataChecked_eq (cmd : Command) : applyDataChecked c env cmd = applyData c env cmd := by
  unfold applyDataChecked
  cases hop : cmd.op <;> try rfl
  case mset => simpa only [applyData, hop] using applyMSetChecked_eq env
  case hset => simpa only [applyData, hop] using applyHSetChecked_eq c env
  case hsetnx => simpa only [applyData, hop] using applyHSetChecked_eq c env
  case lpop => simpa only [applyData, hop] using applyPopChecked_eq c env
  case rpop => simpa only [applyData, hop] using applyPopChecked_eq c env
  case ltrim => simpa only [applyData, hop] using applyLTrimChecked_eq c env
  case lrem => simpa only [applyData, hop] using applyLRemChecked_eq c env
  case srem => simpa only [applyData, hop] using applySRemChecked_eq c env
  case spop => simpa only [applyData, hop] using applySRemChecked_eq c env

/-- So nothing is lost by leaving the checks out of the model. -/
theorem fsmApplyChecked_eq (vm : LuaVM) (fuel : Nat) (envs : List Nat → Env) (cmd : Command)
    (db : DB) :
    fsmApplyChecked vm c fuel envs cmd db = fsmApply vm c fuel envs cmd db := by
  unfold fsmApplyChecked
  cases hscript : cmd.op.script with
  | true => rfl
  | false =>
    rw [fsmApply_of_not_script vm c hscript, applyDataChecked_eq]
    rfl

end Switch

end Badis
