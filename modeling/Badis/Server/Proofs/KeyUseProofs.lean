import Badis.Server.Cluster
import Badis.Server.Proofs.HandlerProofs
import Badis.Server.Proofs.ReplyProofs
import Badis.Store.Proofs.CommuteProofs

/-!
# What a request reads and writes

The reads of the FSM look at the entries of the keys they are given, and nothing else
(`Txn.Congruent (DB.SameOn keys)`); the command of a write touches the keys that the request names.
So a request uses no key but those it names.
-/

namespace Badis

open Lib

/-! ## The reads -/

/-- The databases have the same entries under these keys. -/
def DB.SameOn (keys : List Bytes) (db db' : DB) : Prop := ∀ k ∈ keys, Slot.of db k = Slot.of db' k

/-- A transaction that looks at these keys alone. -/
abbrev LooksAt {α : Type} (keys : List Bytes) (m : Tx α) : Prop := Txn.Congruent (DB.SameOn keys) m

section Reads

variable {keys : List Bytes} {key : Bytes} (hkey : key ∈ keys) (t : Nat)

include hkey

theorem txnGet_user_looksAt : LooksAt keys (txnGet t (userKey key)) :=
  Txn.congruent_reads fun db db' h => by
    have huser : db.get? (userKey key) = db'.get? (userKey key) := congrArg Slot.user (h key hkey)
    show (db.get? (userKey key)).filter _ = (db'.get? (userKey key)).filter _
    rw [huser]

theorem txnGet_type_looksAt : LooksAt keys (txnGet t (typeKey key)) :=
  Txn.congruent_reads fun db db' h => by
    have htype : db.get? (typeKey key) = db'.get? (typeKey key) := congrArg Slot.type (h key hkey)
    show (db.get? (typeKey key)).filter _ = (db'.get? (typeKey key)).filter _
    rw [htype]

/-- The type test looks at the type entry of its key. -/
theorem ensureExistingType_looksAt (want : Bytes) :
    LooksAt keys (ensureExistingType t key want) := by
  unfold ensureExistingType getExistingType
  refine .bind (.bind (txnGet_type_looksAt hkey t) fun item => ?_) fun typ => ?_
  · cases item with
    | none => exact Txn.congruent_pure _
    | some item => exact Txn.congruent_pure _
  · split_ifs
    · exact Txn.congruent_pure _
    · exact Txn.congruent_throw _

theorem getString_looksAt : LooksAt keys (getString t key) := by
  refine .bind (txnGet_user_looksAt hkey t) fun item => ?_
  cases item with
  | none => exact Txn.congruent_pure _
  | some item => exact .bind (ensureExistingType_looksAt hkey t _) fun _ => Txn.congruent_pure _

theorem fsmType_looksAt : LooksAt keys (fsmType t key) := by
  refine .bind (txnGet_user_looksAt hkey t) fun item => ?_
  cases item with
  | none => exact Txn.congruent_pure _
  | some item =>
    refine .bind (txnGet_type_looksAt hkey t) fun typ => ?_
    cases typ with
    | none => exact Txn.congruent_pure _
    | some typ => exact Txn.congruent_pure _

/-- TTL and PTTL look at the user entry of their key. -/
theorem timeToLive_looksAt (unit : Int → Int) : LooksAt keys (timeToLive unit t key) := by
  refine .bind (txnGet_user_looksAt hkey t) fun item => ?_
  cases item with
  | none => exact Txn.congruent_pure _
  | some item =>
    by_cases hperm : item.expiresAt = 0
    · simp only [if_pos hperm]
      exact Txn.congruent_pure _
    · simp only [if_neg hperm]
      exact Txn.congruent_pure _

theorem strLen_looksAt : LooksAt keys (strLen t key) :=
  .bind (getString_looksAt hkey t) fun _ => Txn.congruent_pure _

/-- The reads of aggregates look at the two entries of their key. -/
theorem readAs_looksAt {α : Type} (want : Bytes) (decode : Bytes → Option α) :
    LooksAt keys (readAs t key want decode) := by
  refine .bind (txnGet_user_looksAt hkey t) fun item => ?_
  cases item with
  | none => exact Txn.congruent_pure _
  | some item =>
    refine .bind (ensureExistingType_looksAt hkey t _) fun _ => ?_
    cases decode item.value with
    | none => exact Txn.congruent_throw _
    | some a => exact Txn.congruent_pure _

variable (c : Codec)

theorem hGetAll_looksAt : LooksAt keys (hGetAll c t key) :=
  .bind (readAs_looksAt hkey t _ _) fun _ => Txn.congruent_pure _

theorem lRange_looksAt (start stop : Int) : LooksAt keys (lRange c t key start stop) :=
  .bind (readAs_looksAt hkey t _ _) fun _ => Txn.congruent_lift _

theorem lIndex_looksAt (index : Int) : LooksAt keys (lIndex c t key index) := by
  refine .bind (lRange_looksAt hkey t c _ _) fun list => ?_
  dsimp only
  split_ifs
  all_goals
    first
    | exact Txn.congruent_pure _
    | exact .bind (Txn.congruent_lift _) fun _ => Txn.congruent_pure _

theorem sMembers_looksAt : LooksAt keys (sMembers c t key) :=
  .bind (readAs_looksAt hkey t _ _) fun _ => Txn.congruent_pure _

theorem sRandMember_looksAt (count : Option Int64) : LooksAt keys (sRandMember c t key count) := by
  refine .bind (sMembers_looksAt hkey t c) fun members => ?_
  cases count with
  | none => exact Txn.congruent_pure _
  | some count =>
    dsimp only
    split_ifs
    · exact Txn.congruent_pure _
    · exact Txn.congruent_lift _
    · exact Txn.congruent_pure _
    · exact Txn.congruent_lift _

theorem sIsMember_looksAt (member : Bytes) : LooksAt keys (sIsMember c t key member) :=
  .bind (readAs_looksAt hkey t _ _) fun _ => Txn.congruent_pure _

omit hkey

/-- The loop of MGET looks at the keys in its list. -/
theorem getStrings_looksAt {wanted : List Bytes} (h : wanted ⊆ keys) :
    LooksAt keys (getStrings t wanted) := by
  induction wanted with
  | nil => exact Txn.congruent_pure _
  | cons key rest ih =>
    rw [List.cons_subset] at h
    refine .bind (txnGet_user_looksAt h.1 t) fun _ => ?_
    exact .bind (ih h.2) fun _ => Txn.congruent_pure _

/-- The loop of EXISTS looks at the keys in its list. -/
theorem existsLoop_looksAt {wanted : List Bytes} (h : wanted ⊆ keys) (count : Nat) :
    LooksAt keys (existsLoop t wanted count) := by
  induction wanted generalizing count with
  | nil => exact Txn.congruent_pure _
  | cons key rest ih =>
    rw [List.cons_subset] at h
    refine .bind (txnGet_user_looksAt h.1 t) fun item => ?_
    cases item with
    | none => exact ih h.2 count
    | some item => exact ih h.2 (count + 1)

end Reads

/-! ## The handlers -/

/-- The views have the same entries under these keys. -/
structure ReadView.SameOn (keys : List Bytes) (v v' : ReadView) : Prop where
  now : v.now = v'.now
  order : v.order = v'.order
  db : DB.SameOn keys v.db v'.db

/-- Two continuations need to agree only on what the first computation returns. -/
theorem bind_congr_ok {α β : Type} {m : Except Err α} {f g : α → Except Err β}
    (h : ∀ a, m = .ok a → f a = g a) : (m >>= f) = (m >>= g) := by
  cases m with
  | error e => rfl
  | ok a => exact h a rfl

section Handlers

variable {keys : List Bytes} {views views' : Nat → ReadView} (srv : Server) (args : List Bytes)
variable (hviews : ∀ i, (views i).SameOn keys (views' i))
variable (hkey : ∀ key, goIndex args 1 = .ok key → key ∈ keys)

include hviews

/-- A read that looks only at `keys` returns the same in two views that agree on them. -/
theorem readFirst_same {α : Type} {m : Nat → Tx α} (hm : ∀ t, LooksAt keys (m t)) :
    readFirst views m = readFirst views' m := by
  unfold readFirst
  rw [(hviews 0).now]
  exact (hm _ _ _ (hviews 0).db).1

include hkey

/-- So a handler of one key gives the same reply in both. -/
theorem handleKeyRead_same {α : Type} {m m' : Bytes → Nat → Tx α} {ok ok' : α → List Write}
    (hm : ∀ key ∈ keys, ∀ t, LooksAt keys (m key t)) (hm' : m = m') (hok : ok = ok') :
    handleKeyRead srv views args m ok = handleKeyRead srv views' args m' ok' := by
  subst hm' hok
  unfold handleKeyRead
  split_ifs
  · rfl
  · refine bind_congr_ok fun key hget => ?_
    rw [readFirst_same hviews (hm key (hkey key hget))]

theorem handleFieldRead_same {α : Type} {m : Bytes → Bytes → Nat → Tx α} {ok : α → List Write}
    (hm : ∀ key ∈ keys, ∀ field t, LooksAt keys (m key field t)) :
    handleFieldRead srv views args m ok = handleFieldRead srv views' args m ok := by
  unfold handleFieldRead
  split_ifs
  · rfl
  · refine bind_congr_ok fun key hget => bind_congr_ok fun field _ => ?_
    rw [readFirst_same hviews (hm key (hkey key hget) field)]

theorem handleGet_same (codecText : Bytes) :
    handleGet codecText (views 0).now args (views 0).db =
      handleGet codecText (views' 0).now args (views' 0).db := by
  rw [(hviews 0).now]
  unfold handleGet
  split
  · rename_i name key
    have hmem : key ∈ keys := hkey key rfl
    rw [(getString_looksAt hmem _ _ _ (hviews 0).db).1]
  · rfl

theorem handleHMGet_same : handleHMGet srv views args = handleHMGet srv views' args := by
  unfold handleHMGet
  split_ifs
  · rfl
  · refine bind_congr_ok fun fields _ => bind_congr_ok fun key hget => ?_
    have hm : ∀ t, LooksAt keys (hMGet srv.codec t key fields) := fun t =>
      .bind (hGetAll_looksAt (hkey key hget) t srv.codec) fun _ => Txn.congruent_pure _
    rw [readFirst_same hviews hm]

theorem handleLRange_same : handleLRange srv views args = handleLRange srv views' args := by
  unfold handleLRange
  split_ifs
  · rfl
  · refine bind_congr_ok fun start _ => bind_congr_ok fun stop _ => ?_
    dsimp only
    split_ifs
    · rfl
    · refine bind_congr_ok fun key hget => ?_
      rw [readFirst_same hviews fun t => lRange_looksAt (hkey key hget) t srv.codec _ _]

theorem handleLIndex_same : handleLIndex srv views args = handleLIndex srv views' args := by
  unfold handleLIndex
  split_ifs
  · rfl
  · refine bind_congr_ok fun index _ => ?_
    rcases parseInt index with ⟨n, _ | _⟩
    · rfl
    · refine bind_congr_ok fun key hget => ?_
      rw [readFirst_same hviews fun t => lIndex_looksAt (hkey key hget) t srv.codec _]

theorem handleSRandMember_same :
    handleSRandMember srv views args = handleSRandMember srv views' args := by
  unfold handleSRandMember
  split_ifs
  · refine bind_congr_ok fun count _ => ?_
    rcases parseInt count with ⟨n, _ | _⟩
    · rfl
    · refine bind_congr_ok fun key hget => ?_
      rw [readFirst_same hviews fun t => sRandMember_looksAt (hkey key hget) t srv.codec _]
  · exact handleKeyRead_same srv args hviews hkey
      (fun key hmem t => sRandMember_looksAt hmem t srv.codec none) rfl rfl

/-- Every round of SMISMEMBER reads in a view of its own, at the same key. -/
theorem isMemberLoop_same (rounds i : Nat) :
    isMemberLoop srv views args rounds i = isMemberLoop srv views' args rounds i := by
  induction rounds generalizing i with
  | zero => rfl
  | succ rounds ih =>
    unfold isMemberLoop
    refine bind_congr_ok fun key hget => bind_congr_ok fun member _ => ?_
    have hview := hviews (i - 2)
    have hmember :=
      (sIsMember_looksAt (hkey key hget) (views' (i - 2)).now srv.codec member _ _ hview.db).1
    dsimp only
    rw [hview.now, hmember, ih]

theorem handleSMIsMember_same :
    handleSMIsMember srv views args = handleSMIsMember srv views' args := by
  unfold handleSMIsMember
  rw [isMemberLoop_same srv args hviews hkey]

end Handlers

section Requests

variable (srv : Server) (conn : Conn) (name : Bytes) (args : List Bytes)

/-- The key of a handler is the first argument after the name. -/
theorem first_arg_mem {key : Bytes} (h : goIndex (name :: args) 1 = .ok key) :
    key ∈ args.take 1 := by
  cases args with
  | nil => cases h
  | cons key' rest =>
    have hkey : key' = key := Except.ok.inj h
    rw [hkey]
    exact List.mem_cons_self

theorem argsFrom_one : argsFrom (name :: args) 1 = .ok args := argsFrom_eq (name :: args) (by simp)

/-- MGET gives the same reply in views that agree on its arguments. -/
theorem handleMGet_same {views views' : Nat → ReadView}
    (hviews : ∀ i, (views i).SameOn args (views' i)) :
    handleMGet srv views (name :: args) = handleMGet srv views' (name :: args) := by
  unfold handleMGet
  split_ifs
  · rfl
  · rw [argsFrom_one]
    refine bind_congr_ok fun keys hkeys => ?_
    cases hkeys
    rw [readFirst_same hviews fun t => getStrings_looksAt t (List.Subset.refl args)]

theorem handleCount_same {views views' : Nat → ReadView}
    (hviews : ∀ i, (views i).SameOn args (views' i)) :
    handleCount srv views (name :: args) = handleCount srv views' (name :: args) := by
  unfold handleCount
  split_ifs
  · rfl
  · rw [argsFrom_one]
    refine bind_congr_ok fun keys hkeys => ?_
    cases hkeys
    have hm : ∀ t, LooksAt args (fsmExists t args) := fun t =>
      existsLoop_looksAt t (List.Subset.refl args) 0
    rw [readFirst_same hviews hm]

/-- A handler of a command that names keys sees their entries and nothing else. -/
theorem handler_same {views views' : Nat → ReadView} {verb : Verb} (hdata : verb.isData = true)
    (hviews : ∀ i, (views i).SameOn (verb.namedKeys args) (views' i)) :
    verb.handler srv views conn (name :: args) = verb.handler srv views' conn (name :: args) := by
  have hfirst : ∀ key, goIndex (name :: args) 1 = .ok key → key ∈ args.take 1 :=
    fun key h => first_arg_mem name args h
  cases verb <;> cases hdata
  case set =>
    show handleSet srv views _ = handleSet srv views' _
    unfold handleSet
    rw [(hviews 0).now]
  case get =>
    show Except.ok (Action.write _) = Except.ok (Action.write _)
    rw [handleGet_same (name :: args) hviews hfirst]
  case mget => exact handleMGet_same srv name args hviews
  case existsKeys => exact handleCount_same srv name args hviews
  case touch => exact handleCount_same srv name args hviews
  case type =>
    exact handleKeyRead_same srv _ hviews hfirst (fun key hmem t => fsmType_looksAt hmem t) rfl rfl
  case pttl =>
    exact handleKeyRead_same srv _ hviews hfirst (fun key hmem t => timeToLive_looksAt hmem t _) rfl
      rfl
  case ttl =>
    exact handleKeyRead_same srv _ hviews hfirst (fun key hmem t => timeToLive_looksAt hmem t _) rfl
      rfl
  case strlen =>
    exact handleKeyRead_same srv _ hviews hfirst (fun key hmem t => strLen_looksAt hmem t) rfl rfl
  case hget =>
    exact handleFieldRead_same srv _ hviews hfirst fun key hmem field t =>
      .bind (readAs_looksAt hmem t _ _) fun _ => Txn.congruent_pure _
  case hexists =>
    exact handleFieldRead_same srv _ hviews hfirst fun key hmem field t =>
      .bind (hGetAll_looksAt hmem t srv.codec) fun _ => Txn.congruent_pure _
  case sismember =>
    exact handleFieldRead_same srv _ hviews hfirst fun key hmem member t =>
      sIsMember_looksAt hmem t srv.codec member
  case hgetall =>
    refine handleKeyRead_same srv _ hviews hfirst (fun key hmem t =>
      hGetAll_looksAt hmem t srv.codec) rfl ?_
    rw [(hviews 0).order]
  case hlen =>
    exact handleKeyRead_same srv _ hviews hfirst (fun key hmem t =>
      .bind (hGetAll_looksAt hmem t srv.codec) fun _ => Txn.congruent_pure _) rfl rfl
  case hkeys =>
    refine handleKeyRead_same srv _ hviews hfirst (fun key hmem t =>
      .bind (hGetAll_looksAt hmem t srv.codec) fun _ => Txn.congruent_pure _) ?_ rfl
    rw [(hviews 0).order]
  case hvals =>
    refine handleKeyRead_same srv _ hviews hfirst (fun key hmem t =>
      .bind (hGetAll_looksAt hmem t srv.codec) fun _ => Txn.congruent_pure _) ?_ rfl
    rw [(hviews 0).order]
  case hmget => exact handleHMGet_same srv _ hviews hfirst
  case lrange => exact handleLRange_same srv _ hviews hfirst
  case llen =>
    exact handleKeyRead_same srv _ hviews hfirst (fun key hmem t =>
      .bind (lRange_looksAt hmem t srv.codec _ _) fun _ => Txn.congruent_pure _) rfl rfl
  case lindex => exact handleLIndex_same srv _ hviews hfirst
  case smembers =>
    exact handleKeyRead_same srv _ hviews hfirst (fun key hmem t =>
      sMembers_looksAt hmem t srv.codec)
      rfl rfl
  case scard =>
    exact handleKeyRead_same srv _ hviews hfirst (fun key hmem t =>
      .bind (sMembers_looksAt hmem t srv.codec) fun _ => Txn.congruent_pure _) rfl rfl
  case srandmember => exact handleSRandMember_same srv _ hviews hfirst
  case smismember => exact handleSMIsMember_same srv _ hviews hfirst
  -- the handlers of the writes do not look at the store
  all_goals rfl

/-! ## The commands -/

/-- The command is no script, and touches these keys alone. -/
def Command.Within (keys : List Bytes) (cmd : Command) : Prop :=
  cmd.op.script = false ∧ ∀ k, cmd.touches k = true → k ∈ keys

/-- A command on one key stays within a list of keys that has it. -/
theorem within_of_key {keys : List Bytes} {cmd : Command} (hscript : cmd.op.script = false)
    (hmulti : cmd.op.multi = false) (hkey : cmd.key ∈ keys) : cmd.Within keys := by
  refine ⟨hscript, fun k hk => ?_⟩
  have heq : cmd.key = k := by
    unfold Command.touches at hk
    cases hop : cmd.op <;> rw [hop] at hk hmulti
    all_goals
      first
      | exact of_decide_eq_true hk
      | cases hmulti
  rw [← heq]
  exact hkey

/-- A key that MSET has a value for is one of its keys. -/
theorem mem_msetKeys {k : Bytes} {args : List Bytes} (h : (msetValue k args).isSome = true) :
    k ∈ msetKeys args := by
  induction args using msetKeys.induct with
  | case1 k' v rest ih =>
    rw [msetKeys, List.mem_cons]
    by_cases heq : k' = k
    · exact .inl heq.symm
    · rw [msetValue, if_neg heq] at h
      exact .inr (ih (by simpa using h))
  | case2 args hne =>
    rcases args with _ | ⟨k', _ | ⟨v, rest⟩⟩
    · cases h
    · cases h
    · exact absurd rfl (hne k' v rest)

/-- The command of a request touches the keys that the request names. -/
theorem handler_issues (views : Nat → ReadView) {verb : Verb} (hdata : verb.isData = true) :
    Issues (Command.Within (verb.namedKeys args)) (verb.handler srv views conn (name :: args)) := by
  have hrefuse :
      ∀ msg, Action.Issues (Command.Within (verb.namedKeys args)) (.write [.error msg]) :=
    fun _ => trivial
  have hkey : ∀ key, goIndex (name :: args) 1 = .ok key → key ∈ args.take 1 :=
    fun key h => first_arg_mem name args h
  have hwithin : ∀ cmd : Command, cmd.op.script = false → cmd.op.multi = false →
      goIndex (name :: args) 1 = .ok cmd.key → cmd.Within (args.take 1) :=
    fun cmd hscript hmulti hget => within_of_key hscript hmulti (hkey cmd.key hget)
  apply Yields.issues
  cases verb <;> cases hdata
  case set =>
    refine handleSet_yields srv views hrefuse fun key cmd hget hop hcmd => hwithin cmd ?_ ?_ ?_
    · rw [hop]
      rfl
    · rw [hop]
      rfl
    · rw [hcmd]
      exact hget
  case get => exact yields_ok trivial
  case del | unlink =>
    refine handleDel_yields srv hrefuse fun keys hkeys => ⟨rfl, fun k hk => ?_⟩
    rw [argsFrom_one] at hkeys
    cases hkeys
    simpa [Command.touches, Verb.namedKeys] using hk
  case mset =>
    refine handleMSet_yields srv hrefuse fun pairs hpairs => ⟨rfl, fun k hk => ?_⟩
    rw [argsFrom_one] at hpairs
    cases hpairs
    exact mem_msetKeys (Bool.and_eq_true_iff.mp hk).2
  case setex => exact handleSetEx_yields srv hrefuse fun _ _ _ hget => hwithin _ rfl rfl hget
  case expire => exact handleExpire_yields srv hrefuse fun _ _ hget => hwithin _ rfl rfl hget
  case hset => exact handleHSet_yields srv hrefuse fun _ _ hget _ => hwithin _ rfl rfl hget
  case ltrim => exact handleLTrim_yields srv hrefuse fun _ _ hget => hwithin _ rfl rfl hget
  case lrem => exact handleLRem_yields srv hrefuse fun _ _ hget => hwithin _ rfl rfl hget
  case spop => exact handleSPop_yields srv hrefuse fun _ _ hget => hwithin _ rfl rfl hget
  case mget => exact handleMGet_yields srv views _ hrefuse fun _ => trivial
  case existsKeys | touch => exact handleCount_yields srv views _ hrefuse fun _ => trivial
  case hmget => exact handleHMGet_yields srv views _ hrefuse fun _ => trivial
  case lrange => exact handleLRange_yields srv views _ hrefuse fun _ => trivial
  case lindex => exact handleLIndex_yields srv views _ hrefuse fun _ => trivial
  case srandmember =>
    exact handleSRandMember_yields srv views _ hrefuse (fun _ => trivial) fun _ => trivial
  case smismember => exact handleSMIsMember_yields srv views _ hrefuse fun _ _ _ => trivial
  all_goals
    first
    | exact handleFixed_yields srv hrefuse (by decide) fun _ _ hget _ => hwithin _ rfl rfl hget
    | exact handleVariadic_yields srv hrefuse fun _ _ hget _ => hwithin _ rfl rfl hget
    | exact handlePop_yields srv hrefuse fun _ _ hget => hwithin _ rfl rfl hget
    | exact handleKeyRead_yields srv views _ hrefuse _ fun _ => trivial
    | exact handleFieldRead_yields srv views _ hrefuse _ fun _ => trivial

end Requests

/-! ## The use of a key -/

theorem Slot.of_eq_of_sameExcept {k j : Bytes} {db db' : DB} (h : DB.SameExcept k db db')
    (hne : j ≠ k) :
    Slot.of db j = Slot.of db' j := by
  have huser : db.get? (userKey j) = db'.get? (userKey j) := by
    apply h
    · intro heq
      exact hne (userKey_inj.mp heq)
    · exact userKey_ne_typeKey j k
  have htype : db.get? (typeKey j) = db'.get? (typeKey j) := by
    apply h
    · exact (userKey_ne_typeKey k j).symm
    · intro heq
      exact hne (typeKey_inj.mp heq)
  show Slot.mk _ _ = Slot.mk _ _
  rw [huser, htype]

/-- What an applied command does is what the request does. -/
theorem serveNode_of_command (vm : LuaVM) {srv : Server} {views : Nat → ReadView} {conn : Conn}
    {args : List Bytes} {cmd : Command} {reply : Outcome → List Write}
    (h : serveRESP srv views conn args = .ok (.apply cmd reply)) (hscript : cmd.op.script = false)
    (fuel : Nat) (envs : List Nat → Env) (db : DB) :
    serveNode vm fuel envs srv views conn args db =
      (.ok (reply (.applied (applyCmd srv.codec (envs []) cmd db).1)),
        (applyCmd srv.codec (envs []) cmd db).2) := by
  unfold serveNode
  rw [h]
  dsimp only
  rw [fsmApply_of_not_script vm srv.codec hscript]

section Use

variable (vm : LuaVM) (fuel : Nat) (envs : List Nat → Env) {srv : Server} {name : Bytes}
  (args : List Bytes)
variable (conn : Conn) {verb : Verb} (hverb : srv.verb? name = some verb)
  (hdata : verb.isData = true)

include hverb hdata

/-- A key that is not named keeps its entries. -/
theorem serveNode_keeps (views : Nat → ReadView) (db : DB) {k : Bytes}
    (hk : k ∉ verb.namedKeys args) :
    Slot.of (serveNode vm fuel envs srv views conn (name :: args) db).2 k = Slot.of db k := by
  have hissues := handler_issues srv conn name args views hdata
  unfold serveNode
  rw [serveRESP_of_verb srv views conn name args hverb]
  cases hrun : verb.handler srv views conn (name :: args) with
  | error e => rfl
  | ok action =>
    rw [hrun] at hissues
    cases action with
    | write ws => rfl
    | client ws ctx => rfl
    | apply cmd reply =>
      obtain ⟨hscript, htouches⟩ := hissues cmd rfl
      have hnot : cmd.touches k = false := by
        rw [Bool.eq_false_iff]
        exact fun htouch => hk (htouches k htouch)
      dsimp only
      rw [fsmApply_of_not_script vm srv.codec hscript]
      exact slot_of_not_touches srv.codec hnot (envs []) db

/-- Stores that agree on the named keys give the same reply, and agree afterwards where they
agreed. -/
theorem serveNode_same {views views' : Nat → ReadView} {db db' : DB}
    (hviews : ∀ i, (views i).SameOn (verb.namedKeys args) (views' i))
    (hdb : DB.SameOn (verb.namedKeys args) db db') :
    (serveNode vm fuel envs srv views conn (name :: args) db).1 =
        (serveNode vm fuel envs srv views' conn (name :: args) db').1 ∧
      ∀ j, Slot.of db j = Slot.of db' j →
        Slot.of (serveNode vm fuel envs srv views conn (name :: args) db).2 j =
          Slot.of (serveNode vm fuel envs srv views' conn (name :: args) db').2 j := by
  have hissues := handler_issues srv conn name args views' hdata
  unfold serveNode
  rw [serveRESP_of_verb srv views conn name args hverb,
    serveRESP_of_verb srv views' conn name args hverb, handler_same srv conn name args hdata hviews]
  cases hrun : verb.handler srv views' conn (name :: args) with
  | error e => exact ⟨rfl, fun _ h => h⟩
  | ok action =>
    rw [hrun] at hissues
    cases action with
    | write ws => exact ⟨rfl, fun _ h => h⟩
    | client ws ctx => exact ⟨rfl, fun _ h => h⟩
    | apply cmd reply =>
      obtain ⟨hscript, htouches⟩ := hissues cmd rfl
      dsimp only
      rw [fsmApply_of_not_script vm srv.codec hscript, fsmApply_of_not_script vm srv.codec hscript]
      constructor
      · have hreply : (applyCmd srv.codec (envs []) cmd db).1 =
            (applyCmd srv.codec (envs []) cmd db').1 := by
          rw [reply_applyCmd, reply_applyCmd]
          refine reply_congr (fun k hk => ?_) (envs [])
          rw [DB.view, DB.view, hdb k (htouches k hk)]
        rw [hreply]
      · intro j hj
        rw [slot_applyCmd, slot_applyCmd, DB.view, DB.view, hj]

/-- A request uses the keys it names, and no other. -/
theorem named_of_uses {k : Bytes}
    (h : WritesKey vm srv (name :: args) k ∨ ReadsKey vm srv (name :: args) k) :
    k ∈ verb.namedKeys args := by
  by_contra hk
  have hsame : ∀ {db db' : DB}, DB.SameExcept k db db' →
      DB.SameOn (verb.namedKeys args) db db' := by
    intro db db' hdb j hj
    refine Slot.of_eq_of_sameExcept hdb ?_
    rintro rfl
    exact hk hj
  rcases h with ⟨fuel, envs, views, conn, db, hne⟩ |
    ⟨fuel, envs, views, views', conn, db, db', hviews, hdb, hne⟩
  · exact hne (serveNode_keeps vm fuel envs args conn hverb hdata views db hk)
  · have hviews' : ∀ i, (views i).SameOn (verb.namedKeys args) (views' i) := fun i =>
      ⟨(hviews i).now, (hviews i).order, hsame (hviews i).db⟩
    obtain ⟨hreply, hslots⟩ := serveNode_same vm fuel envs args conn hverb hdata hviews' (hsame hdb)
    rcases hne with hne | ⟨j, hj, hne⟩
    · exact hne hreply
    · exact hne (hslots j (Slot.of_eq_of_sameExcept hdb hj))

end Use

end Badis
