import Badis.Server.Proofs.HandlerProofs
import Badis.Server.Proofs.ReplyProofs
import Badis.Server.Proxy

/-!
# A proxied reply

No handler writes an array inside an array (`serveRESP_flat`), and a reply tells its value. So what
a client reads of a reply that came from another node can be compared with what that node wrote,
value by value: nulls, integers, strings and arrays of them come through, an error does when its
text starts with `ERR`, and an error inside an array becomes a string.
-/

namespace Badis

open Lib

/-! ## Flat replies -/

/-- After the first call every call is a whole value. -/
def Flat (ws : List Write) : Prop := ∀ w ∈ ws.tail, w.single = true

/-- The replies of an action are flat, whatever comes of its command. -/
def Action.RepliesFlat (a : Action) : Prop := ∀ o, Flat (a.replies o)

theorem flat_single (w : Write) : Flat [w] := by
  intro w' hw'
  cases hw'

/-- A header with single values behind it is flat. -/
theorem flat_map {α : Type} (n : Nat) {l : List α} {f : α → Write} (h : ∀ a, (f a).single = true) :
    Flat (.array n :: l.map f) := by
  intro w hw
  obtain ⟨a, -, rfl⟩ := List.mem_map.mp hw
  exact h a

theorem flat_writeStrings (l : List Bytes) : Flat (writeStrings l) := flat_map _ fun _ => rfl

theorem flat_writeBulks (l : List (Option Bytes)) : Flat (writeBulks l) := by
  refine flat_map _ fun b => ?_
  cases b <;> rfl

theorem flat_writeBulk (b : Option Bytes) : Flat (writeBulk b) := by
  cases b <;> exact flat_single _

/-- So is the reply of HGETALL. -/
theorem flat_entries (n : Nat) (l : List (Bytes × Bytes)) :
    Flat (.array n :: l.flatMap fun entry => [.bulk entry.1, .bulk entry.2]) := by
  intro w hw
  obtain ⟨entry, -, hentry⟩ := List.mem_flatMap.mp hw
  rcases List.mem_pair.mp hentry with rfl | rfl
  · rfl
  · rfl

/-- No result of a command is written as a nested array. -/
theorem flat_applyReply (codecText : Bytes) (o : Outcome) : Flat (applyReply codecText o) := by
  unfold applyReply
  split
  case h_8 l => exact flat_writeStrings l
  all_goals exact flat_single _

theorem flat_handleSetReply (codecText : Bytes) (c : Command) (r : Except Err Result) :
    Flat (handleSetReply codecText c r) := by
  unfold handleSetReply
  split
  · exact flat_single _
  · exact flat_single _
  · split_ifs
    · split <;> exact flat_single _
    · exact flat_single _

theorem flat_setOutcome (codecText : Bytes) (c : Command) (o : Outcome) :
    Flat (setOutcome codecText c o) := by
  cases o with
  | raftError text => exact flat_single _
  | applied r => exact flat_handleSetReply codecText c r

theorem flat_handleGet (codecText : Bytes) (t : Nat) (args : List Bytes) (db : DB) :
    Flat (handleGet codecText t args db) := by
  unfold handleGet
  split
  · split <;> exact flat_single _
  · exact flat_single _

section Handlers

variable (srv : Server) (views : Nat → ReadView) (conn : Conn) (args : List Bytes)

/-- No handler writes an array inside an array. -/
theorem handler_flat (verb : Verb) :
    Yields Action.RepliesFlat (verb.handler srv views conn args) := by
  have hsingle : ∀ w, Action.RepliesFlat (.write [w]) := fun w _ => flat_single w
  have hrefuse : ∀ msg, Action.RepliesFlat (.write [.error msg]) := fun msg => hsingle (.error msg)
  have hbulk : ∀ b, Action.RepliesFlat (.write (writeBulk b)) := fun b _ => flat_writeBulk b
  have hbulks : ∀ l, Action.RepliesFlat (.write (writeBulks l)) := fun l _ => flat_writeBulks l
  have hstrings : ∀ l, Action.RepliesFlat (.write (writeStrings l)) :=
    fun l _ => flat_writeStrings l
  have happly : ∀ cmd, Action.RepliesFlat (.apply cmd (applyReply srv.codecText)) :=
    fun _ o => flat_applyReply srv.codecText o
  cases verb
  case ping => exact yields_ok (hsingle _)
  case client => exact handleClient_yields srv args hrefuse conn hsingle fun w _ _ => flat_single w
  case set => exact handleSet_yields srv views hrefuse fun _ cmd _ _ _ o => flat_setOutcome _ cmd o
  case get => exact yields_ok fun _ => flat_handleGet _ _ _ _
  case del | unlink => exact handleDel_yields srv hrefuse fun _ _ => happly _
  case mset => exact handleMSet_yields srv hrefuse fun _ _ => happly _
  case setex => exact handleSetEx_yields srv hrefuse fun _ _ _ _ => happly _
  case flushdb => exact handleFlushDB_yields srv hrefuse (happly _)
  case expire => exact handleExpire_yields srv hrefuse fun _ _ _ => happly _
  case hset => exact handleHSet_yields srv hrefuse fun _ _ _ _ => happly _
  case ltrim => exact handleLTrim_yields srv hrefuse fun _ _ _ => happly _
  case lrem => exact handleLRem_yields srv hrefuse fun _ _ _ => happly _
  case spop => exact handleSPop_yields srv hrefuse fun _ _ _ => happly _
  case eval | evalsha => exact handleScriptCall_yields srv args hrefuse _ fun _ => happly _
  case script => exact handleScript_yields srv args hrefuse fun _ _ => happly _
  case keys => exact handleKeys_yields views args hrefuse hstrings
  case mget => exact handleMGet_yields srv views args hrefuse hbulks
  case touch | existsKeys => exact handleCount_yields srv views args hrefuse fun _ => hsingle _
  case hmget => exact handleHMGet_yields srv views args hrefuse hbulks
  case lrange => exact handleLRange_yields srv views args hrefuse hstrings
  case lindex => exact handleLIndex_yields srv views args hrefuse hbulk
  case srandmember => exact handleSRandMember_yields srv views args hrefuse hbulk hstrings
  case smismember => exact handleSMIsMember_yields srv views args hrefuse fun _ _ hws _ => hws
  case hgetall => exact handleKeyRead_yields srv views args hrefuse _ fun _ _ => flat_entries _ _
  case type | pttl | strlen | ttl | hlen | llen | scard =>
    exact handleKeyRead_yields srv views args hrefuse _ fun _ => hsingle _
  case hkeys | hvals | smembers => exact handleKeyRead_yields srv views args hrefuse _ hstrings
  case hget => exact handleFieldRead_yields srv views args hrefuse _ hbulk
  case hexists | sismember =>
    exact handleFieldRead_yields srv views args hrefuse _ fun _ => hsingle _
  all_goals
    first
    | exact handleFixed_yields srv hrefuse (by decide) fun _ _ _ _ => happly _
    | exact handleVariadic_yields srv hrefuse fun _ _ _ _ => happly _
    | exact handlePop_yields srv hrefuse fun _ _ _ => happly _

/-- No handler writes an array within an array. -/
theorem serveRESP_flat : Yields Action.RepliesFlat (serveRESP srv views conn args) := by
  refine .bind fun name _ => ?_
  dsimp only
  split
  · exact yields_ok fun _ => flat_single _
  · exact handler_flat srv views conn args _

end Handlers

theorem Resp.mem_writesAll {e : Resp} {elems : List Resp} (he : e ∈ elems) {w : Write}
    (hw : w ∈ e.writes) :
    w ∈ Resp.writesAll elems := by
  induction elems with
  | nil => cases he
  | cons v elems ih =>
    rw [Resp.writesAll, List.mem_append]
    rcases List.mem_cons.mp he with rfl | he
    · exact .inl hw
    · exact .inr (ih he)

/-- The elements of an array that was written flat are no arrays. -/
theorem Resp.SentFor.elems_flat {ws : List Write} {elems : List Resp}
    (h : (Resp.array elems).SentFor ws) (hws : Flat ws) (l : List Resp) : Resp.array l ∉ elems := by
  intro hl
  cases ws with
  | nil => cases h
  | cons header rest =>
    have hmem : Write.array l.length ∈ rest.map Write.sent := by
      rw [← (List.cons.inj h).2]
      exact Resp.mem_writesAll hl List.mem_cons_self
    obtain ⟨w, hw, hsent⟩ := List.mem_map.mp hmem
    have hsingle := hws w hw
    cases w <;> cases hsent
    cases hsingle

/-! ## What comes through -/

/-- What an element of an array becomes. -/
def Resp.proxiedElement : Resp → Resp
  | .string s => .bulk s
  | .array elems => .bulk (Resp.array elems).goValue.sprint
  | .error msg => .bulk msg
  | v => v

/-- What a reply becomes. -/
def Resp.proxied : Resp → Resp
  | .string s => .bulk s
  | .error msg =>
    if (ascii "ERR").isPrefixOf msg then .error msg else .error (ascii "ERR proxy error: " ++ msg)
  | .array elems => .array (elems.map Resp.proxiedElement)
  | v => v

theorem stripNewlines_append (s s' : Bytes) :
    stripNewlines (s ++ s') = stripNewlines s ++ stripNewlines s' := List.map_append

/-- Writing a text a second time changes it no more. -/
theorem stripNewlines_idem (s : Bytes) : stripNewlines (stripNewlines s) = stripNewlines s := by
  unfold stripNewlines
  rw [List.map_map]
  refine List.map_congr_left fun b _ => ?_
  by_cases hb : b = 13 ∨ b = 10
  · simp [hb]
  · simp [hb]

theorem goValues_eq_map (elems : List Resp) : Resp.goValues elems = elems.map Resp.goValue := by
  induction elems with
  | nil => rfl
  | cons v elems ih => rw [Resp.goValues, ih, List.map_cons]

theorem clients_eq_map (elems : List Resp) : Resp.clients elems = elems.map Resp.client := by
  induction elems with
  | nil => rfl
  | cons v elems ih => rw [Resp.clients, ih, List.map_cons]

theorem writes_proxiedElement (v : Resp) :
    v.proxiedElement.writes = [(proxyElement v.goValue).sent] := by
  cases v <;> rfl

theorem writesAll_proxied (elems : List Resp) :
    Resp.writesAll (elems.map Resp.proxiedElement) =
      ((Resp.goValues elems).map proxyElement).map Write.sent := by
  induction elems with
  | nil => rfl
  | cons v elems ih =>
    rw [List.map_cons, Resp.writesAll, writes_proxiedElement, ih]
    rfl

/-- What is written for a reply of another node. -/
theorem Resp.SentFor.proxied {v : Resp} {ws : List Write} (h : v.SentFor ws) :
    v.proxied.SentFor (proxyReply v.doResult) := by
  unfold Resp.SentFor
  cases v with
  | string | bulk | null | int => rfl
  | error msg =>
    -- the text has gone over a connection already
    have hmsg : stripNewlines msg = msg := by
      match ws, h with
      | [.error text], h =>
        cases h
        exact stripNewlines_idem text
    show (if _ then Resp.error msg else Resp.error _).writes =
      (if _ then _ else _ : List Write).map Write.sent
    split_ifs
    · show [Write.error msg] = [Write.error (stripNewlines msg)]
      rw [hmsg]
    · show [Write.error (_ ++ msg)] = [Write.error (stripNewlines (_ ++ msg))]
      rw [stripNewlines_append, hmsg]
      rfl
  | array elems =>
    show Write.array _ :: _ = Write.array _ :: _
    rw [writesAll_proxied, goValues_eq_map, List.length_map, List.length_map]

/-- An element comes through another node as it is unless it is an error, which go-redis hands on as
its text. -/
theorem client_proxiedElement_iff {v : Resp} (hv : ∀ l, v ≠ .array l) :
    v.proxiedElement.client = v.client ↔ ∀ msg, v ≠ .error msg := by
  cases v with
  | string | bulk | null | int => exact iff_of_true rfl fun msg h => by cases h
  | error msg => exact iff_of_false (fun h => by cases h) fun h => h msg rfl
  | array l => exact absurd rfl (hv l)

/-- An error comes through another node as it is if and only if its text starts with `ERR`. -/
theorem client_proxied_error_iff (msg : Bytes) :
    (Resp.error msg).proxied.client = (Resp.error msg).client ↔ ascii "ERR" <+: msg := by
  rw [Resp.proxied]
  by_cases hERR : ascii "ERR" <+: msg
  · rw [if_pos (List.isPrefixOf_iff_prefix.mpr hERR)]
    exact iff_of_true rfl hERR
  · rw [if_neg fun h => hERR (List.isPrefixOf_iff_prefix.mp h)]
    refine iff_of_false ?_ hERR
    -- the text is longer
    intro hclient
    have hlen := congrArg List.length (ClientValue.error.inj hclient)
    rw [List.length_append] at hlen
    exact absurd hlen (by simp [ascii])

/-- An array comes through another node if and only if there is no error in it. -/
theorem client_proxied_array_iff {elems : List Resp} (helems : ∀ l, Resp.array l ∉ elems) :
    (Resp.array elems).proxied.client = (Resp.array elems).client ↔
      ∀ msg, Resp.error msg ∉ elems := by
  have hne : ∀ v ∈ elems, ∀ l, v ≠ Resp.array l := by
    rintro v hmem l rfl
    exact helems l hmem
  show ClientValue.array _ = ClientValue.array _ ↔ _
  rw [ClientValue.array.injEq, clients_eq_map, clients_eq_map, List.map_map, List.map_inj_left]
  constructor
  · intro h msg hmem
    exact (client_proxiedElement_iff (hne _ hmem)).mp (h _ hmem) msg rfl
  · intro h v hmem
    refine (client_proxiedElement_iff (hne v hmem)).mpr ?_
    rintro msg rfl
    exact h msg hmem

theorem Resp.SentFor.transparent_iff {v : Resp} {ws : List Write} (h : v.SentFor ws) :
    v.Transparent ↔ v.proxied.client = v.client := by
  constructor
  · rintro ⟨v', hsent, hclient⟩
    rw [Resp.writes_injective (h.proxied.trans hsent.symm)]
    exact hclient
  · intro hclient
    exact ⟨v.proxied, h.proxied, hclient⟩

/-- Flat replies come through unless they are an error whose text does not start with `ERR`, or an
array with an error in it. -/
theorem Resp.SentFor.transparent_iff_of_flat {v : Resp} {ws : List Write} (hv : v.SentFor ws)
    (hflat : Flat ws) :
    v.Transparent ↔
      (∀ msg, v = .error msg → ascii "ERR" <+: msg) ∧
      (∀ elems, v = .array elems → ∀ msg, Resp.error msg ∉ elems) := by
  rw [hv.transparent_iff]
  cases v with
  | string | bulk | null | int =>
    refine iff_of_true rfl ⟨?_, ?_⟩
    · rintro msg ⟨⟩
    · rintro elems ⟨⟩
  | error msg =>
    rw [client_proxied_error_iff]
    constructor
    · intro hERR
      refine ⟨?_, ?_⟩
      · rintro _ ⟨⟩
        exact hERR
      · rintro elems ⟨⟩
    · rintro ⟨h, -⟩
      exact h msg rfl
  | array elems =>
    rw [client_proxied_array_iff (hv.elems_flat hflat)]
    constructor
    · intro hnone
      refine ⟨?_, ?_⟩
      · rintro msg ⟨⟩
      · rintro _ ⟨⟩
        exact hnone
    · rintro ⟨-, h⟩
      exact h elems rfl

variable {srv : Server} {views : Nat → ReadView} {conn : Conn} {args : List Bytes}

/-- A reply comes through another node unless it is an error whose text does not start with `ERR`,
or an array with an error in it. -/
theorem proxied_transparent_iff {a : Action} {o : Outcome} {v : Resp}
    (ha : serveRESP srv views conn args = .ok a) (hv : v.SentFor (a.replies o)) :
    v.Transparent ↔
      (∀ msg, v = .error msg → ascii "ERR" <+: msg) ∧
      (∀ elems, v = .array elems → ∀ msg, Resp.error msg ∉ elems) :=
  hv.transparent_iff_of_flat (serveRESP_flat srv views conn args a ha o)

/-- GET of a string through another node. -/
theorem get_transparent :
    let views := viewOf (storeAfter { op := .set, key := ascii "k", args := [ascii "v"] })
    serveRESP asciiServer views newConn [ascii "GET", ascii "k"] =
      .ok (.write [.bulk (ascii "v")]) ∧
      (Resp.bulk (ascii "v")).Transparent := by
  intro views
  have hget : serveRESP asciiServer views newConn [ascii "GET", ascii "k"] =
    .ok (.write [.bulk (ascii "v")]) := rfl
  have hsent : (Resp.bulk (ascii "v")).SentFor
    ((Action.write [.bulk (ascii "v")]).replies (.raftError [])) := rfl
  refine ⟨hget, (proxied_transparent_iff hget hsent).mpr ⟨?_, ?_⟩⟩
  · rintro msg ⟨⟩
  · rintro elems ⟨⟩

/-- GET of a list through another node: the client reads an error of another code and text. -/
theorem get_of_list_not_transparent :
    let router : Router :=
      ⟨SlotMap.new.setOwner (keyToSlot (ascii "l")) (ascii "shard-b") (ascii "10.0.0.2"),
        ascii "shard-a"⟩
    let views := viewOf (storeAfter { op := .lpush, key := ascii "l", args := [ascii "x"] })
    let args := [ascii "GET", ascii "l"]
    let v := Resp.error (ascii "WRONGTYPE Operation against a key holding the wrong kind of value")
    let v' := Resp.error
      (ascii "ERR proxy error: WRONGTYPE Operation against a key holding the wrong kind of value")
    handleCmd asciiServer router args = .ok (.proxy (ascii "10.0.0.2") args) ∧
      serveRESP asciiServer views newConn args = .ok (.write v.writes) ∧ v.SentFor v.writes ∧
      v'.SentFor (proxyReply v.doResult) ∧ ¬ v.Transparent := by
  intro router views args v v'
  have hproxied : v'.SentFor (proxyReply v.doResult) := by
    show v'.writes = _
    decide +kernel
  refine ⟨by decide +kernel, rfl, rfl, hproxied, ?_⟩
  rintro ⟨v'', hsent, hclient⟩
  rw [Resp.writes_injective (hsent.trans hproxied.symm)] at hclient
  have hhead := congrArg List.head? (ClientValue.error.inj hclient)
  exact absurd hhead (by decide +kernel)

end Badis
