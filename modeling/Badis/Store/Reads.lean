import Badis.Store.Checked

/-!
# `store/fsm.go`: the reads

The methods of the FSM that answer from the local database, each in one read-only transaction at one
clock reading.
-/

namespace Badis

open Lib

/-- `FSM.GetString`: the value, the nil slice for a missing key. -/
def getString (t : Nat) (key : Bytes) : Tx (Option Bytes) := do
  match ← txnGet t (userKey key) with
  | none => return none
  | some item =>
    ensureExistingType t key typeString
    return item.valueCopy

/-- `FSM.Type`. -/
def fsmType (t : Nat) (key : Bytes) : Tx Bytes := do
  match ← txnGet t (userKey key) with
  | none => return ascii "none"
  | some _ =>
    match ← txnGet t (typeKey key) with
    | none => return typeString
    | some item => return item.value

/-! ## Keys -/

/-- The loop over the class of a pattern, from `[` (and `^`) to `]`: whether `c` is listed. -/
def classMatch (c : UInt8) : Bytes → Bool
  | lo :: 45 :: hi :: rest => (lo ≤ c && c ≤ hi) || classMatch c rest
  | b :: rest => c = b || classMatch c rest
  | [] => false

/-- The loop of case `'*'`: the rest of the pattern is tried at every position of the text. -/
def globStar (rest : Bytes → Except Err Bool) : Bytes → Except Err Bool
  | [] => rest []
  | c :: text =>
    match rest (c :: text) with
    | .ok false => globStar rest text
    | r => r

/-- `match(pi, ti)` in `redisGlobMatch`, on what is left of the pattern and of the text; the pattern
is not longer than `fuel`. -/
def globFrom : Nat → Bytes → Bytes → Except Err Bool
  | 0, _, text => .ok (text = [])
  | _, [], text => .ok (text = [])
  | fuel + 1, p :: pattern, text =>
    if p = 42 then
      let pattern := pattern.dropWhile fun b => b = 42
      if pattern = [] then .ok true else globStar (globFrom fuel pattern) text
    else if p = 63 then
      match text with
      | [] => .ok false
      | _ :: text => globFrom fuel pattern text
    else if p = 91 then
      let listed := pattern.takeWhile fun b => b ≠ 93
      match pattern.dropWhile fun b => b ≠ 93, text with
      | [], _ => .error .badPattern
      | _ :: _, [] => .ok false
      | _ :: pattern, c :: text =>
        let negated := listed.head? = some 94
        if classMatch c (if negated then listed.tail else listed) = negated then .ok false
        else globFrom fuel pattern text
    else
      match (if p = 92 then pattern else p :: pattern), text with
      | [], _ => .error .badPattern
      | _ :: _, [] => .ok false
      | b :: pattern, c :: text => if b = c then globFrom fuel pattern text else .ok false

/-- `redisGlobMatch`. -/
def redisGlobMatch (pattern text : Bytes) : Except Err Bool := globFrom pattern.length pattern text

/-- The loop of `FSM.Keys` over the items under the user prefix. -/
def keysLoop (pattern : Bytes) : List (Bytes × Entry) → Except Err (List Bytes)
  | [] => .ok []
  | item :: rest => do
    let key := item.1.drop 1
    let matched ← redisGlobMatch pattern key
    let keys ← keysLoop pattern rest
    return if matched then key :: keys else keys

/-- `FSM.Keys`. -/
def fsmKeys (t : Nat) (pattern : Bytes) : Tx (List Bytes) := do
  let items ← Txn.reads fun db => db.scanPrefix t [75]
  (keysLoop pattern items : Except Err (List Bytes))

example : redisGlobMatch (ascii "h[^a-d]l*\\?") (ascii "hello?") = .ok true := by decide

/-! ## Keys with bounds checks

`redisGlobMatch` once more, with the indices of the source into the pattern and the text. -/

/-- A loop `for i < len(pattern) && p(pattern[i]) { i++ }`, of at most `rounds` rounds. -/
def scanFrom (p : UInt8 → Bool) (pattern : Bytes) : (rounds i : Nat) → Except Err Nat
  | 0, i => .ok i
  | rounds + 1, i =>
    if i < pattern.length then do
      let b ← goIndex pattern i
      if p b then scanFrom p pattern rounds (i + 1) else .ok i
    else .ok i

/-- The loop over the class of a pattern, from `i` to `stop`. -/
def classLoop (c : UInt8) (pattern : Bytes) (stop : Nat) :
    (rounds i : Nat) → Bool → Except Err Bool
  | 0, _, matched => .ok matched
  | rounds + 1, i, matched =>
    if i < stop then do
      let dash ← if i + 2 < stop then goIndex pattern (i + 1 : Nat) else .ok 0
      let b ← goIndex pattern i
      if dash = 45 then
        let hi ← goIndex pattern (i + 2 : Nat)
        classLoop c pattern stop rounds (i + 3) (matched || (b ≤ c && c ≤ hi))
      else classLoop c pattern stop rounds (i + 1) (matched || c = b)
    else .ok matched

/-- The loop of case `'*'`, at the positions `ti`, `ti + 1`, ... of the text. -/
def starLoop (rest : Nat → Except Err Bool) : (rounds ti : Nat) → Except Err Bool
  | 0, _ => .ok false
  | rounds + 1, ti =>
    match rest ti with
    | .ok false => starLoop rest rounds (ti + 1)
    | r => r

/-- `match(pi, ti)` in `redisGlobMatch`; a round moves `pi` on. -/
def globAt (pattern text : Bytes) : (rounds pi ti : Nat) → Except Err Bool
  | 0, _, ti => .ok (ti = text.length)
  | rounds + 1, pi, ti =>
    if pi < pattern.length then do
      let p ← goIndex pattern pi
      if p = 42 then
        let pi ← scanFrom (fun b => b = 42) pattern pattern.length pi
        if pi = pattern.length then .ok true
        else starLoop (fun i => globAt pattern text rounds pi i) (text.length + 1 - ti) ti
      else if p = 63 then
        if text.length ≤ ti then .ok false else globAt pattern text rounds (pi + 1) (ti + 1)
      else if p = 91 then
        let stop ← scanFrom (fun b => b ≠ 93) pattern pattern.length (pi + 1)
        if stop = pattern.length then .error .badPattern
        else if text.length ≤ ti then .ok false
        else
          let first ← goIndex pattern (pi + 1 : Nat)
          let c ← goIndex text ti
          let start := if first = 94 then pi + 2 else pi + 1
          let matched ← classLoop c pattern stop pattern.length start false
          if matched = decide (first = 94) then .ok false
          else globAt pattern text rounds (stop + 1) (ti + 1)
      else
        let pi := if p = 92 then pi + 1 else pi
        if pi = pattern.length then .error .badPattern
        else if text.length ≤ ti then .ok false
        else
          let b ← goIndex pattern pi
          let c ← goIndex text ti
          if b ≠ c then .ok false else globAt pattern text rounds (pi + 1) (ti + 1)
    else .ok (ti = text.length)

/-- `redisGlobMatch`. -/
def redisGlobMatchChecked (pattern text : Bytes) : Except Err Bool :=
  globAt pattern text pattern.length 0 0

/-- The loop of `FSM.Keys`; `it.Item().Key()[1:]` is sliced. -/
def keysLoopChecked (pattern : Bytes) : List (Bytes × Entry) → Except Err (List Bytes)
  | [] => .ok []
  | item :: rest => do
    let key ← Slice.slice .panic item.1 1 item.1.length
    let matched ← redisGlobMatchChecked pattern key
    let keys ← keysLoopChecked pattern rest
    return if matched then key :: keys else keys

/-- `FSM.Keys`. -/
def fsmKeysChecked (t : Nat) (pattern : Bytes) : Tx (List Bytes) := do
  let items ← Txn.reads fun db => db.scanPrefix t [75]
  (keysLoopChecked pattern items : Except Err (List Bytes))

/-! ## Existence and expiry -/

/-- `FSM.GetStrings`: under each key the value, the nil slice for a missing key. The
type of a key is not looked at. -/
def getStrings (t : Nat) : List Bytes → Tx (List (Option Bytes))
  | [] => return []
  | key :: rest => do
    let item ← txnGet t (userKey key)
    let vals ← getStrings t rest
    return item.bind Entry.valueCopy :: vals

/-- The loop of `FSM.Exists`. -/
def existsLoop (t : Nat) : List Bytes → Nat → Tx Nat
  | [], count => return count
  | key :: rest, count => do
    match ← txnGet t (userKey key) with
    | none => existsLoop t rest count
    | some _ => existsLoop t rest (count + 1)

/-- `FSM.Exists`. -/
def fsmExists (t : Nat) (keys : List Bytes) : Tx Nat := existsLoop t keys 0

/-- The float64 nearest to `a / b`, ties to even, as `m / 2 ^ s`; for a quotient below `2 ^ 53`. -/
def nearestFloat (a b : Nat) : Nat × Nat :=
  if a = 0 then (0, 0)
  else
    -- the shift after which the quotient has 53 bits
    let s := 53 + b.log2 - a.log2
    let s := if 2 ^ 53 ≤ a * 2 ^ s / b then s - 1 else s
    let q := a * 2 ^ s / b
    let r := a * 2 ^ s % b
    (if b < 2 * r ∨ 2 * r = b ∧ q % 2 = 1 then q + 1 else q, s)

/-- `int64(d.Seconds())` for a duration `d` in nanoseconds: `Seconds` adds the seconds and the rest
as float64. -/
def durationSeconds (d : Int) : Int :=
  let sec := d.natAbs / 1000000000
  let (m, s) := nearestFloat (d.natAbs % 1000000000) 1000000000
  let (m, s) := nearestFloat (sec * 2 ^ s + m) (2 ^ s)
  d.sign * (m / 2 ^ s : Nat)

example : durationSeconds (-1500000000) = -1 := by decide

/-- `FSM.TTL` and `FSM.PTTL`, in the unit that `unit` makes of a duration. -/
def timeToLive (unit : Int → Int) (t : Nat) (key : Bytes) : Tx Int := do
  match ← txnGet t (userKey key) with
  | none => return -2
  | some item =>
    if item.expiresAt = 0 then return -1
    else
      let ttl := unit (timeUntil t item.expiresAt)
      return if ttl < 0 then -2 else ttl

/-- `FSM.TTL`. -/
def fsmTTL (t : Nat) (key : Bytes) : Tx Int := timeToLive durationSeconds t key

/-- `FSM.PTTL`. -/
def fsmPTTL (t : Nat) (key : Bytes) : Tx Int := timeToLive (fun d => d.tdiv 1000000) t key

/-- `FSM.StrLen`. -/
def strLen (t : Nat) (key : Bytes) : Tx Nat := do
  let val ← getString t key
  return (val.getD []).length

/-! ## Aggregates -/

/-- The reading part that the aggregate reads share: `none` for a missing key. -/
def readAs {α : Type} (t : Nat) (key want : Bytes) (decode : Bytes → Option α) : Tx (Option α) := do
  match ← txnGet t (userKey key) with
  | none => return none
  | some item =>
    ensureExistingType t key want
    match decode item.value with
    | none => Txn.throw .decode
    | some a => return some a

section Aggregates

variable (c : Codec) (t : Nat) (key : Bytes)

/-- `FSM.HGet`. -/
def hGet (field : Bytes) : Tx (Option Bytes) := do
  let hash ← readAs t key typeHash c.decodeMap
  return hash.bind fun hash => hash.get? field

/-- `FSM.HGetAll`. -/
def hGetAll : Tx GoMap := do
  let hash ← readAs t key typeHash c.decodeMap
  return hash.getD OrdMap.empty

/-- `FSM.HLen`. -/
def hLen : Tx Nat := do
  let hash ← hGetAll c t key
  return hash.entries.length

/-- `FSM.HExists`. -/
def hExists (field : Bytes) : Tx Nat := do
  let hash ← hGetAll c t key
  return if hash.contains field then 1 else 0

/-- `FSM.HMGet`. -/
def hMGet (fields : List Bytes) : Tx (List (Option Bytes)) := do
  let hash ← hGetAll c t key
  return fields.map fun field => hash.get? field

/-- `FSM.HKeys`, in the order the map is visited. -/
def hKeys (order : RangeOrder) : Tx (List Bytes) := do
  let hash ← hGetAll c t key
  return (rangeMap order hash).map Prod.fst

/-- `FSM.HVals`, in the order the map is visited. -/
def hVals (order : RangeOrder) : Tx (List Bytes) := do
  let hash ← hGetAll c t key
  return (rangeMap order hash).map Prod.snd

/-- `FSM.LRange`. -/
def lRange (start stop : Int) : Tx (List Bytes) := do
  let list ← readAs t key typeList c.decodeStrings
  sliceListChecked (list.getD []) start stop

/-- `FSM.LLen`. -/
def lLen : Tx Nat := do
  let list ← lRange c t key 0 (-1)
  return list.length

/-- `FSM.LIndex`. -/
def lIndex (index : Int) : Tx (Option Bytes) := do
  let list ← lRange c t key 0 (-1)
  let index := if index < 0 then list.length + index else index
  if index < 0 ∨ list.length ≤ index then return none
  else
    let val ← goIndex list index
    return some val

/-- `FSM.SMembers`. -/
def sMembers : Tx (List Bytes) := do
  let members ← readAs t key typeSet c.decodeStrings
  return members.getD []

/-- `FSM.SCard`. -/
def sCard : Tx Nat := do
  let members ← sMembers c t key
  return members.length

/-- The loop of `FSM.SRandMember` for a negative count. -/
def repeatMembers (members : List Bytes) (count : Int64) : Except Err (List Bytes) := do
  -- the negation wraps
  let res ← Slice.make .panic maxStrings [] (-count).toInt
  (List.range res.length).foldlM (fun res (i : Nat) => do
    let m ← goIndex members (i % members.length : Nat)
    Slice.update .panic res (i : Int) m) res

/-- `FSM.SRandMember`. -/
def sRandMember (count : Option Int64) : Tx (List Bytes) := do
  let members ← sMembers c t key
  match count with
  | none => return members
  | some count =>
    if count < 0 then
      if members.length = 0 then return [] else repeatMembers members count
    else if (members.length : Int) ≤ count.toInt then return members
    else Txn.lift (Slice.slice .panic members 0 count.toInt)

/-- `FSM.SIsMember`. -/
def sIsMember (member : Bytes) : Tx Nat := do
  let members ← readAs t key typeSet c.decodeStrings
  return if member ∈ members.getD [] then 1 else 0

end Aggregates

end Badis
