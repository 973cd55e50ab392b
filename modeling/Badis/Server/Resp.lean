import Badis.Server.Handlers

/-!
# RESP values

What a client reads from a connection is a sequence of values; a handler writes with calls that are
either a whole value or the header of an array. A reply is complete when its calls are those of one
value.
-/

namespace Badis

open Lib

/-- A RESP value. -/
inductive Resp where
  | string (s : Bytes)
  | error (msg : Bytes)
  | bulk (b : Bytes)
  | null
  | int (n : Int)
  | array (elems : List Resp)

namespace Resp

mutual

/-- The calls that write a value. -/
def writes : Resp → List Write
  | string s => [.string s]
  | error msg => [.error msg]
  | bulk b => [.bulk b]
  | null => [.null]
  | int n => [.int n]
  | array elems => .array elems.length :: writesAll elems

/-- The calls that write the elements of an array. -/
def writesAll : List Resp → List Write
  | [] => []
  | v :: rest => writes v ++ writesAll rest

end

end Resp

/-- One complete reply. -/
def Complete (ws : List Write) : Prop := ∃ v : Resp, v.writes = ws

/-- The number of values that have to follow a call. -/
def Write.due : Write → Nat
  | .array n => n
  | _ => 0

/-- The number of values a client still waits for that waited for `n` of them, `none` once there are
calls after the last one. -/
def pending (n : Nat) : List Write → Option Nat
  | [] => some n
  | w :: rest =>
    match n with
    | 0 => none
    | n + 1 => pending (n + w.due) rest

/-- A call that is a whole value. -/
def Write.single : Write → Bool
  | .array _ => false
  | _ => true

/-! ## What a value says -/

/-- A result as the clients of the store know it: Go's integer types, and its slice types, are not
told apart, nor is a nil slice from an empty one. -/
inductive Datum where
  | nil
  | text (s : Bytes)
  | int (n : Int)
  | array (elems : List Datum)

mutual

/-- What `FSM.Apply` returned. -/
def Result.datum : Result → Datum
  | .nil => .nil
  | .str s => .text s
  | .bytes b => .text (b.getD [])
  | .int n => .int n
  | .int64 n => .int n.toInt
  | .strs l => .array (l.map .text)
  | .int64s l => .array (l.map fun n => .int n.toInt)
  | .array l => .array (Result.data l)

def Result.data : List Result → List Datum
  | [] => []
  | r :: rest => r.datum :: Result.data rest

end

mutual

/-- What a client reads; an error is no result. -/
def Resp.datum? : Resp → Option Datum
  | .string s => some (.text s)
  | .error _ => none
  | .bulk b => some (.text b)
  | .null => some .nil
  | .int n => some (.int n)
  | .array elems => (Resp.data? elems).map .array

def Resp.data? : List Resp → Option (List Datum)
  | [] => some []
  | v :: rest =>
    match v.datum?, Resp.data? rest with
    | some d, some ds => some (d :: ds)
    | _, _ => none

end

/-- A line of text as `WriteString` and `WriteError` send it: a line break becomes a blank. -/
def stripNewlines (s : Bytes) : Bytes := s.map fun b => if b = 13 ∨ b = 10 then 32 else b

/-- What is sent for a call. -/
def Write.sent : Write → Write
  | .string s => .string (stripNewlines s)
  | .error msg => .error (stripNewlines msg)
  | w => w

/-- The calls say what `d` is. -/
def Carries (ws : List Write) (d : Datum) : Prop :=
  ∃ v : Resp, v.writes = ws.map Write.sent ∧ v.datum? = some d

end Badis
