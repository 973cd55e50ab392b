import Badis.Server.Resp
import Badis.Server.Router

/-!
# `server/server.go`: the reply of another node

`handleCmd` sends a request for a key of another node to that node, with go-redis, and writes what
comes back once more. go-redis (with protocol 2) turns a RESP value into a Go value; the second half
of `handleCmd` is a switch over its dynamic type. What counts is the value that the client reads
(`ClientValue`), which does not tell simple and bulk strings apart.
-/

namespace Badis

open Lib

/-- The dynamic values behind the `interface{}` that `Cmd.Result` returns. The integers are an
`int64`; every count and number that a handler writes is one. -/
inductive GoValue where
  | str (s : Bytes)
  | bytes (b : Bytes)
  | int64 (n : Int)
  | slice (l : List GoValue)
  | nil
  | err (text : Bytes)

/-- The errors of `Cmd.Result`: `redis.Nil`, or one with the text of the reply. -/
inductive DoErr where
  | redisNil
  | text (msg : Bytes)

mutual

/-- What go-redis reads inside an array. -/
def Resp.goValue : Resp → GoValue
  | .string s => .str s
  | .error msg => .err msg
  | .bulk b => .str b
  | .null => .nil
  | .int n => .int64 n
  | .array elems => .slice (Resp.goValues elems)

def Resp.goValues : List Resp → List GoValue
  | [] => []
  | v :: rest => v.goValue :: Resp.goValues rest

end

/-- What `client.Do(ctx, args...).Result()` returns for a reply: a null and an error are errors. -/
def Resp.doResult : Resp → Except DoErr GoValue
  | .null => .error .redisNil
  | .error msg => .error (.text msg)
  | v => .ok v.goValue

mutual

/-- `fmt.Sprintf("%v", v)`. -/
def GoValue.sprint : GoValue → Bytes
  | .str s => s
  | .bytes b => bracketed (b.map fun d => formatInt (Int64.ofNat d.toNat))
  | .int64 n => formatInt (Int64.ofInt n)
  | .slice l => bracketed (GoValue.sprintAll l)
  | .nil => ascii "<nil>"
  | .err text => text

def GoValue.sprintAll : List GoValue → List Bytes
  | [] => []
  | v :: rest => v.sprint :: GoValue.sprintAll rest

end

/-- The switch over the elements of an array. -/
def proxyElement : GoValue → Write
  | .str s => .bulk s
  | .bytes b => .bulk b
  | .int64 n => .int n
  | .nil => .null
  | v => .bulk v.sprint

/-- `handleCmd` from the reply of another node on. -/
def proxyReply : Except DoErr GoValue → List Write
  | .error .redisNil => [.null]
  | .error (.text msg) =>
    if (ascii "ERR").isPrefixOf msg then [.error msg]
    else [.error (ascii "ERR proxy error: " ++ msg)]
  | .ok (.str s) => [.bulk s]
  | .ok (.bytes b) => [.bulk b]
  | .ok (.int64 n) => [.int n]
  | .ok (.slice l) => .array l.length :: l.map proxyElement
  | .ok _ => [.string (ascii "OK")]

/-! ## What the client reads -/

/-- A value as a client reads it: simple and bulk strings are not told apart, and of an error the
text counts, whose first word is the error code. -/
inductive ClientValue where
  | null
  | text (s : Bytes)
  | int (n : Int)
  | error (msg : Bytes)
  | array (elems : List ClientValue)

mutual

/-- The value of a reply. -/
def Resp.client : Resp → ClientValue
  | .string s => .text s
  | .error msg => .error msg
  | .bulk b => .text b
  | .null => .null
  | .int n => .int n
  | .array elems => .array (Resp.clients elems)

def Resp.clients : List Resp → List ClientValue
  | [] => []
  | v :: rest => v.client :: Resp.clients rest

end

/-- The value `v` is what a connection sends for these calls. -/
def Resp.SentFor (v : Resp) (ws : List Write) : Prop := v.writes = ws.map Write.sent

/-- The client reads in the proxied reply what the node wrote. -/
def Resp.Transparent (v : Resp) : Prop :=
  ∃ v' : Resp, v'.SentFor (proxyReply v.doResult) ∧ v'.client = v.client

end Badis
