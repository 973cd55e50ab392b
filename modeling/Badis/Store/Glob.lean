import Badis.Lib.Wildcard
import Badis.Store.Reads

/-!
# The language of a pattern of KEYS

What a pattern means, apart from the loops that match it: its bytes are read from left to right as
tokens (`Glob`), and each token stands for a set of byte strings. A pattern that ends within a class
or behind a backslash is not read at all.
-/

namespace Badis

open Lib

/-- What stands in a class: a byte, or the bytes of a range. -/
inductive ClassItem where
  | byte (b : UInt8)
  | range (lo hi : UInt8)

def ClassItem.Has (c : UInt8) : ClassItem → Prop
  | byte b => c = b
  | range lo hi => lo ≤ c ∧ c ≤ hi

/-- The items of a class: a byte with a dash and another byte behind it is a range. -/
def classItems : Bytes → List ClassItem
  | lo :: 45 :: hi :: rest => .range lo hi :: classItems rest
  | b :: rest => .byte b :: classItems rest
  | [] => []

/-- Some item of the class has the byte. -/
def Listed (listed : Bytes) (c : UInt8) : Prop := ∃ item ∈ classItems listed, item.Has c

/-- A token of a pattern. -/
inductive GlobToken where
  /-- `*`. -/
  | star
  /-- `?`. -/
  | any
  /-- What stands between `[` and `]`. -/
  | cls (listed : Bytes)
  /-- A byte, or a backslash and a byte. -/
  | byte (b : UInt8)

/-- What a token matches; a class that begins with `^` is negated. -/
def GlobToken.token : GlobToken → Token UInt8
  | star => .star
  | any => .letter fun _ => True
  | cls (94 :: listed) => .letter fun c => ¬ Listed listed c
  | cls listed => .letter (Listed listed)
  | byte b => .letter fun c => c = b

/-- The bytes of the pattern are those of the tokens, read from left to right. -/
inductive Glob : List GlobToken → Bytes → Prop where
  | nil : Glob [] []
  | star {ts : List GlobToken} {rest : Bytes}
      (hrest : Glob ts rest) : Glob (.star :: ts) (42 :: rest)
  | any {ts : List GlobToken} {rest : Bytes} (hrest : Glob ts rest) : Glob (.any :: ts) (63 :: rest)
  /-- A class ends with the first `]` behind its `[`. -/
  | cls {listed : Bytes} {ts : List GlobToken} {rest : Bytes} (hlisted : 93 ∉ listed)
      (hrest : Glob ts rest) :
      Glob (.cls listed :: ts) (91 :: (listed ++ 93 :: rest))
  | escaped (b : UInt8) {ts : List GlobToken} {rest : Bytes} (hrest : Glob ts rest) :
      Glob (.byte b :: ts) (92 :: b :: rest)
  | byte {b : UInt8} {ts : List GlobToken} {rest : Bytes} (hb : b ≠ 42 ∧ b ≠ 63 ∧ b ≠ 91 ∧ b ≠ 92)
      (hrest : Glob ts rest) : Glob (.byte b :: ts) (b :: rest)

/-- No class is unclosed and no backslash is last. -/
def GlobWellFormed (pattern : Bytes) : Prop := ∃ ts, Glob ts pattern

/-- The texts that a list of tokens matches. -/
def globLanguage (ts : List GlobToken) : Language UInt8 := patternLanguage (ts.map GlobToken.token)

end Badis
