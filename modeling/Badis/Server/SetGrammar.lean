import Badis.Lib.Wrap
import Badis.Server.Requests
import Badis.Store.Lua

/-!
# The options of SET

What may follow the key and the value of a SET request, apart from the loop that reads it: the words
as a list of options (`Spells`), which lists the documentation allows (`Documented`), and what the
command of such a request holds (`Means`), with times in unbounded integers.
-/

namespace Badis

open Lib

/-- The options that are one word. -/
inductive SetFlag where
  | nx | xx | get
deriving DecidableEq

/-- The options that take a number. -/
inductive TimeOption where
  | ex | px | exat | pxat
deriving DecidableEq

/-- An option of SET. -/
inductive SetOption where
  | flag (f : SetFlag)
  | timed (o : TimeOption) (n : Int64)
deriving DecidableEq

def SetFlag.word : SetFlag → Bytes
  | nx => ascii "NX"
  | xx => ascii "XX"
  | get => ascii "GET"

def TimeOption.word : TimeOption → Bytes
  | ex => ascii "EX"
  | px => ascii "PX"
  | exat => ascii "EXAT"
  | pxat => ascii "PXAT"

/-- The words spell the options, in any case and with any numeral of an int64. -/
inductive Spells (upper : Bytes → Bytes) : List SetOption → List Bytes → Prop where
  | nil : Spells upper [] []
  | flag {f : SetFlag} {word : Bytes} {options : List SetOption} {words : List Bytes}
      (hword : toUpper upper word = f.word) (hrest : Spells upper options words) :
      Spells upper (.flag f :: options) (word :: words)
  | timed {o : TimeOption} {n : Int64} {word arg : Bytes} {options : List SetOption}
      {words : List Bytes} (hword : toUpper upper word = o.word) (harg : parseInt arg = (n, true))
      (hrest : Spells upper options words) :
      Spells upper (.timed o n :: options) (word :: arg :: words)

/-- The arguments are a name, a key, a value and these options. -/
def SetRequest (upper : Bytes → Bytes) (args : List Bytes) (options : List SetOption) : Prop :=
  ∃ name key val words, args = name :: key :: val :: words ∧ Spells upper options words

/-- The condition an option sets. -/
def SetOption.condition? : SetOption → Option Condition
  | flag .nx => some .nx
  | flag .xx => some .xx
  | _ => none

/-- The time an option sets. -/
def SetOption.time? : SetOption → Option (TimeOption × Int64)
  | timed o n => some (o, n)
  | _ => none

/-- At most one of NX and XX, at most one GET, and at most one time. -/
structure Documented (options : List SetOption) : Prop where
  condition : (options.filterMap SetOption.condition?).length ≤ 1
  get : options.count (.flag .get) ≤ 1
  time : (options.filterMap SetOption.time?).length ≤ 1

/-- `time.Now().UnixMilli()` at the clock reading `t`. -/
def unixMilli (t : Nat) : Int64 := Int64.ofNat (t / 1000000)

/-- The milliseconds from `t` to the expiry an option asks for; a point in the past is one
millisecond away. -/
def TimeOption.wantedMs (t : Nat) : TimeOption → Int → Int
  | ex, n => 1000 * n
  | px, n => n
  | exat, n => if 1000 * n < (unixMilli t).toInt then 1 else 1000 * n - (unixMilli t).toInt
  | pxat, n => if n < (unixMilli t).toInt then 1 else n - (unixMilli t).toInt

/-- `c.TTLMs` as the option loop computes it, in an int64. -/
def TimeOption.ttlMs (t : Nat) : TimeOption → Int64 → Int64
  | ex, n => n * 1000
  | px, n => n
  | exat, n => untilMs t (n * 1000)
  | pxat, n => untilMs t n

/-- The command holds what the options say. -/
structure Means (t : Nat) (options : List SetOption) (c : Command) : Prop where
  condition : ∀ cond, cond ∈ options.filterMap SetOption.condition? → c.condition = cond
  always : options.filterMap SetOption.condition? = [] → c.condition = .always
  returnOld : c.returnOld = true ↔ .flag .get ∈ options
  ttlMs : ∀ o n, (o, n) ∈ options.filterMap SetOption.time? → c.ttlMs.toInt = o.wantedMs t n.toInt
  noTtl : options.filterMap SetOption.time? = [] → c.ttlMs = 0

/-- A SET request is accepted if the documentation allows its options, and only then, and its
command holds what they say. -/
structure FollowsGrammar (srv : Server) (views : Nat → ReadView) (args : List Bytes) : Prop where
  accepts : (∃ c, requestCommand (handleSet srv views args) = some c) ↔
    ∃ options, SetRequest srv.upper args options ∧ Documented options
  holds : ∀ c options, requestCommand (handleSet srv views args) = some c →
    SetRequest srv.upper args options → Documented options → Means (views 0).now options c

/-- A difference of times that comes out right in an int64: it fits, or it is of the past and wraps
to a number that is clamped to 1, or to 1. -/
def ComesOut (ms : Int) : Prop :=
  Fits64 ms ∨ (ms < 0 ∧ (ms.bmod (2 ^ 64) < 0 ∨ ms.bmod (2 ^ 64) = 1))

/-- The numbers for which the loop computes the time that is asked for. -/
def TimeOption.Exact (t : Nat) : TimeOption → Int → Prop
  | ex, n => Fits64 (1000 * n)
  | px, _ => True
  | exat, n => ComesOut (1000 * n - (unixMilli t).toInt)
  | pxat, n => ComesOut (n - (unixMilli t).toInt)

/-! ## SET in a script -/

/-- The times that the loop of `parseCommandForLua` knows. -/
def TimeOption.inScript : TimeOption → Bool
  | ex | px => true
  | exat | pxat => false

def SetOption.inScript : SetOption → Bool
  | flag _ => true
  | timed o _ => o.inScript

/-- Read as a script's words, with those it does not know skipped, they come to an EX or PX that no
number follows. -/
inductive ScriptRefuses (upper : Bytes → Bytes) : List Bytes → Prop where
  | unnumbered {o : TimeOption} {word : Bytes} {words : List Bytes} (ho : o.inScript = true)
      (hword : toUpper upper word = o.word)
      (harg : ∀ arg, words.head? = some arg → (parseInt arg).2 = false) :
      ScriptRefuses upper (word :: words)
  | numbered {o : TimeOption} {word arg : Bytes} {words : List Bytes} (ho : o.inScript = true)
      (hword : toUpper upper word = o.word) (harg : (parseInt arg).2 = true)
      (hrest : ScriptRefuses upper words) : ScriptRefuses upper (word :: arg :: words)
  | other {word : Bytes} {words : List Bytes}
      (hword : ∀ o : TimeOption, o.inScript = true → toUpper upper word ≠ o.word)
      (hrest : ScriptRefuses upper words) : ScriptRefuses upper (word :: words)

/-- `TTLMs` after options, the last time counting. -/
def lastTtlMs (t : Nat) (options : List SetOption) : Int64 :=
  (options.filterMap SetOption.time?).getLast?.elim 0 fun p => p.1.ttlMs t p.2

/-- The call `redis.call("SET", args...)` and the request SET with these arguments build one
command, or both are rejected. -/
def SameSet (vm : LuaVM) (srv : Server) (views : Nat → ReadView) (name : Bytes)
    (args : List Bytes) : Prop :=
  (parseCommandForLua vm (ascii "SET") args).toOption =
    requestCommand (handleSet srv views (name :: args))

/-- The words are options of which EXAT and PXAT do not decide the expiry, or they are no options
and an EX or PX lacks its number for the script too. -/
def SetWordsAgree (upper : Bytes → Bytes) (t : Nat) (words : List Bytes) : Prop :=
  (∃ options, Spells upper options words ∧
      lastTtlMs t options = lastTtlMs t (options.filter SetOption.inScript)) ∨
    (ScriptRefuses upper words ∧ ∀ options, ¬ Spells upper options words)

end Badis
