import Badis.Lib.Bytes

/-!
# SHA-1 and hexadecimal text

`Sha1.sum` is the hash of a byte string and `encodeHex` its lower-case hexadecimal text. What the
users of a hash need besides its value is its length.
-/

namespace Lib

namespace Sha1

def rotl (x : UInt32) (n : UInt32) : UInt32 := (x <<< n) ||| (x >>> (32 - n))

/-- The message, a `1` bit, zeros up to 56 bytes modulo 64, and the length in bits. -/
def pad (msg : Bytes) : Bytes :=
  msg ++ 128 :: List.replicate ((119 - msg.length % 64) % 64) 0 ++ bigEndian 8 (8 * msg.length)

/-- The big-endian words of a block. -/
def toWords : Bytes → List UInt32
  | a :: b :: c :: d :: rest => UInt32.ofNat (fromBigEndian [a, b, c, d]) :: toWords rest
  | _ => []

/-- The message schedule extended by `n` words; the words are listed last first. -/
def extend : Nat → List UInt32 → List UInt32
  | 0, ws => ws
  | n + 1, ws =>
    let x := ws.getD 2 0 ^^^ ws.getD 7 0 ^^^ ws.getD 13 0 ^^^ ws.getD 15 0
    extend n (rotl x 1 :: ws)

structure State where
  a : UInt32
  b : UInt32
  c : UInt32
  d : UInt32
  e : UInt32
deriving DecidableEq

def init : State := ⟨0x67452301, 0xEFCDAB89, 0x98BADCFE, 0x10325476, 0xC3D2E1F0⟩

/-- Round `i` with the schedule word `w`. -/
def round (s : State) (i : Nat) (w : UInt32) : State :=
  let (f, k) : UInt32 × UInt32 :=
    if i < 20 then ((s.b &&& s.c) ||| (~~~s.b &&& s.d), 0x5A827999)
    else if i < 40 then (s.b ^^^ s.c ^^^ s.d, 0x6ED9EBA1)
    else if i < 60 then ((s.b &&& s.c) ||| (s.b &&& s.d) ||| (s.c &&& s.d), 0x8F1BBCDC)
    else (s.b ^^^ s.c ^^^ s.d, 0xCA62C1D6)
  ⟨rotl s.a 5 + f + s.e + k + w, s.a, rotl s.b 30, s.c, s.d⟩

def rounds : Nat → List UInt32 → State → State
  | _, [], s => s
  | i, w :: ws, s => rounds (i + 1) ws (round s i w)

def block (s : State) (b : Bytes) : State :=
  let s' := rounds 0 (extend 64 (toWords b).reverse).reverse s
  ⟨s.a + s'.a, s.b + s'.b, s.c + s'.c, s.d + s'.d, s.e + s'.e⟩

/-- The first `n` blocks of a padded message. -/
def blocks : Nat → Bytes → State → State
  | 0, _, s => s
  | n + 1, msg, s => blocks n (msg.drop 64) (block s (msg.take 64))

def State.bytes (s : State) : Bytes :=
  bigEndian 4 s.a.toNat ++ bigEndian 4 s.b.toNat ++ bigEndian 4 s.c.toNat ++
    bigEndian 4 s.d.toNat ++
    bigEndian 4 s.e.toNat

/-- The SHA-1 hash of a message. -/
def sum (msg : Bytes) : Bytes :=
  (blocks ((pad msg).length / 64) (pad msg) init).bytes

@[simp] theorem length_sum (msg : Bytes) : (sum msg).length = 20 := by
  simp [sum, State.bytes]

end Sha1

def hexDigit (n : Nat) : UInt8 := UInt8.ofNat (if n < 10 then 48 + n else 87 + n)

/-- The lower-case hexadecimal text of a byte string. -/
def encodeHex (b : Bytes) : Bytes :=
  b.flatMap fun d => [hexDigit (d.toNat / 16), hexDigit (d.toNat % 16)]

@[simp] theorem length_encodeHex (b : Bytes) : (encodeHex b).length = 2 * b.length := by
  induction b with
  | nil => rfl
  | cons d b ih =>
    have hcons : encodeHex (d :: b) =
        [hexDigit (d.toNat / 16), hexDigit (d.toNat % 16)] ++ encodeHex b := rfl
    rw [hcons, List.length_append, ih, List.length_cons, List.length_cons, List.length_cons,
      List.length_nil]
    omega

example :
    encodeHex (Sha1.sum (ascii "abc")) = ascii "a9993e364706816aba3e25717850c26c9cd0d89d" := by
  decide +kernel

end Lib
