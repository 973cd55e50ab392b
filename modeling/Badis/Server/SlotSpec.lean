import Badis.Lib.Crc
import Badis.Server.Router

/-!
# The slot of a key as a remainder

The checksum that a cluster's slots are taken from is CRC-16/XMODEM. A message is a polynomial over
GF(2), and its checksum the remainder of this polynomial, moved up by sixteen places, by
`X ^ 16 + X ^ 12 + X ^ 5 + 1`. There is no initial value, no reflection and no final exclusive or.
-/

namespace Badis

open Lib Polynomial

/-- The bits of a message: the bytes in order, the most significant bit of each first. -/
def messageBits (data : Bytes) : List Bool := data.flatMap fun b => wordBits b.toBitVec

/-- The polynomial of a message. -/
noncomputable def messagePoly (data : Bytes) : (ZMod 2)[X] := bitsPoly (messageBits data)

/-- The generator of CRC-16/XMODEM. -/
noncomputable def xmodem : (ZMod 2)[X] := X ^ 16 + X ^ 12 + X ^ 5 + 1

/-- The checksum of a message, as a polynomial. -/
noncomputable def checksum (data : Bytes) : (ZMod 2)[X] := messagePoly data * X ^ 16 %ₘ xmodem

end Badis
