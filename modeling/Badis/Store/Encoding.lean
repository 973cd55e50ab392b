import Badis.Lib.Msgpack
import Badis.Store.Command

/-!
# `store/encoding.go`: the msgpack codec

The codec of the values as the msgpack library writes and reads them.
-/

namespace Badis

open Lib

/-- `encodeMsgpack` and `decodeMsgpack` on `[]string` and `map[string]string`. -/
def msgpack : Codec where
  encodeStrings := Msgpack.encodeStrs
  decodeStrings := Msgpack.decodeStrs
  encodeMap := Msgpack.encodeMap
  decodeMap := Msgpack.decodeMap

theorem msgpack_lawful : msgpack.Lawful where
  decodeStrings_encodeStrings := Msgpack.decodeStrs_encodeStrs
  decodeMap_encodeMap _ _ := Msgpack.decodeMap_encodeMap

end Badis
