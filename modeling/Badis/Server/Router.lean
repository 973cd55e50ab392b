import Badis.Server.Requests

/-!
# `router/router.go` and `config/slotmap.go`: which node has a key

A key belongs to the slot that its CRC16 gives, and a slot to the shard that the slot map names.
`handleCmd` looks at the second argument of a request alone.
-/

namespace Badis

open Lib

/-- One round of the inner loop of `crc16`. -/
def crc16Shift (crc : UInt16) : UInt16 :=
  if crc &&& 0x8000 ≠ 0 then (crc <<< 1) ^^^ 0x1021 else crc <<< 1

/-- One round of the outer loop of `crc16`: a byte. -/
def crc16Byte (crc : UInt16) (b : UInt8) : UInt16 :=
  (List.range 8).foldl (fun crc _ => crc16Shift crc) (crc ^^^ (b.toUInt16 <<< 8))

/-- `crc16`. -/
def crc16 (data : Bytes) : UInt16 := data.foldl crc16Byte 0

/-- `Router.KeyToSlot`. -/
def keyToSlot (key : Bytes) : UInt16 := crc16 key % 16384

example : keyToSlot (ascii "foo") = 12182 := by decide +kernel

/-- `SlotInfo`. -/
structure SlotInfo where
  shardID : Bytes := []
  ip : Bytes := []
deriving DecidableEq

/-- `SlotMap`. -/
structure SlotMap where
  version : UInt64
  slots : UInt16 → Option SlotInfo

namespace SlotMap

/-- `NewSlotMap`. -/
def new : SlotMap := ⟨0, fun _ => none⟩

/-- `SlotMap.SetOwner`. -/
def setOwner (s : SlotMap) (slot : UInt16) (shardID ip : Bytes) : SlotMap :=
  ⟨s.version + 1, fun i => if i = slot then some ⟨shardID, ip⟩ else s.slots i⟩

/-- `SlotMap.GetOwner`: a slot without an entry has the zero value. -/
def getOwner (s : SlotMap) (slot : UInt16) : Bytes × Bytes :=
  let info := (s.slots slot).getD {}
  (info.shardID, info.ip)

end SlotMap

/-- `Router`, with the fields that `LocateKey` reads. -/
structure Router where
  slotMap : SlotMap
  localName : Bytes

/-- `Router.LocateKey`. -/
def Router.locateKey (r : Router) (key : Bytes) : Bytes × Bytes × Bool :=
  let slot := keyToSlot key
  let (shardID, ip) := r.slotMap.getOwner slot
  (shardID, ip, shardID = r.localName)

/-- What `handleCmd` does with a request: it writes some bytes, answers with an error, hands the
request to the mux, or sends it to another node. -/
inductive Route where
  | raw (bytes : Bytes)
  | error (msg : Bytes)
  | serve
  | proxy (ip : Bytes) (args : List Bytes)
deriving DecidableEq

/-- `handleCmd` up to the reply of another node. -/
def handleCmd (srv : Server) (router : Router) (args : List Bytes) : Except Err Route := do
  let cmdName := toUpper srv.upper (← goIndex args 0)
  if cmdName = ascii "HELLO" then
    return .raw (ascii "%2\r\n$6\r\nserver\r\n$5\r\nredis\r\n$7\r\nversion\r\n$5\r\n7.0.0\r\n")
  else if cmdName = ascii "CLIENT" ∨ cmdName = ascii "EVAL" ∨ cmdName = ascii "EVALSHA" ∨
      cmdName = ascii "SCRIPT" then return .serve
  else if args.length < 2 then
    if cmdName = ascii "PING" ∨ cmdName = ascii "FLUSHDB" then return .serve
    else
      return .error (ascii "ERR wrong number of arguments for '" ++ toLower srv.lower cmdName ++
        ascii "' command")
  else
    let key ← goIndex args 1
    let (_, ip, isLocal) := router.locateKey key
    -- an empty address is a slot map that has not been filled
    if isLocal = true ∨ ip = [] then return .serve
    else return .proxy ip args

end Badis
