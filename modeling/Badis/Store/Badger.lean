import Badis.Lib.Bytes
import Badis.Lib.Txn

/-!
# The badger database

What the store uses of badger: one ordered map from byte strings to entries, transactions over it,
iterators in key order, and the backup stream. An entry carries an expiry in whole Unix seconds and
is invisible to reads and iterators from that second on; the raw entry stays in the map until it is
overwritten or deleted.

Instants are readings of the wall clock in nanoseconds since 1970.

Badger limits a transaction: it refuses a write with `ErrTxnTooBig` once there are too many of them
or they are too large (`TxnLimit`). The calls that write any number of entries are modelled with
these limits. For the others, which write a few entries each (`setEntry`, `txnDelete`), it is
assumed that badger takes what they write: the key has at most 65000 bytes, the value fits into a
value log file, and the transaction has room for it.
-/

namespace Badis

open Lib

/-- A stored entry: the value and the expiry (`ExpiresAt`, a Unix second; `0` means no expiry). -/
structure Entry where
  /-- The value bytes. -/
  value : Bytes
  /-- The expiry second, `0` for none. -/
  expiresAt : UInt64
deriving DecidableEq

/-- The database: entries under byte-string keys in lexicographic order. -/
abbrev DB := OrdMap Bytes Entry

/-- `time.Now().Unix()` at the clock reading `t`. -/
def unixNow (t : Nat) : Nat := t / 1000000000

/-- `badger.NewEntry`. -/
def newEntry (value : Bytes) : Entry := ⟨value, 0⟩

/-- `Entry.WithTTL(d)` at the clock reading `t`: the expiry becomes the whole second of `t + d`,
converted to `uint64`. The duration `d` is in nanoseconds. -/
def Entry.withTTL (e : Entry) (t : Nat) (d : Int64) : Entry :=
  { e with expiresAt := UInt64.ofInt ((t + d.toInt) / 1000000000) }

/-- Whether an entry is visible at the clock reading `t` (the negation of `isDeletedOrExpired`). -/
def Entry.live (t : Nat) (e : Entry) : Bool := e.expiresAt = 0 || unixNow t < e.expiresAt.toNat

/-- `Item.ValueCopy(nil)`: a Go byte slice, never the nil slice (`none`). The copy of an empty value
is an empty slice (`y.SafeCopy`). -/
def Entry.valueCopy (e : Entry) : Option Bytes := some e.value

namespace DB

/-- The visible entry under `key` at the clock reading `t`. -/
def getLive (t : Nat) (db : DB) (key : Bytes) : Option Entry := (db.get? key).filter (Entry.live t)

/-- The visible entries in key order: what an iterator opened at the clock reading `t` runs over. -/
def liveEntries (t : Nat) (db : DB) : List (Bytes × Entry) := db.entries.filter fun e => e.2.live t

/-- `for it.Seek(p); it.ValidForPrefix(p); it.Next()`: the visible entries an iterator yields. -/
def scanPrefix (t : Nat) (p : Bytes) (db : DB) : List (Bytes × Entry) :=
  OrdMap.scan p (liveEntries t db)

/-- A forward `it.Seek(key)`: the item the iterator stands on. -/
def seek (t : Nat) (key : Bytes) (db : DB) : Option (Bytes × Entry) :=
  ((liveEntries t db).dropWhile fun e => e.1 < key).head?

/-- `it.Seek(key)` of a reverse iterator: the item with the greatest key not above `key`. -/
def seekReverse (t : Nat) (key : Bytes) (db : DB) : Option (Bytes × Entry) :=
  ((liveEntries t db).reverse.dropWhile fun e => key < e.1).head?

/-- `DB.Backup(w, 0)`. It is an assumption on badger that the stream holds every visible entry of
the database, and nothing else. -/
def backup (t : Nat) (db : DB) : List (Bytes × Entry) := liveEntries t db

/-- `DB.Load`. It is an assumption on badger that every streamed entry, with its expiry, is written
over the target, which keeps its other entries. -/
def load (stream : List (Bytes × Entry)) (db : DB) : DB :=
  stream.foldl (fun db e => db.insert e.1 e.2) db

end DB

variable {ε : Type}

/-- `txn.Get`: the entry, or `none` for `ErrKeyNotFound`. -/
def txnGet (t : Nat) (key : Bytes) : Txn DB ε (Option Entry) := Txn.reads fun db => db.getLive t key

/-- `txn.SetEntry`, which is assumed to succeed. -/
def setEntry (key : Bytes) (e : Entry) : Txn DB ε Unit := Txn.modify fun db => db.insert key e

/-- `txn.Delete`, which is assumed to succeed. -/
def txnDelete (key : Bytes) : Txn DB ε Unit := Txn.modify fun db => db.erase key

/-! ## What fits into a transaction -/

/-- The limits of a transaction: how many writes it takes (`maxBatchCount`) and how many bytes
(`maxBatchSize`), and from which length on a value is counted by its pointer (`ValueThreshold`). -/
structure TxnLimit where
  maxBatchCount : Nat
  maxBatchSize : Nat
  valueThreshold : Nat

namespace TxnLimit

/-- The limits under `badger.DefaultOptions`: 15 percent of a memory table of 64 MiB, at 96 bytes
for a node. -/
def default : TxnLimit := ⟨104857, 10066329, 1048576⟩

variable (lim : TxnLimit)

/-- How many writes a new transaction takes. One is counted for its end, and the count must stay
below the limit. -/
def writes : Nat := lim.maxBatchCount - 2

/-- Below how many bytes the writes of a new transaction must stay. Its end takes 21. -/
def bytes : Nat := lim.maxBatchSize - 21

/-- The bytes of a write: `estimateSizeAndSetThreshold` and ten bytes for the version. -/
def cost (key value : Bytes) : Nat :=
  key.length + (if value.length < lim.valueThreshold then value.length else 12) + 12

/-- The bytes of a write, which is a deletion if there is no value. -/
def costOf (w : Bytes × Option Bytes) : Nat := lim.cost w.1 (w.2.getD [])

end TxnLimit

/-- The database after a write. -/
def DB.write (db : DB) (w : Bytes × Option Bytes) : DB :=
  match w.2 with
  | some value => db.insert w.1 (newEntry value)
  | none => db.erase w.1

namespace TxnLimit

/-- Writes one after the other, in a transaction that takes `count` more of them and fewer than
`size` more bytes. `none` stands for `ErrTxnTooBig`. -/
def writeAll (lim : TxnLimit) : Nat → Nat → List (Bytes × Option Bytes) → DB → Option DB
  | _, _, [], db => some db
  | 0, _, _ :: _, _ => none
  | count + 1, size, w :: rest, db =>
    if lim.costOf w < size then writeAll lim count (size - lim.costOf w) rest (db.write w) else none

/-- `db.Update` with these writes: the database after the commit, or `none` if the transaction is
refused. -/
def update (lim : TxnLimit) (ws : List (Bytes × Option Bytes)) (db : DB) : Option DB :=
  lim.writeAll lim.writes lim.bytes ws db

/-- The writes fit into one transaction. -/
def fits (lim : TxnLimit) (ws : List (Bytes × Option Bytes)) : Bool :=
  ws = [] || ws.length ≤ lim.writes && (ws.map lim.costOf).sum < lim.bytes

end TxnLimit

end Badis
