import Badis.Lib.Bytes

/-!
# msgpack strings, arrays and maps

The part of the msgpack format that holds strings (in the raw family of the old specification),
arrays of strings and string maps. Every reader takes a byte string and returns
what it read with the rest, and reads back what the writer wrote in front of any rest. A length of
`2 ^ 32` or more, for which the format has no header, is written behind the reserved byte `0xc1`.
-/

namespace Lib

namespace Msgpack

/-! ## Fixed-width and unary fields -/

/-- Read `n` bytes. -/
def readChunk (n : Nat) (b : Bytes) : Option (Bytes × Bytes) :=
  if n ≤ b.length then some (b.take n, b.drop n) else none

theorem readChunk_append {b : Bytes} {n : Nat} (h : b.length = n) (rest : Bytes) :
    readChunk n (b ++ rest) = some (b, rest) := by
  subst h
  unfold readChunk
  rw [if_pos (by simp), List.take_left, List.drop_left]

/-- Read a `w`-byte number. -/
def readNat (w : Nat) (b : Bytes) : Option (Nat × Bytes) :=
  (readChunk w b).map fun p => (fromBigEndian p.1, p.2)

theorem readNat_append {w n : Nat} (h : n < 256 ^ w) (rest : Bytes) :
    readNat w (bigEndian w n ++ rest) = some (n, rest) := by
  unfold readNat
  rw [readChunk_append (length_bigEndian w n), Option.map_some, fromBigEndian_bigEndian h]

/-- Read a run of `1`s that a `0` ends. -/
def readUnary : Bytes → Option (Nat × Bytes)
  | [] => none
  | b :: rest =>
    if b = 1 then (readUnary rest).map fun p => (p.1 + 1, p.2)
    else if b = 0 then some (0, rest)
    else none

theorem readUnary_append (n : Nat) (rest : Bytes) :
    readUnary (List.replicate n 1 ++ 0 :: rest) = some (n, rest) := by
  induction n with
  | zero => simp [readUnary]
  | succ n ih => simp [List.replicate_succ, readUnary, ih]

/-! ## Headers -/

/-- The header bytes of one kind of value: the first of the fixed-length bytes and their number, and
the bytes that announce a length of two and of four bytes. -/
structure Kind where
  fixMin : Nat
  fixCount : Nat
  b16 : UInt8
  b32 : UInt8
  fix_le : fixMin + fixCount ≤ 192
  lt16 : 193 < b16.toNat
  lt32 : 193 < b32.toNat
  ne : b16 ≠ b32

/-- Strings. -/
def str : Kind := ⟨0xa0, 32, 0xda, 0xdb, by decide, by decide, by decide, by decide⟩

/-- Arrays. -/
def array : Kind := ⟨0x90, 16, 0xdc, 0xdd, by decide, by decide, by decide, by decide⟩

/-- Maps. -/
def map : Kind := ⟨0x80, 16, 0xde, 0xdf, by decide, by decide, by decide, by decide⟩

/-- The header of a value with `n` bytes or elements. -/
def header (k : Kind) (n : Nat) : Bytes :=
  if n < k.fixCount then [UInt8.ofNat (k.fixMin + n)]
  else if n < 256 ^ 2 then k.b16 :: bigEndian 2 n
  else if n < 256 ^ 4 then k.b32 :: bigEndian 4 n
  else 0xc1 :: (List.replicate n 1 ++ [0])

/-- Read a header. -/
def readHeader (k : Kind) : Bytes → Option (Nat × Bytes)
  | [] => none
  | b :: rest =>
    if k.fixMin ≤ b.toNat ∧ b.toNat < k.fixMin + k.fixCount then some (b.toNat - k.fixMin, rest)
    else if b = k.b16 then readNat 2 rest
    else if b = k.b32 then readNat 4 rest
    else if b = 0xc1 then readUnary rest
    else none

/-- A header is read back whichever of its widths the length took. -/
theorem readHeader_append (k : Kind) (n : Nat) (rest : Bytes) :
    readHeader k (header k n ++ rest) = some (n, rest) := by
  have hle := k.fix_le
  have hlt16 := k.lt16
  have hlt32 := k.lt32
  have hc1 : (0xc1 : UInt8).toNat = 193 := rfl
  unfold header
  split_ifs with hfix h16 h32
  · have hbyte : (UInt8.ofNat (k.fixMin + n)).toNat = k.fixMin + n := by
      rw [UInt8.toNat_ofNat']
      omega
    simp only [List.singleton_append, readHeader, hbyte]
    rw [if_pos (by omega)]
    simp
  · simp only [List.cons_append, readHeader]
    rw [if_neg (by omega), if_true]
    exact readNat_append h16 rest
  · simp only [List.cons_append, readHeader]
    rw [if_neg (by omega), if_neg (fun h => k.ne h.symm), if_true]
    exact readNat_append h32 rest
  · have hne16 : (0xc1 : UInt8) ≠ k.b16 := fun h => by rw [← h] at hlt16; omega
    have hne32 : (0xc1 : UInt8) ≠ k.b32 := fun h => by rw [← h] at hlt32; omega
    simp only [List.cons_append, readHeader]
    rw [if_neg (by omega), if_neg hne16, if_neg hne32, if_true, List.append_assoc]
    exact readUnary_append n rest

/-! ## Strings, arrays and maps -/

/-- A string. -/
def encodeStr (s : Bytes) : Bytes := header str s.length ++ s

/-- Read a string. -/
def readStr (b : Bytes) : Option (Bytes × Bytes) := do
  let (n, rest) ← readHeader str b
  readChunk n rest

theorem readStr_append (s rest : Bytes) : readStr (encodeStr s ++ rest) = some (s, rest) := by
  unfold readStr encodeStr
  rw [List.append_assoc, readHeader_append]
  exact readChunk_append rfl rest

/-- Read `n` values one after the other. -/
def readMany {α : Type} (read : Bytes → Option (α × Bytes)) : Nat → Bytes → Option (List α × Bytes)
  | 0, b => some ([], b)
  | n + 1, b => do
    let (x, rest) ← read b
    let (xs, rest) ← readMany read n rest
    return (x :: xs, rest)

/-- Values that are read back one by one are read back in a row. -/
theorem readMany_append {α : Type} {read : Bytes → Option (α × Bytes)} {encode : α → Bytes}
    (h : ∀ x rest, read (encode x ++ rest) = some (x, rest)) (l : List α) (rest : Bytes) :
    readMany read l.length (l.flatMap encode ++ rest) = some (l, rest) := by
  induction l with
  | nil => rfl
  | cons x l ih =>
    rw [List.flatMap_cons, List.append_assoc, List.length_cons, readMany, h]
    simp only [Option.bind_eq_bind, Option.bind_some, ih]
    rfl

/-- A slice of strings; the nil slice is written as nil. -/
def encodeStrs (l : List Bytes) : Bytes :=
  if l = [] then [0xc0] else header array l.length ++ l.flatMap encodeStr

/-- Read a slice of strings. -/
def decodeStrs (b : Bytes) : Option (List Bytes) :=
  if b.head? = some 0xc0 then some []
  else do
    let (n, rest) ← readHeader array b
    let (l, _) ← readMany readStr n rest
    return l

theorem header_head?_ne (k : Kind) (n : Nat) : (header k n).head? ≠ some 0xc0 := by
  have hle := k.fix_le
  have hlt16 := k.lt16
  have hlt32 := k.lt32
  have hc0 : (0xc0 : UInt8).toNat = 192 := rfl
  have hc1 : (0xc1 : UInt8).toNat = 193 := rfl
  intro h
  unfold header at h
  split_ifs at h with hfix h16 h32
  all_goals have hbyte := congrArg UInt8.toNat (Option.some.inj h)
  · rw [UInt8.toNat_ofNat'] at hbyte
    omega
  · omega
  · omega
  · omega

theorem decodeStrs_encodeStrs (l : List Bytes) : decodeStrs (encodeStrs l) = some l := by
  unfold decodeStrs encodeStrs
  by_cases hl : l = []
  · simp [hl]
  · have hhead : (header array l.length ++ l.flatMap encodeStr).head? ≠ some 0xc0 := by
      have hne : header array l.length ≠ [] := by
        unfold header
        split_ifs <;> simp
      rw [List.head?_append_of_ne_nil _ hne]
      exact header_head?_ne array l.length
    have hmany := readMany_append readStr_append l []
    rw [List.append_nil] at hmany
    rw [if_neg hl, if_neg hhead, readHeader_append]
    simp only [Option.bind_eq_bind, Option.bind_some, hmany]
    rfl

/-- A binding of a map. -/
def encodePair (p : Bytes × Bytes) : Bytes := encodeStr p.1 ++ encodeStr p.2

/-- Read a binding of a map. -/
def readPair (b : Bytes) : Option ((Bytes × Bytes) × Bytes) := do
  let (k, rest) ← readStr b
  let (v, rest) ← readStr rest
  return ((k, v), rest)

theorem readPair_append (p : Bytes × Bytes) (rest : Bytes) :
    readPair (encodePair p ++ rest) = some (p, rest) := by
  unfold readPair encodePair
  rw [List.append_assoc, readStr_append]
  simp only [Option.bind_eq_bind, Option.bind_some, readStr_append]
  rfl

/-- A string map, its bindings in the order given. -/
def encodeMap (l : List (Bytes × Bytes)) : Bytes := header map l.length ++ l.flatMap encodePair

/-- Read a string map: a later binding of a key replaces an earlier one. -/
def decodeMap (b : Bytes) : Option (OrdMap Bytes Bytes) := do
  let (n, rest) ← readHeader map b
  let (l, _) ← readMany readPair n rest
  return l.foldl (fun m p => m.insert p.1 p.2) OrdMap.empty

/-- A map is read back from its pairs in any order. -/
theorem decodeMap_encodeMap {h : OrdMap Bytes Bytes} {l : List (Bytes × Bytes)}
    (hperm : l.Perm h.entries) : decodeMap (encodeMap l) = some h := by
  have hmany := readMany_append readPair_append l []
  rw [List.append_nil] at hmany
  unfold decodeMap encodeMap
  rw [readHeader_append]
  simp only [Option.bind_eq_bind, Option.bind_some, hmany]
  have hnd : (l.map Prod.fst).Nodup := (hperm.map Prod.fst).nodup_iff.mpr h.keys_nodup
  refine congrArg some (OrdMap.ext_get? fun k => Option.ext fun v => ?_)
  rw [OrdMap.get?_foldl_insert hnd, hperm.mem_iff, ← OrdMap.get?_eq_some_iff]
  simp

end Msgpack

end Lib
