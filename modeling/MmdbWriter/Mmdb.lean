import MmdbWriter.Ipnet
import MmdbWriter.Lib.Bits
import MmdbWriter.Lib.Bytes
import MmdbWriter.Value

/-!
# The file format

A reader of the format as its specification describes it: the values of a data section, pointers
followed relative to the section's start, the records of the search tree, and the metadata that says
how the tree is laid out.

Decoding a value takes fuel for its nesting and its pointers; a value is decoded if some fuel is
enough.
-/

namespace MmdbWriter.Mmdb

open Bytes (readBe readChunk beNat)

/-- What a control byte announces: a pointer, or a value of a type and a size. -/
inductive Header where
  | pointer (target : ℕ)
  | data (type size : ℕ)
deriving DecidableEq, Repr

/-- The size in the low five bits of a control byte, with the bytes that extend it. -/
def readSize (type size : ℕ) (b : List UInt8) : Option (Header × List UInt8) :=
  if size < 29 then some (.data type size, b)
  else do
    let (ext, b) ← readBe (size - 28) b
    let base := if size = 29 then 29 else if size = 30 then 285 else 65821
    some (.data type (base + ext), b)

/-- The target of a pointer with the control byte `c`. -/
def readPointer (c : ℕ) (b : List UInt8) : Option (Header × List UInt8) := do
  let size := c / 8 % 4
  let (n, b) ← readBe (size + 1) b
  let high := c % 8 * 256 ^ (size + 1)
  let target := if size = 0 then high + n
    else if size = 1 then high + n + 2048
    else if size = 2 then high + n + 526336
    else n
  some (.pointer target, b)

/-- The control byte. Type 0 is followed by the number of an extended type, and then by the bytes of
the size. -/
def readHeader : List UInt8 → Option (Header × List UInt8)
  | [] => none
  | c :: b =>
    let type := c.toNat / 32
    if type = 1 then readPointer c.toNat b
    else if type = 0 then
      match b with
      | [] => none
      | t :: b => readSize (t.toNat + 7) (c.toNat % 32) b
    else readSize type (c.toNat % 32) b

/-- The value of a type that is spelled by its payload alone. -/
def decodeScalar (type : ℕ) (payload : List UInt8) : Option Value :=
  match type with
  | 2 => (String.fromUTF8? ⟨payload.toArray⟩).map .string
  | 3 => if payload.length = 8 then some (.double (BitVec.ofNat 64 (beNat payload))) else none
  | 4 => some (.bytes payload)
  | 5 => if payload.length ≤ 2 then some (.u16 (BitVec.ofNat 16 (beNat payload))) else none
  | 6 => if payload.length ≤ 4 then some (.u32 (BitVec.ofNat 32 (beNat payload))) else none
  | 8 => if payload.length ≤ 4 then some (.i32 (BitVec.ofNat 32 (beNat payload))) else none
  | 9 => if payload.length ≤ 8 then some (.u64 (BitVec.ofNat 64 (beNat payload))) else none
  | 10 => if payload.length ≤ 16 then some (.u128 (BitVec.ofNat 128 (beNat payload))) else none
  | 15 => if payload.length = 4 then some (.float (BitVec.ofNat 32 (beNat payload))) else none
  | _ => none

section Decode

variable (dec : List UInt8 → Option (Value × List UInt8))

/-- `n` values in a row. -/
def decodeItems : ℕ → List UInt8 → Option (List Value × List UInt8)
  | 0, b => some ([], b)
  | n + 1, b => do
    let (v, b) ← dec b
    let (items, b) ← decodeItems n b
    some (v :: items, b)

/-- `n` keys with their values. -/
def decodeEntries : ℕ → List UInt8 → Option (List (String × Value) × List UInt8)
  | 0, b => some ([], b)
  | n + 1, b =>
    match dec b with
    | some (.string k, b) => do
      let (v, b) ← dec b
      let (entries, b) ← decodeEntries n b
      some ((k, v) :: entries, b)
    | _ => none

end Decode

/-- The value at the front of `b` and the bytes after it. -/
def decode (data : List UInt8) : (fuel : ℕ) → (b : List UInt8) → Option (Value × List UInt8)
  | 0, _ => none
  | fuel + 1, b =>
    match readHeader b with
    | none => none
    | some (.pointer target, b) => do
      let (v, _) ← decode data fuel (data.drop target)
      some (v, b)
    | some (.data type size, b) =>
      if type = 7 then do
        let (entries, b) ← decodeEntries (decode data fuel) size b
        some (.map entries, b)
      else if type = 11 then do
        let (items, b) ← decodeItems (decode data fuel) size b
        some (.array items, b)
      else if type = 14 then
        if size = 0 then some (.bool false, b)
        else if size = 1 then some (.bool true, b)
        else none
      else do
        let (payload, b) ← readChunk size b
        let v ← decodeScalar type payload
        some (v, b)

/-- The value at an offset of a data section. -/
def Decodes (data : List UInt8) (offset : ℕ) (v : Value) : Prop :=
  ∃ fuel rest, decode data fuel (data.drop offset) = some (v, rest)

/-- What lies where in a data section. -/
inductive Field where
  | value (start stop : ℕ)
  | pointer (pos target : ℕ)
deriving DecidableEq, Repr

section Scan

/-- The fields of `n` values in a row, the first at `pos`. -/
def scanItems (scan : ℕ → List UInt8 → Option (List Field × ℕ × List UInt8)) :
    ℕ → ℕ → List UInt8 → Option (List Field × ℕ × List UInt8)
  | 0, pos, b => some ([], pos, b)
  | n + 1, pos, b => do
    let (fields, pos, b) ← scan pos b
    let (more, pos, b) ← scanItems scan n pos b
    some (fields ++ more, pos, b)

/-- The fields of the value at `pos`, pointers not followed, the position after it and the bytes
from there. -/
def scan : (fuel pos : ℕ) → (b : List UInt8) → Option (List Field × ℕ × List UInt8)
  | 0, _, _ => none
  | fuel + 1, pos, b =>
    match readHeader b with
    | none => none
    | some (.pointer target, b') => some ([.pointer pos target], pos + (b.length - b'.length), b')
    | some (.data type size, b') => do
      let inner := pos + (b.length - b'.length)
      let count := if type = 7 then 2 * size else if type = 11 then size else 0
      let payload := if type = 7 ∨ type = 11 ∨ type = 14 then 0 else size
      let (_, b') ← readChunk payload b'
      let (fields, stop, b') ← scanItems (scan fuel) count (inner + payload) b'
      some (.value pos stop :: fields, stop, b')

/-- The fields of a section of `n` values. -/
def Scans (data : List UInt8) (fields : List Field) : Prop :=
  ∃ fuel n, scanItems (scan fuel) n 0 data = some (fields, data.length, [])

/-- Every pointer leads to a value that is complete before the pointer, and not to a pointer. -/
def PointerSafe (data : List UInt8) : Prop :=
  ∃ fields, Scans data fields ∧ ∀ pos target, .pointer pos target ∈ fields →
    target < pos ∧ ∃ stop, stop ≤ pos ∧ .value target stop ∈ fields

end Scan

section Tree

/-- One record of a node, for each record size the format has. -/
def readRecord (tree : List UInt8) (recordSize node : ℕ) (bit : Bool) : Option ℕ :=
  if recordSize = 24 then
    (readBe 3 (tree.drop (6 * node + if bit then 3 else 0))).map Prod.fst
  else if recordSize = 28 then do
    let (middle, _) ← readBe 1 (tree.drop (7 * node + 3))
    let (low, _) ← readBe 3 (tree.drop (7 * node + if bit then 4 else 0))
    some ((if bit then middle % 16 else middle / 16) * 2 ^ 24 + low)
  else if recordSize = 32 then
    (readBe 4 (tree.drop (8 * node + if bit then 4 else 0))).map Prod.fst
  else none

/-- Follow the bits from a node until a record that is no node. -/
def walk (tree : List UInt8) (nodeCount recordSize : ℕ) : (bits : List Bool) → (node : ℕ) → Option ℕ
  | [], _ => none
  | bit :: bits, node => do
    let record ← readRecord tree recordSize node bit
    if record < nodeCount then walk tree nodeCount recordSize bits record else some record

/-- The data section follows the tree and 16 bytes. -/
def dataSection (database : List UInt8) (nodeCount recordSize : ℕ) : List UInt8 :=
  database.drop (nodeCount * (recordSize / 4) + 16)

/-- The fields of the metadata that a lookup needs. -/
structure Layout where
  nodeCount : ℕ
  recordSize : ℕ
  ipVersion : ℕ
deriving DecidableEq, Repr

/-- The layout a metadata section announces. -/
def HasLayout (metadata : List UInt8) (layout : Layout) : Prop :=
  ∃ m nodeCount recordSize ipVersion, Decodes metadata 0 (.map m) ∧
    mapGet "node_count" m = some (.u32 nodeCount) ∧
    mapGet "record_size" m = some (.u16 recordSize) ∧
    mapGet "ip_version" m = some (.u16 ipVersion) ∧
    layout = ⟨nodeCount.toNat, recordSize.toNat, ipVersion.toNat⟩

/-- The bits to follow for an address: an IPv4 address of an IPv6 database has 96 zeros before
it. -/
def addressBits (ipVersion : ℕ) : IpAddr → Option (List Bool)
  | .v4 x => if ipVersion = 6 then some (List.replicate 96 false ++ x.msbs) else some x.msbs
  | .v6 x => if ipVersion = 6 then some x.msbs else none

/-- The search tree has no data for the bits, or data at an offset of the data section. -/
def FindsAt (database : List UInt8) (layout : Layout) (bits : List Bool) (result : Option ℕ) : Prop :=
  ∃ record, walk database layout.nodeCount layout.recordSize bits 0 = some record ∧
    match result with
    | none => record = layout.nodeCount
    | some offset => record = layout.nodeCount + 16 + offset

/-- A lookup of the address in the database before the marker, with the metadata after it, finds no
data or the value. -/
def Finds (database metadata : List UInt8) (ip : IpAddr) (result : Option Value) : Prop :=
  ∃ layout bits, HasLayout metadata layout ∧ addressBits layout.ipVersion ip = some bits ∧
    match result with
    | none => FindsAt database layout bits none
    | some v => ∃ offset, FindsAt database layout bits (some offset) ∧
        Decodes (dataSection database layout.nodeCount layout.recordSize) offset v

end Tree

end MmdbWriter.Mmdb
