import MmdbWriter.Value

/-!
# The data section

The stateful encoder of values, which replaces a repeated value by a pointer to its first emission.
`debug_assert!` is compiled out: a length past `u32` saturates.
-/

namespace MmdbWriter

/-- The bytes of a string, `str::as_bytes`. -/
def strBytes (s : String) : List UInt8 := s.toByteArray.data.toList

/-- The low `k` bytes of a number, the most significant first. -/
def beBytes (k n : ℕ) : List UInt8 :=
  (List.range k).map fun i => UInt8.ofNat (n >>> (8 * (k - 1 - i)))

/-- Type tag in the control byte's high 3 bits. -/
inductive TypeTag where
  | extended
  | pointer
  | utf8
  | double
  | bytes
  | uint16
  | uint32
  | map
deriving DecidableEq, Repr

def TypeTag.code : TypeTag → UInt8
  | .extended => 0
  | .pointer => 1
  | .utf8 => 2
  | .double => 3
  | .bytes => 4
  | .uint16 => 5
  | .uint32 => 6
  | .map => 7

/-- Extended-type indicator byte. -/
inductive ExtendedType where
  | int32
  | uint64
  | uint128
  | array
  | bool
  | float
deriving DecidableEq, Repr

def ExtendedType.code : ExtendedType → UInt8
  | .int32 => 1
  | .uint64 => 2
  | .uint128 => 3
  | .array => 4
  | .bool => 7
  | .float => 8

/-- The offset and the byte length of a value's first emission. -/
structure DedupEntry where
  offset : ℕ
  len : ℕ
deriving DecidableEq, Repr

/-- `u32_from_usize`. -/
def u32FromUsize (v : ℕ) : ℕ := min v u32Max

/-- `pointer_bytes`. -/
def pointerBytes (offset : ℕ) : ℕ :=
  if offset < 2048 then 2
  else if offset < 526336 then 3
  else if offset < 134744064 then 4
  else 5

/-- `encode_uint_trimmed`: the bytes it appends, leading zeros trimmed. -/
def encodeUintTrimmed (value maxBytes : ℕ) : List UInt8 :=
  if value = 0 then []
  else ((beBytes 16 value).drop (16 - maxBytes)).dropWhile (· == 0)

/-- `encode_i32_trimmed`: the two's complement bits as an unsigned number. -/
def encodeI32Trimmed (value : BitVec 32) : List UInt8 := encodeUintTrimmed value.toNat 4

/-- The bytes `write_control_byte` appends. -/
def controlByte (tag : TypeTag) (size : ℕ) : List UInt8 :=
  let tagBits := tag.code <<< 5
  if size < 29 then [tagBits ||| UInt8.ofNat size]
  else if size < 29 + 256 then [tagBits ||| 0x1d, UInt8.ofNat (size - 29)]
  else if size < 285 + 65536 then (tagBits ||| 0x1e) :: beBytes 2 (size - 285)
  else (tagBits ||| 31) :: (beBytes 4 (u32FromUsize (size - 65821))).drop 1

/-- The bytes `write_pointer` appends. -/
def pointerEncoding (offset : ℕ) : List UInt8 :=
  let tagBits := TypeTag.pointer.code <<< 5
  if offset < 2048 then
    [tagBits ||| UInt8.ofNat ((offset >>> 8) &&& 0b111), UInt8.ofNat (offset &&& 0xFF)]
  else if offset < 526336 then
    let biased := offset - 2048
    [tagBits ||| ((1 : UInt8) <<< 3) ||| UInt8.ofNat ((biased >>> 16) &&& 0b111),
      UInt8.ofNat ((biased >>> 8) &&& 0xFF), UInt8.ofNat (biased &&& 0xFF)]
  else if offset < 134744064 then
    let biased := offset - 526336
    [tagBits ||| ((2 : UInt8) <<< 3) ||| UInt8.ofNat ((biased >>> 24) &&& 0b111),
      UInt8.ofNat ((biased >>> 16) &&& 0xFF), UInt8.ofNat ((biased >>> 8) &&& 0xFF),
      UInt8.ofNat (biased &&& 0xFF)]
  else (tagBits ||| ((3 : UInt8) <<< 3)) :: beBytes 4 offset

/-- The bytes `write_extended_header` appends. -/
def extendedHeader (ext : ExtendedType) (size : ℕ) : List UInt8 :=
  controlByte .extended size ++ [ext.code]

/-- The bytes `write_blob` appends. -/
def blob (tag : TypeTag) (data : List UInt8) : List UInt8 := controlByte tag data.length ++ data

/-- The bytes `write_uint` appends. -/
def uintEncoding (tag : TypeTag) (value maxBytes : ℕ) : List UInt8 :=
  let buf := encodeUintTrimmed value maxBytes
  controlByte tag buf.length ++ buf

/-- The bytes `write_extended` appends. -/
def extendedEncoding (ext : ExtendedType) (payload : List UInt8) : List UInt8 :=
  extendedHeader ext payload.length ++ payload

/-- Stateful data-section encoder. The dedup table is a `HashMap` kept as the list of its entries,
the newest first. -/
structure DataSection where
  bytes : List UInt8
  dedup : List (Value × DedupEntry)
  noPointers : Bool
deriving Repr

namespace DataSection

def new : DataSection := ⟨[], [], false⟩

def withoutPointers : DataSection := { new with noPointers := true }

def len (d : DataSection) : ℕ := d.bytes.length

/-- `u32_len(&self.bytes)`. -/
def u32Len (d : DataSection) : ℕ := u32FromUsize d.bytes.length

def append (d : DataSection) (b : List UInt8) : DataSection := { d with bytes := d.bytes ++ b }

/-- The inline part of `emit_inline`: encode, and keep the first emission's entry. -/
def emitFresh (encode : DataSection → DataSection) (value : Value) (d : DataSection) :
    DataSection :=
  let offset := d.u32Len
  let d' := encode d
  match d'.dedup.lookup value with
  | some _ => d'
  | none => { d' with dedup := (value, ⟨offset, d'.u32Len - offset⟩) :: d'.dedup }

/-- `emit_inline`, with the encoding of the value as a parameter. -/
def emitInlineWith (encode : DataSection → DataSection) (value : Value) (d : DataSection) :
    DataSection :=
  if d.noPointers then d.emitFresh encode value
  else match d.dedup.lookup value with
    | some entry =>
      if entry.len > pointerBytes entry.offset then d.append (pointerEncoding entry.offset)
      else d.emitFresh encode value
    | none => d.emitFresh encode value

/-- A map key, emitted as a string value. -/
def emitKey (k : String) (d : DataSection) : DataSection :=
  d.emitInlineWith (fun d => d.append (blob .utf8 (strBytes k))) (.string k)

mutual

/-- `encode`. -/
def encode : Value → DataSection → DataSection
  | .string s, d => d.append (blob .utf8 (strBytes s))
  | .double bits, d => (d.append (controlByte .double 8)).append (beBytes 8 bits.toNat)
  | .bytes b, d => d.append (blob .bytes b)
  | .u16 n, d => d.append (uintEncoding .uint16 n.toNat 2)
  | .u32 n, d => d.append (uintEncoding .uint32 n.toNat 4)
  | .map m, d => encodeEntries m (d.append (controlByte .map m.length))
  | .i32 n, d => d.append (extendedEncoding .int32 (encodeI32Trimmed n))
  | .u64 n, d => d.append (extendedEncoding .uint64 (encodeUintTrimmed n.toNat 8))
  | .u128 n, d => d.append (extendedEncoding .uint128 (encodeUintTrimmed n.toNat 16))
  | .array items, d => encodeItems items (d.append (extendedHeader .array items.length))
  | .bool b, d => d.append (extendedHeader .bool b.toNat)
  | .float bits, d => (d.append (extendedHeader .float 4)).append (beBytes 4 bits.toNat)

/-- The loop of `encode` over the entries of a map. -/
def encodeEntries : List (String × Value) → DataSection → DataSection
  | [], d => d
  | (k, v) :: m, d => encodeEntries m ((d.emitKey k).emitInlineWith (encode v) v)

/-- The loop of `encode` over the items of an array. -/
def encodeItems : List Value → DataSection → DataSection
  | [], d => d
  | v :: items, d => encodeItems items (d.emitInlineWith (encode v) v)

end

/-- `emit_inline`. -/
def emitInline (value : Value) (d : DataSection) : DataSection :=
  d.emitInlineWith (encode value) value

/-- `push`: the section after it and the offset at which the value lives. -/
def push (d : DataSection) (value : Value) : DataSection × ℕ :=
  match d.dedup.lookup value with
  | some entry => (d, entry.offset)
  | none =>
    let offset := d.u32Len
    let d' := encode value d
    ({ d' with dedup := (value, ⟨offset, d'.u32Len - offset⟩) :: d'.dedup }, offset)

end DataSection

end MmdbWriter
