import MmdbWriter.Writer

/-!
# The serde interface

A value of serde's data model is the tree of calls a `Serialize` implementation makes, every map key
with the value that follows it. `ValueSerializer` projects it to a value of the data section, and
`Value` itself is serialized as the data it holds and read back by a visitor.
-/

namespace MmdbWriter

/-- What a `Serialize` implementation emits. -/
inductive Data where
  | bool (v : Bool)
  | i8 (v : BitVec 8)
  | i16 (v : BitVec 16)
  | i32 (v : BitVec 32)
  | i64 (v : BitVec 64)
  | i128 (v : BitVec 128)
  | u8 (v : BitVec 8)
  | u16 (v : BitVec 16)
  | u32 (v : BitVec 32)
  | u64 (v : BitVec 64)
  | u128 (v : BitVec 128)
  | f32 (bits : BitVec 32)
  | f64 (bits : BitVec 64)
  | char (v : Char)
  | str (v : String)
  | bytes (v : List UInt8)
  | none
  | some (value : Data)
  | unit
  | unitStruct
  | unitVariant (variant : String)
  | newtypeStruct (value : Data)
  | newtypeVariant (variant : String) (value : Data)
  | seq (items : List Data)
  | tuple (items : List Data)
  | tupleStruct (fields : List Data)
  | tupleVariant (variant : String) (fields : List Data)
  | map (entries : List (Data × Data))
  | struct (fields : List (String × Data))
  | structVariant (variant : String) (fields : List (String × Data))

/-- What a serializer of the crate returns: `none` has the parent drop the entry. -/
abbrev Out := Option Value

/-- The builder of sequences, tuples and tuple structs. -/
structure SeqSer where
  items : List Value

/-- The builder of tuple variants. -/
structure TupleVariantSer where
  variant : String
  items : List Value

/-- The builder of maps and structs. -/
structure MapSer where
  entries : List (String × Value)
  pendingKey : Option String

/-- The builder of struct variants. -/
structure StructVariantSer where
  variant : String
  entries : List (String × Value)

namespace SeqSer

def new : SeqSer := ⟨[]⟩

def serializeElement (s : SeqSer) : Out → SeqSer
  | some v => { s with items := s.items ++ [v] }
  | none => s

def finish (s : SeqSer) : Out := some (.array s.items)

end SeqSer

namespace TupleVariantSer

def new (variant : String) : TupleVariantSer := ⟨variant, []⟩

def serializeField (s : TupleVariantSer) : Out → TupleVariantSer
  | some v => { s with items := s.items ++ [v] }
  | none => s

def finish (s : TupleVariantSer) : Out := some (.map (mapInsert s.variant (.array s.items) []))

end TupleVariantSer

namespace MapSer

def new : MapSer := ⟨[], none⟩

def serializeKey (s : MapSer) : Out → Except Error MapSer
  | none => .error (.unsupportedValue "null map key")
  | some (.string k) => .ok { s with pendingKey := some k }
  | some _ => .error (.unsupportedValue "non-string map key")

/-- `pending_key.take()`: `serialize_value` does it before it serializes the value. -/
def takeKey (s : MapSer) : Except Error (String × MapSer) :=
  match s.pendingKey with
  | some k => .ok (k, { s with pendingKey := none })
  | none => .error (.unsupportedValue "map value serialized before its key")

/-- The rest of `serialize_value`, and `serialize_field` of a struct. -/
def put (s : MapSer) (key : String) : Out → MapSer
  | some v => { s with entries := mapInsert key v s.entries }
  | none => s

def finish (s : MapSer) : Out := some (.map s.entries)

end MapSer

namespace StructVariantSer

def new (variant : String) : StructVariantSer := ⟨variant, []⟩

def serializeField (s : StructVariantSer) (key : String) : Out → StructVariantSer
  | some v => { s with entries := mapInsert key v s.entries }
  | none => s

def finish (s : StructVariantSer) : Out := some (.map (mapInsert s.variant (.map s.entries) []))

end StructVariantSer

namespace ValueSerializer

mutual

/-- `value.serialize(ValueSerializer)`, method by method. -/
def serialize : Data → Except Error Out
  | .bool v => .ok (some (.bool v))
  | .i8 v => .ok (some (.i32 (v.signExtend 32)))
  | .i16 v => .ok (some (.i32 (v.signExtend 32)))
  | .i32 v => .ok (some (.i32 v))
  | .i64 _ => .error (.unsupportedValue "i64")
  -- serde's default, which the serializer does not override
  | .i128 _ => .error (.serialize "i128 is not supported")
  | .u8 v => .ok (some (.u16 (v.setWidth 16)))
  | .u16 v => .ok (some (.u16 v))
  | .u32 v => .ok (some (.u32 v))
  | .u64 v => .ok (some (.u64 v))
  | .u128 v => .ok (some (.u128 v))
  | .f32 v => .ok (some (.float v))
  | .f64 v => .ok (some (.double v))
  | .char v => .ok (some (.string v.toString))
  | .str v => .ok (some (.string v))
  | .bytes v => .ok (some (.bytes v))
  | .none => .ok none
  | .some value => serialize value
  | .unit => .ok none
  | .unitStruct => .ok none
  | .unitVariant variant => .ok (some (.string variant))
  | .newtypeStruct value => serialize value
  | .newtypeVariant variant value => do
    match ← serialize value with
    | some v => .ok (some (.map (mapInsert variant v [])))
    | none => .ok (some (.map []))
  | .seq items => do
    let s ← serializeElements SeqSer.new items
    .ok s.finish
  | .tuple items => do
    let s ← serializeElements SeqSer.new items
    .ok s.finish
  | .tupleStruct fields => do
    let s ← serializeElements SeqSer.new fields
    .ok s.finish
  | .tupleVariant variant fields => do
    let s ← serializeTupleFields (TupleVariantSer.new variant) fields
    .ok s.finish
  | .map entries => do
    let s ← serializeEntries MapSer.new entries
    .ok s.finish
  | .struct fields => do
    let s ← serializeFields MapSer.new fields
    .ok s.finish
  | .structVariant variant fields => do
    let s ← serializeVariantFields (StructVariantSer.new variant) fields
    .ok s.finish

/-- The calls of `serialize_element` on one builder. -/
def serializeElements (s : SeqSer) : List Data → Except Error SeqSer
  | [] => .ok s
  | value :: values => do
    let out ← serialize value
    serializeElements (s.serializeElement out) values

/-- The calls of a tuple variant's `serialize_field`. -/
def serializeTupleFields (s : TupleVariantSer) : List Data → Except Error TupleVariantSer
  | [] => .ok s
  | value :: values => do
    let out ← serialize value
    serializeTupleFields (s.serializeField out) values

/-- The calls of `serialize_key` and `serialize_value` on one builder. -/
def serializeEntries (s : MapSer) : List (Data × Data) → Except Error MapSer
  | [] => .ok s
  | (key, value) :: entries => do
    let k ← serialize key
    let s ← s.serializeKey k
    let (key, s) ← s.takeKey
    let out ← serialize value
    serializeEntries (s.put key out) entries

/-- The calls of a struct's `serialize_field`. -/
def serializeFields (s : MapSer) : List (String × Data) → Except Error MapSer
  | [] => .ok s
  | (key, value) :: fields => do
    let out ← serialize value
    serializeFields (s.put key out) fields

/-- The calls of a struct variant's `serialize_field`. -/
def serializeVariantFields (s : StructVariantSer) :
    List (String × Data) → Except Error StructVariantSer
  | [] => .ok s
  | (key, value) :: fields => do
    let out ← serialize value
    serializeVariantFields (s.serializeField key out) fields

end

/-- `to_value`. -/
def toValue (value : Data) : Except Error Value := do
  match ← serialize value with
  | some v => .ok v
  | none => .error (.unsupportedValue "top-level null / Option::None")

end ValueSerializer

namespace Value

mutual

/-- `Value::serialize`. -/
def serialize : Value → Data
  | string s => .str s
  | double d => .f64 d
  | bytes b => .bytes b
  | u16 n => .u16 n
  | u32 n => .u32 n
  | i32 n => .i32 n
  | u64 n => .u64 n
  | u128 n => .u128 n
  | bool b => .bool b
  | float f => .f32 f
  | map m => .map (serializeMap m)
  | array items => .seq (serializeArray items)

def serializeArray : List Value → List Data
  | [] => []
  | item :: items => serialize item :: serializeArray items

def serializeMap : List (String × Value) → List (Data × Data)
  | [] => []
  | (k, v) :: m => (.str k, serialize v) :: serializeMap m

end

end Value

/-- What a visitor refuses with: a message of its own, or serde's refusal of the type. -/
inductive DeError where
  | custom (msg : String)
  | invalidType
deriving DecidableEq, Repr

namespace ValueVisitor

def visitBool (v : Bool) : Except DeError Value := .ok (.bool v)

def visitI8 (v : BitVec 8) : Except DeError Value := .ok (.i32 (v.signExtend 32))

def visitI16 (v : BitVec 16) : Except DeError Value := .ok (.i32 (v.signExtend 32))

def visitI32 (v : BitVec 32) : Except DeError Value := .ok (.i32 v)

/-- A 64-bit integer is taken if it fits in 32 bits. -/
def visitI64 (v : BitVec 64) : Except DeError Value :=
  if -2 ^ 31 ≤ v.toInt ∧ v.toInt < 2 ^ 31 then .ok (.i32 (BitVec.ofInt 32 v.toInt))
  else .error (.custom "i64 outside int32 range has no MMDB representation")

def visitU8 (v : BitVec 8) : Except DeError Value := .ok (.u16 (v.setWidth 16))

def visitU16 (v : BitVec 16) : Except DeError Value := .ok (.u16 v)

def visitU32 (v : BitVec 32) : Except DeError Value := .ok (.u32 v)

def visitU64 (v : BitVec 64) : Except DeError Value := .ok (.u64 v)

def visitU128 (v : BitVec 128) : Except DeError Value := .ok (.u128 v)

def visitF32 (v : BitVec 32) : Except DeError Value := .ok (.float v)

def visitF64 (v : BitVec 64) : Except DeError Value := .ok (.double v)

def visitStr (v : String) : Except DeError Value := .ok (.string v)

def visitBytes (v : List UInt8) : Except DeError Value := .ok (.bytes v)

/-- `next_entry::<String, _>` reads a key as a string. -/
def keyString : Data → Except DeError String
  | .str k => .ok k
  | .char c => .ok c.toString
  | .bytes b => match String.fromUTF8? ⟨b.toArray⟩ with
    | some k => .ok k
    | none => .error .invalidType
  | _ => .error .invalidType

mutual

/-- `Value::deserialize` over a deserializer that replays what was emitted, each event through the
visitor's method for its type. Where the visitor has no such method serde's default stands. -/
def replay : Data → Except DeError Value
  | .bool v => visitBool v
  | .i8 v => visitI8 v
  | .i16 v => visitI16 v
  | .i32 v => visitI32 v
  | .i64 v => visitI64 v
  | .u8 v => visitU8 v
  | .u16 v => visitU16 v
  | .u32 v => visitU32 v
  | .u64 v => visitU64 v
  | .u128 v => visitU128 v
  | .f32 v => visitF32 v
  | .f64 v => visitF64 v
  | .char v => visitStr v.toString
  | .str v => visitStr v
  | .bytes v => visitBytes v
  | .seq items => visitSeq [] items
  | .tuple items => visitSeq [] items
  | .tupleStruct fields => visitSeq [] fields
  | .map entries => visitMap [] entries
  | .struct fields => visitStruct [] fields
  | _ => .error .invalidType

/-- `visit_seq`. -/
def visitSeq (items : List Value) : List Data → Except DeError Value
  | [] => .ok (.array items)
  | value :: values => do
    let item ← replay value
    visitSeq (items ++ [item]) values

/-- `visit_map`. -/
def visitMap (entries : List (String × Value)) : List (Data × Data) → Except DeError Value
  | [] => .ok (.map entries)
  | (key, value) :: rest => do
    let k ← keyString key
    let v ← replay value
    visitMap (mapInsert k v entries) rest

/-- `visit_map` over the fields of a struct. -/
def visitStruct (entries : List (String × Value)) : List (String × Data) → Except DeError Value
  | [] => .ok (.map entries)
  | (k, value) :: rest => do
    let v ← replay value
    visitStruct (mapInsert k v entries) rest

end

end ValueVisitor

namespace Writer

variable [Ipnet]

/-- `Writer::insert`. -/
def insert (net : IpNet) (value : Data) : Exec Fault Writer Unit := do
  let value ← Exec.lift (match ValueSerializer.toValue value with
    | .ok v => .ok v
    | .error e => .error (.err e))
  insertValue net value

/-- `Writer::insert_merged`. -/
def insertMerged (net : IpNet) (value : Data) (strategy : MergeStrategy) :
    Exec Fault Writer Unit := do
  let value ← Exec.lift (match ValueSerializer.toValue value with
    | .ok v => .ok v
    | .error e => .error (.err e))
  insertValueMerged net value strategy

end Writer

end MmdbWriter
