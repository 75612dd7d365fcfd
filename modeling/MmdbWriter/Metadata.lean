import MmdbWriter.DataSection

/-!
# The metadata section

The map of fields that tells a reader how to interpret the file.
-/

namespace MmdbWriter

/-- The fields written to the metadata section. -/
structure Metadata where
  databaseType : String
  description : List (String × String)
  languages : List String
  ipVersion : IpVersion
  recordSize : RecordSize
  nodeCount : ℕ
  buildEpoch : BitVec 64
  disablePointers : Bool
deriving Repr

namespace Metadata

/-- The entries of the metadata map in the order the source inserts them. -/
def fields (m : Metadata) : List (String × Value) :=
  [("binary_format_major_version", .u16 2),
    ("binary_format_minor_version", .u16 0),
    ("build_epoch", .u64 m.buildEpoch),
    ("database_type", .string m.databaseType),
    ("description", .map ((m.description.map fun e => (e.1, Value.string e.2)).foldl
      (fun map e => mapInsert e.1 e.2 map) [])),
    ("ip_version", .u16 m.ipVersion.metadata),
    ("languages", .array (m.languages.map .string)),
    ("node_count", .u32 (BitVec.ofNat 32 (min m.nodeCount u32Max))),
    ("record_size", .u16 m.recordSize.asMetadata)]

/-- The metadata map. -/
def toMap (m : Metadata) : Value :=
  .map (m.fields.foldl (fun map e => mapInsert e.1 e.2 map) [])

/-- `Metadata::to_bytes`. -/
def toBytes (m : Metadata) : List UInt8 :=
  let data := if m.disablePointers then DataSection.withoutPointers else DataSection.new
  (data.push m.toMap).1.bytes

end Metadata

end MmdbWriter
