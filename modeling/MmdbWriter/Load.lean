import MmdbWriter.Serde

/-!
# Loading a database

`Writer::load` reads a file with the reader of the `maxminddb` crate and inserts every network it
yields into a new writer. The crate is not in the repository: `Maxminddb` stands for what it returns.
-/

namespace MmdbWriter

namespace Maxminddb

/-- `maxminddb::Metadata`, the fields a load uses. -/
@[ext] structure Metadata where
  buildEpoch : BitVec 64
  databaseType : String
  description : List (String × String)
  ipVersion : BitVec 16
  languages : List String
  recordSize : BitVec 16

/-- What `Reader::networks` yields: the data of a network, as the calls its decoder makes to a
visitor, and the network's address and prefix length. -/
structure Item where
  data : Except String (Option Data)
  network : Except String (IpAddr × ℕ)

end Maxminddb

/-- A `maxminddb::Reader`: its metadata and what it yields for the default options. -/
structure Reader where
  metadata : Maxminddb.Metadata
  networks : Except String (List (Except String Maxminddb.Item))

/-- `Reader::from_source`, and the texts of errors of the crates: of a value the visitor refuses, and of
`ipnet` for a prefix length. -/
class Maxminddb where
  fromSource : List UInt8 → Except String Reader
  decodeError : DeError → String
  prefixLenError : String

/-- `IpNet::new`. -/
def IpNet.new : IpAddr → ℕ → Option IpNet
  | .v4 addr, prefixLen => (Net.new addr prefixLen).map .v4
  | .v6 addr, prefixLen => (Net.new addr prefixLen).map .v6

/-- `load_err`. -/
def loadErr {α : Type} : Except String α → Except Fault α
  | .ok a => .ok a
  | .error e => .error (.err (.load e))

/-- `record_size_from`. -/
def recordSizeFrom (bits : BitVec 16) : Except Fault RecordSize :=
  if bits = 24 then .ok .bits24
  else if bits = 28 then .ok .bits28
  else if bits = 32 then .ok .bits32
  else .error (.err (.load ("unsupported record size " ++ toString bits.toNat)))

/-- `UNIX_EPOCH + Duration::from_secs(..)`: the seconds of a `SystemTime` are an `i64`. -/
def epochFrom (secs : BitVec 64) : Except Fault SystemTime :=
  if secs.toNat < 2 ^ 63 then .ok (secs.toNat * 10 ^ 9) else .error .panic

variable [Maxminddb]

/-- `LookupResult::decode::<Value>`. -/
def Maxminddb.Item.decode (item : Item) : Except String (Option Value) :=
  match item.data with
  | .error e => .error e
  | .ok none => .ok none
  | .ok (some data) =>
    match ValueVisitor.replay data with
    | .ok value => .ok (some value)
    | .error e => .error (decodeError e)

namespace Writer

variable [Ipnet]

/-- The loop of `load` over the networks. -/
def loadItems : List (Except String Maxminddb.Item) → Writer → Except Fault Writer
  | [], w => .ok w
  | item :: items, w => do
    let item ← loadErr item
    match ← loadErr item.decode with
    | none => loadItems items w
    | some value =>
      let network ← loadErr item.network
      match IpNet.new network.1 network.2 with
      | none => .error (.err (.load ("reader produced an invalid network: " ++
          Maxminddb.prefixLenError)))
      | some net =>
        match insertValue net value w with
        | (.ok (), w) => loadItems items w
        | (.error e, _) => .error e

/-- `Writer::load`. -/
def load (bytes : List UInt8) : Except Fault Writer := do
  let reader ← loadErr (Maxminddb.fromSource bytes)
  let ipVersion := if reader.metadata.ipVersion = 4 then IpVersion.v4 else .v6
  let epoch ← epochFrom reader.metadata.buildEpoch
  let recordSize ← recordSizeFrom reader.metadata.recordSize
  let writer ← WriterBuilder.build
    { databaseType := reader.metadata.databaseType
      languages := reader.metadata.languages
      description := reader.metadata.description
      ipVersion := ipVersion
      recordSize := some recordSize
      buildEpoch := some epoch }
  let items ← loadErr reader.networks
  loadItems items writer

end Writer

end MmdbWriter
