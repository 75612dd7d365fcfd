import MmdbWriter.Ipnet

/-!
# Options and errors

The option enums of the writer, the record sizes of the format, and what stops a call: one of the
crate's errors, or a panic.
-/

namespace MmdbWriter

/-- Which IP version a database indexes. -/
inductive IpVersion where
  | v4
  | v6
deriving DecidableEq, Repr

namespace IpVersion

/-- Depth of the search tree in bits. -/
def treeDepth : IpVersion → ℕ
  | v4 => 32
  | v6 => 128

/-- The value written to the metadata `ip_version` field. -/
def metadata : IpVersion → BitVec 16
  | v4 => 4
  | v6 => 6

end IpVersion

/-- Width, in bits, of a child record of a search-tree node. -/
inductive RecordSize where
  | bits24
  | bits28
  | bits32
deriving DecidableEq, Repr

namespace RecordSize

def bits : RecordSize → ℕ
  | bits24 => 24
  | bits28 => 28
  | bits32 => 32

/-- Number of bytes a node occupies on disk. -/
def nodeBytes : RecordSize → ℕ
  | bits24 => 6
  | bits28 => 7
  | bits32 => 8

/-- Maximum addressable record value, exclusive. -/
def maxValue : RecordSize → ℕ
  | bits24 => 2 ^ 24
  | bits28 => 2 ^ 28
  | bits32 => 2 ^ 32

/-- Width encoded as a `u16` for the metadata's `record_size` field. -/
def asMetadata (s : RecordSize) : BitVec 16 := BitVec.ofNat 16 s.bits

/-- The record sizes in ascending order of capacity. -/
def ascending : List RecordSize := [bits24, bits28, bits32]

end RecordSize

/-- Whether to install IPv4 aliases in a V6 database. -/
inductive Ipv4Aliasing where
  | enabled
  | disabled
deriving DecidableEq, Repr

/-- Whether reserved networks are writable. -/
inductive ReservedNetworks where
  | included
  | excluded
deriving DecidableEq, Repr

/-- Whether the metadata section may use pointers. -/
inductive MetadataPointers where
  | enabled
  | disabled
deriving DecidableEq, Repr

/-- How a merging insert combines a new value with the value already there. -/
inductive MergeStrategy where
  | replace
  | topLevelMerge
  | deepMerge
deriving DecidableEq, Repr

/-- The crate's errors. -/
inductive Error where
  | unsupportedValue (what : String)
  | serialize (msg : String)
  | ipv6InIpv4Tree (net : Ipv6Net)
  | invalidRange (what : String)
  | aliasedNetwork (net : IpNet)
  | reservedNetwork (net : IpNet)
  | treeTooLarge (nodeCount max : ℕ) (recordSize : RecordSize)
  | load (msg : String)
deriving DecidableEq, Repr

/-- What stops a call: an error it returns, or a panic. -/
inductive Fault where
  | err (e : Error)
  | panic
deriving DecidableEq, Repr

/-- `u32::MAX`. -/
def u32Max : ℕ := 2 ^ 32 - 1

end MmdbWriter
