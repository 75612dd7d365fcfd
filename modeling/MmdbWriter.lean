import MmdbWriter.Lib.TrieUpdate
import MmdbWriter.Options
import MmdbWriter.Value
import MmdbWriter.Net
import MmdbWriter.Pool
import MmdbWriter.Tree
import MmdbWriter.DataSection
import MmdbWriter.Metadata
import MmdbWriter.Writer
import MmdbWriter.Proofs.InsertNode
import MmdbWriter.Space
import MmdbWriter.Calls
import MmdbWriter.Proofs.Models
import MmdbWriter.Proofs.Effect
import MmdbWriter.Proofs.Marker
import MmdbWriter.Proofs.Painted
import MmdbWriter.Proofs.Invariant
import MmdbWriter.Proofs.Refinement
import MmdbWriter.Proofs.Range
import MmdbWriter.Proofs.Runs
import MmdbWriter.Proofs.Aliases
import MmdbWriter.Proofs.Compact
import MmdbWriter.Proofs.Renumber
import MmdbWriter.Proofs.Size
import MmdbWriter.Proofs.Built
import MmdbWriter.Listing
import MmdbWriter.Proofs.Enumerate
import MmdbWriter.Proofs.Canonical
import MmdbWriter.Proofs.SameFile
import MmdbWriter.Lib.Bytes
import MmdbWriter.Mmdb
import MmdbWriter.Proofs.Encoding
import MmdbWriter.Proofs.Section
import MmdbWriter.Proofs.Decoding
import MmdbWriter.Proofs.Writing
import MmdbWriter.Proofs.Pushes
import MmdbWriter.Proofs.Merge
import MmdbWriter.Proofs.Minimal
import MmdbWriter.Proofs.Transparent
import MmdbWriter.Lib.TrieCalls
import MmdbWriter.Proofs.Dropped
import MmdbWriter.Proofs.Stateful
import MmdbWriter.Proofs.Invocations
import MmdbWriter.Proofs.PointerFree
import MmdbWriter.Histories
import MmdbWriter.Lib.TrieLookup
import MmdbWriter.Proofs.Grown
import MmdbWriter.Proofs.Compacted
import MmdbWriter.Proofs.Compaction
import MmdbWriter.Proofs.Records
import MmdbWriter.Proofs.Offsets
import MmdbWriter.Proofs.Packing
import MmdbWriter.Proofs.MarkerFree
import MmdbWriter.Proofs.Unambiguous
import MmdbWriter.Proofs.Oversize
import MmdbWriter.Lib.LastWins
import MmdbWriter.Projection
import MmdbWriter.Proofs.Projected
import MmdbWriter.Proofs.Inserted
import MmdbWriter.Proofs.Settles
import MmdbWriter.Proofs.Failed
import MmdbWriter.Proofs.Walks
import MmdbWriter.Proofs.Languages
import MmdbWriter.Proofs.RoundTrip
import MmdbWriter.Lib.TrieCover
import MmdbWriter.Proofs.Apart
import MmdbWriter.Proofs.AliasLookups
import MmdbWriter.Proofs.Accepted
import MmdbWriter.Proofs.AliasFile
import MmdbWriter.Lib.TrieBlocks
import MmdbWriter.Proofs.Blocks
import MmdbWriter.Proofs.Within
import MmdbWriter.Load
import MmdbWriter.Proofs.Capacity
import MmdbWriter.Proofs.Load
import MmdbWriter.Proofs.Reload
import MmdbWriter.Proofs.Contents
import MmdbWriter.Proofs.Batches
import MmdbWriter.Proofs.Orders
import MmdbWriter.Proofs.Untrusted
import MmdbWriter.Lib.Repeats
import MmdbWriter.Proofs.Reimport
import MmdbWriter.Proofs.RecordSizes
import MmdbWriter.Proofs.Replayed
import MmdbWriter.Proofs.SerdeRuns
import MmdbWriter.Proofs.Versions
import MmdbWriter.Proofs.Failures
import MmdbWriter.Lib.TrieNodes
import MmdbWriter.Proofs.Spent
import MmdbWriter.Proofs.LoadsBack
