import MmdbWriter.Mmdb

/-!
# Listing a file

The networks with data that a reader of the format lists, from left to right, each with the offset of
its value. The IPv4 addresses are listed at their own place only, and not again where a record of the
IPv6 addresses leads to their node.
-/

namespace MmdbWriter.Mmdb

/-- The record the bits lead to, each of them followed at a node. -/
def recordAfter (tree : List UInt8) (nodeCount recordSize : ℕ) :
    (bits : List Bool) → (record : ℕ) → Option ℕ
  | [], record => some record
  | bit :: bits, record =>
    if record < nodeCount then do
      let record ← readRecord tree recordSize record bit
      recordAfter tree nodeCount recordSize bits record
    else none

section

variable (database : List UInt8) (layout : Layout)

/-- The node of the IPv4 addresses among the IPv6 addresses. -/
def ipv4Start : Option ℕ :=
  if layout.ipVersion = 6 then
    (recordAfter database layout.nodeCount layout.recordSize (List.replicate 96 false) 0).filter
      (· < layout.nodeCount)
  else none

/-- The networks below a record that the bits lead to. -/
def networksAt (start : Option ℕ) :
    (depth : ℕ) → (bits : List Bool) → (record : ℕ) → Option (List (List Bool × ℕ))
  | depth, bits, record =>
    if record < layout.nodeCount then
      if start = some record ∧ bits ≠ List.replicate 96 false then some []
      else match depth with
        | 0 => none
        | depth + 1 => do
          let left ← readRecord database layout.recordSize record false
          let right ← readRecord database layout.recordSize record true
          let lefts ← networksAt start depth (bits ++ [false]) left
          let rights ← networksAt start depth (bits ++ [true]) right
          some (lefts ++ rights)
    else if record = layout.nodeCount then some []
    else if layout.nodeCount + 16 ≤ record then some [(bits, record - layout.nodeCount - 16)]
    else none

/-- The networks of a file. -/
def networks : Option (List (List Bool × ℕ)) :=
  networksAt database layout (ipv4Start database layout) (if layout.ipVersion = 6 then 128 else 32)
    [] 0

end

end MmdbWriter.Mmdb
