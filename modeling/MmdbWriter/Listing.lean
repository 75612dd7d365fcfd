import MmdbWriter.Calls
import MmdbWriter.Space

/-!
# The networks of a database

The data leaves of a built tree, each with the bits that lead to it, and the blocks of addresses on
which `get` is one value.
-/

namespace MmdbWriter

namespace Tree

/-- The data leaves below a record, the node below it listed by the parameter. Aliases are not
followed. -/
def listRecord (listNode : ℕ → List Bool → Except Fault (List (List Bool × ValueId)))
    (path : List Bool) : Record → Except Fault (List (List Bool × ValueId))
  | .node i | .fixedNode i => listNode i path
  | .data id => .ok [(path, id)]
  | .noData | .aliased _ | .reserved => .ok []

/-- The data leaves below a node that at most `depth` bits lead past. -/
def listNode (t : Tree) : (depth i : ℕ) → (path : List Bool) →
    Except Fault (List (List Bool × ValueId))
  | 0, _, _ => .error .panic
  | depth + 1, i, path => do
    let node ← t.nodeAt i
    let left ← listRecord (t.listNode depth) (path ++ [false]) node.left
    let right ← listRecord (t.listNode depth) (path ++ [true]) node.right
    .ok (left ++ right)

/-- The data leaves of the tree. -/
def dataLeaves (t : Tree) (ipVersion : IpVersion) : Except Fault (List (List Bool × ValueId)) :=
  t.listNode ipVersion.treeDepth 0 []

end Tree

namespace Writer

/-- The data leaves of the built tree, with their values. -/
def networks (w : Writer) : Except Fault (List (List Bool × Value)) := do
  let tree ← w.buildTree
  let leaves ← tree.dataLeaves w.ipVersion
  leaves.mapM fun e => do
    let v ← w.pool.get e.2
    .ok (e.1, v)

variable [Ipnet]

/-- Every address that starts with the bits has the value. -/
def UniformOn (w : Writer) (p : List Bool) (v : Value) : Prop :=
  ∀ ip q, addrPath w.ipVersion ip = some q → p <+: q → w.get ip = .ok (some v)

/-- A network of prefix length at least 1 on which `get` is one value, and no wider such network
contains it. -/
structure MaximalBlock (w : Writer) (p : List Bool) (v : Value) : Prop where
  ne_nil : p ≠ []
  length_le : p.length ≤ w.ipVersion.treeDepth
  uniform : w.UniformOn p v
  maximal : ∀ p', p' ≠ [] → p' <+: p → (∃ v', w.UniformOn p' v') → p' = p

end Writer

end MmdbWriter
