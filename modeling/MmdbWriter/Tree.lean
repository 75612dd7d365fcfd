import MmdbWriter.Lib.Exec
import MmdbWriter.Options
import MmdbWriter.Pool

/-!
# The search tree

A bit-by-bit trie in a vector of nodes, its records pointing at nodes by index. Insertion walks the
bits above the prefix length down one child and broadcasts below it; a child whose two records come
to be the same leaf is merged into its parent's record.

Indices and depths are natural numbers; reading a node past the end, a depth past `u8` and a shift
by a negative amount are panics.
-/

namespace MmdbWriter

/-- A single record (one child of a node). -/
inductive Record where
  /-- No data; terminal. -/
  | noData
  /-- A node by index. -/
  | node (i : ℕ)
  /-- A node that is never collapsed, the IPv4 subtree root. -/
  | fixedNode (i : ℕ)
  /-- A populated leaf, the value by its id. -/
  | data (id : ValueId)
  /-- A shared subtree, reached through its `fixedNode` too. -/
  | aliased (i : ℕ)
  /-- A reserved-network leaf, which inserts skip. -/
  | reserved
deriving DecidableEq, Repr

/-- `is_leaf_record`. -/
def isLeafRecord : Record → Bool
  | .noData | .data _ | .aliased _ | .reserved => true
  | .node _ | .fixedNode _ => false

/-- A single tree node: two child records. -/
structure Node where
  left : Record
  right : Record
deriving DecidableEq, Repr

namespace Node

/-- `Node::default()`. -/
def empty : Node := ⟨.noData, .noData⟩

def child (n : Node) (bit : Bool) : Record := if bit then n.right else n.left

/-- The node after an assignment through `child_mut`. -/
def setChild (n : Node) (bit : Bool) (r : Record) : Node :=
  if bit then { n with right := r } else { n with left := r }

end Node

/-- Bit-by-bit trie builder. -/
structure Tree where
  nodes : List Node
deriving DecidableEq, Repr

namespace Tree

def new : Tree := ⟨[Node.empty]⟩

def nodeCount (t : Tree) : ℕ := t.nodes.length

/-- `nodes[idx]`. -/
def nodeAt (t : Tree) (idx : ℕ) : Except Fault Node :=
  match t.nodes[idx]? with
  | some n => .ok n
  | none => .error .panic

def readNode (idx : ℕ) : Exec Fault Tree Node := fun t => (t.nodeAt idx, t)

/-- `nodes[idx] = node`. -/
def writeNode (idx : ℕ) (node : Node) : Exec Fault Tree Unit := fun t =>
  if idx < t.nodes.length then (.ok (), ⟨t.nodes.set idx node⟩) else (.error .panic, t)

/-- `*nodes[idx].child_mut(bit) = record`. -/
def writeChild (idx : ℕ) (bit : Bool) (record : Record) : Exec Fault Tree Unit := do
  let node ← readNode idx
  writeNode idx (node.setChild bit record)

/-- `((bits >> (127 - depth)) & 1) as u8`. -/
def walkBit (bits : BitVec 128) (depth : ℕ) : Except Fault Bool :=
  if depth ≤ 127 then .ok ((bits >>> (127 - depth)) &&& 1#128 == 1#128) else .error .panic

/-- `try_merge_node`: the record of a node with two identical leaf records. -/
def tryMergeNode (idx : ℕ) : Exec Fault Tree (Option Record) := do
  let node ← readNode idx
  return if node.left = node.right ∧ isLeafRecord node.left then some node.left else none

/-- `alloc_node`. -/
def allocNode (node : Node) : Exec Fault Tree ℕ := fun t =>
  if t.nodes.length ≤ u32Max then (.ok t.nodes.length, ⟨t.nodes ++ [node]⟩)
  else (.error (.err (.treeTooLarge t.nodes.length u32Max .bits32)), t)

section Insert

variable {σ : Type}

/-- `insert_at_record`, with the recursive call at the depth of the record's child as a parameter.
The state is the tree and what the operation captures. -/
def insertAtRecord (insertAtNode : ℕ → Exec Fault (Tree × σ) Unit)
    (op : Option ValueId → Exec Fault σ (Option ValueId))
    (nodeIdx : ℕ) (whichBit : Bool) (newDepth prefixLen : ℕ) : Exec Fault (Tree × σ) Unit := do
  let node ← (readNode nodeIdx).onFst
  match node.child whichBit with
  | .node childIdx =>
    insertAtNode childIdx
    let merged ← (tryMergeNode childIdx).onFst
    match merged with
    | some record => (writeChild nodeIdx whichBit record).onFst
    | none => pure ()
  | .fixedNode childIdx => insertAtNode childIdx
  | .aliased _ | .reserved => pure ()
  | .noData =>
    if newDepth > prefixLen then
      let id ← (op none).onSnd
      match id with
      | some id => (writeChild nodeIdx whichBit (.data id)).onFst
      | none => pure ()
    else
      let newIdx ← (allocNode Node.empty).onFst
      (writeChild nodeIdx whichBit (.node newIdx)).onFst
      insertAtNode newIdx
      let merged ← (tryMergeNode newIdx).onFst
      match merged with
      | some record => (writeChild nodeIdx whichBit record).onFst
      | none => pure ()
  | .data oldId =>
    if newDepth > prefixLen then
      let id ← (op (some oldId)).onSnd
      match id with
      | some id => (writeChild nodeIdx whichBit (.data id)).onFst
      | none => (writeChild nodeIdx whichBit .noData).onFst
    else
      let newIdx ← (allocNode ⟨.data oldId, .data oldId⟩).onFst
      (writeChild nodeIdx whichBit (.node newIdx)).onFst
      insertAtNode newIdx
      let merged ← (tryMergeNode newIdx).onFst
      match merged with
      | some record => (writeChild nodeIdx whichBit record).onFst
      | none => pure ()

/-- `insert_at_node`; `room` is what is left of a `u8` above the current depth, and with none left
`current_depth + 1` overflows. -/
def insertAtNode (op : Option ValueId → Exec Fault σ (Option ValueId)) (bits : BitVec 128)
    (prefixLen : ℕ) : (room nodeIdx currentDepth : ℕ) → Exec Fault (Tree × σ) Unit
  | 0, _, _ => .stop .panic
  | room + 1, nodeIdx, currentDepth => do
    let newDepth := currentDepth + 1
    let descend := fun childIdx => insertAtNode op bits prefixLen room childIdx newDepth
    if newDepth > prefixLen then
      insertAtRecord descend op nodeIdx false newDepth prefixLen
      insertAtRecord descend op nodeIdx true newDepth prefixLen
    else
      let bit ← Exec.lift (walkBit bits currentDepth)
      insertAtRecord descend op nodeIdx bit newDepth prefixLen

/-- `Tree::insert`: apply `op` at every leaf the network `(bits, prefixLen)` covers. -/
def insert (bits : BitVec 128) (prefixLen : ℕ)
    (op : Option ValueId → Exec Fault σ (Option ValueId)) : Exec Fault (Tree × σ) Unit :=
  insertAtNode op bits prefixLen 255 0 0

end Insert

section Markers

/-- The loop of `install_marker` from `bitIndex` on, with `left` bits to go. -/
def installMarkerFrom (bits : BitVec 128) (marker : Record) :
    (left bitIndex nodeIdx : ℕ) → Exec Fault Tree Unit
  | 0, _, _ => pure ()
  | left + 1, bitIndex, nodeIdx => do
    let bit ← Exec.lift (walkBit bits bitIndex)
    let node ← readNode nodeIdx
    if left = 0 then
      match node.child bit with
      | .noData => writeChild nodeIdx bit marker
      | _ => pure ()
    else
      match node.child bit with
      | .node i | .fixedNode i => installMarkerFrom bits marker left (bitIndex + 1) i
      | .noData =>
        let newIdx ← allocNode Node.empty
        writeChild nodeIdx bit (.node newIdx)
        installMarkerFrom bits marker left (bitIndex + 1) newIdx
      | .data _ | .aliased _ | .reserved => pure ()

/-- `install_marker`. -/
def installMarker (bits : BitVec 128) (prefixLen : ℕ) (marker : Record) : Exec Fault Tree Unit :=
  installMarkerFrom bits marker prefixLen 0 0

/-- `paint_reserved`. -/
def paintReserved (bits : BitVec 128) (prefixLen : ℕ) : Exec Fault Tree Unit :=
  installMarker bits prefixLen .reserved

/-- The node reached over left children, if each is a `node`. -/
def leftWalk (t : Tree) : (steps cursor : ℕ) → Except Fault (Option ℕ)
  | 0, cursor => .ok (some cursor)
  | steps + 1, cursor => do
    let node ← t.nodeAt cursor
    match node.left with
    | .node i => leftWalk t steps i
    | _ => .ok none

/-- `install_ipv4_aliases`. -/
def installIpv4Aliases : Exec Fault Tree Unit := do
  let t ← Exec.read
  let v4Root ← Exec.lift (leftWalk t 96 0)
  match v4Root with
  | none => pure ()
  | some v4RootIdx =>
    let parent ← Exec.lift (leftWalk t 95 0)
    match parent with
    | none => pure ()
    | some parentIdx =>
      writeChild parentIdx false (.fixedNode v4RootIdx)
      installMarker 0x00000000000000000000FFFF00000000#128 96 (.aliased v4RootIdx)
      installMarker 0x20010000000000000000000000000000#128 32 (.aliased v4RootIdx)
      installMarker 0x20020000000000000000000000000000#128 16 (.aliased v4RootIdx)

end Markers

section Get

/-- The loop of `get` from `depth` on, with `left` levels to go. -/
def getFrom (t : Tree) (bits : BitVec 128) :
    (left depth nodeIdx : ℕ) → Except Fault (Option ValueId)
  | 0, _, _ => .ok none
  | left + 1, depth, nodeIdx => do
    let bit ← walkBit bits depth
    let node ← t.nodeAt nodeIdx
    match node.child bit with
    | .node i | .fixedNode i | .aliased i => getFrom t bits left (depth + 1) i
    | .data id => .ok (some id)
    | .noData | .reserved => .ok none

/-- `Tree::get`. -/
def get (t : Tree) (bits : BitVec 128) (depthLimit : ℕ) : Except Fault (Option ValueId) :=
  getFrom t bits depthLimit 0 0

end Get

section Compact

/-- `resolve_child`, with `compact_node` as a parameter. -/
def resolveChild (compactNode : ℕ → Exec Fault Tree Record) : Record → Exec Fault Tree Record
  | .node i => compactNode i
  | .fixedNode i => do
    let _ ← compactNode i
    pure (.fixedNode i)
  | other => pure other

/-- `compact_node`; the recursion runs out of stack on a cycle of nodes. -/
def compactNode : (stack idx : ℕ) → Exec Fault Tree Record
  | 0, _ => .stop .panic
  | stack + 1, idx => do
    let node ← readNode idx
    let left ← resolveChild (compactNode stack) node.left
    let node ← readNode idx
    let right ← resolveChild (compactNode stack) node.right
    writeNode idx ⟨left, right⟩
    return if left = right ∧ isLeafRecord left then left else .node idx

/-- The nodes a record pushes on the stack of `renumber_reachable`. -/
def pushed : Record → List ℕ
  | .node i | .fixedNode i => [i]
  | .noData | .data _ | .aliased _ | .reserved => []

/-- The loop of `renumber_reachable`: the nodes in pre-order, with the map from old to new index.
`fuel` bounds the iterations. -/
def visitOrder (t : Tree) : (fuel : ℕ) → (stack : List ℕ) → (oldToNew : List (ℕ × ℕ)) →
    (order : List ℕ) → Except Fault (List (ℕ × ℕ) × List ℕ)
  | 0, _, _, _ => .error .panic
  | _ + 1, [], oldToNew, order => .ok (oldToNew, order)
  | fuel + 1, oldIdx :: stack, oldToNew, order =>
    match oldToNew.lookup oldIdx with
    | some _ => visitOrder t fuel stack oldToNew order
    | none => do
      let newIdx := min order.length u32Max
      let node ← t.nodeAt oldIdx
      visitOrder t fuel (pushed node.left ++ (pushed node.right ++ stack))
        ((oldIdx, newIdx) :: oldToNew) (order ++ [oldIdx])

/-- `remap_record`. -/
def remapRecord (oldToNew : List (ℕ × ℕ)) : Record → Record
  | .node i => ((oldToNew.lookup i).map Record.node).getD .noData
  | .fixedNode i => ((oldToNew.lookup i).map Record.fixedNode).getD .noData
  | .aliased i => ((oldToNew.lookup i).map Record.aliased).getD .noData
  | other => other

def remapNode (oldToNew : List (ℕ × ℕ)) (n : Node) : Node :=
  ⟨remapRecord oldToNew n.left, remapRecord oldToNew n.right⟩

/-- `renumber_reachable`. -/
def renumberReachable : Exec Fault Tree Unit := fun t =>
  match t.visitOrder (2 * t.nodes.length + 2) [0] [] [] with
  | .error e => (.error e, t)
  | .ok (oldToNew, order) =>
    match order.mapM t.nodeAt with
    | .error e => (.error e, t)
    | .ok nodes => (.ok (), ⟨nodes.map (remapNode oldToNew)⟩)

/-- `compact`. -/
def compact : Exec Fault Tree Unit := do
  let t ← Exec.read
  let rootEffective ← compactNode t.nodes.length 0
  if isLeafRecord rootEffective then
    writeNode 0 ⟨rootEffective, rootEffective⟩
    renumberReachable
  else
    renumberReachable

end Compact

section Serialize

/-- `reachable_data_ids`: the value ids in the tree, in the order of their first appearance. -/
def reachableDataIds (t : Tree) : List ValueId :=
  (t.nodes.flatMap fun n => [n.left, n.right]).foldl
    (fun ids record => match record with
      | .data id => if id ∈ ids then ids else ids ++ [id]
      | _ => ids) []

/-- `fits_record_size`. -/
def fitsRecordSize (t : Tree) (recordSize : RecordSize) (dataSectionLen : ℕ) : Bool :=
  decide (t.nodes.length + 16 + dataSectionLen < recordSize.maxValue)

/-- `encode_record`. -/
def encodeRecord (record : Record) (nodeCount : ℕ) (recordSize : RecordSize)
    (idToOffset : List (ValueId × ℕ)) : Except Fault ℕ := do
  let raw ← match record with
    | .noData | .reserved => .ok nodeCount
    | .node i | .fixedNode i | .aliased i => .ok i
    | .data id => match idToOffset.lookup id with
      | some offset => .ok (nodeCount + 16 + offset)
      | none => .error .panic
  if raw ≥ recordSize.maxValue then
    .error (.err (.treeTooLarge nodeCount recordSize.maxValue recordSize))
  else .ok raw

/-- `write_record_pair`. -/
def writeRecordPair (left right : ℕ) : RecordSize → List UInt8
  | .bits24 =>
    [UInt8.ofNat (left >>> 16), UInt8.ofNat (left >>> 8), UInt8.ofNat left,
      UInt8.ofNat (right >>> 16), UInt8.ofNat (right >>> 8), UInt8.ofNat right]
  | .bits28 =>
    let leftHigh4 := UInt8.ofNat ((left >>> 24) &&& 0xF)
    let rightHigh4 := UInt8.ofNat ((right >>> 24) &&& 0xF)
    [UInt8.ofNat (left >>> 16), UInt8.ofNat (left >>> 8), UInt8.ofNat left,
      (leftHigh4 <<< 4) ||| rightHigh4,
      UInt8.ofNat (right >>> 16), UInt8.ofNat (right >>> 8), UInt8.ofNat right]
  | .bits32 =>
    [UInt8.ofNat (left >>> 24), UInt8.ofNat (left >>> 16), UInt8.ofNat (left >>> 8),
      UInt8.ofNat left, UInt8.ofNat (right >>> 24), UInt8.ofNat (right >>> 16),
      UInt8.ofNat (right >>> 8), UInt8.ofNat right]

/-- The loop of `serialize` over the nodes. -/
def serializeNodes (nodeCount : ℕ) (recordSize : RecordSize) (idToOffset : List (ValueId × ℕ)) :
    List Node → Except Fault (List UInt8)
  | [] => .ok []
  | node :: nodes => do
    let left ← encodeRecord node.left nodeCount recordSize idToOffset
    let right ← encodeRecord node.right nodeCount recordSize idToOffset
    let out ← serializeNodes nodeCount recordSize idToOffset nodes
    .ok (writeRecordPair left right recordSize ++ out)

/-- `serialize`. -/
def serialize (t : Tree) (recordSize : RecordSize) (idToOffset : List (ValueId × ℕ)) :
    Except Fault (List UInt8) :=
  serializeNodes t.nodes.length recordSize idToOffset t.nodes

end Serialize

end Tree

end MmdbWriter
