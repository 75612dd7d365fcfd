import MmdbWriter.Tree

/-!
# The layout of a tree

What the vector of nodes of a compacted tree looks like: which nodes are below the root, in which
order, and where its records lead.
-/

namespace MmdbWriter

/-- The node a record leads to. -/
def Record.target : Record → Option ℕ
  | .node i | .fixedNode i | .aliased i => some i
  | .noData | .data _ | .reserved => none

namespace Tree

/-- The children of a node, aliases left out. -/
def children (n : Node) : List ℕ := pushed n.left ++ pushed n.right

/-- The nodes below a node, itself first and left before right. -/
def preOrder (t : Tree) : (depth i : ℕ) → List ℕ
  | 0, _ => []
  | depth + 1, i => match t.nodes[i]? with
    | none => []
    | some n => i :: (children n).flatMap (t.preOrder depth)

/-- A walk over children leads from the one node to the other. -/
inductive Below (t : Tree) (i : ℕ) : ℕ → Prop
  | refl : Below t i i
  | child {j k : ℕ} {n : Node} (hj : Below t i j) (hn : t.nodes[j]? = some n)
      (hk : k ∈ children n) : Below t i k

/-- The records of all nodes. -/
def records (t : Tree) : List Record := t.nodes.flatMap fun n => [n.left, n.right]

/-- The record on one side of a node leads to another node. -/
def Points (t : Tree) (i : ℕ) (bit : Bool) (j : ℕ) : Prop :=
  ∃ n, t.nodes[i]? = some n ∧ (n.child bit).target = some j

/-- What a tree is between inserts. The first three hold of the whole vector, of nodes that merges
left behind too. -/
structure Sound (t : Tree) : Prop where
  /-- No pins, no aliases and nothing reserved. -/
  plain : ∀ rec ∈ t.records, rec = .noData ∨ (∃ id, rec = .data id) ∨ ∃ j, rec = .node j
  target_lt : ∀ i bit j, t.Points i bit j → j < t.nodes.length
  /-- Nodes come before their children, so there is no cycle. -/
  target_gt : ∀ i bit j, t.Points i bit j → i < j
  /-- One record leads to each node below the root. -/
  parent : ∀ j, t.Below 0 j → j ≠ 0 → ∃! e : ℕ × Bool, t.Below 0 e.1 ∧ t.Points e.1 e.2 j
  /-- Two equal leaves are left at the root only. -/
  unequal : ∀ (i : ℕ) (n : Node), t.Below 0 i → i ≠ 0 → t.nodes[i]? = some n →
    ¬ (n.left = n.right ∧ isLeafRecord n.left = true)

/-- The pinned node at `::/96`, if there is one. -/
def ipv4Root (t : Tree) : Except Fault (Option ℕ) := do
  let parent ← t.leftWalk 95 0
  match parent with
  | none => .ok none
  | some parentIdx =>
    let node ← t.nodeAt parentIdx
    match node.left with
    | .fixedNode i => .ok (some i)
    | _ => .ok none

/-- `compact` up to `renumber_reachable`. -/
def collapse : Exec Fault Tree Unit := do
  let t ← Exec.read
  let rootEffective ← compactNode t.nodes.length 0
  if isLeafRecord rootEffective then writeNode 0 ⟨rootEffective, rootEffective⟩ else pure ()

theorem compact_eq_bind (t : Tree) : t.compact = (collapse >>= fun _ => renumberReachable) t := by
  unfold compact collapse
  simp only [Exec.bind_apply, Exec.read_apply]
  rcases compactNode t.nodes.length 0 t with ⟨e | r, t'⟩
  · rfl
  · simp only []
    split_ifs <;> rfl

theorem mem_records {t : Tree} {rec : Record} :
    rec ∈ t.records ↔ ∃ (i : ℕ) (n : Node), t.nodes[i]? = some n ∧ (rec = n.left ∨ rec = n.right) := by
  simp only [records, List.mem_flatMap, List.mem_cons, List.not_mem_nil, or_false]
  constructor
  · rintro ⟨n, hn, hr⟩
    obtain ⟨i, hi⟩ := List.mem_iff_getElem?.mp hn
    exact ⟨i, n, hi, hr⟩
  · rintro ⟨i, n, hi, hr⟩
    exact ⟨n, List.mem_of_getElem? hi, hr⟩

/-- An id is listed where it appears first. -/
def collectId (ids : List ValueId) : Record → List ValueId
  | .data id => if id ∈ ids then ids else ids ++ [id]
  | .noData | .node _ | .fixedNode _ | .aliased _ | .reserved => ids

theorem reachableDataIds_eq (t : Tree) : t.reachableDataIds = t.records.foldl collectId [] := by
  unfold reachableDataIds records
  congr 1
  funext ids record
  cases record <;> rfl

theorem below_of_mem_preOrder {t : Tree} : ∀ {depth i j k : ℕ}, j ∈ t.preOrder depth i →
    t.Below k i → t.Below k j
  | 0, _, _, _, hj, _ => by simp [preOrder] at hj
  | depth + 1, i, j, k, hj, hi => by
    unfold preOrder at hj
    split at hj
    · simp at hj
    · rename_i n hn
      rcases List.mem_cons.mp hj with rfl | hj
      · exact hi
      · obtain ⟨c, hc, hj⟩ := List.mem_flatMap.mp hj
        exact below_of_mem_preOrder hj (hi.child hn hc)

/-- What the file has for a record, given the offsets of the values. -/
def recordValue (nodeCount : ℕ) (idToOffset : List (ValueId × ℕ)) : Record → Option ℕ
  | .noData | .reserved => some nodeCount
  | .node i | .fixedNode i | .aliased i => some i
  | .data id => (idToOffset.lookup id).map (nodeCount + 16 + ·)

/-- The vector a compaction leaves for the tree it began with, where addresses have `depth` bits. -/
structure Compacted (depth : ℕ) (t t' : Tree) : Prop where
  /-- Every address keeps its value. -/
  get : ∀ bits, ∃ id, t.get bits depth = .ok id ∧ t'.get bits depth = .ok id
  /-- The nodes are all below the root and in pre-order. -/
  below : ∀ i < t'.nodes.length, t'.Below 0 i
  preOrder : t'.preOrder t'.nodes.length 0 = List.range t'.nodes.length
  child_gt : ∀ (i : ℕ) (n : Node), t'.nodes[i]? = some n → ∀ j ∈ children n, i < j
  target_lt : ∀ rec ∈ t'.records, ∀ j, rec.target = some j → j < t'.nodes.length
  /-- Two equal leaves are left below the root and the pinned node only. -/
  unequal : ∀ (i : ℕ) (n : Node), t'.nodes[i]? = some n → i ≠ 0 → .fixedNode i ∉ t'.records →
    ¬ (n.left = n.right ∧ isLeafRecord n.left = true)
  /-- The pinned node stays one, and the aliases lead to it. -/
  pinned : ∀ i, t.ipv4Root = .ok (some i) → ∃ j < t'.nodes.length, t'.ipv4Root = .ok (some j)
  aliased : ∀ j, .aliased j ∈ t'.records → t'.ipv4Root = .ok (some j)
  /-- No record but a free one is renumbered to a free one. -/
  renumbered : ∃ c oldToNew order, t.collapse = (.ok (), c) ∧
    c.visitOrder (2 * c.nodes.length + 2) [0] [] [] = .ok (oldToNew, order) ∧
    ∀ i ∈ order, ∃ n : Node, c.nodes[i]? = some n ∧ ∀ rec, rec = n.left ∨ rec = n.right →
      remapRecord oldToNew rec = .noData → rec = .noData
  /-- A second compaction changes nothing. -/
  again : t'.compact = (.ok (), t')

end Tree

end MmdbWriter
