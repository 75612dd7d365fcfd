import MmdbWriter.Lib.TrieUpdate
import MmdbWriter.Tree

/-!
# The trie a tree's nodes store

`Stores` reads a record as a binary trie with labels at its leaves. It goes with the list of the nodes
below the record in pre-order, its footprint: a list without repetition says that no node is shared
and none is its own descendant, and nodes outside it can change without touching the trie.
-/

namespace MmdbWriter

/-- What a leaf record holds, the index of an alias left out. -/
inductive Leaf (α : Type) where
  | noData
  | data (v : α)
  | reserved
  | aliased
deriving DecidableEq, Repr

namespace Leaf

variable {α β : Type}

/-- The value a lookup finds. -/
def value : Leaf α → Option α
  | data v => some v
  | _ => none

/-- One leaf for another, the data related. -/
def Rel (R : α → β → Prop) : Leaf α → Leaf β → Prop
  | noData, noData => True
  | data a, data b => R a b
  | reserved, reserved => True
  | aliased, aliased => True
  | _, _ => False

end Leaf

open BitTrie (leaf node)

/-- The record of a leaf, with the node the aliases lead to. -/
def leafRecord (v4 : ℕ) : Leaf ValueId → Record
  | .noData => .noData
  | .data id => .data id
  | .reserved => .reserved
  | .aliased => .aliased v4

/-- The record of a node. -/
def nodeRecord (pin : Bool) (i : ℕ) : Record := if pin then .fixedNode i else .node i

/-- The record stores the trie, on the nodes of the footprint; a pinned node is the one the aliases
lead to. -/
def Stores (nodes : List Node) (v4 : ℕ) : Record → BitTrie (Leaf ValueId) → List ℕ → Prop
  | rec, leaf a, fp => rec = leafRecord v4 a ∧ fp = []
  | rec, node pin l r, fp => ∃ i n fl fr, rec = nodeRecord pin i ∧ (pin = true → i = v4) ∧
      nodes[i]? = some n ∧ Stores nodes v4 n.left l fl ∧ Stores nodes v4 n.right r fr ∧
      fp = i :: (fl ++ fr)

/-- The node stores the two tries below it. -/
def NodeStores (nodes : List Node) (v4 i : ℕ) (l r : BitTrie (Leaf ValueId)) (fp : List ℕ) : Prop :=
  ∃ n fl fr, nodes[i]? = some n ∧ Stores nodes v4 n.left l fl ∧ Stores nodes v4 n.right r fr ∧
    fp = i :: (fl ++ fr)

@[simp] theorem isLeafRecord_leafRecord (v4 : ℕ) (a : Leaf ValueId) :
    isLeafRecord (leafRecord v4 a) = true := by cases a <;> rfl

@[simp] theorem isLeafRecord_nodeRecord (pin : Bool) (i : ℕ) :
    isLeafRecord (nodeRecord pin i) = false := by cases pin <;> rfl

theorem leafRecord_inj {v4 : ℕ} {a b : Leaf ValueId} (h : leafRecord v4 a = leafRecord v4 b) :
    a = b := by
  cases a <;> cases b <;> simp_all [leafRecord]

namespace Node

@[simp] theorem child_setChild_self (n : Node) (b : Bool) (r : Record) :
    (n.setChild b r).child b = r := by cases b <;> rfl

@[simp] theorem child_setChild_not (n : Node) (b : Bool) (r : Record) :
    (n.setChild b r).child (!b) = n.child (!b) := by cases b <;> rfl

@[simp] theorem setChild_setChild (n : Node) (b : Bool) (r r' : Record) :
    (n.setChild b r).setChild b r' = n.setChild b r' := by cases b <;> rfl

@[simp] theorem setChild_child (n : Node) (b : Bool) : n.setChild b (n.child b) = n := by
  cases b <;> rfl

end Node

section Stores

variable {nodes nodes' : List Node} {v4 : ℕ}

@[simp] theorem stores_leaf {rec : Record} {a : Leaf ValueId} {fp : List ℕ} :
    Stores nodes v4 rec (leaf a) fp ↔ rec = leafRecord v4 a ∧ fp = [] := Iff.rfl

theorem stores_node {rec : Record} {pin : Bool} {l r : BitTrie (Leaf ValueId)} {fp : List ℕ} :
    Stores nodes v4 rec (node pin l r) fp ↔
      ∃ i, rec = nodeRecord pin i ∧ (pin = true → i = v4) ∧ NodeStores nodes v4 i l r fp := by
  constructor
  · rintro ⟨i, n, fl, fr, hrec, hpin, hn, hl, hr, hfp⟩
    exact ⟨i, hrec, hpin, n, fl, fr, hn, hl, hr, hfp⟩
  · rintro ⟨i, hrec, hpin, n, fl, fr, hn, hl, hr, hfp⟩
    exact ⟨i, n, fl, fr, hrec, hpin, hn, hl, hr, hfp⟩

theorem isLeafRecord_of_stores : ∀ {t : BitTrie (Leaf ValueId)} {rec : Record} {fp : List ℕ},
    Stores nodes v4 rec t fp → (isLeafRecord rec = true ↔ ∃ a, t = leaf a)
  | leaf a, _, _, h => by simp [h.1]
  | node pin l r, _, _, h => by
    obtain ⟨i, rfl, -⟩ := stores_node.mp h
    simp

theorem stores_mem_lt : ∀ {t : BitTrie (Leaf ValueId)} {rec : Record} {fp : List ℕ},
    Stores nodes v4 rec t fp → ∀ j ∈ fp, j < nodes.length
  | leaf a, _, _, h, j, hj => by simp [h.2] at hj
  | node pin l r, _, _, h, j, hj => by
    obtain ⟨i, n, fl, fr, -, -, hn, hl, hr, rfl⟩ := h
    simp only [List.mem_cons, List.mem_append] at hj
    rcases hj with rfl | hj | hj
    · exact (List.getElem?_eq_some_iff.mp hn).1
    · exact stores_mem_lt hl j hj
    · exact stores_mem_lt hr j hj

/-- Changes outside the footprint leave the trie as it is. -/
theorem stores_frame : ∀ {t : BitTrie (Leaf ValueId)} {rec : Record} {fp : List ℕ},
    Stores nodes v4 rec t fp → (∀ j ∈ fp, nodes'[j]? = nodes[j]?) → Stores nodes' v4 rec t fp
  | leaf a, _, _, h, _ => h
  | node pin l r, _, _, h, hs => by
    obtain ⟨i, n, fl, fr, hrec, hpin, hn, hl, hr, rfl⟩ := h
    refine ⟨i, n, fl, fr, hrec, hpin, ?_, ?_, ?_, rfl⟩
    · rw [hs i (by simp), hn]
    · exact stores_frame hl fun j hj => hs j (by simp [hj])
    · exact stores_frame hr fun j hj => hs j (by simp [hj])

theorem stores_height_le : ∀ {t : BitTrie (Leaf ValueId)} {rec : Record} {fp : List ℕ},
    Stores nodes v4 rec t fp → t.height ≤ fp.length
  | leaf a, _, _, _ => by simp [BitTrie.height]
  | node pin l r, _, _, h => by
    obtain ⟨i, n, fl, fr, -, -, -, hl, hr, rfl⟩ := h
    have := stores_height_le hl
    have := stores_height_le hr
    simp only [BitTrie.height, List.length_cons, List.length_append]
    omega

theorem stores_length : ∀ {t : BitTrie (Leaf ValueId)} {rec : Record} {fp : List ℕ},
    Stores nodes v4 rec t fp → fp.length = t.size
  | leaf a, _, _, h => by simp [h.2, BitTrie.size]
  | node pin l r, _, _, h => by
    obtain ⟨i, n, fl, fr, -, -, -, hl, hr, rfl⟩ := h
    simp only [BitTrie.size, List.length_cons, List.length_append, stores_length hl,
      stores_length hr]

theorem nodeStores_unpinned {i : ℕ} {l r : BitTrie (Leaf ValueId)} {fp : List ℕ}
    (h : NodeStores nodes v4 i l r fp) : Stores nodes v4 (.node i) (node false l r) fp :=
  stores_node.mpr ⟨i, rfl, by simp, h⟩

theorem nodeStores_frame {i : ℕ} {l r : BitTrie (Leaf ValueId)} {fp : List ℕ}
    (h : NodeStores nodes v4 i l r fp) (hs : ∀ j ∈ fp, nodes'[j]? = nodes[j]?) :
    NodeStores nodes' v4 i l r fp := by
  have := stores_frame (nodeStores_unpinned h) hs
  obtain ⟨j, hj, -, h'⟩ := stores_node.mp this
  have hij : i = j := by simpa [nodeRecord] using hj
  rwa [hij]

theorem nodeStores_mem_lt {i : ℕ} {l r : BitTrie (Leaf ValueId)} {fp : List ℕ}
    (h : NodeStores nodes v4 i l r fp) : ∀ j ∈ fp, j < nodes.length :=
  stores_mem_lt (nodeStores_unpinned h)

theorem nodeStores_root_mem {i : ℕ} {l r : BitTrie (Leaf ValueId)} {fp : List ℕ}
    (h : NodeStores nodes v4 i l r fp) : i ∈ fp := by
  obtain ⟨n, fl, fr, -, -, -, rfl⟩ := h
  simp

end Stores

/-- A change of the nodes that keeps to a footprint: the nodes outside it stay, and the footprint it
leaves has no repetition and is made of the old one and of new nodes. -/
structure Frame (nodes nodes' : List Node) (fp fp' : List ℕ) : Prop where
  length_le : nodes.length ≤ nodes'.length
  same : ∀ j < nodes.length, j ∉ fp → nodes'[j]? = nodes[j]?
  sub : ∀ j ∈ fp', j ∈ fp ∨ nodes.length ≤ j
  nodup : fp'.Nodup

namespace Frame

variable {nodes nodes' nodes'' : List Node} {fp fp' fp'' : List ℕ}

theorem refl (h : fp.Nodup) : Frame nodes nodes fp fp :=
  ⟨le_rfl, fun _ _ _ => rfl, fun _ hj => Or.inl hj, h⟩

theorem trans (h : Frame nodes nodes' fp fp') (h' : Frame nodes' nodes'' fp' fp'') :
    Frame nodes nodes'' fp fp'' where
  length_le := h.length_le.trans h'.length_le
  same j hj hfp := by
    have hj' : j ∉ fp' := by
      intro hmem
      rcases h.sub j hmem with hm | hm
      · exact hfp hm
      · omega
    rw [h'.same j (lt_of_lt_of_le hj h.length_le) hj', h.same j hj hfp]
  sub j hj := by
    rcases h'.sub j hj with hm | hm
    · exact h.sub j hm
    · exact Or.inr (h.length_le.trans hm)
  nodup := h'.nodup

/-- A footprint apart from the changed one stays apart. -/
theorem not_mem (h : Frame nodes nodes' fp fp') {j : ℕ} (hj : j < nodes.length) (hfp : j ∉ fp) :
    j ∉ fp' := by
  intro hmem
  rcases h.sub j hmem with hm | hm
  · exact hfp hm
  · omega

theorem stores (h : Frame nodes nodes' fp fp') {v4 : ℕ} {rec : Record} {t : BitTrie (Leaf ValueId)}
    {ft : List ℕ} (hr : Stores nodes v4 rec t ft) (hd : ∀ j ∈ ft, j ∉ fp) :
    Stores nodes' v4 rec t ft :=
  stores_frame hr fun j hj => h.same j (stores_mem_lt hr j hj) (hd j hj)

theorem union (h : Frame nodes nodes' fp fp') {k : List ℕ} (hk : k.Nodup)
    (hlt : ∀ j ∈ k, j < nodes.length) (hd : ∀ j ∈ k, j ∉ fp) :
    Frame nodes nodes' (k ++ fp) (k ++ fp') where
  length_le := h.length_le
  same j hj hfp := h.same j hj fun hm => hfp (List.mem_append_right _ hm)
  sub j hj := by
    rcases List.mem_append.mp hj with hm | hm
    · exact Or.inl (List.mem_append_left _ hm)
    · rcases h.sub j hm with hm | hm
      · exact Or.inl (List.mem_append_right _ hm)
      · exact Or.inr hm
  nodup := by
    rw [List.nodup_append]
    refine ⟨hk, h.nodup, ?_⟩
    rintro j hj _ hm rfl
    exact h.not_mem (hlt j hj) (hd j hj) hm

theorem perm (h : Frame nodes nodes' fp fp') {gp gp' : List ℕ} (hp : fp.Perm gp)
    (hp' : fp'.Perm gp') : Frame nodes nodes' gp gp' where
  length_le := h.length_le
  same j hj hfp := h.same j hj fun hm => hfp (hp.mem_iff.mp hm)
  sub j hj := by
    rw [← hp.mem_iff]
    exact h.sub j (hp'.mem_iff.mpr hj)
  nodup := hp'.nodup_iff.mp h.nodup

end Frame

end MmdbWriter
