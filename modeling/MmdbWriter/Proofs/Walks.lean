import MmdbWriter.Proofs.Compacted
import MmdbWriter.Proofs.Packing

/-!
# Walking the records of a file

A reader that follows the bits of an address from node to node comes, in the bytes of a serialized
tree, to the record of the leaf at which the trie's own lookup ends.
-/

namespace MmdbWriter

open BitTrie (leaf node)

namespace Leaf

/-- The record a reader ends at in a leaf, where `via` follows an alias. -/
def recordAt (nodeCount : ℕ) (idToOffset : List (ValueId × ℕ)) (via : List Bool → Option ℕ) :
    Leaf ValueId → List Bool → Option ℕ
  | aliased, p => via p
  | noData, _ | reserved, _ => some nodeCount
  | data id, _ => (idToOffset.lookup id).map (nodeCount + 16 + ·)

/-- The record of a leaf that is no alias. -/
def record (nodeCount : ℕ) (idToOffset : List (ValueId × ℕ)) (a : Leaf ValueId) : Option ℕ :=
  Tree.recordValue nodeCount idToOffset (leafRecord 0 a)

theorem recordAt_of_ne {nodeCount : ℕ} {idToOffset : List (ValueId × ℕ)}
    {via : List Bool → Option ℕ} (v4 : ℕ) {a : Leaf ValueId} (ha : a ≠ aliased) (p : List Bool) :
    a.recordAt nodeCount idToOffset via p =
      Tree.recordValue nodeCount idToOffset (leafRecord v4 a) := by
  cases a with
  | aliased => exact absurd rfl ha
  | noData | reserved | data id => rfl

end Leaf

namespace Tree

variable {t : Tree} {size : RecordSize} {idToOffset : List (ValueId × ℕ)} {bytes : List UInt8}

theorem walk_cons (tree : List UInt8) (nodeCount recordSize : ℕ) (b : Bool) (p : List Bool)
    (i : ℕ) : Mmdb.walk tree nodeCount recordSize (b :: p) i =
      (Mmdb.readRecord tree recordSize i b).bind fun record =>
        if record < nodeCount then Mmdb.walk tree nodeCount recordSize p record else some record :=
  rfl

/-- The walk in the bytes is the lookup in the trie. -/
theorem walk_lookup (h : t.serialize size idToOffset = .ok bytes) (more : List UInt8) {v4 : ℕ}
    (htarget : ∀ rec ∈ t.records, ∀ j, rec.target = some j → j < t.nodeCount) :
    ∀ (p : List Bool) {i : ℕ} {l r : BitTrie (Leaf ValueId)} {fp : List ℕ},
      NodeStores t.nodes v4 i l r fp →
      Mmdb.walk (bytes ++ more) t.nodeCount size.bits p i = (node false l r).lookup
        (Leaf.recordAt t.nodeCount idToOffset fun q =>
          Mmdb.walk (bytes ++ more) t.nodeCount size.bits q v4) p
  | [], _, _, _, _, _ => rfl
  | b :: p, i, l, r, fp, hst => by
    obtain ⟨n, fl, fr, hn, hl, hr, -⟩ := hst
    have hread := readRecord_serialize_append h hn more b
    have hmem : ∀ b, n.child b ∈ t.records := fun b => mem_records.mpr ⟨i, n, hn, by
      cases b
      · exact Or.inl rfl
      · exact Or.inr rfl⟩
    have hchild : ∀ {u : BitTrie (Leaf ValueId)} {fu : List ℕ}, Stores t.nodes v4 (n.child b) u fu →
        Mmdb.walk (bytes ++ more) t.nodeCount size.bits (b :: p) i = u.lookup
          (Leaf.recordAt t.nodeCount idToOffset fun q =>
            Mmdb.walk (bytes ++ more) t.nodeCount size.bits q v4) p := by
      intro u fu hu
      rw [walk_cons, hread]
      cases u with
      | leaf a =>
        obtain ⟨hrec, -⟩ := hu
        rw [hrec]
        cases a with
        | aliased =>
          have hlt := htarget _ (hmem b) v4 (by rw [hrec]; rfl)
          simp [recordValue, leafRecord, hlt, BitTrie.lookup, Leaf.recordAt]
        | noData | reserved => simp [recordValue, leafRecord, BitTrie.lookup, Leaf.recordAt]
        | data id =>
          cases hoff : idToOffset.lookup id with
          | none => simp [recordValue, leafRecord, BitTrie.lookup, Leaf.recordAt, hoff]
          | some offset =>
            have hge : ¬ t.nodeCount + 16 + offset < t.nodeCount := by omega
            simp [recordValue, leafRecord, BitTrie.lookup, Leaf.recordAt, hoff, hge]
      | node pin l' r' =>
        obtain ⟨c, hrec, -, hc⟩ := stores_node.mp hu
        have hvalue : recordValue t.nodeCount idToOffset (n.child b) = some c := by
          rw [hrec]
          cases pin <;> rfl
        have hlt := htarget _ (hmem b) c (by rw [hrec]; cases pin <;> rfl)
        rw [hvalue, BitTrie.lookup_pin pin false, ← walk_lookup h more htarget p hc]
        simp [hlt]
    cases b with
    | false => exact hchild hl
    | true => exact hchild hr

/-- The walk from the root, where an alias leads to the pinned node, is the lookup that goes on there. -/
theorem walk_followLookup (h : t.serialize size idToOffset = .ok bytes) (more : List UInt8) {v4 : ℕ}
    {l r : BitTrie (Leaf ValueId)} {fp : List ℕ}
    (htarget : ∀ rec ∈ t.records, ∀ j, rec.target = some j → j < t.nodeCount)
    (hst : NodeStores t.nodes v4 0 l r fp) (ha : Anchored (node false l r)) (p : List Bool) :
    Mmdb.walk (bytes ++ more) t.nodeCount size.bits p 0 =
      followLookup (Leaf.record t.nodeCount idToOffset) (node false l r) p := by
  rw [walk_lookup h more htarget p hst, followLookup]
  refine BitTrie.lookup_congr fun q a _ hl => ?_
  cases a with
  | noData | data _ | reserved => rfl
  | aliased =>
    have hpin := ha.pinned ⟨q ++ [], BitTrie.coverAt_eq_some (BitTrie.coverAt_of_leafAt hl) []⟩
    obtain ⟨l', r', fp', hsub, hst'⟩ := nodeStores_pinned (nodeStores_unpinned hst) hpin
    have hbelow := ha.below hpin
    rw [hsub] at hbelow
    have hbelow' : (node false l' r').Forall (· ≠ .aliased) := hbelow
    show Mmdb.walk _ _ _ _ v4 = BitTrie.lookup _ _ _
    rw [walk_lookup h more htarget _ hst', hsub, BitTrie.lookup_pin true false]
    refine BitTrie.lookup_congr fun q' a' _ hl' => ?_
    exact Leaf.recordAt_of_ne 0 (fun haliased => leafAt_ne_aliased hbelow' q' (haliased ▸ hl')) _

end Tree

end MmdbWriter
