import MmdbWriter.Proofs.Packing

/-!
# The values a tree refers to

A tree refers to the values of the records of the nodes below its root. The aliases take the place of
free records only, and compaction keeps every label, so the file holds the values the writer's tree
refers to and no others.
-/

namespace MmdbWriter

open BitTrie (leaf node)

namespace Tree

/-- A node below the root has a record with the id. -/
def Refers (t : Tree) (id : ValueId) : Prop :=
  ∃ i n, t.Below 0 i ∧ t.nodes[i]? = some n ∧ (.data id = n.left ∨ .data id = n.right)

/-- The ids at the leaves of a stored trie are those of the records on its footprint. -/
theorem exists_data_iff {nodes : List Node} {v4 : ℕ} {id : ValueId} : ∀ {t : BitTrie (Leaf ValueId)}
    {rec : Record} {fp : List ℕ}, Stores nodes v4 rec t fp →
    ((∃ p, t.eval p = .data id) ↔ rec = .data id ∨
      ∃ j ∈ fp, ∃ n, nodes[j]? = some n ∧ (.data id = n.left ∨ .data id = n.right))
  | leaf a, _, _, h => by
    obtain ⟨rfl, rfl⟩ := h
    cases a <;> simp [leafRecord]
  | node pin l r, _, _, h => by
    obtain ⟨i, n, fl, fr, rfl, -, hn, hl, hr, rfl⟩ := h
    have hrec : nodeRecord pin i ≠ .data id := by cases pin <;> simp [nodeRecord]
    have heval : (∃ p, (node pin l r).eval p = .data id) ↔
        (∃ p, l.eval p = .data id) ∨ ∃ p, r.eval p = .data id := by
      constructor
      · rintro ⟨_ | ⟨_ | _, p⟩, hp⟩
        · exact Or.inl ⟨[], by simpa using hp⟩
        · exact Or.inl ⟨p, by simpa using hp⟩
        · exact Or.inr ⟨p, by simpa using hp⟩
      · rintro (⟨p, hp⟩ | ⟨p, hp⟩)
        · exact ⟨false :: p, by simpa using hp⟩
        · exact ⟨true :: p, by simpa using hp⟩
    rw [heval, exists_data_iff hl, exists_data_iff hr]
    simp only [hrec, false_or, List.mem_cons, List.mem_append]
    constructor
    · rintro ((hleft | ⟨j, hj, hn'⟩) | hright | ⟨j, hj, hn'⟩)
      · exact ⟨i, Or.inl rfl, n, hn, Or.inl hleft.symm⟩
      · exact ⟨j, Or.inr (Or.inl hj), hn'⟩
      · exact ⟨i, Or.inl rfl, n, hn, Or.inr hright.symm⟩
      · exact ⟨j, Or.inr (Or.inr hj), hn'⟩
    · rintro ⟨j, rfl | hj | hj, n', hn', hid⟩
      · rw [hn, Option.some.injEq] at hn'
        subst hn'
        exact hid.elim (fun h => Or.inl (Or.inl h.symm)) fun h => Or.inr (Or.inl h.symm)
      · exact Or.inl (Or.inr ⟨j, hj, n', hn', hid⟩)
      · exact Or.inr (Or.inr ⟨j, hj, n', hn', hid⟩)

section Stored

variable {t : Tree} {v4 : ℕ} {l r : BitTrie (Leaf ValueId)} {fp : List ℕ} {id : ValueId}

theorem below_iff (hst : NodeStores t.nodes v4 0 l r fp) {i : ℕ} : t.Below 0 i ↔ i ∈ fp := by
  constructor
  · intro h
    induction h with
    | refl => exact nodeStores_root_mem hst
    | @child j k n _ hn hk ih =>
      obtain ⟨p, pin, l', r', fj, -, ⟨n', fl, fr, hn', hl, hr, rfl⟩, hfj, -⟩ :=
        stores_at (nodeStores_unpinned hst) j ih
      rw [hn, Option.some.injEq] at hn'
      subst hn'
      refine hfj.subset (List.mem_cons_of_mem j ?_)
      rcases List.mem_append.mp hk with hk | hk
      · exact List.mem_append_left _ (mem_of_pushed hl hk)
      · exact List.mem_append_right _ (mem_of_pushed hr hk)
  · intro h
    rw [← preOrder_spec _ 0 l r fp hst le_rfl] at h
    exact below_of_mem_preOrder h .refl

theorem refers_iff (hst : NodeStores t.nodes v4 0 l r fp) :
    t.Refers id ↔ ∃ p, (node false l r).eval p = .data id := by
  rw [exists_data_iff (nodeStores_unpinned hst)]
  unfold Refers
  simp only [below_iff hst, reduceCtorEq, false_or]
  exact ⟨fun ⟨i, n, hi, h⟩ => ⟨i, hi, n, h⟩, fun ⟨i, hi, n, h⟩ => ⟨i, n, hi, h⟩⟩

end Stored

end Tree

/-- No value makes way for an alias. -/
theorem exists_data_builtTrie (b : WriterBuilder) {t : BitTrie (Leaf ValueId)} {id : ValueId} :
    (∃ p, (b.builtTrie t).eval p = .data id) ↔ ∃ p, t.eval p = .data id := by
  have halias : (∃ p, (withAliases t).eval p = .data id) ↔ ∃ p, t.eval p = .data id := by
    have hlong : ∀ p : List Bool, 96 ≤ (p ++ List.replicate 96 false).length := by simp
    constructor
    · rintro ⟨p, hp⟩
      rw [← BitTrie.eval_append_replicate _ p 96, eval_withAliases (hlong p)] at hp
      split_ifs at hp
      exact ⟨_, hp⟩
    · rintro ⟨p, hp⟩
      rw [← BitTrie.eval_append_replicate _ p 96] at hp
      refine ⟨p ++ List.replicate 96 false, ?_⟩
      rw [eval_withAliases (hlong p), if_neg, hp]
      rintro ⟨-, a, -, ⟨q, hq⟩, hcov⟩
      have := BitTrie.coverAt_eq_some hcov q
      rw [hq, hp] at this
      cases this
  unfold WriterBuilder.builtTrie
  simp only [BitTrie.eval_normKids]
  split_ifs
  · exact halias
  · exact Iff.rfl

/-- The file holds the values the writer's tree refers to. -/
theorem Writer.Grown.mem_reachableDataIds [Ipnet] {w : Writer} (hw : w.Grown) {t : Tree}
    (ht : w.buildTree = .ok t) {id : ValueId} :
    id ∈ t.reachableDataIds ↔ w.tree.Refers id := by
  obtain ⟨⟨l, r, fp, hst, hnd, hl, hr⟩, hidx⟩ := hw.tree.shaped
  obtain ⟨hun, hal, -⟩ := hl.node hr
  rcases buildTree_ids hst hnd hidx hun hal.eval with ⟨t', ht', v4, l', r', heq, hst'⟩ | ⟨n, herr, -⟩
  · rw [ht, Except.ok.injEq] at ht'
    subst ht'
    rw [Tree.mem_reachableDataIds, Tree.refers_iff hst, ← exists_data_builtTrie w.toWriterBuilder, heq,
      Tree.exists_data_iff (nodeStores_unpinned hst'), Tree.mem_records]
    simp only [reduceCtorEq, false_or, List.mem_range]
    constructor
    · rintro ⟨i, n, hn, hid⟩
      exact ⟨i, (List.getElem?_eq_some_iff.mp hn).1, n, hn, hid⟩
    · rintro ⟨i, -, n, hn, hid⟩
      exact ⟨i, n, hn, hid⟩
  · rw [ht] at herr
    cases herr

end MmdbWriter
