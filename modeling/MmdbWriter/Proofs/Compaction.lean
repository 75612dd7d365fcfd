import MmdbWriter.Proofs.Compacted

/-!
# What compaction leaves

The nodes of a compacted tree store a normal form on a footprint that is the whole vector in order, and
the layout of the vector is read off it.
-/

namespace MmdbWriter

open BitTrie (leaf node)

namespace Tree

section Layout

variable {t : Tree} {v4 : ℕ} {l r : BitTrie (Leaf ValueId)}

/-- A stored record leads to a node of the vector. -/
theorem target_lt_of_stores (ha : Anchored (node false l r))
    (hst : NodeStores t.nodes v4 0 l r (List.range t.nodes.length)) {rec : Record}
    (hrec : rec ∈ t.records) {j : ℕ} (hj : rec.target = some j) :
    j < t.nodes.length ∧ (rec = .aliased j → t.ipv4Root = .ok (some j)) := by
  obtain ⟨i, n, hn, hleft⟩ := mem_records.mp hrec
  have hs := nodeStores_unpinned hst
  obtain ⟨p, pin, l', r', fj, hsub, ⟨n', fl, fr, hn', hl, hr, rfl⟩, hfj, -⟩ :=
    stores_at hs i (List.mem_range.mpr (List.getElem?_eq_some_iff.mp hn).1)
  rw [hn, Option.some.injEq] at hn'
  subst hn'
  have hmem : ∀ c ∈ fl ++ fr, c < t.nodes.length := fun c hc =>
    List.mem_range.mp (hfj.subset (List.mem_cons_of_mem i hc))
  have hpinned : (∃ q, (node pin l' r').eval q = .aliased) → j = v4 →
      j < t.nodes.length ∧ (rec = .aliased j → t.ipv4Root = .ok (some j)) := by
    rintro ⟨q, hq⟩ rfl
    have hpin := ha.pinned ⟨p ++ q, by rw [← BitTrie.eval_subtrie, hsub, hq]⟩
    exact ⟨List.mem_range.mp (stores_pinned_mem hs hpin), fun _ =>
      ipv4Root_eq hst hpin ha.pinned_eq⟩
  have hnode : ∀ {u : BitTrie (Leaf ValueId)} {fu : List ℕ}, Stores t.nodes v4 rec u fu →
      fu ⊆ fl ++ fr → (∀ q, ∃ q', (node pin l' r').eval q' = u.eval q) →
      j < t.nodes.length ∧ (rec = .aliased j → t.ipv4Root = .ok (some j)) := by
    intro u fu hu hfu heval
    rcases target_of_stores hu hj with ⟨hjf, hpushed⟩ | ⟨rfl, rfl, rfl⟩
    · refine ⟨hmem j (hfu hjf), ?_⟩
      rintro rfl
      simp [pushed] at hpushed
    · obtain ⟨q, hq⟩ := heval []
      exact hpinned ⟨q, by rw [hq, BitTrie.eval_leaf]⟩ rfl
  rcases hleft with rfl | rfl
  · exact hnode hl (List.subset_append_left fl fr) fun q => ⟨false :: q, by simp⟩
  · exact hnode hr (List.subset_append_right fl fr) fun q => ⟨true :: q, by simp⟩

theorem child_gt_of_stores (hst : NodeStores t.nodes v4 0 l r (List.range t.nodes.length)) {i : ℕ}
    {n : Node} (hn : t.nodes[i]? = some n) {j : ℕ} (hj : j ∈ children n) : i < j := by
  obtain ⟨p, pin, l', r', fj, -, ⟨n', fl, fr, hn', hl, hr, rfl⟩, hfj, -⟩ :=
    stores_at (nodeStores_unpinned hst) i
      (List.mem_range.mpr (List.getElem?_eq_some_iff.mp hn).1)
  rw [hn, Option.some.injEq] at hn'
  subst hn'
  have hmem : j ∈ fl ++ fr := by
    rcases List.mem_append.mp hj with hj | hj
    · exact List.mem_append_left _ (mem_of_pushed hl hj)
    · exact List.mem_append_right _ (mem_of_pushed hr hj)
  exact List.rel_of_pairwise_cons (List.pairwise_lt_range.sublist hfj) hmem

/-- Below a reduced root two equal leaves are below a pinned node only. -/
theorem unequal_of_stores (hred : l.ReducedOn (fun _ => True) ∧ r.ReducedOn fun _ => True)
    {fp : List ℕ} (hst : NodeStores t.nodes v4 0 l r fp) {i : ℕ} (hfp : i ∈ fp) {n : Node}
    (hn : t.nodes[i]? = some n) (hi : i ≠ 0) (hfixed : .fixedNode i ∉ t.records) :
    ¬ (n.left = n.right ∧ isLeafRecord n.left = true) := by
  obtain ⟨n₀, fl₀, fr₀, hn₀, hl₀, hr₀, rfl⟩ := hst
  have hbelow : ∀ {u : BitTrie (Leaf ValueId)} {rec : Record} {fu : List ℕ},
      Stores t.nodes v4 rec u fu → rec ∈ t.records → u.ReducedOn (fun _ => True) → i ∈ fu →
      ¬ (n.left = n.right ∧ isLeafRecord n.left = true) := by
    intro u rec fu hu hrec hred hmem heq
    obtain ⟨p, pin, l', r', fj, hsub, ⟨n', fl, fr, hn', hl, hr, rfl⟩, -, hlead⟩ :=
      stores_at hu i hmem
    rw [hn, Option.some.injEq] at hn'
    subst hn'
    obtain ⟨a, hla, hra⟩ := (merge_iff hl hr).mp heq
    have hredp := hred.subtrie (p := p)
    rw [hsub] at hredp
    cases pin with
    | false => exact hredp.2.2 rfl a trivial hla hra
    | true =>
      rcases hlead with hlead | ⟨k, nk, hk, hlead⟩
      · rw [hlead] at hrec
        exact hfixed hrec
      · exact hfixed (mem_records.mpr ⟨k, nk, hk, hlead⟩)
  rcases List.mem_append.mp ((List.mem_cons.mp hfp).resolve_left hi) with hmem | hmem
  · exact hbelow hl₀ (mem_records.mpr ⟨0, n₀, hn₀, Or.inl rfl⟩) hred.1 hmem
  · exact hbelow hr₀ (mem_records.mpr ⟨0, n₀, hn₀, Or.inr rfl⟩) hred.2 hmem

/-- The nodes that hold one trie are the same. -/
theorem Holds.unique {t' : Tree} {u : BitTrie (Leaf ValueId)} (h : t.Holds u) (h' : t'.Holds u)
    (ha : (∃ p, u.eval p = .aliased) → ∃ p, u.PinnedAt p) : t = t' := by
  have hrel := h.rel (R := Eq) h' (BitTrie.Rel.refl (fun a => by cases a <;> simp [Leaf.Rel]) u) ha
  have heq : ∀ {rec rec' : Record}, RecordRel Eq rec rec' → rec = rec' := by
    intro rec rec' hr
    cases rec <;> cases rec' <;> simp_all [RecordRel]
  have hnodes : t.nodes = t'.nodes := List.forall₂_eq_eq_eq ▸
    hrel.imp fun n n' hn => by rw [show n = ⟨n.left, n.right⟩ from rfl, heq hn.1, heq hn.2]
  cases t
  cases t'
  rw [Tree.mk.injEq]
  exact hnodes

end Layout

theorem renumbered_of_stores {c : Tree} {v4 : ℕ} {l r : BitTrie (Leaf ValueId)} {fp : List ℕ}
    (ha : Anchored (node false l r)) (hst : NodeStores c.nodes v4 0 l r fp)
    {oldToNew : List (ℕ × ℕ)} (hnum : Numbers oldToNew fp) :
    ∀ i ∈ fp, ∃ n : Node, c.nodes[i]? = some n ∧ ∀ rec, rec = n.left ∨ rec = n.right →
      remapRecord oldToNew rec = .noData → rec = .noData := by
  intro i hi
  have hs := nodeStores_unpinned hst
  obtain ⟨p, pin, l', r', fj, hsub, ⟨n, fl, fr, hn, hl, hr, rfl⟩, hfj, -⟩ := stores_at hs i hi
  have hchild : ∀ {rec : Record} {u : BitTrie (Leaf ValueId)} {fu : List ℕ},
      Stores c.nodes v4 rec u fu → fu ⊆ fl ++ fr → (∃ q', (node pin l' r').eval q' = u.eval []) →
      ∀ j, rec.target = some j → j ∈ fp := by
    intro rec u fu hu hfu heval j hj
    rcases target_of_stores hu hj with ⟨hjf, -⟩ | ⟨-, rfl, rfl⟩
    · exact hfj.subset (List.mem_cons_of_mem i (hfu hjf))
    · obtain ⟨q, hq⟩ := heval
      exact stores_pinned_mem hs (ha.pinned ⟨p ++ q, by
        rw [← BitTrie.eval_subtrie, hsub, hq, BitTrie.eval_leaf]⟩)
  have htarget : ∀ rec, rec = n.left ∨ rec = n.right → ∀ j, rec.target = some j → j ∈ fp := by
    rintro rec (rfl | rfl)
    · exact hchild hl (List.subset_append_left fl fr) ⟨[false], by simp⟩
    · exact hchild hr (List.subset_append_right fl fr) ⟨[true], by simp⟩
  refine ⟨n, hn, fun rec hrec hnone => ?_⟩
  have hlookup := fun j hj => (hnum.newIndex (htarget rec hrec j hj)).1
  cases rec with
  | noData => rfl
  | data id => cases hnone
  | reserved => cases hnone
  | node j | fixedNode j | aliased j =>
    simp only [remapRecord, hlookup j rfl, Option.map_some, Option.getD_some] at hnone
    cases hnone

variable {ipVersion : IpVersion} {t : Tree} {v4 : ℕ} {l r : BitTrie (Leaf ValueId)} {fp : List ℕ}

theorem compacted_of_stores (hst : NodeStores t.nodes v4 0 l r fp) (hnd : fp.Nodup)
    (hidx : t.Indexed) (h : Compactable ipVersion (node false l r)) :
    ∃ t', t.compact = (.ok (), t') ∧ Compacted ipVersion.treeDepth t t' := by
  have hdepth := (treeDepth_le ipVersion).2
  have ha' : Anchored (node false l.norm r.norm) := h.toAnchored.normKids
  have hpins : (∃ p, (node false l r).eval p = .aliased) → ∃ p, (node false l r).PinnedAt p :=
    fun hal => ⟨_, h.pinned hal⟩
  obtain ⟨c, fp₁, hrun, hst₁, hnd₁, hlen₁⟩ := collapse_spec hst hnd
  obtain ⟨t', hcompact, hholds, hlen⟩ := compact_spec hst hnd hidx hpins
  have hholds' := hholds
  obtain ⟨v4', l', r', heq, hst'⟩ := hholds'
  cases heq
  have hidx' : t'.Indexed := hlen.trans hidx
  have horder : t'.preOrder t'.nodes.length 0 = List.range t'.nodes.length :=
    preOrder_spec _ _ _ _ _ hst' (by
      have := stores_height_le (nodeStores_unpinned hst')
      rwa [List.length_range] at this)
  refine ⟨t', hcompact, fun bits => ?_, fun i hi => ?_, horder, fun i n hn j hj =>
    child_gt_of_stores hst' hn hj, fun rec hrec j hj => (target_lt_of_stores ha' hst' hrec hj).1,
    fun i n hn hi hf => unequal_of_stores ⟨BitTrie.reducedOn_norm _ _, BitTrie.reducedOn_norm _ _⟩
      hst' (List.mem_range.mpr (List.getElem?_eq_some_iff.mp hn).1) hn hi hf, fun i hi => ?_,
    fun j hj => (target_lt_of_stores ha' hst' hj rfl).2 rfl, ?_, ?_⟩
  · refine ⟨_, get_lookup hst h.toAnchored bits hdepth, ?_⟩
    rw [get_lookup hst' ha' bits hdepth, Except.ok.injEq]
    exact h.lookup_normKids (by rw [length_pathFrom hdepth, Nat.sub_zero])
  · have hmem : i ∈ t'.preOrder t'.nodes.length 0 := by
      rw [horder]
      exact List.mem_range.mpr hi
    exact below_of_mem_preOrder hmem .refl
  · have hpin : (node false l.norm r.norm).PinnedAt v4Path :=
      (pinnedAt_of_ipv4Root hst hi).normKids
    exact ⟨v4', List.mem_range.mp (stores_pinned_mem (nodeStores_unpinned hst') hpin),
      ipv4Root_eq hst' hpin ha'.pinned_eq⟩
  · obtain ⟨oldToNew, hvisit, hnum⟩ := visitOrder_root hst₁ hnd₁ (by rw [hlen₁]; exact hidx)
    exact ⟨c, oldToNew, fp₁, hrun, hvisit, renumbered_of_stores ha' hst₁ hnum⟩
  · have hpins' : (∃ p, (node false l.norm r.norm).eval p = .aliased) →
        ∃ p, (node false l.norm r.norm).PinnedAt p := fun hal => ⟨_, ha'.pinned hal⟩
    obtain ⟨t'', hcompact', hholds'', -⟩ := compact_spec hst' List.nodup_range hidx' hpins'
    rw [BitTrie.norm_of_reducedOn (BitTrie.reducedOn_norm _ _),
      BitTrie.norm_of_reducedOn (BitTrie.reducedOn_norm _ _)] at hholds''
    rw [hcompact', hholds.unique hholds'' hpins']

/-- A tree that calls have led to, with the aliases installed, as far as the vector of nodes had room
for them, or without, comes out of a compaction with every value where it was, on nodes in pre-order
that merge no further, and another compaction leaves it as it is. -/
theorem compact_correct {u : Tree} (h : t.Grown ipVersion)
    (hu : u = t ∨ u = (installIpv4Aliases t).2) :
    ∃ t', u.compact = (.ok (), t') ∧ Compacted ipVersion.treeDepth u t' := by
  obtain ⟨⟨l, r, fp, hst, hnd, hl, hr⟩, hidx⟩ := h.shaped
  obtain ⟨hun, hal, hset⟩ := hl.node hr
  rcases hu with rfl | rfl
  · exact compacted_of_stores hst hnd hidx (compactable_of_unaliased hun hal hset)
  · have hout := installIpv4Aliases_spec hst hnd hun hal
    have hidx' := installIpv4Aliases_indexed t hidx
    generalize installIpv4Aliases t = res at hout hidx'
    cases hout with
    | done c fp' hst' hnd' heq _ =>
      refine compacted_of_stores hst' hnd' hidx' ?_
      rw [heq]
      exact compactable_withAliases hun hal hset
    | full c fp' hst' hnd' hpart _ _ =>
      exact compacted_of_stores hst' hnd' hidx' (compactable_of_partlyAliased hun hal hset hpart)

/-- The IPv4 subtree of a tree with one IPv4 network keeps its aliases. -/
theorem compact_correct_aliases :
    let op : Option ValueId → Exec Fault Unit (Option ValueId) := fun _ => pure (some 0)
    let t := (insert 0x01020300#128 120 op (Tree.new, ())).2.1
    t.leftWalk 96 0 = .ok (some 96) ∧ ∃ t', (installIpv4Aliases t).2.compact = (.ok (), t') ∧
      Compacted 128 (installIpv4Aliases t).2 t' := by
  intro op t
  have h : t.Grown .v6 := Grown.insert .new 0x01020300#128 (by decide) () (fun h => by simp [op] at h)
    (by decide +kernel)
  exact ⟨by decide +kernel, compact_correct h (Or.inr rfl)⟩

end Tree

end MmdbWriter
