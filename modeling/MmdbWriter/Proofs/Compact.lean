import MmdbWriter.Layout
import MmdbWriter.Proofs.InsertRecord

/-!
# Compaction

`compact_node` collapses the nodes whose two records are one leaf, bottom up, and leaves the node
that stores the normal forms of its children. The root is never collapsed.
-/

namespace MmdbWriter

open BitTrie (leaf node)

namespace Tree

variable {v4 : ℕ}

/-- How a step of the compaction changes the nodes of a footprint. -/
structure Compacts (t t' : Tree) (fp fp' : List ℕ) : Prop where
  frame : Frame t.nodes t'.nodes fp fp'
  sublist : fp'.Sublist fp
  length_eq : t'.nodes.length = t.nodes.length

/-- The record `compact_node` returns for a node that stores the two tries. -/
def compacted (v4 i : ℕ) (l r : BitTrie (Leaf ValueId)) : Record :=
  match BitTrie.join false l r with
  | leaf a => leafRecord v4 a
  | node _ _ _ => .node i

theorem compacted_eq {nodes : List Node} {i : ℕ} {recl recr : Record}
    {l r : BitTrie (Leaf ValueId)} {fl fr : List ℕ} (hl : Stores nodes v4 recl l fl)
    (hr : Stores nodes v4 recr r fr) :
    (if recl = recr ∧ isLeafRecord recl = true then recl else .node i) = compacted v4 i l r := by
  unfold compacted
  rcases BitTrie.join_cases false l r with ⟨hj, hne⟩ | ⟨a, -, rfl, rfl, hj⟩
  · rw [hj, if_neg]
    intro h
    obtain ⟨a, hla, hra⟩ := (merge_iff hl hr).mp h
    exact hne rfl a hla hra
  · rw [hj, if_pos ((merge_iff hl hr).mpr ⟨a, rfl, rfl⟩), hl.1]

/-- What `compact_node` does at a node that stores two tries of the given height. -/
def CompactSpec (v4 stack : ℕ) : Prop :=
  ∀ (t : Tree) (i : ℕ) (l r : BitTrie (Leaf ValueId)) (fp : List ℕ),
    NodeStores t.nodes v4 i l r fp → fp.Nodup → (node false l r).height ≤ stack →
    ∃ t' fp', compactNode stack i t = (.ok (compacted v4 i l.norm r.norm), t') ∧
      NodeStores t'.nodes v4 i l.norm r.norm fp' ∧ Compacts t t' fp fp'

theorem resolveChild_spec {stack : ℕ} (ih : CompactSpec v4 stack) {t : Tree} {rec : Record}
    {u : BitTrie (Leaf ValueId)} {fu : List ℕ} (hu : Stores t.nodes v4 rec u fu) (hnd : fu.Nodup)
    (hh : u.height ≤ stack) :
    ∃ t' rec' fu', resolveChild (compactNode stack) rec t = (.ok rec', t') ∧
      Stores t'.nodes v4 rec' u.norm fu' ∧ Compacts t t' fu fu' := by
  cases u with
  | leaf a =>
    obtain ⟨rfl, rfl⟩ := hu
    refine ⟨t, leafRecord v4 a, [], ?_, ⟨rfl, rfl⟩, Frame.refl hnd, List.Sublist.refl _, rfl⟩
    cases a <;> rfl
  | node pin l r =>
    obtain ⟨c, rfl, hpin, hc⟩ := stores_node.mp hu
    obtain ⟨t', fp', hrun, hst, hcp⟩ := ih t c l r fu hc hnd (by simpa [BitTrie.height] using hh)
    cases pin with
    | true =>
      refine ⟨t', .fixedNode c, fp', ?_, ?_, hcp⟩
      · exact Exec.bind_ok hrun _
      · rw [BitTrie.norm, BitTrie.join_eq_node (Or.inl rfl)]
        exact stores_node.mpr ⟨c, rfl, hpin, hst⟩
    | false =>
      unfold compacted at hrun
      rw [BitTrie.norm]
      rcases BitTrie.join_cases false l.norm r.norm with ⟨hj, -⟩ | ⟨a, -, -, -, hj⟩
      · rw [hj] at hrun ⊢
        exact ⟨t', .node c, fp', hrun, nodeStores_unpinned hst, hcp⟩
      · rw [hj] at hrun ⊢
        refine ⟨t', leafRecord v4 a, [], hrun, ⟨rfl, rfl⟩, ?_, List.nil_sublist _, hcp.length_eq⟩
        exact ⟨hcp.frame.length_le, hcp.frame.same, by simp, List.nodup_nil⟩

theorem compactNode_spec (v4 : ℕ) : ∀ stack, CompactSpec v4 stack := by
  intro stack
  induction stack with
  | zero =>
    intro t i l r fp _ _ hh
    simp [BitTrie.height] at hh
  | succ stack ih =>
    intro t i l r fp hst hnd hh
    obtain ⟨nd, fl, fr, hn, hl, hr, rfl⟩ := hst
    simp only [BitTrie.height] at hh
    obtain ⟨hi, hnd'⟩ := List.nodup_cons.mp hnd
    obtain ⟨hndl, hndr, hdis⟩ := List.nodup_append.mp hnd'
    rw [List.mem_append, not_or] at hi
    have hlt : i < t.nodes.length := (List.getElem?_eq_some_iff.mp hn).1
    obtain ⟨t₁, recl, fl', hrunl, hstl, hcl⟩ := resolveChild_spec ih hl hndl (by omega)
    have hn₁ : t₁.nodes[i]? = some nd := by rw [hcl.frame.same i hlt hi.1, hn]
    have hr₁ : Stores t₁.nodes v4 nd.right r fr :=
      hcl.frame.stores hr fun j hj hjl => hdis j hjl j hj rfl
    obtain ⟨t₂, recr, fr', hrunr, hstr, hcr⟩ := resolveChild_spec ih hr₁ hndr (by omega)
    have hlt₁ : i < t₁.nodes.length := by rw [hcl.length_eq]; exact hlt
    have hn₂ : t₂.nodes[i]? = some nd := by rw [hcr.frame.same i hlt₁ hi.2, hn₁]
    have hstl₂ : Stores t₂.nodes v4 recl l.norm fl' :=
      hcr.frame.stores hstl fun j hj hjr => hdis j (hcl.sublist.subset hj) j hjr rfl
    have hset : ∀ j, j ≠ i → (t₂.nodes.set i ⟨recl, recr⟩)[j]? = t₂.nodes[j]? :=
      fun j hj => List.getElem?_set_ne (Ne.symm hj)
    refine ⟨⟨t₂.nodes.set i ⟨recl, recr⟩⟩, i :: (fl' ++ fr'), ?_, ?_, ?_, ?_, ?_⟩
    · unfold compactNode
      rw [Exec.bind_ok (readNode_eq hn), Exec.bind_ok hrunl, Exec.bind_ok (readNode_eq hn₁),
        Exec.bind_ok hrunr, Exec.bind_ok (writeNode_eq hn₂ _), Exec.pure_apply,
        compacted_eq hstl₂ hstr]
    · refine ⟨⟨recl, recr⟩, fl', fr', List.getElem?_set_self ?_, ?_, ?_, rfl⟩
      · rw [hcr.length_eq]
        exact hlt₁
      · refine stores_frame hstl₂ fun j hj => hset j ?_
        rintro rfl
        exact hi.1 (hcl.sublist.subset hj)
      · refine stores_frame hstr fun j hj => hset j ?_
        rintro rfl
        exact hi.2 (hcr.sublist.subset hj)
    · have hsub : (i :: (fl' ++ fr')).Sublist (i :: (fl ++ fr)) :=
        (hcl.sublist.append hcr.sublist).cons_cons i
      refine ⟨by simp [hcl.length_eq, hcr.length_eq], fun j hj hjn => ?_,
        fun j hj => Or.inl (hsub.subset hj), hnd.sublist hsub⟩
      simp only [List.mem_cons, List.mem_append, not_or] at hjn
      rw [hset j hjn.1, hcr.frame.same j (by rw [hcl.length_eq]; exact hj) hjn.2.2,
        hcl.frame.same j hj hjn.2.1]
    · exact (hcl.sublist.append hcr.sublist).cons_cons i
    · rw [List.length_set, hcr.length_eq, hcl.length_eq]

theorem length_le_of_nodeStores {t : Tree} {i : ℕ} {l r : BitTrie (Leaf ValueId)} {fp : List ℕ}
    (hst : NodeStores t.nodes v4 i l r fp) (hnd : fp.Nodup) : fp.length ≤ t.nodes.length := by
  have hsub : fp ⊆ List.range t.nodes.length := fun j hj =>
    List.mem_range.mpr (nodeStores_mem_lt hst j hj)
  have := (hnd.subperm hsub).length_le
  rwa [List.length_range] at this

/-- Collapsing leaves the normal forms of the root's children stored. -/
theorem collapse_spec {t : Tree} {l r : BitTrie (Leaf ValueId)} {fp : List ℕ}
    (hst : NodeStores t.nodes v4 0 l r fp) (hnd : fp.Nodup) :
    ∃ t' fp', collapse t = (.ok (), t') ∧ NodeStores t'.nodes v4 0 l.norm r.norm fp' ∧
      fp'.Nodup ∧ t'.nodes.length = t.nodes.length := by
  have hheight : (node false l r).height ≤ t.nodes.length := by
    have h1 := stores_height_le (nodeStores_unpinned hst)
    have h2 := length_le_of_nodeStores hst hnd
    omega
  obtain ⟨t', fp', hrun, hst', hc⟩ := compactNode_spec v4 t.nodes.length t 0 l r fp hst hnd hheight
  refine ⟨t', fp', ?_, hst', hc.frame.nodup, hc.length_eq⟩
  unfold collapse
  rw [Exec.bind_ok (Exec.read_apply t), Exec.bind_ok hrun]
  split_ifs with hleaf
  · -- the root keeps two records, which are this leaf already
    obtain ⟨nd, fl, fr, hn, hl, hr, -⟩ := hst'
    rw [writeNode_eq hn _]
    unfold compacted at hleaf ⊢
    rcases BitTrie.join_cases false l.norm r.norm with ⟨hj, -⟩ | ⟨a, -, hla, hra, hj⟩
    · rw [hj] at hleaf
      cases hleaf
    · rw [hla] at hl
      rw [hra] at hr
      have hnode : (⟨leafRecord v4 a, leafRecord v4 a⟩ : Node) = nd := by
        cases nd
        rw [Node.mk.injEq]
        exact ⟨hl.1.symm, hr.1.symm⟩
      obtain ⟨hlt, hget⟩ := List.getElem?_eq_some_iff.mp hn
      rw [hj]
      simp only [hnode]
      rw [← hget, List.set_getElem_self]
  · rfl

end Tree

end MmdbWriter
