import MmdbWriter.Proofs.Aliases
import MmdbWriter.Proofs.Renumber
import MmdbWriter.Proofs.Runs
import MmdbWriter.Proofs.Size

/-!
# The built tree

`build` serializes a copy of the tree with the aliases installed, compacted and renumbered. It
stores the normal form of the writer's tries, with their aliases, on nodes in pre-order.
-/

namespace MmdbWriter

open BitTrie (leaf node)

section Trie

variable {α : Type} [DecidableEq α] {t : BitTrie (Leaf α)}

/-- The trie of the database of a writer that stands for `t`. -/
def WriterBuilder.builtTrie (b : WriterBuilder) (t : BitTrie (Leaf α)) : BitTrie (Leaf α) :=
  (if b.ipVersion = .v6 ∧ b.ipv4Aliasing = .enabled then withAliases t else t).normKids

theorem pinnedAt_withAliases (hu : t.Unpinned) (q : List Bool) :
    (withAliases t).PinnedAt q ↔ q = v4Path ∧ t.coverAt v4Path = none := by
  unfold withAliases
  split_ifs with h
  · refine BitTrie.markAll_induct
      (P := fun u => u.PinnedAt q ↔ q = v4Path ∧ t.coverAt v4Path = none)
      (fun p _ u hq => (BitTrie.pinnedAt_markAt p u q).trans hq) ?_
    rw [BitTrie.pinnedAt_pinAt]
    simp only [hu.not_pinnedAt q, false_or]
  · exact ⟨fun hq => absurd hq (hu.not_pinnedAt q), fun hq => absurd hq.2 h⟩

/-- An alias comes with the node it leads to. -/
theorem pinnedAt_of_aliased (hu : t.Unpinned) (ha : ∀ p, t.eval p ≠ .aliased)
    (h : ∃ p, (withAliases t).eval p = .aliased) : (withAliases t).PinnedAt v4Path := by
  rw [pinnedAt_withAliases hu]
  refine ⟨rfl, ?_⟩
  by_contra hcov
  unfold withAliases at h
  rw [if_neg hcov] at h
  obtain ⟨p, hp⟩ := h
  exact ha p hp

theorem WriterBuilder.pinnedAt_builtTrie (b : WriterBuilder) (hu : t.Unpinned)
    (ha : ∀ p, t.eval p ≠ .aliased) (h : ∃ p, (b.builtTrie t).eval p = .aliased) :
    (b.builtTrie t).PinnedAt v4Path := by
  obtain ⟨p, hp⟩ := h
  unfold builtTrie at hp ⊢
  rw [BitTrie.eval_normKids] at hp
  split_ifs at hp ⊢
  · exact (pinnedAt_of_aliased hu ha ⟨p, hp⟩).normKids
  · exact absurd hp (ha p)

theorem withAliases_node (l r : BitTrie (Leaf α)) :
    ∃ l' r', withAliases (node false l r) = node false l' r' := by
  unfold withAliases
  split_ifs
  · refine BitTrie.markAll_induct (P := fun u => ∃ l' r', u = node false l' r') ?_ ?_
    · rintro p - _ ⟨l', r', rfl⟩
      rcases p with _ | ⟨_ | _, p⟩
      · exact ⟨l', r', rfl⟩
      · exact ⟨_, r', rfl⟩
      · exact ⟨l', _, rfl⟩
    · exact ⟨_, r, rfl⟩
  · exact ⟨l, r, rfl⟩

theorem rel_withAliases {β : Type} [DecidableEq β] {R : α → β → Prop}
    {u : BitTrie (Leaf β)} (h : t.Rel (Leaf.Rel R) u) :
    (withAliases t).Rel (Leaf.Rel R) (withAliases u) := by
  have hf : ∀ a b, Leaf.Rel R a b → (a = .noData ↔ b = .noData) := by
    intro a b hab
    cases a <;> cases b <;> simp_all [Leaf.Rel]
  unfold withAliases
  rcases h.coverAt v4Path with ⟨h1, h2⟩ | ⟨a, b, h1, h2, -⟩
  · rw [if_pos h1, if_pos h2]
    have hmark : Leaf.Rel R .aliased .aliased := trivial
    exact (h.pinAt v4Path).markAll hf trivial hmark
  · rw [if_neg (by simp [h1]), if_neg (by simp [h2])]
    exact h

end Trie

/-- Where a pinned node is stored, it is the one the aliases lead to. -/
theorem stores_pinned_mem {nodes : List Node} {v4 : ℕ} : ∀ {t : BitTrie (Leaf ValueId)}
    {rec : Record} {fp p : List _}, Stores nodes v4 rec t fp → t.PinnedAt p → v4 ∈ fp
  | leaf _, _, _, _, _, h => by simp [BitTrie.PinnedAt] at h
  | node _ _ _, _, _, [], hst, h => by
    obtain ⟨i, nd, fl, fr, -, hpin, -, -, -, rfl⟩ := hst
    rw [hpin h]
    exact List.mem_cons_self
  | node _ _ _, _, _, true :: p, hst, h => by
    obtain ⟨i, nd, fl, fr, -, -, -, -, hr, rfl⟩ := hst
    have := stores_pinned_mem hr (p := p) h
    simp [this]
  | node _ _ _, _, _, false :: p, hst, h => by
    obtain ⟨i, nd, fl, fr, -, -, -, hl, -, rfl⟩ := hst
    have := stores_pinned_mem hl (p := p) h
    simp [this]

/-- The tree stores the trie of ids on its nodes in order. -/
def Tree.Holds (t : Tree) (u : BitTrie (Leaf ValueId)) : Prop :=
  ∃ v4 l r, u = node false l r ∧ NodeStores t.nodes v4 0 l r (List.range t.nodes.length)

/-- Compaction of a tree whose aliases lead to one of its nodes. -/
theorem Tree.compact_spec {t : Tree} {v4 : ℕ} {l r : BitTrie (Leaf ValueId)} {fp : List ℕ}
    (hst : NodeStores t.nodes v4 0 l r fp) (hnd : fp.Nodup) (hlen : t.Indexed)
    (ha : (∃ p, (node false l r).eval p = .aliased) → ∃ p, (node false l r).PinnedAt p) :
    ∃ t', t.compact = (.ok (), t') ∧ t'.Holds (node false l.norm r.norm) ∧
      t'.nodes.length ≤ t.nodes.length := by
  obtain ⟨t₁, fp₁, hrun, hst₁, hnd₁, hlen₁⟩ := collapse_spec hst hnd
  have hnorm : node false l.norm r.norm = (node false l r).normKids := rfl
  obtain ⟨t', v4', hrun', hst', hlen'⟩ := renumberReachable_spec hst₁ hnd₁ (by rw [hlen₁]; exact hlen) (by
    rintro ⟨p, hp⟩
    rw [hnorm, BitTrie.eval_normKids] at hp
    obtain ⟨q, hq⟩ := ha ⟨p, hp⟩
    exact stores_pinned_mem (nodeStores_unpinned hst₁) hq.normKids)
  exact ⟨t', by rw [compact_eq_bind, Exec.bind_ok hrun, hrun'], ⟨v4', _, _, rfl, hst'⟩,
    hlen'.trans hlen₁.le⟩

/-- The built tree stores the built trie of the writer's trie of ids, or the vector of nodes is too
full for the aliases. -/
theorem Writer.buildTree_ids {w : Writer} {l r : BitTrie (Leaf ValueId)} {fp : List ℕ}
    (hst : NodeStores w.tree.nodes 0 0 l r fp) (hnd : fp.Nodup) (hlen : w.tree.Indexed)
    (hu : (node false l r).Unpinned) (ha : ∀ p, (node false l r).eval p ≠ .aliased) :
    (∃ t, w.buildTree = .ok t ∧ t.Holds (w.builtTrie (node false l r))) ∨
      ∃ n, w.buildTree = .error (.err (.treeTooLarge n u32Max .bits32)) ∧
        2 ^ 32 ≤ w.tree.nodes.length + 144 ∧ w.ipVersion = .v6 ∧ w.ipv4Aliasing = .enabled := by
  unfold buildTree WriterBuilder.builtTrie
  by_cases hal : w.ipVersion = .v6 ∧ w.ipv4Aliasing = .enabled
  · simp only [if_pos hal]
    have hout := Tree.installIpv4Aliases_spec hst hnd hu (BitTrie.forall_of_eval ha)
    have hind := Tree.installIpv4Aliases_indexed w.tree hlen
    generalize hres : Tree.installIpv4Aliases w.tree = res at hout hind
    cases hout with
    | @done t c l' r' fp' hst' hnd' heq hlen' =>
      left
      obtain ⟨t', hrun, hholds, -⟩ := Tree.compact_spec hst' hnd' hind (by
        rw [heq]
        exact fun h => ⟨v4Path, pinnedAt_of_aliased hu ha h⟩)
      rw [Exec.bind_ok hres, hrun]
      refine ⟨t', rfl, ?_⟩
      rw [← heq]
      exact hholds
    | @full t c l' r' fp' hst' hnd' hpart hfull hlen' =>
      right
      rw [Exec.bind_error hres]
      exact ⟨t.nodes.length, rfl, by omega, hal⟩
  · simp only [if_neg hal]
    left
    obtain ⟨t', hrun, hholds, -⟩ := Tree.compact_spec hst hnd hlen fun ⟨p, hp⟩ => absurd hp (ha p)
    rw [Exec.bind_ok (Exec.pure_apply () w.tree), hrun]
    exact ⟨t', rfl, hholds⟩

/-- The built tree stores, by ids, the built trie of the tries the writer stands for. -/
theorem Writer.Models.buildTree {w : Writer} {l r : BitTrie (Leaf Value)} (h : w.Models l r)
    (hu : (node false l r).Unpinned) (ha : ∀ p, (node false l r).eval p ≠ .aliased)
    (hlen : w.tree.Indexed) :
    (∃ t u, w.buildTree = .ok t ∧ t.Holds u ∧
      u.Rel (IdRel w.pool) (w.builtTrie (node false l r))) ∨
      ∃ n, w.buildTree = .error (.err (.treeTooLarge n u32Max .bits32)) ∧
        2 ^ 32 ≤ w.tree.nodes.length + 144 ∧ w.ipVersion = .v6 ∧ w.ipv4Aliasing = .enabled := by
  obtain ⟨li, ri, fp, hst, hnd, hli, hri⟩ := h
  have hrel : (node false li ri).Rel (IdRel w.pool) (node false l r) := ⟨rfl, hli, hri⟩
  have hu' : (node false li ri).Unpinned := hrel.unpinned.mpr hu
  have ha' : ∀ p, (node false li ri).eval p ≠ .aliased := fun p hp =>
    ha p ((hrel.eval p).aliased_iff.mp hp)
  rcases Writer.buildTree_ids hst hnd hlen hu' ha' with ⟨t, ht, hholds⟩ | hfull
  · refine Or.inl ⟨t, _, ht, hholds, ?_⟩
    have hR : ∀ a b a' b', IdRel w.pool a b → IdRel w.pool a' b' → (a = a' ↔ b = b') :=
      fun _ _ _ _ => IdRel.inj
    unfold WriterBuilder.builtTrie
    split_ifs
    · exact (rel_withAliases hrel).normKids hR
    · exact BitTrie.Rel.normKids hR hrel
  · exact Or.inr hfull

end MmdbWriter
