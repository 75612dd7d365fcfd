import MmdbWriter.Lib.TrieBlocks
import MmdbWriter.Proofs.Accepted
import MmdbWriter.Proofs.Canonical
import MmdbWriter.Proofs.Enumerate
import MmdbWriter.Proofs.RoundTrip

/-!
# The networks of a database with aliases

The aliases take the place of leaves without data, and the pinned node is one that would not be merged.
So the data leaves of a built tree are the maximal blocks of `get` whatever the options.
-/

namespace MmdbWriter

open BitTrie (leaf node PinsVaried)

section Trie

variable {α : Type} [DecidableEq α] {t : BitTrie (Leaf α)}

/-- The trie that a build compacts. -/
def WriterBuilder.aliasedTrie (b : WriterBuilder) (t : BitTrie (Leaf α)) : BitTrie (Leaf α) :=
  if b.ipVersion = .v6 ∧ b.ipv4Aliasing = .enabled then withAliases t else t

theorem WriterBuilder.builtTrie_eq (b : WriterBuilder) (t : BitTrie (Leaf α)) :
    b.builtTrie t = (b.aliasedTrie t).normKids := rfl

/-- The aliases change no label that is data. -/
theorem WriterBuilder.eval_aliasedTrie_data (b : WriterBuilder) (t : BitTrie (Leaf α)) (q : List Bool)
    (v : α) : (b.aliasedTrie t).eval q = .data v ↔ t.eval q = .data v := by
  unfold aliasedTrie
  split_ifs
  · rw [← BitTrie.eval_append_replicate _ q 96, ← BitTrie.eval_append_replicate t q 96,
      eval_withAliases (by simp)]
    split_ifs with hal
    · obtain ⟨-, p, -, ⟨s, hs⟩, hfree⟩ := hal
      rw [← hs, BitTrie.coverAt_eq_some hfree s]
      simp
    · exact Iff.rfl
  · exact Iff.rfl

theorem eval_withAliases_v4 (t : BitTrie (Leaf α)) (q : List Bool) :
    (withAliases t).eval (v4Path ++ q) = t.eval (v4Path ++ q) := by
  rw [eval_withAliases (by simp [v4Path]), if_neg]
  rintro ⟨-, p, hp, hpre, -⟩
  exact (aliasPaths_incomparable hp q).1 hpre

end Trie

namespace Writer

variable [Ipnet] {w : Writer} {l r : BitTrie (Leaf Value)}

omit [Ipnet] in
/-- Below the pinned node there are two labels, as the IPv4 subtree has a node. -/
theorem Inv.pinsVaried (h : w.Inv l r) (hlen : w.tree.nodes.length < 2 ^ 32) :
    (w.aliasedTrie (node false l r)).PinsVaried := by
  unfold WriterBuilder.aliasedTrie
  split_ifs with hal
  · intro p hp a
    obtain ⟨rfl, hcov⟩ := (pinnedAt_withAliases h.unpinned p).mp hp
    by_contra hall
    push Not at hall
    have hall' : ∀ q, (node false l r).eval (v4Path ++ q) = a := fun q => by
      rw [← eval_withAliases_v4]
      exact hall q
    have hres : a ≠ .reserved := by
      obtain ⟨q, hq⟩ := h.exists_unreserved hal.1
      rwa [hall' q] at hq
    rw [(coverAt_node_iff h.unpinned (h.reduced hlen) v4Path_ne_nil hres).mpr hall'] at hcov
    cases hcov
  · exact h.unpinned.pinsVaried

/-- A data leaf of the built trie is a maximal block. -/
theorem Inv.leafAt_builtTrie_iff (h : w.Inv l r) (hlen : w.tree.nodes.length < 2 ^ 32)
    {p : List Bool} {v : Value} :
    (w.builtTrie (node false l r)).leafAt p = some (.data v) ↔ w.MaximalBlock p v := by
  obtain ⟨lu, ru, hu⟩ : ∃ lu ru, w.aliasedTrie (node false l r) = node false lu ru := by
    unfold WriterBuilder.aliasedTrie
    split_ifs
    · exact withAliases_node l r
    · exact ⟨l, r, rfl⟩
  have hvaried := h.pinsVaried hlen
  have hdata : ∀ q v', (node false lu ru).eval q = .data v' ↔ (node false l r).eval q = .data v' := by
    rw [← hu]
    exact w.eval_aliasedTrie_data (node false l r)
  have hheight : (w.builtTrie (node false l r)).height ≤ w.ipVersion.treeDepth :=
    w.height_builtTrie_le h.height
  rw [w.builtTrie_eq, hu] at hheight ⊢
  rw [hu] at hvaried
  have hnorm : ∀ (b : Bool) (p : List Bool), (node false lu ru).normKids.leafAt (b :: p) =
      (bif b then ru else lu).norm.leafAt p := by
    intro b p
    cases b <;> rfl
  have heval : ∀ (b : Bool) (p : List Bool), (node false lu ru).eval (b :: p) =
      (bif b then ru else lu).norm.eval p := by
    intro b p
    cases b <;> simp [BitTrie.eval_norm]
  have hmaximal : ∀ (b : Bool) {p : List Bool} {a : Leaf Value}, (bif b then ru else lu).norm.leafAt p =
      some a ↔ (∀ q, (bif b then ru else lu).norm.eval (p ++ q) = a) ∧ ∀ p', p' <+: p →
        (∃ c, ∀ q, (bif b then ru else lu).norm.eval (p' ++ q) = c) → p' = p := fun b _ _ =>
    (hvaried.child b).norm.leafAt_iff_maximal (BitTrie.reducedOn_norm _ _)
  constructor
  · intro hleaf
    rcases p with _ | ⟨b, p⟩
    · simp [BitTrie.normKids, BitTrie.leafAt] at hleaf
    have hp := (BitTrie.length_le_of_leafAt hleaf).trans hheight
    rw [hnorm, hmaximal] at hleaf
    refine ⟨by simp, hp, ?_, ?_⟩
    · rw [h.uniformOn_iff hp]
      intro q
      rw [← hdata, List.cons_append, heval]
      exact hleaf.1 q
    · rintro p' hne hpre ⟨v', hv'⟩
      obtain ⟨b', p', rfl⟩ := List.exists_cons_of_ne_nil hne
      rw [h.uniformOn_iff (hpre.length_le.trans hp)] at hv'
      obtain ⟨rfl, hpre'⟩ := List.cons_prefix_cons.mp hpre
      rw [hleaf.2 p' hpre' ⟨.data v', fun q => by
        rw [← heval, ← List.cons_append, hdata]
        exact hv' q⟩]
  · intro hmax
    obtain ⟨b, p, rfl⟩ := List.exists_cons_of_ne_nil hmax.ne_nil
    have huni := (h.uniformOn_iff hmax.length_le).mp hmax.uniform
    rw [hnorm, hmaximal]
    refine ⟨fun q => by rw [← heval, ← List.cons_append, hdata]; exact huni q, ?_⟩
    rintro p' hpre ⟨a, ha⟩
    obtain rfl : a = .data v := by
      obtain ⟨s, rfl⟩ := hpre
      have h1 := ha s
      have h2 := (hdata _ _).mpr (huni [])
      rw [List.append_nil, heval, h1] at h2
      exact h2
    have hpre' : b :: p' <+: b :: p := List.cons_prefix_cons.mpr ⟨rfl, hpre⟩
    have := hmax.maximal (b :: p') (by simp) hpre' ⟨v, by
      rw [h.uniformOn_iff (hpre'.length_le.trans hmax.length_le)]
      intro q
      rw [← hdata, List.cons_append, heval, ha q]⟩
    rwa [List.cons.injEq, and_iff_right rfl] at this

theorem Inv.get_eq_some_iff_leafAt (h : w.Inv l r) {ip : IpAddr} {q : List Bool}
    (hq : addrPath w.ipVersion ip = some q) (v : Value) : w.get ip = .ok (some v) ↔
      ∃ p, (w.builtTrie (node false l r)).leafAt p = some (.data v) ∧ p <+: q := by
  have hvalue : w.get ip = .ok (some v) ↔ (w.builtTrie (node false l r)).eval q = .data v := by
    rw [w.builtTrie_eq, BitTrie.eval_normKids, w.eval_aliasedTrie_data, h.get hq, Except.ok.injEq]
    cases (node false l r).eval q <;> simp [Leaf.value]
  rw [hvalue]
  constructor
  · intro heval
    have hcov := BitTrie.coverAt_of_height_le (t := w.builtTrie (node false l r)) (p := q) (by
      rw [length_addrPath hq]
      exact w.height_builtTrie_le h.height)
    rw [heval] at hcov
    obtain ⟨p, hp, hleaf⟩ := BitTrie.exists_leafAt_of_coverAt hcov
    exact ⟨p, hleaf, hp⟩
  · rintro ⟨p, hleaf, s, rfl⟩
    exact BitTrie.coverAt_eq_some (BitTrie.coverAt_of_leafAt hleaf) s

/-- An address with data lies in a maximal block of its value. -/
theorem Inv.get_eq_some_iff (h : w.Inv l r) (hlen : w.tree.nodes.length < 2 ^ 32) {ip : IpAddr}
    {q : List Bool} (hq : addrPath w.ipVersion ip = some q) (v : Value) :
    w.get ip = .ok (some v) ↔ ∃ p, w.MaximalBlock p v ∧ p <+: q := by
  rw [h.get_eq_some_iff_leafAt hq]
  exact exists_congr fun p => and_congr_left fun _ => h.leafAt_builtTrie_iff hlen

omit [Ipnet] in
/-- The networks of a built tree are the data leaves of the trie it stores. -/
theorem networks_of_built {t : Tree} {v4 : ℕ} {lu ru : BitTrie (Leaf ValueId)}
    {u : BitTrie (Leaf Value)} (ht : w.buildTree = .ok t)
    (hst : NodeStores t.nodes v4 0 lu ru (List.range t.nodes.length))
    (hrel : (node false lu ru).Rel (IdRel w.pool) u) (hheight : u.height ≤ w.ipVersion.treeDepth) :
    w.networks = .ok (u.leaves.filterMap (Leaf.entryAt [])) := by
  rw [← hrel.height] at hheight
  unfold networks Tree.dataLeaves
  rw [ht]
  simp only [bind, Except.bind, Tree.listNode_spec _ 0 lu ru _ [] hst hheight]
  exact mapM_entries hrel.leaves

/-- The networks listed from the built tree are the maximal blocks of `get`, aliases or not. They
are apart from each other and cover exactly the addresses that have data. -/
theorem networks_eq_blocks (hw : w.Reachable) (hlen : w.tree.nodes.length + 144 < 2 ^ 32) :
    ∃ nets, w.networks = .ok nets ∧ (∀ p v, (p, v) ∈ nets ↔ w.MaximalBlock p v) ∧
      nets.Pairwise (fun e e' => ¬ e.1 <+: e'.1 ∧ ¬ e'.1 <+: e.1) ∧
      ∀ ip q v, addrPath w.ipVersion ip = some q →
        (w.get ip = .ok (some v) ↔ ∃ p, (p, v) ∈ nets ∧ p <+: q) := by
  obtain ⟨l, r, h⟩ := hw.inv
  have hlen' : w.tree.nodes.length < 2 ^ 32 := by omega
  rcases h.models.buildTree h.unpinned h.not_aliased hw.indexed with
    ⟨t, u, ht, ⟨v4, lu, ru, rfl, hst⟩, hrel⟩ | ⟨n, -, hfull, -⟩
  · have hnets := networks_of_built ht hst hrel (w.height_builtTrie_le h.height)
    have hmem : ∀ p v, (p, v) ∈ (w.builtTrie (node false l r)).leaves.filterMap (Leaf.entryAt []) ↔
        w.MaximalBlock p v := fun p v => by
      rw [Leaf.mem_filterMap_entryAt, BitTrie.mem_leaves, h.leafAt_builtTrie_iff hlen']
    refine ⟨_, hnets, hmem, Leaf.pairwise_entries _, fun ip q v hq => ?_⟩
    · rw [h.get_eq_some_iff hlen' hq]
      exact exists_congr fun p => and_congr_left fun _ => (hmem p v).symm
  · omega

omit [Ipnet] in
/-- In a database with aliases a network is listed once, not again below the aliases. -/
theorem networks_eq_blocks_city :
    let _ := Ipnet.std
    ∃ (w : Writer) (nets : List (List Bool × Value)), w.ipVersion = .v6 ∧
      w.ipv4Aliasing = .enabled ∧ w.networks = .ok nets ∧ nets.length = 1 ∧
      ∀ p v, (p, v) ∈ nets ↔ w.MaximalBlock p v := by
  intro _
  obtain ⟨-, w, -, -, -, hr, hopt, -, -, hnodes, hlist⟩ := city_file
  obtain ⟨nets, hnets, hmem, -⟩ := networks_eq_blocks hr (by omega)
  obtain rfl := Except.ok.inj (hnets.symm.trans hlist)
  exact ⟨w, _, by rw [hopt], by rw [hopt], hnets, rfl, hmem⟩

end Writer

end MmdbWriter
