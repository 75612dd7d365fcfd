import MmdbWriter.Proofs.Marker
import MmdbWriter.Proofs.Models

/-!
# The painted tree

`Writer::builder` paints the reserved networks on an empty tree. No two of them overlap, so that the
painted tree has a reserved leaf exactly at their addresses.
-/

namespace MmdbWriter

open BitTrie (leaf node)

theorem reserved_pairwise (ipVersion : IpVersion) :
    ((Reserved.networks ipVersion).filterMap (netPath ipVersion)).Pairwise
      (fun p p' => ¬ p <+: p' ∧ ¬ p' <+: p) := by
  cases ipVersion <;> decide +kernel

theorem reserved_ne_nil (ipVersion : IpVersion) :
    ∀ p ∈ (Reserved.networks ipVersion).filterMap (netPath ipVersion), p ≠ [] := by
  cases ipVersion <;> decide +kernel

theorem reserved_isSome (ipVersion : IpVersion) :
    ∀ net ∈ Reserved.networks ipVersion, (netPath ipVersion net).isSome := by
  cases ipVersion <;> decide +kernel

namespace WriterBuilder

/-- The bits of the networks the options reserve. -/
def reservedPaths (b : WriterBuilder) : List (List Bool) :=
  if b.reservedNetworks = .excluded then
    (Reserved.networks b.ipVersion).filterMap (netPath b.ipVersion)
  else []

theorem reservedPaths_ne_nil {b : WriterBuilder} : ∀ p ∈ b.reservedPaths, p ≠ [] := by
  unfold reservedPaths
  split_ifs
  · exact reserved_ne_nil b.ipVersion
  · simp

theorem length_reservedPaths {b : WriterBuilder} :
    ∀ p ∈ b.reservedPaths, p.length ≤ b.ipVersion.treeDepth := by
  unfold reservedPaths
  split_ifs
  · intro p hp
    obtain ⟨net, -, hnet⟩ := List.mem_filterMap.mp hp
    exact length_netPath_le hnet
  · simp

/-- The trie a writer is built with. -/
def paintedTrie (b : WriterBuilder) : BitTrie (Leaf ValueId) :=
  (node false (leaf .noData) (leaf .noData)).markAll .noData .reserved b.reservedPaths

variable {b : WriterBuilder}

theorem eval_paintedTrie {q : List Bool} (hq : q.length = b.ipVersion.treeDepth) :
    b.paintedTrie.eval q = if ∃ p ∈ b.reservedPaths, p <+: q then .reserved else .noData := by
  have hpw : b.reservedPaths.Pairwise (fun p p' => ¬ p <+: p' ∧ ¬ p' <+: p) := by
    unfold reservedPaths
    split_ifs
    · exact reserved_pairwise b.ipVersion
    · exact List.Pairwise.nil
  have hnd : (node false (leaf .noData) (leaf .noData) : BitTrie (Leaf ValueId)).eval q =
      .noData := by rcases q with _ | ⟨_ | _, q⟩ <;> simp
  have hfree : ∀ p ∈ b.reservedPaths,
      (node false (leaf .noData) (leaf .noData) : BitTrie (Leaf ValueId)).coverAt p =
        some .noData := by
    intro p hp
    rcases p with _ | ⟨_ | _, p⟩
    · exact absurd rfl (reservedPaths_ne_nil [] hp)
    · simp [BitTrie.coverAt]
    · simp [BitTrie.coverAt]
  rw [paintedTrie, BitTrie.eval_markAll hpw, hnd]
  · refine if_congr (exists_congr fun p => and_congr_right fun hp => ?_) rfl rfl
    exact and_iff_left (hfree p hp)
  · intro p hp
    rw [hq]
    exact length_reservedPaths p hp

theorem forall_paintedTrie : b.paintedTrie.Forall fun a => a = .noData ∨ a = .reserved := by
  refine BitTrie.markAll_induct (fun p _ t ht => ?_) ⟨Or.inl rfl, Or.inl rfl⟩
  refine BitTrie.forall_of_eval fun q => ?_
  have hlen : p.length ≤ (q ++ List.replicate p.length false).length := by simp
  rw [← BitTrie.eval_append_replicate _ q p.length, BitTrie.eval_markAt p t _ hlen]
  split_ifs
  · exact Or.inr rfl
  · exact ht.eval _

theorem unpinned_paintedTrie : b.paintedTrie.Unpinned :=
  BitTrie.markAll_induct (fun p _ _ ht => BitTrie.unpinned_markAt p ht) ⟨rfl, trivial, trivial⟩

theorem height_paintedTrie_le : b.paintedTrie.height ≤ b.ipVersion.treeDepth := by
  refine BitTrie.markAll_induct (P := fun t => t.height ≤ b.ipVersion.treeDepth)
    (fun p hp t ht => ?_) ?_
  · have h1 := length_reservedPaths p hp
    have h2 : (t.markAt .noData .reserved p).height ≤ max t.height p.length :=
      BitTrie.height_markAt_le p t
    omega
  · cases b.ipVersion <;> decide

theorem reduced_paintedTrie : ∀ {pin : Bool} {l r : BitTrie (Leaf ValueId)},
    b.paintedTrie = node pin l r →
    l.ReducedOn (· ≠ .reserved) ∧ r.ReducedOn (· ≠ .reserved) := by
  have h : ∃ (pin : Bool) (l r : BitTrie (Leaf ValueId)), b.paintedTrie = node pin l r ∧
      l.ReducedOn (· ≠ .reserved) ∧ r.ReducedOn (· ≠ .reserved) := by
    have hstart : ∃ (pin : Bool) (l r : BitTrie (Leaf ValueId)),
        node false (leaf .noData) (leaf .noData) = node pin l r ∧
          l.ReducedOn (· ≠ .reserved) ∧ r.ReducedOn (· ≠ .reserved) :=
      ⟨false, _, _, rfl, trivial, trivial⟩
    refine BitTrie.markAll_induct (P := fun t : BitTrie (Leaf ValueId) =>
      ∃ (pin : Bool) (l r : BitTrie (Leaf ValueId)), t = node pin l r ∧
        l.ReducedOn (· ≠ .reserved) ∧ r.ReducedOn (· ≠ .reserved)) ?_ hstart
    rintro p - _ ⟨pin, l, r, rfl, hl, hr⟩
    have hmark : ∀ (p : List Bool) {t : BitTrie (Leaf ValueId)}, t.ReducedOn (· ≠ .reserved) →
        (t.markAt .noData .reserved p).ReducedOn (· ≠ .reserved) := fun p _ ht =>
      BitTrie.reducedOn_markAt (by simp) (by simp) p ht
    rcases p with _ | ⟨_ | _, p⟩
    · exact ⟨pin, l, r, rfl, hl, hr⟩
    · exact ⟨pin, _, r, rfl, hmark p hl, hr⟩
    · exact ⟨pin, l, _, rfl, hl, hmark p hr⟩
  intro pin l r heq
  obtain ⟨pin', l', r', heq', hl, hr⟩ := h
  rw [heq, BitTrie.node.injEq] at heq'
  rw [heq'.2.1, heq'.2.2]
  exact ⟨hl, hr⟩

end WriterBuilder

section Paint

variable [Ipnet]

/-- Painting the networks puts a reserved leaf at the bits of each. -/
theorem paintAll_spec {ipVersion : IpVersion} : ∀ {nets : List IpNet} {t : Tree}
    {l r : BitTrie (Leaf ValueId)} {fp : List ℕ},
    (∀ net ∈ nets, (netPath ipVersion net).isSome) → NodeStores t.nodes 0 0 l r fp → fp.Nodup →
    t.nodes.length + 128 * nets.length < 2 ^ 32 →
    ∃ t' l' r' fp', WriterBuilder.paintAll ipVersion nets t = (.ok (), t') ∧
      NodeStores t'.nodes 0 0 l' r' fp' ∧ fp'.Nodup ∧
      t'.nodes.length ≤ t.nodes.length + 128 * nets.length ∧
      node false l' r' = (node false l r).markAll .noData .reserved
        (nets.filterMap (netPath ipVersion))
  | [], t, l, r, fp, _, hst, hnd, _ => ⟨t, l, r, fp, rfl, hst, hnd, by simp, rfl⟩
  | net :: nets, t, l, r, fp, hsome, hst, hnd, hlen => by
    simp only [List.length_cons] at hlen
    rcases toTreePrefix_cases net ipVersion with
      ⟨bits, len, hpre, hle, hpath⟩ | ⟨n, -, -, hpath, -⟩
    · have hle' : len ≤ 128 := hle.trans (by cases ipVersion <;> decide)
      have hm := installMarkerFrom_spec .reserved bits hle' len 0 0 t l r fp (by omega)
        hst hnd
      have hpf : pathFrom bits len 0 = bits.msbs.take len := List.drop_zero
      have hpl : (bits.msbs.take len).length ≤ 128 := by
        rw [List.length_take, BitVec.length_msbs]
        omega
      rw [hpf] at hm
      generalize hres : Tree.installMarkerFrom bits (leafRecord 0 .reserved) len 0 0 t = res at hm
      cases hm with
      | @done t₁ fp₁ hst₁ hf hlen₁ =>
        obtain ⟨t', l', r', fp', hrun, hst', hnd', hlen', heq⟩ :=
          paintAll_spec (fun n hn => hsome n (List.mem_cons_of_mem net hn)) hst₁ hf.nodup
            (by omega)
        refine ⟨t', l', r', fp', ?_, hst', hnd', by rw [List.length_cons]; omega, ?_⟩
        · have hpaint : Tree.paintReserved bits len t = (.ok (), t₁) := hres
          rw [WriterBuilder.paintAll]
          simp only [hpre]
          rw [Exec.bind_ok hpaint, hrun]
        · rw [heq, List.filterMap_cons, hpath, ← markAt_node]
          rfl
      | full _ _ _ _ _ _ hfull hadd => omega
    · have := hsome net List.mem_cons_self
      rw [hpath] at this
      simp at this

/-- A writer is built on a tree that stores the painted trie. -/
theorem build_stores (b : WriterBuilder) : ∃ w l r fp, b.build = .ok w ∧
    w.toWriterBuilder = { b with description := w.description } ∧ w.pool = ValuePool.new ∧
    NodeStores w.tree.nodes 0 0 l r fp ∧ fp.Nodup ∧ node false l r = b.paintedTrie := by
  have hst : NodeStores Tree.new.nodes 0 0 (leaf .noData) (leaf .noData) [0] :=
    ⟨Node.empty, [], [], rfl, ⟨rfl, rfl⟩, ⟨rfl, rfl⟩, rfl⟩
  unfold WriterBuilder.build WriterBuilder.paintedTrie WriterBuilder.reservedPaths
  by_cases hres : b.reservedNetworks = .excluded
  · obtain ⟨t, l, r, fp, hrun, hst', hnd, -, heq⟩ :=
      paintAll_spec (reserved_isSome b.ipVersion) hst (List.nodup_singleton 0)
        (by cases b.ipVersion <;> decide)
    rw [if_pos hres, if_pos hres]
    simp only [hrun]
    exact ⟨_, l, r, fp, rfl, rfl, rfl, hst', hnd, heq⟩
  · rw [if_neg hres, if_neg hres]
    exact ⟨_, _, _, [0], rfl, rfl, rfl, hst, List.nodup_singleton 0, rfl⟩

end Paint

end MmdbWriter
