import MmdbWriter.Proofs.Built

/-!
# Where the nodes of a stored trie are

Each node of a footprint stores a subtrie, and a record of the same footprint or the root's leads to
it. On a footprint in order children come after their parents.
-/

namespace MmdbWriter

open BitTrie (leaf node)

section Stores

variable {nodes : List Node} {v4 : ℕ}

/-- A node of a footprint stores a subtrie, and has a record that leads to it. -/
theorem stores_at : ∀ {t : BitTrie (Leaf ValueId)} {rec : Record} {fp : List ℕ},
    Stores nodes v4 rec t fp → ∀ j ∈ fp, ∃ p pin l r fj, t.subtrie p = node pin l r ∧
      NodeStores nodes v4 j l r fj ∧ fj.Sublist fp ∧
      (rec = nodeRecord pin j ∨ ∃ (k : ℕ) (n : Node), nodes[k]? = some n ∧
        (nodeRecord pin j = n.left ∨ nodeRecord pin j = n.right))
  | leaf _, _, _, h, j, hj => by simp [h.2] at hj
  | node pin l r, rec, _, h, j, hj => by
    obtain ⟨i, n, fl, fr, rfl, hpin, hn, hl, hr, rfl⟩ := h
    simp only [List.mem_cons, List.mem_append] at hj
    rcases hj with rfl | hj | hj
    · exact ⟨[], pin, l, r, _, rfl, ⟨n, fl, fr, hn, hl, hr, rfl⟩, List.Sublist.refl _, Or.inl rfl⟩
    · obtain ⟨p, pin', l', r', fj, hsub, hst, hfj, hlead⟩ := stores_at hl j hj
      refine ⟨false :: p, pin', l', r', fj, hsub, hst,
        (hfj.trans (List.sublist_append_left fl fr)).trans (List.sublist_cons_self i _), Or.inr ?_⟩
      rcases hlead with hlead | hlead
      · exact ⟨i, n, hn, Or.inl hlead.symm⟩
      · exact hlead
    · obtain ⟨p, pin', l', r', fj, hsub, hst, hfj, hlead⟩ := stores_at hr j hj
      refine ⟨true :: p, pin', l', r', fj, hsub, hst,
        (hfj.trans (List.sublist_append_right fl fr)).trans (List.sublist_cons_self i _), Or.inr ?_⟩
      rcases hlead with hlead | hlead
      · exact ⟨i, n, hn, Or.inr hlead.symm⟩
      · exact hlead

theorem target_of_stores : ∀ {t : BitTrie (Leaf ValueId)} {rec : Record} {fp : List ℕ} {c : ℕ},
    Stores nodes v4 rec t fp → rec.target = some c →
    (c ∈ fp ∧ c ∈ Tree.pushed rec) ∨ rec = .aliased v4 ∧ c = v4 ∧ t = leaf .aliased
  | leaf a, _, _, c, h, hc => by
    obtain ⟨rfl, -⟩ := h
    cases a <;> simp only [leafRecord, Record.target, Option.some.injEq, reduceCtorEq] at hc
    exact Or.inr ⟨rfl, hc.symm, rfl⟩
  | node pin l r, _, _, c, h, hc => by
    obtain ⟨i, rfl, -, hst⟩ := stores_node.mp h
    have hroot := nodeStores_root_mem hst
    cases pin <;> simp only [nodeRecord, Bool.false_eq_true, ↓reduceIte, Record.target,
      Option.some.injEq] at hc <;> subst hc <;> exact Or.inl ⟨hroot, by simp [nodeRecord, Tree.pushed]⟩

theorem mem_of_pushed {t : BitTrie (Leaf ValueId)} {rec : Record} {fp : List ℕ} {c : ℕ}
    (h : Stores nodes v4 rec t fp) (hc : c ∈ Tree.pushed rec) : c ∈ fp := by
  cases t with
  | leaf a =>
    obtain ⟨rfl, -⟩ := h
    cases a <;> simp [leafRecord, Tree.pushed] at hc
  | node pin l r =>
    obtain ⟨i, rfl, -, hst⟩ := stores_node.mp h
    have hci : c = i := by
      cases pin <;> simpa [nodeRecord, Tree.pushed] using hc
    rw [hci]
    exact nodeStores_root_mem hst

/-- A pinned node stores what is below its place. -/
theorem nodeStores_pinned : ∀ {t : BitTrie (Leaf ValueId)} {rec : Record} {fp : List ℕ}
    {p : List Bool}, Stores nodes v4 rec t fp → t.PinnedAt p →
    ∃ l r fp', t.subtrie p = node true l r ∧ NodeStores nodes v4 v4 l r fp'
  | leaf _, _, _, _, _, h => by simp [BitTrie.PinnedAt] at h
  | node pin l r, _, _, [], hst, h => by
    obtain ⟨i, -, hpin, hst⟩ := stores_node.mp hst
    rw [hpin h] at hst
    exact ⟨l, r, _, by rw [BitTrie.subtrie, show pin = true from h], hst⟩
  | node _ _ _, _, _, true :: p, hst, h => by
    obtain ⟨i, n, fl, fr, -, -, -, -, hr, -⟩ := hst
    exact nodeStores_pinned (p := p) hr h
  | node _ _ _, _, _, false :: p, hst, h => by
    obtain ⟨i, n, fl, fr, -, -, -, hl, -, -⟩ := hst
    exact nodeStores_pinned (p := p) hl h

end Stores

namespace Tree

variable {t : Tree} {v4 : ℕ}

theorem nodeAt_eq {i : ℕ} {n : Node} (h : t.nodes[i]? = some n) : t.nodeAt i = .ok n := by
  unfold nodeAt
  rw [h]

/-- The nodes below a node in pre-order are its footprint. -/
theorem preOrder_spec : ∀ (depth i : ℕ) (l r : BitTrie (Leaf ValueId)) (fp : List ℕ),
    NodeStores t.nodes v4 i l r fp → (node false l r).height ≤ depth → t.preOrder depth i = fp := by
  intro depth
  induction depth with
  | zero =>
    intro i l r fp _ hh
    simp [BitTrie.height] at hh
  | succ depth ih =>
    intro i l r fp hst hh
    obtain ⟨n, fl, fr, hn, hl, hr, rfl⟩ := hst
    simp only [BitTrie.height] at hh
    have hrec : ∀ (rec : Record) (u : BitTrie (Leaf ValueId)) (fu : List ℕ),
        Stores t.nodes v4 rec u fu → u.height ≤ depth →
        (pushed rec).flatMap (t.preOrder depth) = fu := by
      intro rec u fu hu hhu
      cases u with
      | leaf a =>
        obtain ⟨rfl, rfl⟩ := hu
        cases a <;> rfl
      | node pin l' r' =>
        obtain ⟨c, rfl, -, hc⟩ := stores_node.mp hu
        have h := ih c l' r' fu hc (by simpa [BitTrie.height] using hhu)
        cases pin <;> simpa [nodeRecord, pushed] using h
    unfold preOrder
    rw [hn]
    simp only [children, List.flatMap_append, hrec _ l fl hl (by omega), hrec _ r fr hr (by omega)]

theorem leftWalk_pinned : ∀ (k i : ℕ) (l r : BitTrie (Leaf ValueId)) (fp : List ℕ),
    NodeStores t.nodes v4 i l r fp → (node false l r).PinnedAt (List.replicate (k + 1) false) →
    (∀ q, l.PinnedAt q → q = List.replicate k false) →
    ∃ (p : ℕ) (n : Node), leftWalk t k i = .ok (some p) ∧ t.nodes[p]? = some n ∧
      n.left = .fixedNode v4 := by
  intro k
  induction k with
  | zero =>
    intro i l r fp hst hpin _
    obtain ⟨n, fl, fr, hn, hl, -, -⟩ := hst
    refine ⟨i, n, rfl, hn, ?_⟩
    cases l with
    | leaf a => simp [BitTrie.PinnedAt] at hpin
    | node pin l' r' =>
      have hp : pin = true := hpin
      obtain ⟨c, hc, hcv, -⟩ := stores_node.mp hl
      rw [hc, hcv hp, hp]
      rfl
  | succ k ih =>
    intro i l r fp hst hpin huniq
    obtain ⟨n, fl, fr, hn, hl, -, -⟩ := hst
    cases l with
    | leaf a => simp [BitTrie.PinnedAt, List.replicate_succ] at hpin
    | node pin l' r' =>
      have hp : pin = false := by
        by_contra hne
        have := huniq [] (by simpa [BitTrie.PinnedAt] using hne)
        simp [List.replicate_succ] at this
      obtain ⟨c, hc, -, hst'⟩ := stores_node.mp hl
      rw [hp] at hc
      rw [leftWalk_succ_node hn hc]
      exact ih c l' r' fl hst' (by simpa [BitTrie.PinnedAt, List.replicate_succ] using hpin)
        fun q hq => by simpa [List.replicate_succ] using huniq (false :: q) hq

theorem pinnedAt_of_leftWalk : ∀ (k i : ℕ) (l r : BitTrie (Leaf ValueId)) (fp : List ℕ)
    {p c : ℕ} {n : Node}, NodeStores t.nodes v4 i l r fp → leftWalk t k i = .ok (some p) →
    t.nodes[p]? = some n → n.left = .fixedNode c →
    (node false l r).PinnedAt (List.replicate (k + 1) false) := by
  intro k
  induction k with
  | zero =>
    intro i l r fp p c n hst hwalk hp hc
    obtain ⟨nd, fl, fr, hn, hl, -, -⟩ := hst
    simp only [leftWalk, Except.ok.injEq, Option.some.injEq] at hwalk
    rw [hwalk, hp, Option.some.injEq] at hn
    rw [← hn, hc] at hl
    cases l with
    | leaf a =>
      have := hl.1
      cases a <;> cases this
    | node pin l' r' =>
      obtain ⟨i', hi, -, -⟩ := stores_node.mp hl
      cases pin
      · cases hi
      · rfl
  | succ k ih =>
    intro i l r fp p c n hst hwalk hp hc
    obtain ⟨nd, fl, fr, hn, hl, -, -⟩ := hst
    cases l with
    | leaf a =>
      rw [leftWalk_succ_leaf hn (by rw [hl.1]; exact isLeafRecord_leafRecord v4 a)] at hwalk
      cases hwalk
    | node pin l' r' =>
      obtain ⟨j, hj, -, hst'⟩ := stores_node.mp hl
      cases pin with
      | true =>
        rw [leftWalk, nodeAt_eq hn] at hwalk
        simp only [bind, Except.bind, hj] at hwalk
        cases hwalk
      | false =>
        rw [leftWalk_succ_node hn hj] at hwalk
        have := ih j l' r' fl hst' hwalk hp hc
        simpa [BitTrie.PinnedAt, List.replicate_succ] using this

theorem ipv4Root_eq {l r : BitTrie (Leaf ValueId)} {fp : List ℕ}
    (hst : NodeStores t.nodes v4 0 l r fp) (hpin : (node false l r).PinnedAt v4Path)
    (huniq : ∀ q, (node false l r).PinnedAt q → q = v4Path) : t.ipv4Root = .ok (some v4) := by
  obtain ⟨p, n, hwalk, hn, hleft⟩ := leftWalk_pinned 95 0 l r fp hst hpin fun q hq => by
    have : false :: q = v4Path := huniq (false :: q) hq
    simpa [v4Path, List.replicate_succ] using this
  unfold ipv4Root
  rw [hwalk]
  simp only [bind, Except.bind, nodeAt_eq hn, hleft]

theorem pinnedAt_of_ipv4Root {l r : BitTrie (Leaf ValueId)} {fp : List ℕ} {i : ℕ}
    (hst : NodeStores t.nodes v4 0 l r fp) (h : t.ipv4Root = .ok (some i)) :
    (node false l r).PinnedAt v4Path := by
  unfold ipv4Root at h
  rcases hwalk : leftWalk t 95 0 with e | _ | p <;> rw [hwalk] at h
  · cases h
  · cases h
  · rcases hn : t.nodes[p]? with _ | n
    · simp only [bind, Except.bind, nodeAt, hn] at h
      cases h
    · simp only [bind, Except.bind, nodeAt_eq hn] at h
      split at h
      · rename_i c hc
        exact pinnedAt_of_leftWalk 95 0 l r fp hst hwalk hn hc
      · cases h

end Tree

end MmdbWriter
