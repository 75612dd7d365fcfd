import MmdbWriter.Proofs.Marker
import MmdbWriter.Space

/-!
# Installing the aliases

On a tree with a node at `::/96`, `install_ipv4_aliases` pins that node and marks the free alias
networks. Where a leaf covers `::/96` it does nothing.
-/

namespace MmdbWriter

open BitTrie (leaf node Splits)

/-- The bits of the IPv4 subtree. -/
def v4Path : List Bool := List.replicate 96 false

/-- The bits of the alias networks. -/
def aliasPaths : List (List Bool) := aliasNetworks.filterMap (netPath .v6)

/-- A trie with the aliases installed. -/
def withAliases {α : Type} [DecidableEq α] (t : BitTrie (Leaf α)) : BitTrie (Leaf α) :=
  if t.coverAt v4Path = none then (t.pinAt v4Path).markAll .noData .aliased aliasPaths else t

/-- A trie on the way to the aliases: some of them marked, the next one's path in part. -/
def PartlyAliased {α : Type} [DecidableEq α] (t u : BitTrie (Leaf α)) : Prop :=
  t.coverAt v4Path = none ∧ ∃ ps n, ps <+: aliasPaths ∧ n ≤ 96 ∧ (∀ p ∈ ps, n ≤ p.length) ∧
    Splits n ((t.pinAt v4Path).markAll .noData .aliased ps) u

theorem stores_congr_v4 {nodes : List Node} {v4 v4' : ℕ} : ∀ {t : BitTrie (Leaf ValueId)}
    {rec : Record} {fp : List ℕ}, t.Unpinned → t.Forall (· ≠ .aliased) →
    Stores nodes v4 rec t fp → Stores nodes v4' rec t fp
  | leaf a, _, _, _, ha, h => by
    refine ⟨?_, h.2⟩
    have hne : a ≠ .aliased := ha
    rw [h.1]
    cases a <;> first | rfl | exact absurd rfl hne
  | node pin l r, _, _, hu, ha, h => by
    obtain ⟨i, n, fl, fr, hrec, -, hn, hl, hr, rfl⟩ := h
    refine ⟨i, n, fl, fr, hrec, fun hp => ?_, hn, stores_congr_v4 hu.2.1 ha.1 hl,
      stores_congr_v4 hu.2.2 ha.2 hr, rfl⟩
    rw [hu.1] at hp
    cases hp

namespace Tree

variable {t : Tree}

theorem leftWalk_succ_node {i j k : ℕ} {n : Node} (hn : t.nodes[i]? = some n)
    (hl : n.left = .node j) : leftWalk t (k + 1) i = leftWalk t k j := by
  rw [leftWalk, nodeAt, hn]
  simp only [bind, Except.bind, hl]

theorem leftWalk_succ_leaf {i k : ℕ} {n : Node} (hn : t.nodes[i]? = some n)
    (hl : isLeafRecord n.left = true) : leftWalk t (k + 1) i = .ok none := by
  rw [leftWalk, nodeAt, hn]
  simp only [bind, Except.bind]
  cases hrec : n.left <;> simp_all [isLeafRecord]

/-- The walk over left children and the pinning at its end. -/
theorem pin_spec : ∀ (k i : ℕ) (l r : BitTrie (Leaf ValueId)) (fp : List ℕ),
    NodeStores t.nodes 0 i l r fp → fp.Nodup → l.Unpinned → r.Unpinned →
    l.Forall (· ≠ .aliased) → r.Forall (· ≠ .aliased) →
    (((node false l r).coverAt (List.replicate (k + 1) false)).isSome ∧
      leftWalk t (k + 1) i = .ok none) ∨
    ∃ c p nd l' r', (node false l r).coverAt (List.replicate (k + 1) false) = none ∧
      leftWalk t (k + 1) i = .ok (some c) ∧ leftWalk t k i = .ok (some p) ∧ p ∈ fp ∧
      t.nodes[p]? = some nd ∧
      node false l' r' = (node false l r).pinAt (List.replicate (k + 1) false) ∧
      NodeStores (t.nodes.set p (nd.setChild false (.fixedNode c))) c i l' r' fp := by
  intro k
  induction k with
  | zero =>
    intro i l r fp hst hnodup hlu hru hla hra
    obtain ⟨nd, fl, fr, hnd, hl, hr, rfl⟩ := hst
    have hi : i < t.nodes.length := (List.getElem?_eq_some_iff.mp hnd).1
    simp only [List.nodup_cons, List.mem_append, not_or] at hnodup
    cases l with
    | leaf a =>
      refine Or.inl ⟨by simp [BitTrie.coverAt], leftWalk_succ_leaf hnd ?_⟩
      rw [hl.1]
      exact isLeafRecord_leafRecord 0 a
    | node pin l₁ r₁ =>
      obtain ⟨c, hc, -, hcs⟩ := stores_node.mp hl
      obtain rfl : pin = false := hlu.1
      refine Or.inr ⟨c, i, nd, node true l₁ r₁, r, by simp [BitTrie.coverAt],
        leftWalk_succ_node hnd hc, rfl, List.mem_cons_self, hnd, rfl, ?_⟩
      have hs : ∀ j, j ≠ i → (t.nodes.set i (nd.setChild false (.fixedNode c)))[j]? =
          t.nodes[j]? := fun j hj => List.getElem?_set_ne (Ne.symm hj)
      have hcs' : NodeStores t.nodes c c l₁ r₁ fl := by
        have : Stores t.nodes c nd.left (node false l₁ r₁) fl := stores_congr_v4 hlu hla hl
        rw [hc] at this
        obtain ⟨c', hc', -, h⟩ := stores_node.mp this
        have : c = c' := by simpa [nodeRecord] using hc'
        rwa [← this] at h
      refine ⟨_, fl, fr, List.getElem?_set_self hi, ?_, ?_, rfl⟩
      · refine stores_node.mpr ⟨c, rfl, fun _ => rfl, nodeStores_frame hcs' fun j hj => hs j ?_⟩
        rintro rfl
        exact hnodup.1.1 hj
      · refine stores_frame (stores_congr_v4 hru hra hr) fun j hj => hs j ?_
        rintro rfl
        exact hnodup.1.2 hj
  | succ k ih =>
    intro i l r fp hst hnodup hlu hru hla hra
    obtain ⟨nd, fl, fr, hnd, hl, hr, rfl⟩ := hst
    have hnodup' := hnodup
    simp only [List.nodup_cons, List.mem_append, not_or, List.nodup_append] at hnodup
    cases l with
    | leaf a =>
      refine Or.inl ⟨by simp [BitTrie.coverAt, List.replicate_succ], leftWalk_succ_leaf hnd ?_⟩
      rw [hl.1]
      exact isLeafRecord_leafRecord 0 a
    | node pin l₁ r₁ =>
      obtain ⟨j, hj, -, hjs⟩ := stores_node.mp hl
      obtain rfl : pin = false := hlu.1
      have hcov : (node false (node false l₁ r₁) r).coverAt (List.replicate (k + 2) false) =
          (node false l₁ r₁).coverAt (List.replicate (k + 1) false) := rfl
      rw [hcov, leftWalk_succ_node hnd hj, leftWalk_succ_node hnd hj]
      rcases ih j l₁ r₁ fl hjs hnodup.2.1 hlu.2.1 hlu.2.2 hla.1 hla.2 with h | h
      · exact Or.inl h
      · obtain ⟨c, p, ndp, l', r', hc, hw, hw', hp, hndp, hpin, hst'⟩ := h
        have hpi : p ≠ i := by
          rintro rfl
          exact hnodup.1.1 hp
        refine Or.inr ⟨c, p, ndp, node false l' r', r, hc, hw, hw',
          List.mem_cons_of_mem _ (List.mem_append_left _ hp), hndp, ?_, ?_⟩
        · rw [hpin]
          rfl
        · refine ⟨nd, fl, fr, by rw [List.getElem?_set_ne hpi, hnd], ?_, ?_, rfl⟩
          · rw [hj]
            exact nodeStores_unpinned hst'
          · refine stores_frame (stores_congr_v4 hru hra hr) fun m hm => ?_
            refine List.getElem?_set_ne ?_
            rintro rfl
            exact hnodup.2.2.2 p hp p hm rfl

/-- How installing the aliases can end. -/
inductive AliasOutcome (nodes : List Node) (t : BitTrie (Leaf ValueId)) :
    Except Fault Unit × Tree → Prop
  | done {t'} (c) {l r} (fp) (hst : NodeStores t'.nodes c 0 l r fp) (hnd : fp.Nodup)
      (heq : node false l r = withAliases t) (hlen : t'.nodes.length ≤ nodes.length + 144) :
      AliasOutcome nodes t (.ok (), t')
  | full {t'} (c) {l r} (fp) (hst : NodeStores t'.nodes c 0 l r fp) (hnd : fp.Nodup)
      (hpart : PartlyAliased t (node false l r)) (hfull : 2 ^ 32 ≤ t'.nodes.length)
      (hlen : t'.nodes.length ≤ nodes.length + 144) :
      AliasOutcome nodes t (.error (fullFault t'), t')

theorem installMarker_alias {nodes : List Node} {c k : ℕ} {l r : BitTrie (Leaf ValueId)}
    {fp : List ℕ} {t : Tree} {u : BitTrie (Leaf ValueId)} {ps : List (List Bool)} (bits : BitVec 128)
    {len : ℕ} (hle : len ≤ 96) (hcov : u.coverAt v4Path = none)
    (hps : ps ++ [bits.msbs.take len] <+: aliasPaths) (hlt : ∀ p ∈ ps, len ≤ p.length)
    (hst : NodeStores t.nodes c 0 l r fp) (hnd : fp.Nodup)
    (heq : node false l r = (u.pinAt v4Path).markAll .noData .aliased ps)
    (hlen : t.nodes.length ≤ nodes.length + k) (hk : k + len ≤ 144) {x : Exec Fault Tree Unit}
    (hx : ∀ (t' : Tree) (l' r' : BitTrie (Leaf ValueId)) (fp' : List ℕ),
      NodeStores t'.nodes c 0 l' r' fp' → fp'.Nodup → t'.nodes.length ≤ nodes.length + (k + len) →
      node false l' r' = (u.pinAt v4Path).markAll .noData .aliased (ps ++ [bits.msbs.take len]) →
      AliasOutcome nodes u (x t')) :
    AliasOutcome nodes u ((installMarker bits len (.aliased c) >>= fun _ => x) t) := by
  have h := installMarkerFrom_spec .aliased bits (hle.trans (by decide)) len 0 0 t l r fp
    (by omega) hst hnd
  have hpf : pathFrom bits len 0 = bits.msbs.take len := List.drop_zero
  have hpl : (bits.msbs.take len).length = len := by
    rw [List.length_take, BitVec.length_msbs]
    omega
  rw [hpf] at h
  generalize hres : installMarkerFrom bits (leafRecord c .aliased) len 0 0 t = res at h
  have hrun : installMarker bits len (.aliased c) t = res := hres
  cases h with
  | done fp' hst' hf hlen' =>
    rw [Exec.bind_ok hrun]
    refine hx _ _ _ fp' hst' hf.nodup (by omega) ?_
    rw [← markAt_node, heq]
    simp only [BitTrie.markAll, List.foldl_append, List.foldl_cons, List.foldl_nil]
  | full fp' hne hsl hsr hst' hf hfull hadd =>
    rw [Exec.bind_error hrun]
    refine .full c fp' hst' hf.nodup ⟨hcov, ps, len, (List.prefix_append ps _).trans hps, hle, hlt,
      ?_⟩ hfull (by omega)
    have hs : Splits _ (node false l r) (node false _ _) := Splits.node hsl hsr
    rwa [Nat.sub_add_cancel (List.length_pos_of_ne_nil hne), hpl, heq] at hs

/-- Installing the aliases is `withAliases` on the trie, or the vector of nodes overflows. -/
theorem installIpv4Aliases_spec {l r : BitTrie (Leaf ValueId)} {fp : List ℕ}
    (hst : NodeStores t.nodes 0 0 l r fp) (hnd : fp.Nodup) (hu : (node false l r).Unpinned)
    (ha : (node false l r).Forall (· ≠ .aliased)) :
    AliasOutcome t.nodes (node false l r) (installIpv4Aliases t) := by
  unfold installIpv4Aliases
  rw [Exec.bind_ok (Exec.read_apply t)]
  rcases pin_spec 95 0 l r fp hst hnd hu.2.1 hu.2.2 ha.1 ha.2 with
    ⟨hcov, hwalk⟩ | ⟨c, p, nd, l', r', hcov, hwalk, hparent, hp, hndp, hpin, hst'⟩
  · rw [Exec.bind_ok (show Exec.lift (leftWalk t 96 0) t = (.ok none, t) by
      rw [Exec.lift_apply, hwalk])]
    refine .done 0 fp hst hnd ?_ (by omega)
    rw [withAliases, if_neg fun h => ?_]
    rw [v4Path] at h
    rw [h] at hcov
    cases hcov
  · rw [Exec.bind_ok (show Exec.lift (leftWalk t 96 0) t = (.ok (some c), t) by
      rw [Exec.lift_apply, hwalk])]
    simp only
    rw [Exec.bind_ok (show Exec.lift (leftWalk t 95 0) t = (.ok (some p), t) by
      rw [Exec.lift_apply, hparent])]
    simp only
    rw [Exec.bind_ok (writeChild_eq hndp _ _)]
    have hpaths : aliasPaths =
        [(0x00000000000000000000FFFF00000000#128).msbs.take 96,
          (0x20010000000000000000000000000000#128).msbs.take 32,
          (0x20020000000000000000000000000000#128).msbs.take 16] := by decide +kernel
    have hnone : node false l' r' =
        ((node false l r).pinAt v4Path).markAll .noData .aliased [] := hpin
    refine installMarker_alias (k := 0) _ (by decide) hcov (by decide +kernel) (by simp) hst' hnd
      hnone (by simp) (by decide) ?_
    intro t₁ l₁ r₁ fp₁ hst₁ hnd₁ hlen₁ heq₁
    refine installMarker_alias _ (by decide) hcov (by decide +kernel) (by decide +kernel) hst₁ hnd₁
      heq₁ hlen₁ (by decide) ?_
    intro t₂ l₂ r₂ fp₂ hst₂ hnd₂ hlen₂ heq₂
    rw [← Exec.bind_pure_unit (installMarker _ 16 (.aliased c)) t₂]
    refine installMarker_alias _ (by decide) hcov (by decide +kernel) (by decide +kernel) hst₂ hnd₂
      heq₂ hlen₂ (by decide) ?_
    intro t₃ l₃ r₃ fp₃ hst₃ hnd₃ hlen₃ heq₃
    refine .done c fp₃ hst₃ hnd₃ ?_ hlen₃
    rw [withAliases, if_pos (show BitTrie.coverAt _ v4Path = none from hcov), heq₃, hpaths]
    rfl

end Tree

end MmdbWriter
