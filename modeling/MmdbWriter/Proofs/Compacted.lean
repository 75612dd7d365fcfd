import MmdbWriter.Lib.TrieLookup
import MmdbWriter.Proofs.Grown
import MmdbWriter.Proofs.Places
import MmdbWriter.Proofs.SameFile

/-!
# Compaction is correct

A lookup on the nodes is a lookup on the trie they store, in which the leaves of the aliases go on in
the pinned subtrie. Collapsing merges no such leaf and keeps the pinned subtrie, so that lookups of the
full depth find what they found before.
-/

namespace MmdbWriter

open BitTrie (leaf node Settled Splits)

/-- The value a lookup finds at a leaf, where `via` is the lookup of the aliases. -/
def Leaf.seek {α : Type} (via : List Bool → Option α) : Leaf α → List Bool → Option α
  | .data v, _ => some v
  | .aliased, p => via p
  | .noData, _ | .reserved, _ => none

/-- What `g` reads at a leaf, or `via` beyond an alias. -/
def Leaf.follow {α β : Type} (g : Leaf α → Option β) (via : List Bool → Option β) :
    Leaf α → List Bool → Option β
  | .aliased, p => via p
  | a, _ => g a

theorem Leaf.follow_const {α β : Type} {g : Leaf α → Option β} {via : List Bool → Option β} :
    ∀ a : Leaf α, ¬ a = .aliased → ∀ p q, a.follow g via p = a.follow g via q
  | .noData, _, _, _ => rfl
  | .data _, _, _, _ => rfl
  | .reserved, _, _, _ => rfl
  | .aliased, h, _, _ => absurd rfl h

namespace Tree

theorem getFrom_lookup {t : Tree} {v4 depth : ℕ} (bits : BitVec 128) (hdepth : depth ≤ 128)
    {via : List Bool → Option ValueId} : ∀ (left k i : ℕ) (l r : BitTrie (Leaf ValueId))
    (fp : List ℕ), NodeStores t.nodes v4 i l r fp → left = depth - k → k ≤ depth →
    ((node false l r).Forall (· ≠ .aliased) ∨ ∀ k ≤ depth,
      t.getFrom bits (depth - k) k v4 = .ok (via (pathFrom bits depth k))) →
    t.getFrom bits left k i =
      .ok ((node false l r).lookup (Leaf.seek via) (pathFrom bits depth k)) := by
  intro left
  induction left with
  | zero =>
    intro k i l r fp _ hleft _ _
    rw [pathFrom_eq_nil (by omega)]
    rfl
  | succ left ih =>
    intro k i l r fp hst hleft hk hvia
    obtain ⟨n, fl, fr, hn, hl, hr, rfl⟩ := hst
    have hchild : ∀ (rec : Record) (u : BitTrie (Leaf ValueId)) (fu : List ℕ),
        Stores t.nodes v4 rec u fu → (u.Forall (· ≠ .aliased) ∨ ∀ k ≤ depth,
          t.getFrom bits (depth - k) k v4 = .ok (via (pathFrom bits depth k))) →
        t.getAt bits left (k + 1) rec =
          .ok (u.lookup (Leaf.seek via) (pathFrom bits depth (k + 1))) := by
      intro rec u fu hu hv
      cases u with
      | leaf a =>
        obtain ⟨rfl, -⟩ := hu
        cases a with
        | aliased =>
          have hv' := hv.resolve_left (by simp [BitTrie.Forall]) (k + 1) (by omega)
          rw [show depth - (k + 1) = left by omega] at hv'
          exact hv'
        | noData => rfl
        | data id => rfl
        | reserved => rfl
      | node pin l' r' =>
        obtain ⟨c, rfl, -, hc⟩ := stores_node.mp hu
        have h := ih (k + 1) c l' r' fu hc (by omega) (by omega) hv
        rw [BitTrie.lookup_pin pin false, ← h]
        cases pin <;> rfl
    rw [getFrom_succ bits left (by omega) hn, pathFrom_cons (by omega) hdepth,
      BitTrie.lookup_node_cons]
    cases bits.getMsbD k with
    | false => exact hchild n.left l fl hl (hvia.imp_left fun h => h.1)
    | true => exact hchild n.right r fr hr (hvia.imp_left fun h => h.2)

end Tree

section Shape

variable {ipVersion : IpVersion}

/-- Leaves of the aliases come with a pinned node, the only one, and there are none below it. -/
structure Anchored (t : BitTrie (Leaf ValueId)) : Prop where
  pinned_eq : ∀ q, t.PinnedAt q → q = v4Path
  pinned : (∃ q, t.eval q = .aliased) → t.PinnedAt v4Path
  below : t.PinnedAt v4Path → (t.subtrie v4Path).Forall (· ≠ .aliased)

/-- What compaction relies on: the leaves of the aliases are no deeper than the pinned node, and no
two of them are siblings. -/
structure Compactable (ipVersion : IpVersion) (t : BitTrie (Leaf ValueId)) : Prop
    extends Anchored t where
  settled : Settled ipVersion.treeDepth t
  reduced : t.ReducedOn (· = .aliased)
  aliased_le : ∀ q, t.leafAt q = some .aliased → q.length ≤ 96
  deep : t.PinnedAt v4Path → 96 < ipVersion.treeDepth

theorem KidShape.node {l r : BitTrie (Leaf ValueId)} (hl : KidShape ipVersion l)
    (hr : KidShape ipVersion r) : (node false l r).Unpinned ∧
      (node false l r).Forall (· ≠ .aliased) ∧ Settled ipVersion.treeDepth (node false l r) := by
  refine ⟨⟨rfl, hl.unpinned, hr.unpinned⟩, ⟨hl.not_aliased, hr.not_aliased⟩, ?_⟩
  rw [← Nat.sub_add_cancel (treeDepth_le ipVersion).1]
  exact ⟨hl.settled, hr.settled⟩

theorem leafAt_ne_aliased {t : BitTrie (Leaf ValueId)} (ha : t.Forall (· ≠ .aliased))
    (q : List Bool) : t.leafAt q ≠ some .aliased := fun h => by
  have := BitTrie.coverAt_eq_some (BitTrie.coverAt_of_leafAt h) []
  exact ha.eval _ this

theorem compactable_of_unaliased {t : BitTrie (Leaf ValueId)} (hu : t.Unpinned)
    (ha : t.Forall (· ≠ .aliased)) (hs : Settled ipVersion.treeDepth t) :
    Compactable ipVersion t where
  settled := hs
  reduced := BitTrie.reducedOn_of_leafAt fun _ h => leafAt_ne_aliased ha _ h.1
  aliased_le q h := absurd h (leafAt_ne_aliased ha q)
  pinned_eq q h := absurd h (hu.not_pinnedAt q)
  pinned h := h.elim fun q hq => absurd hq (ha.eval q)
  below h := absurd h (hu.not_pinnedAt _)
  deep h := absurd h (hu.not_pinnedAt _)

theorem aliasPaths_siblings : ∀ p ∈ aliasPaths, ∀ p' ∈ aliasPaths, p.dropLast = p'.dropLast →
    p = p' := by decide +kernel

theorem aliasPaths_v4Path : ∀ p ∈ aliasPaths, ¬ v4Path <+: p := by decide +kernel

/-- The aliases, all or some of them, make a trie that compaction treats well. -/
theorem compactable_of_partlyAliased {t u : BitTrie (Leaf ValueId)} (hu : t.Unpinned)
    (ha : t.Forall (· ≠ .aliased)) (hs : Settled ipVersion.treeDepth t) (h : PartlyAliased t u) :
    Compactable ipVersion u := by
  obtain ⟨hcov, ps, n, hps, hn, hlen, hsplit⟩ := h
  have hdepth : 96 < ipVersion.treeDepth := by
    have hheight : 96 < t.height := by
      by_contra hle
      rw [BitTrie.coverAt_of_height_le (by rw [v4Path, List.length_replicate]; omega)] at hcov
      cases hcov
    have := hs.height_le
    cases ipVersion
    · simp only [IpVersion.treeDepth] at this
      omega
    · decide
  have hpin : ∀ q, u.PinnedAt q ↔ q = v4Path := by
    intro q
    rw [hsplit.pinnedAt]
    refine BitTrie.markAll_induct (P := fun u => u.PinnedAt q ↔ q = v4Path)
      (fun p _ u hq => (BitTrie.pinnedAt_markAt p u q).trans hq) ?_
    rw [BitTrie.pinnedAt_pinAt]
    simp [hu.not_pinnedAt q, hcov]
  have halias : ∀ q, u.leafAt q = some .aliased → q ∈ aliasPaths := by
    have hmark : ∀ q, ((t.pinAt v4Path).markAll .noData .aliased ps).leafAt q = some .aliased →
        q ∈ ps := by
      intro q hq
      refine (BitTrie.leafAt_markAll (by simp) hq).resolve_right fun hq => ?_
      rw [BitTrie.leafAt_pinAt] at hq
      exact leafAt_ne_aliased ha q hq
    intro q hq
    rcases hsplit.leafAt hq with hq | ⟨p, -, hlt, hp⟩
    · exact hps.subset (hmark q hq)
    · have := hlen p (hmark p hp)
      omega
  refine ⟨⟨fun q => (hpin q).mp, fun _ => (hpin _).mpr rfl, fun hv4 => ?_⟩, ?_, ?_,
    fun q hq => (aliasPaths_length q (halias q hq)).2, fun _ => hdepth⟩
  · refine BitTrie.forall_of_leafAt fun q a hq ha => ?_
    rw [BitTrie.leafAt_subtrie hv4.coverAt, ha] at hq
    exact aliasPaths_v4Path _ (halias _ hq) (List.prefix_append _ _)
  · refine Settled.splits ?_ hsplit (by omega)
    refine BitTrie.markAll_induct (P := Settled ipVersion.treeDepth) (fun p hp u hu => hu.markAt ?_)
      (hs.pinAt v4Path)
    exact ((aliasPaths_length p (hps.subset hp)).2).trans (by omega)
  · refine BitTrie.reducedOn_of_leafAt fun p hp => ?_
    have := aliasPaths_siblings _ (halias _ hp.1) _ (halias _ hp.2) (by simp)
    simp at this

theorem compactable_withAliases {t : BitTrie (Leaf ValueId)} (hu : t.Unpinned)
    (ha : t.Forall (· ≠ .aliased)) (hs : Settled ipVersion.treeDepth t) :
    Compactable ipVersion (withAliases t) := by
  unfold withAliases
  split_ifs with hcov
  · exact compactable_of_partlyAliased hu ha hs ⟨hcov, aliasPaths, 0, List.prefix_refl _, by omega,
      fun _ _ => Nat.zero_le _, Splits.refl _ _⟩
  · exact compactable_of_unaliased hu ha hs

theorem Anchored.normKids {t : BitTrie (Leaf ValueId)} (h : Anchored t) : Anchored t.normKids where
  pinned_eq q hq := h.pinned_eq q hq.of_normKids
  pinned := fun ⟨q, hq⟩ => (h.pinned ⟨q, by rwa [BitTrie.eval_normKids] at hq⟩).normKids
  below hp := by
    have hp' : t.PinnedAt v4Path := hp.of_normKids
    have hsub : t.normKids.subtrie v4Path = (t.subtrie v4Path).norm := BitTrie.subtrie_normKids hp'
    rw [hsub]
    exact (h.below hp').norm

/-- The value a lookup finds below the pinned node. -/
def aliasLookup (t : BitTrie (Leaf ValueId)) (p : List Bool) : Option ValueId :=
  (t.subtrie v4Path).lookup (Leaf.seek fun _ => none) p

section Follow

variable {β : Type} (g : Leaf ValueId → Option β)

/-- A lookup that reads a leaf with `g` and goes on below the pinned node where it meets an alias. -/
def followLookup (t : BitTrie (Leaf ValueId)) : List Bool → Option β :=
  t.lookup (Leaf.follow g ((t.subtrie v4Path).lookup fun a _ => g a))

/-- Collapsing changes no lookup of the full depth, whatever is read at the leaves. -/
theorem Compactable.followLookup_normKids {t : BitTrie (Leaf ValueId)} (h : Compactable ipVersion t)
    {p : List Bool} (hp : p.length = ipVersion.treeDepth) :
    followLookup g t.normKids p = followLookup g t p := by
  have hpos := (treeDepth_le ipVersion).1
  have hset := h.settled
  rw [← Nat.sub_add_cancel hpos] at hset
  unfold followLookup
  rw [BitTrie.lookup_normKids (P := (· = .aliased)) Leaf.follow_const hset h.reduced (by omega)]
  refine BitTrie.lookup_congr fun q a hq hl => ?_
  cases a with
  | noData => rfl
  | data id => rfl
  | reserved => rfl
  | aliased =>
    have hpin : t.PinnedAt v4Path :=
      h.pinned ⟨q ++ [], BitTrie.coverAt_eq_some (BitTrie.coverAt_of_leafAt hl) []⟩
    have hsub : t.normKids.subtrie v4Path = (t.subtrie v4Path).norm := BitTrie.subtrie_normKids hpin
    have hdeep := h.deep hpin
    have hle := h.aliased_le q hl
    have hv4 : v4Path.length = 96 := List.length_replicate
    have hset' := h.settled.subtrie (p := v4Path) (by omega)
    show BitTrie.lookup _ (t.normKids.subtrie v4Path) _ = BitTrie.lookup _ (t.subtrie v4Path) _
    rw [hsub]
    refine BitTrie.lookup_norm (P := (· = .aliased)) (fun _ _ _ _ => rfl) hset' h.reduced.subtrie ?_
    rw [List.length_drop]
    omega

end Follow

theorem Compactable.lookup_normKids {t : BitTrie (Leaf ValueId)} (h : Compactable ipVersion t)
    {p : List Bool} (hp : p.length = ipVersion.treeDepth) :
    t.normKids.lookup (Leaf.seek (aliasLookup t.normKids)) p =
      t.lookup (Leaf.seek (aliasLookup t)) p := by
  have hseek : ∀ u : BitTrie (Leaf ValueId), u.lookup (Leaf.seek (aliasLookup u)) =
      followLookup (fun a => a.seek (fun _ => none) []) u := fun u => by
    have hconst : Leaf.seek (α := ValueId) (fun _ => none) = fun a _ => a.seek (fun _ => none) [] := by
      funext a q
      cases a <;> rfl
    unfold followLookup aliasLookup
    rw [← hconst]
    congr 1
    funext a q
    cases a <;> rfl
  rw [hseek, hseek, h.followLookup_normKids _ hp]

end Shape

namespace Tree

variable {t : Tree} {v4 : ℕ} {l r : BitTrie (Leaf ValueId)} {fp : List ℕ}

theorem get_lookup (hst : NodeStores t.nodes v4 0 l r fp) (h : Anchored (node false l r))
    (bits : BitVec 128) {depth : ℕ} (hdepth : depth ≤ 128) :
    t.get bits depth = .ok ((node false l r).lookup (Leaf.seek (aliasLookup (node false l r)))
      (pathFrom bits depth 0)) := by
  refine getFrom_lookup bits hdepth depth 0 0 l r fp hst (by omega) (by omega) ?_
  by_cases hal : ∃ q, (node false l r).eval q = .aliased
  · right
    intro k hk
    have hpin := h.pinned hal
    obtain ⟨l', r', fp', hsub, hst'⟩ := nodeStores_pinned (nodeStores_unpinned hst) hpin
    have hbelow := h.below hpin
    rw [hsub] at hbelow
    rw [getFrom_lookup bits hdepth (depth - k) k v4 l' r' fp' hst' rfl hk (Or.inl hbelow),
      aliasLookup, hsub, BitTrie.lookup_pin false true]
  · exact Or.inl (BitTrie.forall_of_eval fun q hq => hal ⟨q, hq⟩)

end Tree

end MmdbWriter
