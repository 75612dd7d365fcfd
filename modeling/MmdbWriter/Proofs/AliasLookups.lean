import MmdbWriter.Lib.TrieCover
import MmdbWriter.Proofs.Walks

/-!
# Lookups below the aliases

With the aliases installed, a lookup below an alias network goes on in the IPv4 subtree if that subtree
has a node of its own and the network was free. Else it ends at the leaf that holds the network.
-/

namespace MmdbWriter

open BitTrie (leaf node Settled)

theorem aliasPaths_incomparable {a : List Bool} (h : a ∈ aliasPaths) (q : List Bool) :
    ¬ a <+: v4Path ++ q ∧ ¬ v4Path ++ q <+: a := by
  have hno : ∀ a ∈ aliasPaths, ¬ a <+: v4Path := by decide +kernel
  refine ⟨fun hpre => ?_, fun hpre => aliasPaths_v4Path a h ((List.prefix_append _ _).trans hpre)⟩
  refine hno a h (List.prefix_of_prefix_length_le hpre (List.prefix_append _ _) ?_)
  rw [v4Path, List.length_replicate]
  exact (aliasPaths_length a h).2

section Trie

variable {β : Type} (g : Leaf ValueId → Option β) {t : BitTrie (Leaf ValueId)}

theorem coverAt_ne_aliased (ha : t.Forall (· ≠ .aliased)) {q : List Bool} {b : Leaf ValueId}
    (h : t.coverAt q = some b) : b ≠ .aliased := by
  rw [← BitTrie.coverAt_eq_some h []]
  exact ha.eval _

theorem coverAt_withAliases (q : List Bool) :
    (withAliases t).coverAt (v4Path ++ q) = t.coverAt (v4Path ++ q) := by
  unfold withAliases
  split_ifs
  · rw [BitTrie.coverAt_markAll fun p hp => aliasPaths_incomparable hp q, BitTrie.coverAt_pinAt]
  · rfl

theorem followLookup_of_coverAt {q : List Bool} {b : Leaf ValueId} (hb : b ≠ .aliased)
    (h : t.coverAt q = some b) : followLookup g t q = g b := by
  refine BitTrie.lookup_of_coverAt (fun s => ?_) h
  cases b with
  | aliased => exact absurd rfl hb
  | noData | data _ | reserved => rfl

/-- A lookup in the IPv4 subtree is as before. -/
theorem followLookup_v4 (ha : t.Forall (· ≠ .aliased)) (q : List Bool) :
    followLookup g (withAliases t) (v4Path ++ q) = (t.coverAt (v4Path ++ q)).bind g := by
  have hcov := coverAt_withAliases (t := t) q
  cases h : t.coverAt (v4Path ++ q) with
  | none => exact BitTrie.lookup_eq_none (hcov.trans h)
  | some b => exact followLookup_of_coverAt g (coverAt_ne_aliased ha h) (hcov.trans h)

/-- A lookup below an alias network. -/
theorem followLookup_alias (ha : t.Forall (· ≠ .aliased)) {a : List Bool} {b : Leaf ValueId}
    (hmem : a ∈ aliasPaths) (hb : t.coverAt a = some b) (q : List Bool) :
    followLookup g (withAliases t) (a ++ q) =
      if t.coverAt v4Path = none ∧ b = .noData then (t.coverAt (v4Path ++ q)).bind g else g b := by
  have hcov : (t.pinAt v4Path).coverAt a = some b := by rw [BitTrie.coverAt_pinAt, hb]
  by_cases hv4 : t.coverAt v4Path = none
  · have hu : withAliases t = (t.pinAt v4Path).markAll .noData .aliased aliasPaths := if_pos hv4
    by_cases hfree : b = .noData
    · -- the network's leaf became an alias, which leads to the subtrie at the IPv4 path
      rw [hfree] at hcov
      have hleaf : (withAliases t).leafAt a = some .aliased := by
        rw [hu]
        exact BitTrie.leafAt_markAll_self aliasPaths_pairwise hmem hcov
      have hnone : (withAliases t).coverAt v4Path = none := by
        have := coverAt_withAliases (t := t) []
        rwa [List.append_nil, hv4] at this
      rw [if_pos ⟨hv4, hfree⟩, followLookup, BitTrie.lookup_of_leafAt hleaf]
      show BitTrie.lookup _ _ q = _
      rw [← BitTrie.lookup_subtrie hnone, BitTrie.lookup_eq_bind (h := g), coverAt_withAliases]
      exact BitTrie.forall_of_eval fun _ _ => rfl
    · rw [if_neg fun h => hfree h.2]
      refine followLookup_of_coverAt g (coverAt_ne_aliased ha hb) (BitTrie.coverAt_append ?_ q)
      rw [hu]
      have hapart : ∀ p ∈ aliasPaths, ∀ a ∈ aliasPaths, p = a ∨ ¬ p <+: a ∧ ¬ a <+: p := by
        decide +kernel
      exact BitTrie.coverAt_markAll_of_ne hfree (fun p hp => hapart p hp a hmem) hcov
  · have hu : withAliases t = t := if_neg hv4
    rw [if_neg fun h => hv4 h.1, hu]
    exact followLookup_of_coverAt g (coverAt_ne_aliased ha hb) (BitTrie.coverAt_append hb q)

/-- The lookups of all aliases of the IPv4 address come to what its own lookup comes to. -/
def AliasesAgree (u : BitTrie (Leaf ValueId)) (x : List Bool) : Prop :=
  ∀ a ∈ aliasPaths, ∀ s : List Bool, a.length + 32 + s.length = 128 →
    followLookup g u (a ++ (x ++ s)) = followLookup g u (v4Path ++ x)

/-- The aliases of an address agree where each of their networks was free beside an IPv4 subtree with a
node, or holds what the address has, and where the address has no two halves. -/
theorem aliasesAgree_iff (ha : t.Forall (· ≠ .aliased)) (hs : Settled 128 t)
    (hcov : ∀ a ∈ aliasPaths, (t.coverAt a).isSome)
    (hg : ∀ q b, t.coverAt q = some b → (g b).isSome) {x : List Bool} (hx : x.length = 32) :
    AliasesAgree g (withAliases t) x ↔
      (∀ a ∈ aliasPaths, ∀ b, t.coverAt a = some b → t.coverAt v4Path = none ∧ b = .noData ∨
        (t.coverAt (v4Path ++ x)).bind g = g b) ∧ t.coverAt (v4Path ++ x) ≠ none := by
  constructor
  · intro h
    refine ⟨fun a hmem b hb => ?_, fun hnone => ?_⟩
    · refine or_iff_not_imp_left.mpr fun hif => ?_
      have hle := (aliasPaths_length a hmem).2
      have := h a hmem (List.replicate (96 - a.length) false) (by
        rw [List.length_replicate]
        omega)
      rw [followLookup_alias g ha hmem hb, if_neg hif, followLookup_v4 g ha] at this
      exact this.symm
    · -- the lookup below `2002::/16` goes on beyond the IPv4 address and ends at a half of it
      obtain ⟨a, hmem, hlen⟩ : ∃ a ∈ aliasPaths, a.length = 16 := by decide +kernel
      obtain ⟨b, hb⟩ := Option.isSome_iff_exists.mp (hcov a hmem)
      have := h a hmem (List.replicate 80 false) (by rw [List.length_replicate, hlen])
      rw [followLookup_alias g ha hmem hb, followLookup_v4 g ha, hnone] at this
      split_ifs at this
      · have hdeep : t.height ≤ (v4Path ++ (x ++ List.replicate 80 false)).length := by
          have := hs.height_le
          simp only [v4Path, List.length_append, List.length_replicate]
          omega
        have hleaf := BitTrie.coverAt_of_height_le hdeep
        have hsome := hg _ _ hleaf
        rw [hleaf, Option.bind_some, Option.bind_none] at this
        rw [this] at hsome
        cases hsome
      · have hsome := hg a b hb
        rw [this] at hsome
        cases hsome
  · rintro ⟨hnets, hhost⟩ a hmem s hlen
    obtain ⟨b, hb⟩ := Option.isSome_iff_exists.mp (hcov a hmem)
    obtain ⟨c, hc⟩ := Option.ne_none_iff_exists'.mp hhost
    have hrest : t.coverAt (v4Path ++ (x ++ s)) = some c := by
      rw [← List.append_assoc]
      exact BitTrie.coverAt_append hc s
    rw [followLookup_alias g ha hmem hb, followLookup_v4 g ha, hrest, hc]
    split_ifs with hif
    · rfl
    · rw [← (hnets a hmem b hb).resolve_left hif, hc]

end Trie

end MmdbWriter
