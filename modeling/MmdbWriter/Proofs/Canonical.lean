import MmdbWriter.Proofs.Built

/-!
# The built trie is canonical

Two writers of the same options whose `get` agrees everywhere stand for tries with one map. Below the
root these are reduced, so they are covered by leaves at the same paths, have the aliases installed
at the same ones, and come to one built trie.
-/

namespace MmdbWriter

open BitTrie (leaf node)

section Trie

variable {α : Type} [DecidableEq α] {l r l' r' : BitTrie (Leaf α)}

omit [DecidableEq α] in
theorem coverAt_node_iff (hu : (node false l r).Unpinned)
    (hred : l.ReducedOn (· ≠ .reserved) ∧ r.ReducedOn (· ≠ .reserved)) {p : List Bool}
    (hp : p ≠ []) {a : Leaf α} (ha : a ≠ .reserved) :
    (node false l r).coverAt p = some a ↔ ∀ q, (node false l r).eval (p ++ q) = a := by
  refine ⟨BitTrie.coverAt_eq_some, fun h => ?_⟩
  obtain ⟨b, p, rfl⟩ := List.exists_cons_of_ne_nil hp
  cases b
  · exact BitTrie.coverAt_of_uniform (P := (· ≠ .reserved)) (t := l) ha hu.2.1 hred.1
      fun q => by simpa using h q
  · exact BitTrie.coverAt_of_uniform (P := (· ≠ .reserved)) (t := r) ha hu.2.2 hred.2
      fun q => by simpa using h q

theorem aliasPaths_pairwise : aliasPaths.Pairwise (fun p p' => ¬ p <+: p' ∧ ¬ p' <+: p) := by
  decide +kernel

theorem aliasPaths_length : ∀ p ∈ aliasPaths, p ≠ [] ∧ p.length ≤ 96 := by decide +kernel

theorem v4Path_ne_nil : v4Path ≠ [] := by decide

/-- The aliases take the place of what was free, if the IPv4 subtree has a node of its own. -/
theorem eval_withAliases {t : BitTrie (Leaf α)} {q : List Bool} (hq : 96 ≤ q.length) :
    (withAliases t).eval q =
      if t.coverAt v4Path = none ∧ ∃ p ∈ aliasPaths, p <+: q ∧ t.coverAt p = some .noData
      then .aliased else t.eval q := by
  unfold withAliases
  by_cases hcov : t.coverAt v4Path = none
  · rw [if_pos hcov, BitTrie.eval_markAll aliasPaths_pairwise fun p hp =>
      (aliasPaths_length p hp).2.trans hq]
    simp only [BitTrie.coverAt_pinAt, BitTrie.eval_pinAt, hcov, true_and]
  · rw [if_neg hcov, if_neg fun h => hcov h.1]

variable (hu : (node false l r).Unpinned) (hu' : (node false l' r').Unpinned)
  (hred : l.ReducedOn (· ≠ .reserved) ∧ r.ReducedOn (· ≠ .reserved))
  (hred' : l'.ReducedOn (· ≠ .reserved) ∧ r'.ReducedOn (· ≠ .reserved))
  (heval : ∀ q, (node false l r).eval q = (node false l' r').eval q)

include hu hu' hred hred' heval

omit [DecidableEq α] in
theorem coverAt_congr {p : List Bool} (hp : p ≠ []) {a : Leaf α} (ha : a ≠ .reserved) :
    (node false l r).coverAt p = some a ↔ (node false l' r').coverAt p = some a := by
  rw [coverAt_node_iff hu hred hp ha, coverAt_node_iff hu' hred' hp ha]
  simp only [heval]

omit [DecidableEq α] in
theorem coverAt_none_congr {p : List Bool} (hp : p ≠ [])
    (hr : ∃ q, (node false l r).eval (p ++ q) ≠ .reserved) :
    (node false l r).coverAt p = none ↔ (node false l' r').coverAt p = none := by
  obtain ⟨q, hq⟩ := hr
  have hne : ∀ {t : BitTrie (Leaf α)} {a : Leaf α}, t.eval (p ++ q) ≠ .reserved →
      t.coverAt p = some a → a ≠ .reserved := by
    rintro t a hqt hcov rfl
    exact hqt (BitTrie.coverAt_eq_some hcov q)
  rw [← not_iff_not, ← ne_eq, ← ne_eq, Option.ne_none_iff_exists', Option.ne_none_iff_exists']
  constructor
  · rintro ⟨a, hcov⟩
    exact ⟨a, (coverAt_congr hu hu' hred hred' heval hp (hne hq hcov)).mp hcov⟩
  · rintro ⟨a, hcov⟩
    rw [heval] at hq
    exact ⟨a, (coverAt_congr hu hu' hred hred' heval hp (hne hq hcov)).mpr hcov⟩

/-- The map of the writer determines the built trie. -/
theorem WriterBuilder.builtTrie_congr (b : WriterBuilder)
    (hr : b.ipVersion = .v6 → ∃ q, (node false l r).eval (v4Path ++ q) ≠ .reserved) :
    b.builtTrie (node false l r) = b.builtTrie (node false l' r') := by
  unfold builtTrie
  by_cases hal : b.ipVersion = .v6 ∧ b.ipv4Aliasing = .enabled
  · rw [if_pos hal, if_pos hal]
    have hnone := coverAt_none_congr hu hu' hred hred' heval v4Path_ne_nil (hr hal.1)
    have heq : ∀ q, (withAliases (node false l r)).eval q =
        (withAliases (node false l' r')).eval q := by
      intro q
      have hlen : 96 ≤ (q ++ List.replicate 96 false).length := by simp
      rw [← BitTrie.eval_append_replicate _ q 96, eval_withAliases hlen,
        ← BitTrie.eval_append_replicate (withAliases (node false l' r')) q 96,
        eval_withAliases hlen, heval]
      refine if_congr (and_congr hnone (exists_congr fun p => and_congr_right fun hp => ?_)) rfl rfl
      exact and_congr_right fun _ =>
        coverAt_congr hu hu' hred hred' heval (aliasPaths_length p hp).1 (by simp)
    have hpin : ∀ q, (withAliases (node false l r)).PinnedAt q ↔
        (withAliases (node false l' r')).PinnedAt q := by
      intro q
      rw [pinnedAt_withAliases hu, pinnedAt_withAliases hu', hnone]
    obtain ⟨a, c, hac⟩ := withAliases_node l r
    obtain ⟨a', c', hac'⟩ := withAliases_node l' r'
    rw [hac, hac'] at heq hpin ⊢
    exact BitTrie.normKids_congr heq hpin
  · rw [if_neg hal, if_neg hal]
    exact BitTrie.normKids_congr heval fun q =>
      iff_of_false (hu.not_pinnedAt q) (hu'.not_pinnedAt q)

end Trie

namespace Writer

variable [Ipnet] {w w' : Writer} {l r l' r' : BitTrie (Leaf Value)}

/-- Writers of the same options whose `get` agrees stand for one map. -/
theorem Inv.eval_congr (h : w.Inv l r) (h' : w'.Inv l' r')
    (hopt : w'.toWriterBuilder = w.toWriterBuilder) (hget : ∀ ip, w.get ip = w'.get ip)
    (q : List Bool) : (node false l r).eval q = (node false l' r').eval q := by
  have hver : w'.ipVersion = w.ipVersion := by rw [hopt]
  refine BitTrie.eval_ext_of_height h.height (by rw [← hver]; exact h'.height) (fun q hq => ?_) q
  obtain ⟨ip, hip⟩ := exists_addrPath w.ipVersion hq
  have hvalue := hget ip
  rw [h.get hip, h'.get (by rw [hver]; exact hip), Except.ok.injEq] at hvalue
  have hres : (node false l r).eval q = .reserved ↔ (node false l' r').eval q = .reserved := by
    rw [h.reserved_iff q hq, h'.reserved_iff q (by rw [hver]; exact hq), hopt]
  by_cases hr : (node false l r).eval q = .reserved
  · rw [hr, hres.mp hr]
  · exact Leaf.eq_of_value_eq hr (h.not_aliased q) (fun hr' => hr (hres.mpr hr'))
      (h'.not_aliased q) hvalue

omit [Ipnet] in
theorem exists_unreserved (hv : w.ipVersion = .v6) : ∃ q, (v4Path ++ q).length = 128 ∧
    ¬ ∃ p ∈ w.reservedPaths, p <+: v4Path ++ q := by
  refine ⟨(8#8).msbs ++ List.replicate 24 false, by simp [v4Path], ?_⟩
  rintro ⟨p, hp, hpre⟩
  have hno : ∀ p ∈ (Reserved.networks .v6).filterMap (netPath .v6),
      ¬ p <+: v4Path ++ ((8#8).msbs ++ List.replicate 24 false) := by decide +kernel
  unfold WriterBuilder.reservedPaths at hp
  split_ifs at hp
  · rw [hv] at hp
    exact hno p hp hpre
  · cases hp

omit [Ipnet] in
theorem Inv.exists_unreserved (h : w.Inv l r) (hv : w.ipVersion = .v6) :
    ∃ q, (node false l r).eval (v4Path ++ q) ≠ .reserved := by
  obtain ⟨q, hlen, hno⟩ := Writer.exists_unreserved hv
  exact ⟨q, fun hr => hno ((h.reserved_iff _ (by rw [hlen, hv]; rfl)).mp hr)⟩

theorem Inv.builtTrie_congr (h : w.Inv l r) (h' : w'.Inv l' r')
    (hopt : w'.toWriterBuilder = w.toWriterBuilder) (hget : ∀ ip, w.get ip = w'.get ip)
    (hlen : w.tree.nodes.length < 2 ^ 32) (hlen' : w'.tree.nodes.length < 2 ^ 32) :
    w.builtTrie (node false l r) = w'.builtTrie (node false l' r') := by
  rw [hopt]
  exact w.builtTrie_congr h.unpinned h'.unpinned (h.reduced hlen) (h'.reduced hlen')
    (h.eval_congr h' hopt hget) h.exists_unreserved

end Writer

end MmdbWriter
