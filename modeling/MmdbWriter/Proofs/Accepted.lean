import MmdbWriter.Proofs.AliasLookups
import MmdbWriter.Proofs.Settles

/-!
# Accepted inserts leave the alias networks whole

The checks reject a network inside an alias network, so no accepted insert divides one: all of it is
one leaf.
-/

namespace MmdbWriter

open BitTrie (leaf node updateM)

theorem reserved_aliasPaths : ∀ p ∈ (Reserved.networks .v6).filterMap (netPath .v6),
    ∀ a ∈ aliasPaths, ¬ p <+: a ∧ ¬ a <+: p := by decide +kernel

namespace Writer

/-- Each alias network of a writer that installs the aliases lies in one leaf. -/
def Whole (w : Writer) (t : BitTrie (Leaf Value)) : Prop :=
  w.ipVersion = .v6 → w.ipv4Aliasing = .enabled → ∀ a ∈ aliasPaths, (t.coverAt a).isSome

/-- The writer stands for tries that have each alias network in one leaf, with its options kept. -/
def KeepsWhole (w w' : Writer) : Prop :=
  w'.toWriterBuilder = w.toWriterBuilder ∧ ∃ l r, w'.Settles l r ∧ w'.Whole (node false l r)

section Step

variable {w : Writer} {l r : BitTrie (Leaf Value)} {σ τ : Type} {pool : σ → ValuePool}
  {part : σ → τ} {g : Option Value → τ → Option Value × τ}

theorem TreeStep.keepsWhole {p : List Bool} {s s' : σ} {t' : Tree} {e : Except Fault Unit}
    (h : TreeStep pool part g w l r p s (e, t', s')) (hok : e = .ok ())
    (hw : w.Whole (node false l r))
    (hp : w.ipVersion = .v6 → w.ipv4Aliasing = .enabled → ∀ a ∈ aliasPaths, ¬ a <+: p) :
    w.KeepsWhole { w with tree := t', pool := pool s' } := by
  cases h with
  | done lr hrun hset =>
    exact ⟨rfl, lr.1, lr.2, hset, fun h6 ha a hmem =>
      BitTrie.isSome_coverAt_updateM false (hp h6 ha a hmem) (hw h6 ha a hmem) hrun⟩
  | fault => cases hok
  | full => cases hok

variable [Ipnet]

theorem any_contains_iff {net : IpNet} {p : List Bool} (hp : netPath .v6 net = some p) :
    aliasNetworks.any (fun a => Ipnet.contains a net) = true ↔ ∃ a ∈ aliasPaths, a <+: p := by
  have hiff : ∀ outer ∈ aliasNetworks, ∀ a, netPath .v6 outer = some a →
      (Ipnet.contains outer net = true ↔ a <+: p) := by
    intro outer houter a ha
    have hmem : a ∈ aliasPaths := List.mem_filterMap.mpr ⟨outer, houter, ha⟩
    cases outer with
    | v4 n =>
      simp only [netPath, Option.some.injEq] at ha
      exact absurd (ha ▸ List.prefix_append _ _) (aliasPaths_v4Path a hmem)
    | v6 n =>
      simp only [netPath, Option.some.injEq] at ha
      cases net with
      | v4 m =>
        simp only [netPath, Option.some.injEq] at hp
        rw [Ipnet.contains_v6_v4, ← hp]
        exact iff_of_false (by simp) (aliasPaths_incomparable hmem m.path).1
      | v6 m =>
        simp only [netPath, Option.some.injEq] at hp
        rw [Ipnet.contains_v6, Net.forall_mem_iff, ha, hp]
  rw [List.any_eq_true]
  constructor
  · rintro ⟨outer, houter, h⟩
    have hall : ∀ net ∈ aliasNetworks, (netPath .v6 net).isSome := by decide +kernel
    obtain ⟨a, ha⟩ := Option.isSome_iff_exists.mp (hall outer houter)
    exact ⟨a, List.mem_filterMap.mpr ⟨outer, houter, ha⟩, (hiff outer houter a ha).mp h⟩
  · rintro ⟨a, hmem, hpre⟩
    obtain ⟨outer, houter, ha⟩ := List.mem_filterMap.mp hmem
    exact ⟨outer, houter, (hiff outer houter a ha).mpr hpre⟩

/-- An accepted network is inside no alias network. -/
theorem Accepts.not_prefix {net : IpNet} (hacc : w.Accepts net) {p : List Bool}
    (hp : netPath w.ipVersion net = some p) (h6 : w.ipVersion = .v6)
    (ha : w.ipv4Aliasing = .enabled) : ∀ a ∈ aliasPaths, ¬ a <+: p := by
  intro a hmem hpre
  rw [h6] at hp
  have hens := hacc.1
  rw [ensureInsertable, if_pos ⟨h6, ha, (any_contains_iff hp).mpr ⟨a, hmem, hpre⟩⟩] at hens
  cases hens

theorem Settles.insertValue_keepsWhole (h : w.Settles l r) (hw : w.Whole (node false l r))
    (net : IpNet) (v : Value) (hok : (insertValue net v w).1 = .ok ()) :
    w.KeepsWhole (insertValue net v w).2 := by
  rcases checks_cases w net with ⟨-, e, herr⟩ | ⟨hacc, bits, len, hens, hpre, hlen, hpath⟩
  · have hrej : insertValue net v w = (.error (.err e), w) := herr _ w
    rw [hrej] at hok
    cases hok
  · rcases h.insertValue_treeStep hens hpre hlen v with hpanic | ⟨pool', res, hstep, hcall⟩
    · rw [hpanic] at hok
      cases hok
    · rw [hcall] at hok ⊢
      exact hstep.keepsWhole hok hw fun h6 ha => hacc.not_prefix hpath h6 ha

theorem Settles.insertWith_keepsWhole {τ : Type} (h : w.Settles l r)
    (hw : w.Whole (node false l r)) (net : IpNet) (op : Option Value → τ → Option Value × τ) (t : τ)
    (hok : (insertWith net op (w, t)).1 = .ok ()) : w.KeepsWhole (insertWith net op (w, t)).2.1 := by
  rcases checks_cases w net with ⟨-, e, herr⟩ | ⟨hacc, bits, len, hens, hpre, hlen, hpath⟩
  · have hrej : insertWith net op (w, t) = (.error (.err e), (w, t)) := herr _ (w, t)
    rw [hrej] at hok
    cases hok
  · obtain ⟨res, hstep, hcall⟩ := h.insertWith_treeStep hens hpre hlen op t
    rw [hcall] at hok ⊢
    exact hstep.keepsWhole hok hw fun h6 ha => hacc.not_prefix hpath h6 ha

theorem insertAll_keepsWhole (v : Value) : ∀ (nets : List IpNet) {w : Writer}
    {l r : BitTrie (Leaf Value)}, w.Settles l r → w.Whole (node false l r) →
    (insertAll v nets w).1 = .ok () → w.KeepsWhole (insertAll v nets w).2
  | [], w, l, r, h, hw, _ => ⟨rfl, l, r, h, hw⟩
  | net :: nets, w, l, r, h, hw, hok => by
    have hkeep := h.insertValue_keepsWhole hw net v
    rw [insertAll_cons] at hok ⊢
    generalize insertValue net v w = res at hkeep hok ⊢
    rcases res with ⟨e | _, w'⟩
    · cases hok
    · obtain ⟨hopt, l', r', h', hw'⟩ := hkeep rfl
      obtain ⟨hopt', hset⟩ := insertAll_keepsWhole v nets h' hw' hok
      exact ⟨hopt'.trans hopt, hset⟩

end Step

section History

variable [Ipnet] {w : Writer}

theorem Accepted.grown (h : w.Accepted) : w.Grown := by
  induction h with
  | build hb => exact .build hb
  | insertValue _ net v hres ih => exact ih.insertValue net v (by simp [hres])
  | insertWith _ net op s hres ih => exact ih.insertWith net op s (by simp [hres])
  | insertValueMerged _ net v strategy hres ih =>
    exact ih.insertValueMerged net v strategy (by simp [hres])
  | insertRange _ start stop v hres ih => exact ih.insertRange start stop v (by simp [hres])

/-- In every writer that accepted inserts have led to, each alias network is one leaf. -/
theorem Accepted.whole (h : w.Accepted) : ∃ l r, w.Settles l r ∧ w.Whole (node false l r) := by
  induction h with
  | @build b w hb =>
    obtain ⟨w', l, r, hb', hopt, hinv, -, hcov⟩ := build_inv b
    rw [hb, Except.ok.injEq] at hb'
    subst hb'
    refine ⟨l, r, hinv.settles, fun h6 _ a hmem => hcov a ?_⟩
    rw [hopt] at h6
    have h6 : b.ipVersion = .v6 := h6
    unfold WriterBuilder.paintedTrie
    rw [BitTrie.coverAt_markAll fun p hp => ?_]
    · obtain ⟨c, a, rfl⟩ := List.exists_cons_of_ne_nil (aliasPaths_length a hmem).1
      cases c <;> rfl
    · unfold WriterBuilder.reservedPaths at hp
      rw [h6] at hp
      split_ifs at hp
      · exact reserved_aliasPaths p hp a hmem
      · cases hp
  | insertValue _ net v hres ih =>
    obtain ⟨l, r, h, hw⟩ := ih
    exact (h.insertValue_keepsWhole hw net v hres).2
  | insertWith _ net op s hres ih =>
    obtain ⟨l, r, h, hw⟩ := ih
    exact (h.insertWith_keepsWhole hw net op s hres).2
  | insertValueMerged _ net v strategy hres ih =>
    obtain ⟨l, r, h, hw⟩ := ih
    cases strategy with
    | replace => exact (h.insertValue_keepsWhole hw net v hres).2
    | topLevelMerge => exact (h.insertWith_keepsWhole hw net _ () hres).2
    | deepMerge => exact (h.insertWith_keepsWhole hw net _ () hres).2
  | @insertRange w _ start stop v hres ih =>
    obtain ⟨l, r, h, hw⟩ := ih
    cases hnets : rangeToNetworks start stop with
    | error e =>
      rw [insertRange_error hnets] at hres
      cases hres
    | ok nets =>
      rw [insertRange_eq hnets] at hres ⊢
      exact (insertAll_keepsWhole v nets h hw hres).2

end History

end Writer

end MmdbWriter
