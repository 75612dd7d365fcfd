import MmdbWriter.Lib.TrieLookup

/-!
# The leaves of a reduced trie with pinned nodes

Where below each pinned node there are two labels, the pins keep no leaves apart that a reduced trie
would merge: its leaves are the maximal blocks with one label.
-/

namespace BitTrie

variable {α : Type}

/-- Below each pinned node there are two labels. -/
def PinsVaried (t : BitTrie α) : Prop := ∀ p, t.PinnedAt p → ∀ a, ∃ q, t.eval (p ++ q) ≠ a

theorem Unpinned.pinsVaried {t : BitTrie α} (h : t.Unpinned) : t.PinsVaried :=
  fun p hp => absurd hp (h.not_pinnedAt p)

theorem PinsVaried.child {pin : Bool} {l r : BitTrie α} (h : (node pin l r).PinsVaried) (b : Bool) :
    (bif b then r else l).PinsVaried := by
  intro p hp a
  have hp' : (node pin l r).PinnedAt (b :: p) := by cases b <;> exact hp
  obtain ⟨q, hq⟩ := h (b :: p) hp' a
  refine ⟨q, ?_⟩
  cases b <;> simpa using hq

theorem PinsVaried.norm [DecidableEq α] {t : BitTrie α} (h : t.PinsVaried) : t.norm.PinsVaried := by
  intro p hp a
  obtain ⟨q, hq⟩ := h p hp.of_norm a
  exact ⟨q, by rwa [eval_norm]⟩

theorem PinsVaried.eq_leaf {P : α → Prop} {a : α} (ha : P a) : ∀ {t : BitTrie α}, t.PinsVaried →
    t.ReducedOn P → (∀ p, t.eval p = a) → t = leaf a
  | leaf b, _, _, h => by
    have := h []
    rw [eval_leaf] at this
    rw [this]
  | node pin l r, hv, hr, h => by
    have h1 : l = leaf a := eq_leaf ha (hv.child false) hr.1 fun p => by simpa using h (false :: p)
    have h2 : r = leaf a := eq_leaf ha (hv.child true) hr.2.1 fun p => by simpa using h (true :: p)
    cases pin with
    | false => exact absurd h2 (hr.2.2 rfl a ha h1)
    | true =>
      obtain ⟨q, hq⟩ := hv [] rfl a
      exact absurd (h q) hq

/-- Where there is one label below a path, a leaf covers the path. -/
theorem PinsVaried.coverAt {P : α → Prop} {a : α} (ha : P a) : ∀ {t : BitTrie α} {p : List Bool},
    t.PinsVaried → t.ReducedOn P → (∀ q, t.eval (p ++ q) = a) → t.coverAt p = some a
  | t, [], hv, hr, h => by
    rw [hv.eq_leaf ha hr (by simpa using h), BitTrie.coverAt]
  | leaf b, c :: p, _, _, h => by
    have := h []
    rw [eval_leaf] at this
    rw [BitTrie.coverAt, this]
  | node pin l r, true :: p, hv, hr, h => by
    simpa [BitTrie.coverAt] using PinsVaried.coverAt ha (hv.child true) hr.2.1 (by simpa using h)
  | node pin l r, false :: p, hv, hr, h => by
    simpa [BitTrie.coverAt] using PinsVaried.coverAt ha (hv.child false) hr.1 (by simpa using h)

/-- The leaves are the maximal blocks with one label. -/
theorem PinsVaried.leafAt_iff_maximal {t : BitTrie α} (hv : t.PinsVaried)
    (hr : t.ReducedOn fun _ => True) {p : List Bool} {a : α} : t.leafAt p = some a ↔
      (∀ q, t.eval (p ++ q) = a) ∧
        ∀ p', p' <+: p → (∃ b, ∀ q, t.eval (p' ++ q) = b) → p' = p := by
  constructor
  · intro h
    refine ⟨coverAt_eq_some (coverAt_of_leafAt h), ?_⟩
    rintro p' ⟨s, rfl⟩ ⟨b, hb⟩
    by_contra hne
    have hs : s ≠ [] := by
      rintro rfl
      simp at hne
    have h1 := coverAt_of_leafAt_append h hs
    rw [hv.coverAt (P := fun _ => True) trivial hr hb] at h1
    cases h1
  · rintro ⟨h, hmax⟩
    obtain ⟨p', hp', hl⟩ :=
      exists_leafAt_of_coverAt (hv.coverAt (P := fun _ => True) trivial hr h)
    have := hmax p' hp' ⟨a, coverAt_eq_some (coverAt_of_leafAt hl)⟩
    rwa [this] at hl

end BitTrie
