import MmdbWriter.Lib.TrieCover

/-!
# The nodes that paths need

The nodes of a trie with blocks at the ends of given paths are the proper prefixes of the paths. A path
put in after others needs those of its prefixes that none of the others has.
-/

namespace BitTrie

section Inner

/-- The empty path and the proper prefixes of the paths. -/
def inner (paths : List (List Bool)) : Finset (List Bool) :=
  insert [] (paths.toFinset.biUnion fun p => p.inits.toFinset.erase p)

variable {paths paths' : List (List Bool)} {p q : List Bool}

theorem mem_inner : q ∈ inner paths ↔ q = [] ∨ ∃ p ∈ paths, q <+: p ∧ q ≠ p := by
  simp only [inner, Finset.mem_insert, Finset.mem_biUnion, List.mem_toFinset, Finset.mem_erase,
    List.mem_inits, and_comm (a := q ≠ _)]

theorem card_inner_pos (paths : List (List Bool)) : 0 < (inner paths).card :=
  Finset.card_pos.mpr ⟨[], mem_inner.mpr (Or.inl rfl)⟩

theorem card_inner_le {depth : ℕ} (h : ∀ p ∈ paths, p.length ≤ depth) :
    (inner paths).card ≤ paths.length * depth + 1 := by
  have hpath : ∀ p ∈ paths.toFinset, (p.inits.toFinset.erase p).card ≤ depth := fun p hp => by
    have hinits := List.toFinset_card_le p.inits
    rw [List.length_inits] at hinits
    rw [Finset.card_erase_of_mem (by simp)]
    have := h p (List.mem_toFinset.mp hp)
    omega
  refine (Finset.card_insert_le _ _).trans (Nat.succ_le_succ ?_)
  exact (Finset.card_biUnion_le_card_mul _ _ depth hpath).trans
    (Nat.mul_le_mul_right depth (List.toFinset_card_le paths))

theorem inner_mono (h : paths ⊆ paths') : inner paths ⊆ inner paths' := fun _ hq =>
  mem_inner.mpr ((mem_inner.mp hq).imp_right fun ⟨p, hp, hpre⟩ => ⟨p, h hp, hpre⟩)

/-- The last path needs a node at each of its prefixes that is not a node yet, and one at its end. -/
theorem card_inner_append (hp : p ∉ inner (paths ++ [p])) :
    (inner (paths ++ [p])).card + 1 =
      (inner paths).card + (p.inits.toFinset.filter (· ∉ inner paths)).card := by
  have hsub : inner paths ⊆ inner (paths ++ [p]) := inner_mono (List.subset_append_left _ _)
  have hsplit : p.inits.toFinset.filter (· ∉ inner paths) =
      insert p (inner (paths ++ [p]) \ inner paths) := by
    ext q
    simp only [Finset.mem_filter, List.mem_toFinset, List.mem_inits, Finset.mem_insert,
      Finset.mem_sdiff]
    constructor
    · rintro ⟨hpre, hq⟩
      by_cases hqp : q = p
      · exact Or.inl hqp
      · exact Or.inr ⟨mem_inner.mpr (Or.inr ⟨p, by simp, hpre, hqp⟩), hq⟩
    · rintro (rfl | ⟨hq, hno⟩)
      · exact ⟨List.prefix_rfl, fun h => hp (hsub h)⟩
      · refine ⟨?_, hno⟩
        rcases mem_inner.mp hq with rfl | ⟨p', hp', hpre, hne⟩
        · exact List.nil_prefix
        · rcases List.mem_append.mp hp' with hold | hnew
          · exact absurd (mem_inner.mpr (Or.inr ⟨p', hold, hpre, hne⟩)) hno
          · rwa [List.mem_singleton.mp hnew] at hpre
  have hnew : p ∉ inner (paths ++ [p]) \ inner paths := fun h => hp (Finset.mem_sdiff.mp h).1
  have hcard := Finset.card_sdiff_add_card_eq_card hsub
  rw [hsplit, Finset.card_insert_of_notMem hnew]
  omega

end Inner

variable {α : Type}

/-- Of the prefixes of a path those are covered that lead on from the node's child. -/
theorem card_covered_cons (pin : Bool) (l r : BitTrie α) (b : Bool) (p : List Bool) :
    ((b :: p).inits.toFinset.filter fun q => ((node pin l r).coverAt q).isSome).card =
      (p.inits.toFinset.filter fun q => ((bif b then r else l).coverAt q).isSome).card := by
  have hinj : Function.Injective (List.cons b) := List.cons_injective
  have himage : ((b :: p).inits.toFinset.filter fun q => ((node pin l r).coverAt q).isSome) =
      (p.inits.toFinset.filter fun q => ((bif b then r else l).coverAt q).isSome).image (b :: ·) := by
    ext q
    simp only [Finset.mem_filter, List.mem_toFinset, List.mem_inits, Finset.mem_image]
    constructor
    · rintro ⟨hpre, hq⟩
      rcases q with _ | ⟨c, q⟩
      · simp [coverAt] at hq
      · obtain ⟨rfl, hpre'⟩ := List.cons_prefix_cons.mp hpre
        refine ⟨q, ⟨hpre', ?_⟩, rfl⟩
        cases c <;> exact hq
    · rintro ⟨q, ⟨hpre, hq⟩, rfl⟩
      refine ⟨List.cons_prefix_cons.mpr ⟨rfl, hpre⟩, ?_⟩
      cases b <;> exact hq
  rw [himage, Finset.card_image_of_injective _ hinj]

theorem nodup_inits : ∀ p : List Bool, p.inits.Nodup
  | [] => by simp
  | b :: p => by
    rw [List.inits_cons, List.nodup_cons]
    exact ⟨by simp, (nodup_inits p).map List.cons_injective⟩

theorem card_covered_leaf (a : α) (p : List Bool) :
    (p.inits.toFinset.filter fun q => ((leaf a).coverAt q).isSome).card = p.length + 1 := by
  have hall : (p.inits.toFinset.filter fun q => ((leaf a).coverAt q).isSome) = p.inits.toFinset :=
    Finset.filter_true_of_mem fun _ _ => rfl
  rw [hall, List.toFinset_card_of_nodup (nodup_inits p), List.length_inits]

section Update

variable [DecidableEq α] (f : α → α)

theorem isSome_coverAt_paint : ∀ {t : BitTrie α} {q : List Bool}, (t.coverAt q).isSome →
    ((t.paint f).coverAt q).isSome
  | leaf _, _, _ => rfl
  | node _ _ _, [], h => by simp [coverAt] at h
  | node pin l r, b :: q, h => by
    refine isSome_coverAt_join ?_
    rw [isSome_coverAt_node] at h ⊢
    cases b
    · exact isSome_coverAt_paint (t := l) h
    · exact isSome_coverAt_paint (t := r) h

/-- An update makes nodes at proper prefixes of its path only. -/
theorem isSome_coverAt_update (pin : Bool) : ∀ {p q : List Bool} {l r : BitTrie α},
    (q <+: p → q = p) → ((node pin l r).coverAt q).isSome →
      ((node pin (update f p l r).1 (update f p l r).2).coverAt q).isSome
  | _, [], _, _, _, h => by simp [coverAt] at h
  | [], b :: q, l, r, _, h => by
    rw [isSome_coverAt_node] at h ⊢
    cases b
    · exact isSome_coverAt_paint f h
    · exact isSome_coverAt_paint f h
  | c :: p, b :: q, l, r, hpre, h => by
    have hchild : ∀ {t : BitTrie α}, b = c → (t.coverAt q).isSome →
        ((join t.kids.1 (update f p t.kids.2.1 t.kids.2.2).1
          (update f p t.kids.2.1 t.kids.2.2).2).coverAt q).isSome := by
      intro t hbc ht
      have hpre' : q <+: p → q = p := fun hqp =>
        (List.cons.inj (hpre (List.cons_prefix_cons.mpr ⟨hbc, hqp⟩))).2
      rcases t with a | ⟨pin', l', r'⟩
      · rcases q with _ | ⟨b', q⟩
        · obtain rfl := hpre' List.nil_prefix
          simp [kids, update, paint, join_leaf_self, coverAt]
        · refine isSome_coverAt_join (isSome_coverAt_update _ hpre' ?_)
          cases b' <;> rfl
      · exact isSome_coverAt_join (isSome_coverAt_update _ hpre' ht)
    rw [isSome_coverAt_node] at h ⊢
    cases c <;> cases b
    · exact hchild rfl h
    · exact h
    · exact h
    · exact hchild rfl h

end Update

end BitTrie
