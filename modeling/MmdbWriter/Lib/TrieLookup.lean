import MmdbWriter.Lib.TrieShape

/-!
# Lookups in a trie

A lookup walks a bit string to a leaf and asks the leaf with the bits left over; where the string ends
inside the trie it finds nothing. Collapsing does not change what is found at strings that reach every
settled leaf, if the leaves it merges answer the same whatever bits are left (`lookup_norm`).
-/

namespace BitTrie

variable {α β : Type}

/-- What the leaf met on the way answers to the bits left over. -/
def lookup (f : α → List Bool → Option β) : BitTrie α → List Bool → Option β
  | leaf a, p => f a p
  | node _ _ _, [] => none
  | node _ l r, b :: p => bif b then r.lookup f p else l.lookup f p

section LeafAt

theorem forall_of_leafAt {P : α → Prop} : ∀ {t : BitTrie α}, (∀ p a, t.leafAt p = some a → P a) →
    t.Forall P
  | leaf a, h => h [] a rfl
  | node _ _ _, h =>
    ⟨forall_of_leafAt fun p a hp => h (false :: p) a hp,
      forall_of_leafAt fun p a hp => h (true :: p) a hp⟩

/-- A label that no two sibling leaves have is collapsed nowhere. -/
theorem reducedOn_of_leafAt {a : α} : ∀ {t : BitTrie α},
    (∀ p, ¬ (t.leafAt (p ++ [false]) = some a ∧ t.leafAt (p ++ [true]) = some a)) →
    t.ReducedOn (· = a)
  | leaf _, _ => trivial
  | node _ _ _, h => by
    refine ⟨reducedOn_of_leafAt fun p => h (false :: p), reducedOn_of_leafAt fun p => h (true :: p),
      ?_⟩
    rintro - _ rfl rfl rfl
    exact h [] ⟨rfl, rfl⟩

theorem leafAt_subtrie : ∀ {t : BitTrie α} {p : List Bool}, t.coverAt p = none →
    ∀ q, (t.subtrie p).leafAt q = t.leafAt (p ++ q)
  | leaf _, _, h, _ => by simp [coverAt] at h
  | node _ _ _, [], _, _ => rfl
  | node _ l r, true :: p, h, q => leafAt_subtrie (t := r) h q
  | node _ l r, false :: p, h, q => leafAt_subtrie (t := l) h q

theorem PinnedAt.coverAt : ∀ {t : BitTrie α} {p : List Bool}, t.PinnedAt p → t.coverAt p = none
  | leaf _, _, h => by simp [PinnedAt] at h
  | node _ _ _, [], _ => rfl
  | node _ l r, true :: p, h => PinnedAt.coverAt (t := r) h
  | node _ l r, false :: p, h => PinnedAt.coverAt (t := l) h

theorem leafAt_pinAt : ∀ (p : List Bool) (t : BitTrie α) (q : List Bool),
    (t.pinAt p).leafAt q = t.leafAt q
  | p, leaf a, q => by cases p <;> simp [pinAt]
  | [], node _ _ _, q => by cases q <;> simp [pinAt, leafAt]
  | b :: p, node _ l r, [] => by cases b <;> simp [pinAt, leafAt]
  | b :: p, node _ l r, c :: q => by
    cases b <;> cases c <;> simp [pinAt, leafAt, leafAt_pinAt p l q, leafAt_pinAt p r q]

/-- A split leaf has its pieces deeper, and no leaf below the level of the splits is one. -/
theorem Splits.leafAt {n : ℕ} {t u : BitTrie α} (h : Splits n t u) {q : List Bool} {a : α}
    (hq : u.leafAt q = some a) :
    t.leafAt q = some a ∨ ∃ p, p <+: q ∧ p.length < n ∧ t.leafAt p = some a := by
  induction h generalizing q with
  | refl => exact Or.inl hq
  | @leaf n b l r hl hr ihl ihr =>
    refine Or.inr ⟨[], List.nil_prefix, Nat.succ_pos n, ?_⟩
    have hb := (Splits.leaf hl hr).eval q
    rw [eval_leaf] at hb
    have ha := coverAt_eq_some (coverAt_of_leafAt hq) []
    rw [List.append_nil, hb] at ha
    rw [BitTrie.leafAt, ha]
  | node _ _ ihl ihr =>
    rcases q with _ | ⟨_ | _, q⟩
    · simp [BitTrie.leafAt] at hq
    · rcases ihl hq with h | ⟨p, hp, hlen, h⟩
      · exact Or.inl h
      · exact Or.inr ⟨false :: p, by simpa using hp, by simpa using hlen, h⟩
    · rcases ihr hq with h | ⟨p, hp, hlen, h⟩
      · exact Or.inl h
      · exact Or.inr ⟨true :: p, by simpa using hp, by simpa using hlen, h⟩

variable [DecidableEq α]

theorem leafAt_markAt {free mark : α} (hne : mark ≠ free) : ∀ (p : List Bool) {t : BitTrie α}
    {q : List Bool}, (t.markAt free mark p).leafAt q = some mark → q = p ∨ t.leafAt q = some mark
  | [], leaf a, q, h => by
    simp only [markAt] at h
    split_ifs at h
    · rcases q with _ | ⟨b, q⟩
      · exact Or.inl rfl
      · simp [leafAt] at h
    · exact Or.inr h
  | [], node _ _ _, q, h => Or.inr h
  | b :: p, leaf a, q, h => by
    have ih := fun {q : List Bool} => leafAt_markAt hne p (t := leaf free) (q := q)
    have hfree : ∀ q : List Bool, (leaf free).leafAt q ≠ some mark := by
      rintro (_ | _) hq
      · rw [leafAt, Option.some.injEq] at hq
        exact hne hq.symm
      · simp [leafAt] at hq
    simp only [markAt] at h
    split_ifs at h
    · rcases q with _ | ⟨c, q⟩
      · cases b <;> simp [leafAt] at h
      · cases b <;> cases c <;> simp only [cond_true, cond_false, leafAt] at h <;>
          first
          | exact absurd h (hfree q)
          | exact Or.inl (by rw [(ih h).resolve_right (hfree q)])
    · exact Or.inr h
  | b :: p, node _ l r, [], h => by cases b <;> simp [markAt, leafAt] at h
  | b :: p, node _ l r, c :: q, h => by
    have ihl := leafAt_markAt hne p (t := l) (q := q)
    have ihr := leafAt_markAt hne p (t := r) (q := q)
    cases b <;> cases c <;> simp only [markAt, leafAt, cond_true, cond_false] at h ⊢
    · simpa using ihl h
    · exact Or.inr h
    · exact Or.inr h
    · simpa using ihr h

theorem leafAt_markAll {free mark : α} (hne : mark ≠ free) {paths : List (List Bool)}
    {t : BitTrie α} {q : List Bool} (h : (t.markAll free mark paths).leafAt q = some mark) :
    q ∈ paths ∨ t.leafAt q = some mark := by
  induction paths generalizing t with
  | nil => exact Or.inr h
  | cons p paths ih =>
    rcases ih h with h | h
    · exact Or.inl (List.mem_cons_of_mem _ h)
    · rcases leafAt_markAt hne p h with rfl | h
      · exact Or.inl List.mem_cons_self
      · exact Or.inr h

end LeafAt

section Norm

variable [DecidableEq α]

theorem norm_of_reducedOn : ∀ {t : BitTrie α}, t.ReducedOn (fun _ => True) → t.norm = t
  | leaf _, _ => rfl
  | node pin l r, h => by
    rw [norm, norm_of_reducedOn h.1, norm_of_reducedOn h.2.1]
    rcases join_cases pin l r with ⟨hj, -⟩ | ⟨a, hpin, hl, hr, -⟩
    · exact hj
    · exact absurd hr (h.2.2 hpin a trivial hl)

/-- Only a leaf collapses to a label on which the trie is reduced. -/
theorem eq_leaf_of_norm {P : α → Prop} {a : α} (ha : P a) : ∀ {t : BitTrie α}, t.ReducedOn P →
    t.norm = leaf a → t = leaf a
  | leaf _, _, h => h
  | node pin l r, hr, h => by
    rw [norm] at h
    rcases join_cases pin l.norm r.norm with ⟨hj, -⟩ | ⟨b, hpin, hl, hr', hj⟩ <;> rw [hj] at h
    · cases h
    · rw [leaf.injEq] at h
      rw [h] at hl hr'
      exact absurd (eq_leaf_of_norm ha hr.2.1 hr') (hr.2.2 hpin a ha (eq_leaf_of_norm ha hr.1 hl))

theorem subtrie_norm : ∀ {t : BitTrie α} {p : List Bool}, t.PinnedAt p →
    t.norm.subtrie p = (t.subtrie p).norm
  | leaf _, _, h => by simp [PinnedAt] at h
  | node pin l r, [], _ => by simp [subtrie]
  | node pin l r, true :: p, h => by
    have hp : r.norm.PinnedAt p := PinnedAt.norm (t := r) h
    rw [norm, join_eq_node (Or.inr (Or.inr hp.ne_leaf))]
    exact subtrie_norm (t := r) h
  | node pin l r, false :: p, h => by
    have hp : l.norm.PinnedAt p := PinnedAt.norm (t := l) h
    rw [norm, join_eq_node (Or.inr (Or.inl hp.ne_leaf))]
    exact subtrie_norm (t := l) h

theorem subtrie_normKids {t : BitTrie α} {b : Bool} {p : List Bool} (h : t.PinnedAt (b :: p)) :
    t.normKids.subtrie (b :: p) = (t.subtrie (b :: p)).norm := by
  rcases t with _ | ⟨pin, l, r⟩
  · simp [PinnedAt] at h
  · cases b
    · exact subtrie_norm (t := l) h
    · exact subtrie_norm (t := r) h

theorem height_normKids_le : ∀ t : BitTrie α, t.normKids.height ≤ t.height
  | leaf _ => le_rfl
  | node _ l r => by
    have hl := height_norm_le l
    have hr := height_norm_le r
    simp only [normKids, height]
    omega

theorem Forall.norm {P : α → Prop} {t : BitTrie α} (h : t.Forall P) : t.norm.Forall P :=
  forall_of_eval fun p => by
    rw [eval_norm]
    exact h.eval p

end Norm

section Lookup

variable {f g : α → List Bool → Option β}

@[simp] theorem lookup_node_cons (pin b : Bool) (l r : BitTrie α) (p : List Bool) :
    (node pin l r).lookup f (b :: p) = bif b then r.lookup f p else l.lookup f p := rfl

theorem lookup_pin (pin pin' : Bool) (l r : BitTrie α) (p : List Bool) :
    (node pin l r).lookup f p = (node pin' l r).lookup f p := by cases p <;> rfl

theorem lookup_congr : ∀ {t : BitTrie α} {p : List Bool},
    (∀ q a, q <+: p → t.leafAt q = some a → f a (p.drop q.length) = g a (p.drop q.length)) →
    t.lookup f p = t.lookup g p
  | leaf a, p, h => h [] a List.nil_prefix rfl
  | node _ _ _, [], _ => rfl
  | node _ l r, true :: p, h => lookup_congr (t := r) fun q a hq hl =>
      h (true :: q) a (by simpa using hq) hl
  | node _ l r, false :: p, h => lookup_congr (t := l) fun q a hq hl =>
      h (false :: q) a (by simpa using hq) hl

/-- A leaf that answers every rest of the bits alike answers those it covers. -/
theorem lookup_of_coverAt {a : α} {c : Option β} (hc : ∀ q, f a q = c) : ∀ {t : BitTrie α}
    {p : List Bool}, t.coverAt p = some a → t.lookup f p = c
  | leaf b, p, h => by
    simp only [coverAt, Option.some.injEq] at h
    rw [h]
    exact hc p
  | node _ l r, [], h => by simp [coverAt] at h
  | node _ l r, b :: p, h => by
    cases b
    · exact lookup_of_coverAt hc (t := l) h
    · exact lookup_of_coverAt hc (t := r) h

/-- A lookup among leaves that answer the same whatever bits are left. -/
theorem lookup_eq_bind {h : α → Option β} : ∀ {t : BitTrie α} {p : List Bool},
    t.Forall (fun a => ∀ p, f a p = h a) → t.lookup f p = (t.coverAt p).bind h
  | leaf _, p, hf => hf p
  | node _ _ _, [], _ => rfl
  | node _ _ r, true :: p, hf => lookup_eq_bind (t := r) (p := p) hf.2
  | node _ l _, false :: p, hf => lookup_eq_bind (t := l) (p := p) hf.1

variable [DecidableEq α]

theorem lookup_norm {P : α → Prop} (hf : ∀ a, ¬ P a → ∀ p q, f a p = f a q) : ∀ {n : ℕ}
    {t : BitTrie α} {p : List Bool}, Settled n t → t.ReducedOn P → n ≤ p.length →
    t.norm.lookup f p = t.lookup f p
  | _, leaf _, _, _, _, _ => rfl
  | 0, node pin l r, p, hs, _, _ => by
    obtain ⟨a, b, rfl, rfl, hab⟩ := hs
    have hne : pin = false → ∀ c, leaf a = leaf c → leaf b ≠ leaf c := by
      rintro hp c hac hbc
      rw [leaf.injEq] at hac hbc
      exact hab hp (by rw [hac, hbc])
    rcases join_cases pin (leaf a) (leaf b) with ⟨hj, -⟩ | ⟨c, hp, hl, hr, -⟩
    · rw [norm, norm, norm, hj]
    · exact absurd hr (hne hp c hl)
  | n + 1, node _ _ _, [], _, _, hp => by simp at hp
  | n + 1, node pin l r, b :: p, hs, hr, hp => by
    have hp' : n ≤ p.length := by simpa using hp
    have ihl := lookup_norm hf hs.1 hr.1 hp'
    have ihr := lookup_norm hf hs.2 hr.2.1 hp'
    rw [norm]
    rcases join_cases pin l.norm r.norm with ⟨hj, -⟩ | ⟨a, hpin, hl, hr', hj⟩
    · rw [hj]
      cases b
      · exact ihl
      · exact ihr
    · have ha : ¬ P a := fun ha =>
        hr.2.2 hpin a ha (eq_leaf_of_norm ha hr.1 hl) (eq_leaf_of_norm ha hr.2.1 hr')
      rw [hl] at ihl
      rw [hr'] at ihr
      rw [hj]
      cases b
      · exact (hf a ha _ p).trans ihl
      · exact (hf a ha _ p).trans ihr

theorem lookup_normKids {P : α → Prop} (hf : ∀ a, ¬ P a → ∀ p q, f a p = f a q) {n : ℕ}
    {t : BitTrie α} {p : List Bool} (hs : Settled (n + 1) t) (hr : t.ReducedOn P)
    (hp : n + 1 ≤ p.length) : t.normKids.lookup f p = t.lookup f p := by
  rcases t with a | ⟨pin, l, r⟩
  · rfl
  · rcases p with _ | ⟨_ | _, p⟩
    · rfl
    · exact lookup_norm hf hs.1 hr.1 (by simpa using hp)
    · exact lookup_norm hf hs.2 hr.2.1 (by simpa using hp)

end Lookup

end BitTrie
