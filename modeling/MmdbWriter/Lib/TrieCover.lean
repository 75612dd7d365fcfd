import MmdbWriter.Lib.TrieLookup

/-!
# What covers a path

A path is covered where one leaf holds all below it. Marks and updates elsewhere leave a path covered,
an update above it too, and a lookup goes through a node as through the trie below it.
-/

namespace BitTrie

variable {α β : Type}

section Below

theorem coverAt_append : ∀ {t : BitTrie α} {p : List Bool} {a : α}, t.coverAt p = some a →
    ∀ q, t.coverAt (p ++ q) = some a
  | leaf _, _, _, h, _ => h
  | node _ _ _, [], _, h, _ => by simp [coverAt] at h
  | node _ l r, b :: p, a, h, q => by
    cases b
    · exact coverAt_append (t := l) h q
    · exact coverAt_append (t := r) h q

theorem isSome_coverAt_node (pin : Bool) {l r : BitTrie α} {b : Bool} {q : List Bool} :
    ((node pin l r).coverAt (b :: q)).isSome = bif b then (r.coverAt q).isSome
      else (l.coverAt q).isSome := by cases b <;> rfl

variable {f : α → List Bool → Option β}

theorem lookup_subtrie : ∀ {t : BitTrie α} {p : List Bool}, t.coverAt p = none → ∀ q,
    t.lookup f (p ++ q) = (t.subtrie p).lookup f q
  | leaf _, _, h, _ => by simp [coverAt] at h
  | node _ _ _, [], _, _ => by simp [subtrie]
  | node _ l r, b :: p, h, q => by
    cases b
    · exact lookup_subtrie (t := l) h q
    · exact lookup_subtrie (t := r) h q

theorem lookup_eq_none : ∀ {t : BitTrie α} {p : List Bool}, t.coverAt p = none →
    t.lookup f p = none
  | leaf _, _, h => by simp [coverAt] at h
  | node _ _ _, [], _ => rfl
  | node _ l r, b :: p, h => by
    cases b
    · exact lookup_eq_none (t := l) h
    · exact lookup_eq_none (t := r) h

theorem lookup_of_leafAt : ∀ {t : BitTrie α} {p : List Bool} {a : α}, t.leafAt p = some a → ∀ q,
    t.lookup f (p ++ q) = f a q
  | leaf _, [], _, h, q => by
    simp only [leafAt, Option.some.injEq] at h
    rw [← h]
    rfl
  | leaf _, _ :: _, _, h, _ => by simp [leafAt] at h
  | node _ _ _, [], _, h, _ => by simp [leafAt] at h
  | node _ l r, b :: p, a, h, q => by
    cases b
    · exact lookup_of_leafAt (t := l) h q
    · exact lookup_of_leafAt (t := r) h q

end Below

section Mark

variable [DecidableEq α] {free mark : α}

theorem markAt_of_covered {a : α} (ha : a ≠ free) : ∀ {t : BitTrie α} {p : List Bool},
    t.coverAt p = some a → t.markAt free mark p = t
  | leaf b, p, h => by
    simp only [coverAt, Option.some.injEq] at h
    cases p <;> simp [markAt, h, ha]
  | node _ _ _, [], h => by simp [coverAt] at h
  | node _ l r, b :: p, h => by
    cases b
    · simp [markAt, markAt_of_covered ha (t := l) h]
    · simp [markAt, markAt_of_covered ha (t := r) h]

theorem leafAt_markAt_self : ∀ {t : BitTrie α} {p : List Bool}, t.coverAt p = some free →
    (t.markAt free mark p).leafAt p = some mark
  | leaf a, [], h => by
    simp only [coverAt, Option.some.injEq] at h
    simp [markAt, leafAt, h]
  | leaf a, b :: p, h => by
    simp only [coverAt, Option.some.injEq] at h
    have ih : ((leaf free).markAt free mark p).leafAt p = some mark :=
      leafAt_markAt_self (t := leaf free) rfl
    cases b <;> simp [markAt, leafAt, h, ih]
  | node _ _ _, [], h => by simp [coverAt] at h
  | node _ l r, b :: p, h => by
    cases b
    · simpa [markAt, leafAt] using leafAt_markAt_self (t := l) h
    · simpa [markAt, leafAt] using leafAt_markAt_self (t := r) h

/-- A leaf stays where it is when a mark goes to another path. -/
theorem leafAt_markAt_of_incomparable {a : α} : ∀ {p q : List Bool} {t : BitTrie α}, ¬ p <+: q →
    ¬ q <+: p → t.leafAt q = some a → (t.markAt free mark p).leafAt q = some a
  | [], _, _, h, _, _ => by simp at h
  | _ :: _, [], _, _, h, _ => by simp at h
  | _ :: _, _ :: _, leaf _, _, _, h => by simp [leafAt] at h
  | b :: p, c :: q, node _ l r, hpq, hqp, h => by
    rw [List.cons_prefix_cons, not_and] at hpq hqp
    have ih : b = c → ∀ u : BitTrie α, u.leafAt q = some a →
        (u.markAt free mark p).leafAt q = some a := fun hbc _ hu =>
      leafAt_markAt_of_incomparable (hpq hbc) (hqp hbc.symm) hu
    cases b <;> cases c <;> simp_all [markAt, leafAt]

variable {paths : List (List Bool)}

theorem coverAt_markAll {q : List Bool} (h : ∀ p ∈ paths, ¬ p <+: q ∧ ¬ q <+: p) {t : BitTrie α} :
    (t.markAll free mark paths).coverAt q = t.coverAt q :=
  markAll_induct (P := fun u => u.coverAt q = t.coverAt q)
    (fun p hp u hu => (coverAt_markAt u (h p hp).1 (h p hp).2).trans hu) rfl

/-- Of marks at incomparable paths, each stands where its path was free. -/
theorem leafAt_markAll_self : ∀ {paths : List (List Bool)} {t : BitTrie α} {p : List Bool},
    paths.Pairwise (fun p p' => ¬ p <+: p' ∧ ¬ p' <+: p) → p ∈ paths → t.coverAt p = some free →
    (t.markAll free mark paths).leafAt p = some mark
  | [], _, _, _, h, _ => by simp at h
  | p' :: paths, t, p, hpw, hp, hcov => by
    obtain ⟨hfirst, hpw⟩ := List.pairwise_cons.mp hpw
    rcases List.mem_cons.mp hp with rfl | hp
    · exact markAll_induct (P := fun u => u.leafAt p = some mark) (fun p' hp' u hu =>
        leafAt_markAt_of_incomparable (hfirst p' hp').2 (hfirst p' hp').1 hu)
        (leafAt_markAt_self hcov)
    · refine leafAt_markAll_self (t := t.markAt free mark p') hpw hp ?_
      rw [coverAt_markAt t (hfirst p hp).1 (hfirst p hp).2]
      exact hcov

/-- A leaf that is not free keeps what it covers. -/
theorem coverAt_markAll_of_ne {a : α} (ha : a ≠ free) {p : List Bool}
    (hpw : ∀ p' ∈ paths, p' = p ∨ ¬ p' <+: p ∧ ¬ p <+: p') {t : BitTrie α}
    (hcov : t.coverAt p = some a) : (t.markAll free mark paths).coverAt p = some a := by
  refine markAll_induct (P := fun u => u.coverAt p = some a) (fun p' hp' u hu => ?_) hcov
  rcases hpw p' hp' with rfl | h
  · rw [markAt_of_covered ha hu]
    exact hu
  · rw [coverAt_markAt u h.1 h.2]
    exact hu

end Mark

section Update

variable {ε σ : Type} [DecidableEq α] {f : α → Exec ε σ α}

theorem isSome_coverAt_join {pin : Bool} {l r : BitTrie α} {q : List Bool}
    (h : ((node pin l r).coverAt q).isSome) : ((join pin l r).coverAt q).isSome := by
  rcases join_cases pin l r with ⟨hj, -⟩ | ⟨a, -, -, -, hj⟩ <;> rw [hj]
  · exact h
  · rfl

theorem isSome_coverAt_paintM : ∀ {t t' : BitTrie α} {q : List Bool} {s s' : σ},
    (t.coverAt q).isSome → t.paintM f s = (.ok t', s') → (t'.coverAt q).isSome
  | leaf a, t', q, s, s', _, h => by
    obtain ⟨b, rfl⟩ := paintM_leaf h
    rfl
  | node _ _ _, _, [], _, _, hq, _ => by simp [coverAt] at hq
  | node pin l r, t', b :: q, s, s', hq, h => by
    obtain ⟨l', s₁, h1, h2⟩ := Exec.bind_eq_ok h
    obtain ⟨r', s₂, h3, h4⟩ := Exec.bind_eq_ok h2
    simp only [Exec.pure_apply, Prod.mk.injEq, Except.ok.injEq] at h4
    obtain ⟨rfl, -⟩ := h4
    refine isSome_coverAt_join ?_
    rw [isSome_coverAt_node] at hq ⊢
    cases b
    · exact isSome_coverAt_paintM (t := l) hq h1
    · exact isSome_coverAt_paintM (t := r) hq h3

/-- An update whose path does not lead to `q` or below it leaves `q` covered. -/
theorem isSome_coverAt_updateM (pin : Bool) : ∀ {p q : List Bool} {l r : BitTrie α}
    {lr : BitTrie α × BitTrie α} {s s' : σ}, ¬ q <+: p → ((node pin l r).coverAt q).isSome →
    updateM f p l r s = (.ok lr, s') → ((node pin lr.1 lr.2).coverAt q).isSome
  | p, [], _, _, _, _, _, h, _, _ => by simp at h
  | [], b :: q, l, r, lr, s, s', _, hq, h => by
    obtain ⟨l', s₁, h1, h2⟩ := Exec.bind_eq_ok h
    obtain ⟨r', s₂, h3, h4⟩ := Exec.bind_eq_ok h2
    simp only [Exec.pure_apply, Prod.mk.injEq, Except.ok.injEq] at h4
    obtain ⟨rfl, -⟩ := h4
    rw [isSome_coverAt_node] at hq ⊢
    cases b
    · exact isSome_coverAt_paintM (t := l) hq h1
    · exact isSome_coverAt_paintM (t := r) hq h3
  | c :: p, b :: q, l, r, lr, s, s', hno, hq, h => by
    have hchild : ∀ {t : BitTrie α} {lr' : BitTrie α × BitTrie α} {s₁ : σ}, b = c →
        (t.coverAt q).isSome → updateM f p t.kids.2.1 t.kids.2.2 s = (.ok lr', s₁) →
        ((join t.kids.1 lr'.1 lr'.2).coverAt q).isSome := by
      intro t lr' s₁ hbc ht h1
      have hno' : ¬ q <+: p := fun hqp => hno (by rw [hbc]; exact List.cons_prefix_cons.mpr ⟨rfl, hqp⟩)
      refine isSome_coverAt_join (isSome_coverAt_updateM _ hno' ?_ h1)
      rcases t with a | ⟨pin', l', r'⟩
      · cases q with
        | nil => simp at hno'
        | cons b' q => cases b' <;> rfl
      · exact ht
    rw [isSome_coverAt_node] at hq ⊢
    cases c with
    | true =>
      obtain ⟨lr', s₁, h1, h2⟩ := Exec.bind_eq_ok h
      simp only [Exec.pure_apply, Prod.mk.injEq, Except.ok.injEq] at h2
      obtain ⟨rfl, -⟩ := h2
      cases b
      · exact hq
      · exact hchild rfl hq h1
    | false =>
      obtain ⟨lr', s₁, h1, h2⟩ := Exec.bind_eq_ok h
      simp only [Exec.pure_apply, Prod.mk.injEq, Except.ok.injEq] at h2
      obtain ⟨rfl, -⟩ := h2
      cases b
      · exact hchild rfl hq h1
      · exact hq

end Update

end BitTrie
