import MmdbWriter.Lib.TrieUpdate

/-!
# The calls an update makes

An update of a trie calls its operation once for each leaf below the path, from left to right, each
call on the state the last one left; where one leaf covers the path it is split there and called for
twice. The label a call answers stands at every string that leads to its leaf.
-/

namespace BitTrie

variable {α β ε σ : Type}

/-- The answers of `f` to the labels, one call after the other. -/
def callAll (f : α → Exec ε σ β) : List α → Exec ε σ (List β)
  | [] => pure []
  | a :: as => do
    let b ← f a
    let bs ← callAll f as
    return b :: bs

/-- The two tries an update along the path applies its operation to. -/
def subtries : List Bool → BitTrie α → BitTrie α → BitTrie α × BitTrie α
  | [], l, r => (l, r)
  | true :: p, _, r => subtries p r.kids.2.1 r.kids.2.2
  | false :: p, l, _ => subtries p l.kids.2.1 l.kids.2.2

section Calls

variable {f : α → Exec ε σ α}

theorem callAll_append {as bs cs ds : List α} {s s₁ s₂ : σ}
    (h : callAll f as s = (.ok cs, s₁)) (h' : callAll f bs s₁ = (.ok ds, s₂)) :
    callAll f (as ++ bs) s = (.ok (cs ++ ds), s₂) := by
  induction as generalizing s cs with
  | nil =>
    simp only [callAll, Exec.pure_apply, Prod.mk.injEq, Except.ok.injEq] at h
    obtain ⟨rfl, rfl⟩ := h
    exact h'
  | cons a as ih =>
    obtain ⟨c, t, h1, h2⟩ := Exec.bind_eq_ok h
    obtain ⟨cs', t', h3, h4⟩ := Exec.bind_eq_ok h2
    simp only [Exec.pure_apply, Prod.mk.injEq, Except.ok.injEq] at h4
    obtain ⟨rfl, rfl⟩ := h4
    rw [List.cons_append, callAll, Exec.bind_ok h1, Exec.bind_ok (ih h3)]
    rfl

/-- The leaves of the calls and the answers there. -/
def Answers (u : BitTrie α) (p : List Bool) (t : BitTrie α) (as : List α) : Prop :=
  List.Forall₂ (fun e a => ∀ q, u.eval (p ++ (e.1 ++ q)) = a) t.leaves as

theorem Answers.exists_getElem? {u t : BitTrie α} {p : List Bool} {as : List α}
    (h : Answers u p t as) {i : ℕ} {e : List Bool × α} (hi : t.leaves[i]? = some e) :
    ∃ a, as[i]? = some a ∧ ∀ q, u.eval (p ++ (e.1 ++ q)) = a := by
  unfold Answers at h
  generalize t.leaves = es at h hi
  induction h generalizing i with
  | nil => simp at hi
  | @cons e' a es as he _ ih =>
    rcases i with _ | i
    · rw [List.getElem?_cons_zero, Option.some.injEq] at hi
      exact ⟨a, rfl, hi ▸ he⟩
    · exact ih hi

theorem Answers.node {u u' l r : BitTrie α} {p : List Bool} {as bs : List α}
    (hl : Answers u p l as) (hr : Answers u' p r bs) {v : BitTrie α} {p' : List Bool}
    (hvl : ∀ q, v.eval (p' ++ false :: q) = u.eval (p ++ q))
    (hvr : ∀ q, v.eval (p' ++ true :: q) = u'.eval (p ++ q)) (pin : Bool) :
    Answers v p' (node pin l r) (as ++ bs) := by
  unfold Answers leaves
  refine List.rel_append ?_ ?_
  · rw [List.forall₂_map_left_iff]
    exact hl.imp fun e a h q => (hvl _).trans (h q)
  · rw [List.forall₂_map_left_iff]
    exact hr.imp fun e a h q => (hvr _).trans (h q)

variable [DecidableEq α]

theorem paintM_calls : ∀ {t t' : BitTrie α} {s s' : σ}, t.paintM f s = (.ok t', s') →
    ∃ as, callAll f (t.leaves.map Prod.snd) s = (.ok as, s') ∧ Answers t' [] t as
  | leaf a, t', s, s', h => by
    obtain ⟨a', s₁, h1, h2⟩ := Exec.bind_eq_ok h
    simp only [Exec.pure_apply, Prod.mk.injEq, Except.ok.injEq] at h2
    obtain ⟨rfl, rfl⟩ := h2
    refine ⟨[a'], ?_, .cons (fun q => by simp) .nil⟩
    simp only [leaves, List.map, callAll, Exec.bind_ok h1]
    rfl
  | BitTrie.node pin l r, t', s, s', h => by
    obtain ⟨l', s₁, h1, h2⟩ := Exec.bind_eq_ok h
    obtain ⟨r', s₂, h3, h4⟩ := Exec.bind_eq_ok h2
    simp only [Exec.pure_apply, Prod.mk.injEq, Except.ok.injEq] at h4
    obtain ⟨rfl, rfl⟩ := h4
    obtain ⟨as, hcl, hl⟩ := paintM_calls h1
    obtain ⟨bs, hcr, hr⟩ := paintM_calls h3
    refine ⟨as ++ bs, ?_, hl.node hr (fun q => ?_) (fun q => ?_) pin⟩
    · simp only [leaves, List.map_append, List.map_map]
      exact callAll_append hcl hcr
    · rw [List.nil_append, eval_join]
      simp
    · rw [List.nil_append, eval_join]
      simp

/-- The calls of an update and what it leaves: the answers below the path, the old labels
elsewhere. -/
theorem updateM_calls (pin : Bool) : ∀ {p : List Bool} {l r : BitTrie α}
    {lr : BitTrie α × BitTrie α} {s s' : σ}, updateM f p l r s = (.ok lr, s') →
    ∃ as, callAll f ((node false (subtries p l r).1 (subtries p l r).2).leaves.map Prod.snd) s =
        (.ok as, s') ∧
      Answers (node pin lr.1 lr.2) p (node false (subtries p l r).1 (subtries p l r).2) as ∧
      ∀ q, p.length ≤ q.length → ¬ p <+: q →
        (node pin lr.1 lr.2).eval q = (node pin l r).eval q
  | [], l, r, lr, s, s', h => by
    obtain ⟨l', s₁, h1, h2⟩ := Exec.bind_eq_ok h
    obtain ⟨r', s₂, h3, h4⟩ := Exec.bind_eq_ok h2
    simp only [Exec.pure_apply, Prod.mk.injEq, Except.ok.injEq] at h4
    obtain ⟨rfl, rfl⟩ := h4
    obtain ⟨as, hcl, hl⟩ := paintM_calls h1
    obtain ⟨bs, hcr, hr⟩ := paintM_calls h3
    refine ⟨as ++ bs, ?_, hl.node hr (fun q => by simp) (fun q => by simp) false,
      fun q _ hq => absurd List.nil_prefix hq⟩
    simp only [leaves, List.map_append, List.map_map]
    exact callAll_append hcl hcr
  | true :: p, l, r, lr, s, s', h => by
    obtain ⟨lr', s₁, h1, h2⟩ := Exec.bind_eq_ok h
    simp only [Exec.pure_apply, Prod.mk.injEq, Except.ok.injEq] at h2
    obtain ⟨rfl, rfl⟩ := h2
    obtain ⟨as, hc, ha, hrest⟩ := updateM_calls r.kids.1 h1
    refine ⟨as, hc, ha.imp fun e a h q => ?_, fun q hlen hq => ?_⟩
    · simpa [eval_join] using h q
    · rcases q with _ | ⟨_ | _, q⟩
      · simp at hlen
      · simp
      · have := hrest q (by simpa using hlen) fun hp => hq (List.cons_prefix_cons.mpr ⟨rfl, hp⟩)
        rw [eval_kids] at this
        simpa [eval_join] using this
  | false :: p, l, r, lr, s, s', h => by
    obtain ⟨lr', s₁, h1, h2⟩ := Exec.bind_eq_ok h
    simp only [Exec.pure_apply, Prod.mk.injEq, Except.ok.injEq] at h2
    obtain ⟨rfl, rfl⟩ := h2
    obtain ⟨as, hc, ha, hrest⟩ := updateM_calls l.kids.1 h1
    refine ⟨as, hc, ha.imp fun e a h q => ?_, fun q hlen hq => ?_⟩
    · simpa [eval_join] using h q
    · rcases q with _ | ⟨_ | _, q⟩
      · simp at hlen
      · have := hrest q (by simpa using hlen) fun hp => hq (List.cons_prefix_cons.mpr ⟨rfl, hp⟩)
        rw [eval_kids] at this
        simpa [eval_join] using this
      · simp

end Calls

section Subtries

theorem subtries_of_coverAt (pin : Bool) {a : α} : ∀ {p : List Bool} {l r : BitTrie α},
    (node pin l r).coverAt p = some a → subtries p l r = (leaf a, leaf a)
  | [], l, r, h => by simp [coverAt] at h
  | b :: p, l, r, h => by
    have hkids : ∀ t : BitTrie α, t.coverAt p = some a →
        subtries p t.kids.2.1 t.kids.2.2 = (leaf a, leaf a) := by
      rintro (c | ⟨pin', l', r'⟩) ht
      · have hc : c = a := by simpa [coverAt] using ht
        subst hc
        rcases p with _ | ⟨d, p⟩
        · rfl
        · exact subtries_of_coverAt false (by cases d <;> simp [coverAt, kids])
      · exact subtries_of_coverAt pin' ht
    cases b
    · exact hkids l h
    · exact hkids r h

theorem leafAt_subtries (pin : Bool) : ∀ {p : List Bool} {l r : BitTrie α},
    (node pin l r).coverAt p = none → ∀ e,
    (node false (subtries p l r).1 (subtries p l r).2).leafAt e = (node pin l r).leafAt (p ++ e)
  | [], l, r, _, e => by cases e <;> rfl
  | b :: p, l, r, h, e => by
    have hkids : ∀ t : BitTrie α, t.coverAt p = none →
        (node false (subtries p t.kids.2.1 t.kids.2.2).1 (subtries p t.kids.2.1 t.kids.2.2).2).leafAt e =
          t.leafAt (p ++ e) := by
      rintro (c | ⟨pin', l', r'⟩) ht
      · simp [coverAt] at ht
      · exact leafAt_subtries pin' ht e
    cases b
    · exact hkids l h
    · exact hkids r h

theorem coverAt_of_prefix_leafAt : ∀ {t : BitTrie α} {s p : List Bool} {a : α},
    t.leafAt s = some a → s <+: p → t.coverAt p = some a
  | leaf _, [], p, _, h, _ => by simpa [coverAt, leafAt] using h
  | leaf _, _ :: _, _, _, h, _ => by simp [leafAt] at h
  | node _ _ _, [], _, _, h, _ => by simp [leafAt] at h
  | node _ l r, b :: s, p, a, h, hsp => by
    obtain ⟨t, rfl⟩ := hsp
    cases b
    · exact coverAt_of_prefix_leafAt (t := l) (s := s) h (List.prefix_append s t)
    · exact coverAt_of_prefix_leafAt (t := r) (s := s) h (List.prefix_append s t)

/-- Past the end of a path at a node there is a leaf. -/
theorem exists_leafAt_of_coverAt_none {t : BitTrie α} {p : List Bool} (h : t.coverAt p = none) :
    ∃ s a, p.length < s.length ∧ t.leafAt s = some a := by
  have hlen : t.height ≤ (p ++ List.replicate t.height false).length := by simp
  obtain ⟨s, hs, hleaf⟩ := exists_leafAt_of_coverAt (coverAt_of_height_le hlen)
  refine ⟨s, _, ?_, hleaf⟩
  by_contra hle
  have hsp : s <+: p := List.prefix_of_prefix_length_le hs (List.prefix_append _ _) (by omega)
  rw [coverAt_of_prefix_leafAt hleaf hsp] at h
  cases h

theorem Rel.leafAt {R : α → β → Prop} : ∀ {t : BitTrie α} {u : BitTrie β}, t.Rel R u → ∀ p,
    Option.Rel R (t.leafAt p) (u.leafAt p)
  | leaf _, leaf _, h, [] => .some h
  | leaf _, leaf _, _, _ :: _ => .none
  | node _ _ _, node _ _ _, _, [] => .none
  | node _ _ _, node _ _ _, h, true :: p => Rel.leafAt (t := _) h.2.2 p
  | node _ _ _, node _ _ _, h, false :: p => Rel.leafAt (t := _) h.2.1 p

end Subtries

section Shape

variable [DecidableEq α] {f : α → Exec ε σ α}

theorem paintM_height : ∀ {t t' : BitTrie α} {s s' : σ}, t.paintM f s = (.ok t', s') →
    t'.height ≤ t.height
  | leaf a, t', s, s', h => by
    obtain ⟨a', s₁, -, h2⟩ := Exec.bind_eq_ok h
    simp only [Exec.pure_apply, Prod.mk.injEq, Except.ok.injEq] at h2
    obtain ⟨rfl, rfl⟩ := h2
    exact le_rfl
  | node pin l r, t', s, s', h => by
    obtain ⟨l', s₁, h1, h2⟩ := Exec.bind_eq_ok h
    obtain ⟨r', s₂, h3, h4⟩ := Exec.bind_eq_ok h2
    simp only [Exec.pure_apply, Prod.mk.injEq, Except.ok.injEq] at h4
    obtain ⟨rfl, rfl⟩ := h4
    have hl := paintM_height h1
    have hr := paintM_height h3
    have := height_join_le pin l' r'
    simp only [height]
    omega

/-- A property of tries that leaves have and joins keep. -/
structure Joined (P : BitTrie α → Prop) : Prop where
  leaf : ∀ a, P (leaf a)
  kids : ∀ {t}, P t → P t.kids.2.1 ∧ P t.kids.2.2
  join : ∀ {t l r}, P t → P l → P r → P (join t.kids.1 l r)

theorem paintM_joined {P : BitTrie α → Prop} (hP : Joined P) :
    ∀ {t t' : BitTrie α} {s s' : σ}, P t → t.paintM f s = (.ok t', s') → P t'
  | BitTrie.leaf a, t', s, s', _, h => by
    obtain ⟨a', s₁, -, h2⟩ := Exec.bind_eq_ok h
    simp only [Exec.pure_apply, Prod.mk.injEq, Except.ok.injEq] at h2
    obtain ⟨rfl, rfl⟩ := h2
    exact hP.leaf a'
  | BitTrie.node pin l r, t', s, s', ht, h => by
    obtain ⟨l', s₁, h1, h2⟩ := Exec.bind_eq_ok h
    obtain ⟨r', s₂, h3, h4⟩ := Exec.bind_eq_ok h2
    simp only [Exec.pure_apply, Prod.mk.injEq, Except.ok.injEq] at h4
    obtain ⟨rfl, rfl⟩ := h4
    have hk := hP.kids ht
    exact hP.join ht (paintM_joined hP hk.1 h1) (paintM_joined hP hk.2 h3)

theorem updateM_joined {P : BitTrie α → Prop} (hP : Joined P) :
    ∀ {p : List Bool} {l r : BitTrie α} {lr : BitTrie α × BitTrie α} {s s' : σ}, P l → P r →
    updateM f p l r s = (.ok lr, s') → P lr.1 ∧ P lr.2
  | [], l, r, lr, s, s', hl, hr, h => by
    obtain ⟨l', s₁, h1, h2⟩ := Exec.bind_eq_ok h
    obtain ⟨r', s₂, h3, h4⟩ := Exec.bind_eq_ok h2
    simp only [Exec.pure_apply, Prod.mk.injEq, Except.ok.injEq] at h4
    obtain ⟨rfl, rfl⟩ := h4
    exact ⟨paintM_joined hP hl h1, paintM_joined hP hr h3⟩
  | true :: p, l, r, lr, s, s', hl, hr, h => by
    obtain ⟨lr', s₁, h1, h2⟩ := Exec.bind_eq_ok h
    simp only [Exec.pure_apply, Prod.mk.injEq, Except.ok.injEq] at h2
    obtain ⟨rfl, rfl⟩ := h2
    have hk := hP.kids hr
    have ih := updateM_joined hP hk.1 hk.2 h1
    exact ⟨hl, hP.join hr ih.1 ih.2⟩
  | false :: p, l, r, lr, s, s', hl, hr, h => by
    obtain ⟨lr', s₁, h1, h2⟩ := Exec.bind_eq_ok h
    simp only [Exec.pure_apply, Prod.mk.injEq, Except.ok.injEq] at h2
    obtain ⟨rfl, rfl⟩ := h2
    have hk := hP.kids hl
    have ih := updateM_joined hP hk.1 hk.2 h1
    exact ⟨hP.join hl ih.1 ih.2, hr⟩

theorem joined_unpinned : Joined (Unpinned : BitTrie α → Prop) where
  leaf _ := trivial
  kids h := (unpinned_kids h).2
  join ht hl hr := by
    rw [(unpinned_kids ht).1]
    exact unpinned_join hl hr

theorem joined_reducedOn (P : α → Prop) : Joined (ReducedOn P) where
  leaf _ := trivial
  kids := reducedOn_kids
  join _ := reducedOn_join

/-- A property of labels that the operation neither takes nor gives is kept along every string. -/
theorem paintM_iff {Q : α → Prop} (hf : ∀ {a b s s'}, f a s = (.ok b, s') → (Q b ↔ Q a)) :
    ∀ {t t' : BitTrie α} {s s' : σ}, t.paintM f s = (.ok t', s') → ∀ q,
    Q (t'.eval q) ↔ Q (t.eval q)
  | leaf a, t', s, s', h, q => by
    obtain ⟨a', s₁, h1, h2⟩ := Exec.bind_eq_ok h
    simp only [Exec.pure_apply, Prod.mk.injEq, Except.ok.injEq] at h2
    obtain ⟨rfl, rfl⟩ := h2
    rw [eval_leaf, eval_leaf]
    exact hf h1
  | node pin l r, t', s, s', h, q => by
    obtain ⟨l', s₁, h1, h2⟩ := Exec.bind_eq_ok h
    obtain ⟨r', s₂, h3, h4⟩ := Exec.bind_eq_ok h2
    simp only [Exec.pure_apply, Prod.mk.injEq, Except.ok.injEq] at h4
    obtain ⟨rfl, rfl⟩ := h4
    have hl := paintM_iff hf h1
    have hr := paintM_iff hf h3
    rw [eval_join]
    rcases q with _ | ⟨_ | _, q⟩ <;> simp [hl, hr]

theorem updateM_iff (pin : Bool) {Q : α → Prop}
    (hf : ∀ {a b s s'}, f a s = (.ok b, s') → (Q b ↔ Q a)) : ∀ {p : List Bool} {l r : BitTrie α}
    {lr : BitTrie α × BitTrie α} {s s' : σ}, updateM f p l r s = (.ok lr, s') → ∀ q,
    Q ((node pin lr.1 lr.2).eval q) ↔ Q ((node pin l r).eval q)
  | [], l, r, lr, s, s', h, q => by
    obtain ⟨l', s₁, h1, h2⟩ := Exec.bind_eq_ok h
    obtain ⟨r', s₂, h3, h4⟩ := Exec.bind_eq_ok h2
    simp only [Exec.pure_apply, Prod.mk.injEq, Except.ok.injEq] at h4
    obtain ⟨rfl, rfl⟩ := h4
    have hl := paintM_iff hf h1
    have hr := paintM_iff hf h3
    rcases q with _ | ⟨_ | _, q⟩ <;> simp [hl, hr]
  | true :: p, l, r, lr, s, s', h, q => by
    obtain ⟨lr', s₁, h1, h2⟩ := Exec.bind_eq_ok h
    simp only [Exec.pure_apply, Prod.mk.injEq, Except.ok.injEq] at h2
    obtain ⟨rfl, rfl⟩ := h2
    have ih := updateM_iff r.kids.1 hf h1
    simp only [eval_kids] at ih
    rcases q with _ | ⟨_ | _, q⟩ <;> simp [eval_join, ih]
  | false :: p, l, r, lr, s, s', h, q => by
    obtain ⟨lr', s₁, h1, h2⟩ := Exec.bind_eq_ok h
    simp only [Exec.pure_apply, Prod.mk.injEq, Except.ok.injEq] at h2
    obtain ⟨rfl, rfl⟩ := h2
    have ih := updateM_iff l.kids.1 hf h1
    simp only [eval_kids] at ih
    rcases q with _ | ⟨_ | _, q⟩
    · simpa [eval_join] using ih []
    · simp [eval_join, ih]
    · simp

/-- An update stops at a fault of the operation. -/
theorem paintM_error {P : ε → Prop} (hf : ∀ {a e s s'}, f a s = (.error e, s') → P e) :
    ∀ {t : BitTrie α} {e : ε} {s s' : σ}, t.paintM f s = (.error e, s') → P e
  | leaf a, e, s, s', h => by
    rcases Exec.bind_eq_error h with h1 | ⟨a', s₁, h1, h2⟩
    · exact hf h1
    · simp at h2
  | node pin l r, e, s, s', h => by
    rcases Exec.bind_eq_error h with h1 | ⟨l', s₁, h1, h2⟩
    · exact paintM_error hf h1
    · rcases Exec.bind_eq_error h2 with h3 | ⟨r', s₂, h3, h4⟩
      · exact paintM_error hf h3
      · simp at h4

theorem updateM_error {P : ε → Prop} (hf : ∀ {a e s s'}, f a s = (.error e, s') → P e) :
    ∀ {p : List Bool} {l r : BitTrie α} {e : ε} {s s' : σ},
    updateM f p l r s = (.error e, s') → P e
  | [], l, r, e, s, s', h => by
    rcases Exec.bind_eq_error h with h1 | ⟨l', s₁, h1, h2⟩
    · exact paintM_error hf h1
    · rcases Exec.bind_eq_error h2 with h3 | ⟨r', s₂, h3, h4⟩
      · exact paintM_error hf h3
      · simp at h4
  | true :: p, l, r, e, s, s', h => by
    rcases Exec.bind_eq_error h with h1 | ⟨lr, s₁, h1, h2⟩
    · exact updateM_error hf h1
    · simp at h2
  | false :: p, l, r, e, s, s', h => by
    rcases Exec.bind_eq_error h with h1 | ⟨lr, s₁, h1, h2⟩
    · exact updateM_error hf h1
    · simp at h2

/-- The operation answers two calls for the label alike. -/
def TwiceAlike (f : α → Exec ε σ α) (s : σ) (a : α) : Prop :=
  ∀ b s₁ c s₂, f a s = (.ok b, s₁) → f a s₁ = (.ok c, s₂) → b = c

/-- An update keeps the height: only a path as long as the trie may be high splits a leaf too deep,
and that leaf comes back as one if the operation answers twice alike. -/
theorem updateM_height (pin : Bool) : ∀ {p : List Bool} {l r : BitTrie α}
    {lr : BitTrie α × BitTrie α} {s s' : σ} {n : ℕ}, l.height ≤ n → r.height ≤ n →
    p.length ≤ n + 1 →
    (p.length = n + 1 → ∀ a, (node pin l r).coverAt p = some a → TwiceAlike f s a) →
    updateM f p l r s = (.ok lr, s') → lr.1.height ≤ n ∧ lr.2.height ≤ n
  | [], l, r, lr, s, s', n, hl, hr, _, _, h => by
    obtain ⟨l', s₁, h1, h2⟩ := Exec.bind_eq_ok h
    obtain ⟨r', s₂, h3, h4⟩ := Exec.bind_eq_ok h2
    simp only [Exec.pure_apply, Prod.mk.injEq, Except.ok.injEq] at h4
    obtain ⟨rfl, rfl⟩ := h4
    exact ⟨(paintM_height h1).trans hl, (paintM_height h3).trans hr⟩
  | b :: p, l, r, lr, s, s', n, hl, hr, hp, hf, h => by
    have hp' : p.length ≤ n := by simpa using hp
    have child : ∀ (t : BitTrie α), t.height ≤ n →
        (p.length = n → ∀ a, t.coverAt p = some a → TwiceAlike f s a) → ∀ {lr' s₁},
        updateM f p t.kids.2.1 t.kids.2.2 s = (.ok lr', s₁) →
        (join t.kids.1 lr'.1 lr'.2).height ≤ n := by
      intro t ht htf lr' s₁ h1
      rcases n with _ | n
      · have hp0 : p = [] := List.length_eq_zero_iff.mp (by omega)
        subst hp0
        rcases t with a | ⟨pin', l', r'⟩
        · obtain ⟨u, s₂, h2, h3⟩ := Exec.bind_eq_ok h1
          obtain ⟨v, s₃, h4, h5⟩ := Exec.bind_eq_ok h3
          obtain ⟨b', s₄, h6, h7⟩ := Exec.bind_eq_ok h2
          obtain ⟨c', s₅, h8, h9⟩ := Exec.bind_eq_ok h4
          simp only [Exec.pure_apply, Prod.mk.injEq, Except.ok.injEq] at h5 h7 h9
          obtain ⟨rfl, rfl⟩ := h5
          obtain ⟨rfl, rfl⟩ := h7
          obtain ⟨rfl, rfl⟩ := h9
          have heq : b' = c' := htf rfl a rfl b' s₄ c' s₅ h6 h8
          rw [heq]
          simp [kids, join_leaf_self, height]
        · simp [height] at ht
      · have hk := height_kids_le ht
        have ih := updateM_height t.kids.1 hk.1 hk.2 hp' (fun hlen a ha => htf hlen a ?_) h1
        · have := height_join_le t.kids.1 lr'.1 lr'.2
          omega
        · rcases t with c | ⟨pin', l', r'⟩
          · rcases p with _ | ⟨d, p⟩
            · simp [coverAt] at ha
            · cases d <;> simpa [kids, coverAt] using ha
          · exact ha
    cases b with
    | true =>
      obtain ⟨lr', s₁, h1, h2⟩ := Exec.bind_eq_ok h
      simp only [Exec.pure_apply, Prod.mk.injEq, Except.ok.injEq] at h2
      obtain ⟨rfl, rfl⟩ := h2
      exact ⟨hl, child r hr (fun hlen a ha => hf (by simpa using hlen) a ha) h1⟩
    | false =>
      obtain ⟨lr', s₁, h1, h2⟩ := Exec.bind_eq_ok h
      simp only [Exec.pure_apply, Prod.mk.injEq, Except.ok.injEq] at h2
      obtain ⟨rfl, rfl⟩ := h2
      exact ⟨child l hl (fun hlen a ha => hf (by simpa using hlen) a ha) h1, hr⟩

end Shape

section Simulation

variable {τ : Type} [DecidableEq α] [DecidableEq β]

/-- The stateful operation `f` does on related labels what `g` does on a part of its state, along
states that only grow. -/
structure SimM (le : σ → σ → Prop) (R : σ → α → β → Prop) (part : σ → τ) (f : α → Exec ε σ α)
    (g : β → Exec ε τ β) : Prop where
  refl : ∀ s, le s s
  trans : ∀ {s s' s''}, le s s' → le s' s'' → le s s''
  mono : ∀ {s s'}, le s s' → ∀ a b, R s a b → R s' a b
  inj : ∀ {s} a b a' b', R s a b → R s a' b' → (a = a' ↔ b = b')
  step : ∀ {s s' a a' b}, R s a b → f a s = (.ok a', s') →
    le s s' ∧ ∃ b', g b (part s) = (.ok b', part s') ∧ R s' a' b'

variable {le : σ → σ → Prop} {R : σ → α → β → Prop} {part : σ → τ} {f : α → Exec ε σ α}
  {g : β → Exec ε τ β}

theorem paintM_simM (h : SimM le R part f g) : ∀ {t t' : BitTrie α} {u : BitTrie β} {s s' : σ},
    t.Rel (R s) u → t.paintM f s = (.ok t', s') →
    le s s' ∧ ∃ u', u.paintM g (part s) = (.ok u', part s') ∧ t'.Rel (R s') u'
  | leaf a, t', leaf b, s, s', hR, hok => by
    obtain ⟨a', s₁, h1, h2⟩ := Exec.bind_eq_ok hok
    simp only [Exec.pure_apply, Prod.mk.injEq, Except.ok.injEq] at h2
    obtain ⟨rfl, rfl⟩ := h2
    obtain ⟨hle, b', hb, hab⟩ := h.step hR h1
    exact ⟨hle, leaf b', by rw [paintM, Exec.bind_ok hb, Exec.pure_apply], hab⟩
  | node pin l r, t', node pin' l' r', s, s', hR, hok => by
    obtain ⟨rfl, hl, hr⟩ := hR
    obtain ⟨l₁, s₁, h1, h2⟩ := Exec.bind_eq_ok hok
    obtain ⟨r₁, s₂, h3, h4⟩ := Exec.bind_eq_ok h2
    simp only [Exec.pure_apply, Prod.mk.injEq, Except.ok.injEq] at h4
    obtain ⟨rfl, rfl⟩ := h4
    obtain ⟨hle, l₂, hl₂, hl₁⟩ := paintM_simM h hl h1
    obtain ⟨hle', r₂, hr₂, hr₁⟩ := paintM_simM h (hr.mono (h.mono hle)) h3
    refine ⟨h.trans hle hle', join pin l₂ r₂, ?_, Rel.join h.inj (hl₁.mono (h.mono hle')) hr₁⟩
    rw [paintM, Exec.bind_ok hl₂, Exec.bind_ok hr₂, Exec.pure_apply]

/-- A run of `updateM` that ends is one of the simulated operation on the related tries. -/
theorem updateM_simM (h : SimM le R part f g) : ∀ {p : List Bool} {l r : BitTrie α}
    {l' r' : BitTrie β} {lr : BitTrie α × BitTrie α} {s s' : σ}, l.Rel (R s) l' → r.Rel (R s) r' →
    updateM f p l r s = (.ok lr, s') →
    le s s' ∧ ∃ lr', updateM g p l' r' (part s) = (.ok lr', part s') ∧ lr.1.Rel (R s') lr'.1 ∧
      lr.2.Rel (R s') lr'.2
  | [], l, r, l', r', lr, s, s', hl, hr, hok => by
    obtain ⟨l₁, s₁, h1, h2⟩ := Exec.bind_eq_ok hok
    obtain ⟨r₁, s₂, h3, h4⟩ := Exec.bind_eq_ok h2
    simp only [Exec.pure_apply, Prod.mk.injEq, Except.ok.injEq] at h4
    obtain ⟨rfl, rfl⟩ := h4
    obtain ⟨hle, l₂, hl₂, hl₁⟩ := paintM_simM h hl h1
    obtain ⟨hle', r₂, hr₂, hr₁⟩ := paintM_simM h (hr.mono (h.mono hle)) h3
    refine ⟨h.trans hle hle', (l₂, r₂), ?_, hl₁.mono (h.mono hle'), hr₁⟩
    rw [updateM, Exec.bind_ok hl₂, Exec.bind_ok hr₂, Exec.pure_apply]
  | true :: p, l, r, l', r', lr, s, s', hl, hr, hok => by
    obtain ⟨lr₁, s₁, h1, h2⟩ := Exec.bind_eq_ok hok
    simp only [Exec.pure_apply, Prod.mk.injEq, Except.ok.injEq] at h2
    obtain ⟨rfl, rfl⟩ := h2
    obtain ⟨hpin, hk1, hk2⟩ := hr.kids
    obtain ⟨hle, lr₂, h3, hl₁, hr₁⟩ := updateM_simM h hk1 hk2 h1
    refine ⟨hle, (l', join r'.kids.1 lr₂.1 lr₂.2), ?_, hl.mono (h.mono hle), ?_⟩
    · rw [updateM, Exec.bind_ok h3, Exec.pure_apply]
    · rw [hpin]
      exact Rel.join h.inj hl₁ hr₁
  | false :: p, l, r, l', r', lr, s, s', hl, hr, hok => by
    obtain ⟨lr₁, s₁, h1, h2⟩ := Exec.bind_eq_ok hok
    simp only [Exec.pure_apply, Prod.mk.injEq, Except.ok.injEq] at h2
    obtain ⟨rfl, rfl⟩ := h2
    obtain ⟨hpin, hk1, hk2⟩ := hl.kids
    obtain ⟨hle, lr₂, h3, hl₁, hr₁⟩ := updateM_simM h hk1 hk2 h1
    refine ⟨hle, (join l'.kids.1 lr₂.1 lr₂.2, r'), ?_, ?_, hr.mono (h.mono hle)⟩
    · rw [updateM, Exec.bind_ok h3, Exec.pure_apply]
    · rw [hpin]
      exact Rel.join h.inj hl₁ hr₁

end Simulation

end BitTrie
