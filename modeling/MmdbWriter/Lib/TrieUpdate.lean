import MmdbWriter.Lib.BitTrie

/-!
# Updates below a prefix

`updateM` rewrites the labels of all strings with a given prefix, in any monad, at the two children
of a root that is itself never collapsed. On labels alone it is `update`, which changes the map
exactly at the strings that have the prefix (`eval_update`); a stateful operation that simulates a
pure one leaves a trie related to the pure result (`updateM_rel`).

`markAt` puts a label at the end of a path, where the path meets no other leaf than the free one,
and `pinAt` pins the node there.
-/

namespace BitTrie

variable {α β : Type}

section Pin

/-- Pin the node at the end of the path, if there is one. -/
def pinAt : List Bool → BitTrie α → BitTrie α
  | [], node _ l r => node true l r
  | b :: p, node pin l r => bif b then node pin l (pinAt p r) else node pin (pinAt p l) r
  | _, leaf a => leaf a

theorem eval_pinAt : ∀ (p : List Bool) (t : BitTrie α) (q : List Bool),
    (t.pinAt p).eval q = t.eval q
  | p, leaf a, q => by cases p <;> simp [pinAt]
  | [], node pin l r, q => by
    simp only [pinAt]
    exact eval_pin true pin l r q
  | b :: p, node pin l r, [] => by cases b <;> simp [pinAt, eval_pinAt p l]
  | b :: p, node pin l r, c :: q => by
    cases b <;> cases c <;> simp [pinAt, eval_pinAt p l q, eval_pinAt p r q]

theorem coverAt_pinAt : ∀ (p : List Bool) (t : BitTrie α) (q : List Bool),
    (t.pinAt p).coverAt q = t.coverAt q
  | p, leaf a, q => by cases p <;> simp [pinAt]
  | [], node pin l r, q => by cases q <;> simp [pinAt, coverAt]
  | b :: p, node pin l r, [] => by cases b <;> simp [pinAt, coverAt]
  | b :: p, node pin l r, c :: q => by
    cases b <;> cases c <;> simp [pinAt, coverAt, coverAt_pinAt p l q, coverAt_pinAt p r q]

theorem height_pinAt : ∀ (p : List Bool) (t : BitTrie α), (t.pinAt p).height = t.height
  | p, leaf a => by cases p <;> simp [pinAt]
  | [], node pin l r => by simp [pinAt, height]
  | b :: p, node pin l r => by
    cases b <;> simp [pinAt, height, height_pinAt p l, height_pinAt p r]

/-- Pinning pins the node at the end of the path and no other. -/
theorem pinnedAt_pinAt : ∀ (p : List Bool) (t : BitTrie α) (q : List Bool),
    (t.pinAt p).PinnedAt q ↔ t.PinnedAt q ∨ q = p ∧ t.coverAt p = none
  | p, leaf a, q => by cases p <;> simp [pinAt, PinnedAt, coverAt]
  | [], node pin l r, [] => by simp [pinAt, PinnedAt, coverAt]
  | [], node pin l r, c :: q => by simp [pinAt, PinnedAt]
  | b :: p, node pin l r, [] => by cases b <;> simp [pinAt, PinnedAt]
  | b :: p, node pin l r, c :: q => by
    have ihl := pinnedAt_pinAt p l q
    have ihr := pinnedAt_pinAt p r q
    cases b <;> cases c <;> simp [pinAt, PinnedAt, coverAt, ihl, ihr]

end Pin

variable [DecidableEq α]

section Defs

variable {m : Type → Type} [Monad m]

/-- Apply `f` at every leaf, left before right, joining on the way up. -/
def paintM (f : α → m α) : BitTrie α → m (BitTrie α)
  | leaf a => do
    let a' ← f a
    return leaf a'
  | node pin l r => do
    let l' ← l.paintM f
    let r' ← r.paintM f
    return join pin l' r'

/-- Apply `f` at every leaf below the path, from the two children of a root. -/
def updateM (f : α → m α) : List Bool → BitTrie α → BitTrie α → m (BitTrie α × BitTrie α)
  | [], l, r => do
    let l' ← l.paintM f
    let r' ← r.paintM f
    return (l', r')
  | true :: p, l, r => do
    let lr ← updateM f p r.kids.2.1 r.kids.2.2
    return (l, join r.kids.1 lr.1 lr.2)
  | false :: p, l, r => do
    let lr ← updateM f p l.kids.2.1 l.kids.2.2
    return (join l.kids.1 lr.1 lr.2, r)

/-- `paintM` of a pure operation. -/
def paint (f : α → α) : BitTrie α → BitTrie α
  | leaf a => leaf (f a)
  | node pin l r => join pin (l.paint f) (r.paint f)

/-- `updateM` of a pure operation. -/
def update (f : α → α) : List Bool → BitTrie α → BitTrie α → BitTrie α × BitTrie α
  | [], l, r => (l.paint f, r.paint f)
  | true :: p, l, r =>
    let lr := update f p r.kids.2.1 r.kids.2.2
    (l, join r.kids.1 lr.1 lr.2)
  | false :: p, l, r =>
    let lr := update f p l.kids.2.1 l.kids.2.2
    (join l.kids.1 lr.1 lr.2, r)

/-- Put the label `mark` at the end of the path if the leaf met on the way is the free one. -/
def markAt (free mark : α) : List Bool → BitTrie α → BitTrie α
  | [], leaf a => if a = free then leaf mark else leaf a
  | [], node pin l r => node pin l r
  | b :: p, leaf a =>
    if a = free then
      bif b then node false (leaf free) (markAt free mark p (leaf free))
      else node false (markAt free mark p (leaf free)) (leaf free)
    else leaf a
  | b :: p, node pin l r =>
    bif b then node pin l (markAt free mark p r) else node pin (markAt free mark p l) r

end Defs

section Update

variable (f : α → α)

theorem eval_paint : ∀ (t : BitTrie α) (p : List Bool), (t.paint f).eval p = f (t.eval p)
  | leaf _, _ => by simp [paint]
  | node pin l r, p => by
    rw [paint, eval_join]
    rcases p with _ | ⟨b, p⟩
    · simp [eval_paint l]
    · cases b <;> simp [eval_paint l, eval_paint r]

theorem height_paint_le : ∀ t : BitTrie α, (t.paint f).height ≤ t.height
  | leaf _ => le_rfl
  | node pin l r => by
    have hl := height_paint_le l
    have hr := height_paint_le r
    have := height_join_le pin (l.paint f) (r.paint f)
    simp only [paint, height]
    omega

theorem reducedOn_paint (P : α → Prop) : ∀ t : BitTrie α, (t.paint f).ReducedOn P
  | leaf _ => trivial
  | node _ l r => reducedOn_join (reducedOn_paint P l) (reducedOn_paint P r)

theorem Unpinned.paint : ∀ {t : BitTrie α}, t.Unpinned → (t.paint f).Unpinned
  | leaf _, _ => trivial
  | node _ _ _, h => by
    rw [BitTrie.paint, h.1]
    exact unpinned_join h.2.1.paint h.2.2.paint

/-- An update changes the map at the strings with the prefix and nowhere else. -/
theorem eval_update (pin : Bool) : ∀ (p : List Bool) (l r : BitTrie α) (q : List Bool),
    p.length ≤ q.length →
    (node pin (update f p l r).1 (update f p l r).2).eval q =
      if p <+: q then f ((node pin l r).eval q) else (node pin l r).eval q
  | [], l, r, q, _ => by
    rcases q with _ | ⟨b, q⟩
    · simp [update, eval_paint]
    · cases b <;> simp [update, eval_paint]
  | b :: p, l, r, [], h => by simp at h
  | true :: p, l, r, false :: q, _ => by simp [update]
  | false :: p, l, r, true :: q, _ => by simp [update]
  | true :: p, l, r, true :: q, h => by
    have hq : p.length ≤ q.length := by simpa using h
    have ih := eval_update r.kids.1 p r.kids.2.1 r.kids.2.2 q hq
    rw [eval_kids] at ih
    simpa [update, eval_join, List.cons_prefix_cons] using ih
  | false :: p, l, r, false :: q, h => by
    have hq : p.length ≤ q.length := by simpa using h
    have ih := eval_update l.kids.1 p l.kids.2.1 l.kids.2.2 q hq
    rw [eval_kids] at ih
    simpa [update, eval_join, List.cons_prefix_cons] using ih

theorem unpinned_update : ∀ (p : List Bool) {l r : BitTrie α}, l.Unpinned → r.Unpinned →
    (update f p l r).1.Unpinned ∧ (update f p l r).2.Unpinned
  | [], _, _, hl, hr => ⟨hl.paint f, hr.paint f⟩
  | true :: p, _, r, hl, hr => by
    obtain ⟨hpin, h1, h2⟩ := unpinned_kids hr
    have ih := unpinned_update p h1 h2
    refine ⟨hl, ?_⟩
    simp only [update, hpin]
    exact unpinned_join ih.1 ih.2
  | false :: p, l, _, hl, hr => by
    obtain ⟨hpin, h1, h2⟩ := unpinned_kids hl
    have ih := unpinned_update p h1 h2
    refine ⟨?_, hr⟩
    simp only [update, hpin]
    exact unpinned_join ih.1 ih.2

theorem reducedOn_update {P : α → Prop} : ∀ (p : List Bool) {l r : BitTrie α}, l.ReducedOn P →
    r.ReducedOn P → (update f p l r).1.ReducedOn P ∧ (update f p l r).2.ReducedOn P
  | [], l, r, _, _ => ⟨reducedOn_paint f P l, reducedOn_paint f P r⟩
  | true :: p, _, r, hl, hr => by
    have hk := reducedOn_kids hr
    have ih := reducedOn_update p hk.1 hk.2
    exact ⟨hl, reducedOn_join ih.1 ih.2⟩
  | false :: p, l, _, hl, hr => by
    have hk := reducedOn_kids hl
    have ih := reducedOn_update p hk.1 hk.2
    exact ⟨reducedOn_join ih.1 ih.2, hr⟩

/-- The child a path leads into grows no higher than the rest of the path: at its end the leaf that
was split is joined again, since a pure operation answers twice alike. -/
theorem height_update_child {n : ℕ} {t : BitTrie α} {p : List Bool} (ht : t.height ≤ n)
    (hp : p.length ≤ n)
    (ih : ∀ k, n = k + 1 → (update f p t.kids.2.1 t.kids.2.2).1.height ≤ k ∧
      (update f p t.kids.2.1 t.kids.2.2).2.height ≤ k) :
    (join t.kids.1 (update f p t.kids.2.1 t.kids.2.2).1
      (update f p t.kids.2.1 t.kids.2.2).2).height ≤ n := by
  rcases n with _ | n
  · have hp0 : p = [] := List.length_eq_zero_iff.mp (by omega)
    rcases t with a | ⟨pin, l, r⟩
    · simp [hp0, kids, update, paint, join_leaf_self, height]
    · simp [height] at ht
  · have := ih n rfl
    have hj := height_join_le t.kids.1 (update f p t.kids.2.1 t.kids.2.2).1
      (update f p t.kids.2.1 t.kids.2.2).2
    omega

theorem height_update : ∀ (p : List Bool) {l r : BitTrie α} {n : ℕ}, l.height ≤ n →
    r.height ≤ n → p.length ≤ n + 1 →
    (update f p l r).1.height ≤ n ∧ (update f p l r).2.height ≤ n
  | [], l, r, _, hl, hr, _ =>
    ⟨(height_paint_le f l).trans hl, (height_paint_le f r).trans hr⟩
  | true :: p, _, r, n, hl, hr, hp => by
    have hp' : p.length ≤ n := by simpa using hp
    refine ⟨hl, height_update_child f hr hp' fun k hk => ?_⟩
    subst hk
    have h := height_kids_le hr
    exact height_update p h.1 h.2 hp'
  | false :: p, l, _, n, hl, hr, hp => by
    have hp' : p.length ≤ n := by simpa using hp
    refine ⟨height_update_child f hl hp' fun k hk => ?_, hr⟩
    subst hk
    have h := height_kids_le hl
    exact height_update p h.1 h.2 hp'

end Update

section Sim

variable {ε σ : Type} [DecidableEq β]

/-- The stateful operation `f` does on related labels what `g` does, along states that only grow. -/
structure Sim (le : σ → σ → Prop) (R : σ → α → β → Prop) (f : α → Exec ε σ α) (g : β → β) :
    Prop where
  refl : ∀ s, le s s
  trans : ∀ {s s' s''}, le s s' → le s' s'' → le s s''
  mono : ∀ {s s'}, le s s' → ∀ a b, R s a b → R s' a b
  inj : ∀ {s} a b a' b', R s a b → R s a' b' → (a = a' ↔ b = b')
  step : ∀ {s s' a a' b}, R s a b → f a s = (.ok a', s') → le s s' ∧ R s' a' (g b)

variable {le : σ → σ → Prop} {R : σ → α → β → Prop} {f : α → Exec ε σ α} {g : β → β}

theorem paintM_rel (h : Sim le R f g) : ∀ {t t' : BitTrie α} {u : BitTrie β} {s s' : σ},
    t.Rel (R s) u → t.paintM f s = (.ok t', s') → le s s' ∧ t'.Rel (R s') (u.paint g)
  | leaf a, t', leaf b, s, s', hR, hok => by
    obtain ⟨a', s₁, h1, h2⟩ := Exec.bind_eq_ok hok
    simp only [Exec.pure_apply, Prod.mk.injEq, Except.ok.injEq] at h2
    obtain ⟨rfl, rfl⟩ := h2
    exact h.step hR h1
  | node pin l r, t', node pin' l' r', s, s', hR, hok => by
    obtain ⟨rfl, hl, hr⟩ := hR
    obtain ⟨l₁, s₁, h1, h2⟩ := Exec.bind_eq_ok hok
    obtain ⟨r₁, s₂, h3, h4⟩ := Exec.bind_eq_ok h2
    simp only [Exec.pure_apply, Prod.mk.injEq, Except.ok.injEq] at h4
    obtain ⟨rfl, rfl⟩ := h4
    obtain ⟨hle, hl₁⟩ := paintM_rel h hl h1
    obtain ⟨hle', hr₁⟩ := paintM_rel h (hr.mono (h.mono hle)) h3
    exact ⟨h.trans hle hle', Rel.join h.inj (hl₁.mono (h.mono hle')) hr₁⟩

/-- A run of `updateM` that ends leaves tries related to what `update` makes. -/
theorem updateM_rel (h : Sim le R f g) : ∀ (p : List Bool) {l r : BitTrie α} {l' r' : BitTrie β}
    {lr : BitTrie α × BitTrie α} {s s' : σ}, l.Rel (R s) l' → r.Rel (R s) r' →
    updateM f p l r s = (.ok lr, s') →
    le s s' ∧ lr.1.Rel (R s') (update g p l' r').1 ∧ lr.2.Rel (R s') (update g p l' r').2
  | [], l, r, l', r', lr, s, s', hl, hr, hok => by
    obtain ⟨l₁, s₁, h1, h2⟩ := Exec.bind_eq_ok hok
    obtain ⟨r₁, s₂, h3, h4⟩ := Exec.bind_eq_ok h2
    simp only [Exec.pure_apply, Prod.mk.injEq, Except.ok.injEq] at h4
    obtain ⟨rfl, rfl⟩ := h4
    obtain ⟨hle, hl₁⟩ := paintM_rel h hl h1
    obtain ⟨hle', hr₁⟩ := paintM_rel h (hr.mono (h.mono hle)) h3
    exact ⟨h.trans hle hle', hl₁.mono (h.mono hle'), hr₁⟩
  | true :: p, l, r, l', r', lr, s, s', hl, hr, hok => by
    obtain ⟨lr', s₁, h1, h2⟩ := Exec.bind_eq_ok hok
    simp only [Exec.pure_apply, Prod.mk.injEq, Except.ok.injEq] at h2
    obtain ⟨rfl, rfl⟩ := h2
    obtain ⟨hpin, hk1, hk2⟩ := hr.kids
    obtain ⟨hle, hl₁, hr₁⟩ := updateM_rel h p hk1 hk2 h1
    refine ⟨hle, hl.mono (h.mono hle), ?_⟩
    rw [hpin]
    exact Rel.join h.inj hl₁ hr₁
  | false :: p, l, r, l', r', lr, s, s', hl, hr, hok => by
    obtain ⟨lr', s₁, h1, h2⟩ := Exec.bind_eq_ok hok
    simp only [Exec.pure_apply, Prod.mk.injEq, Except.ok.injEq] at h2
    obtain ⟨rfl, rfl⟩ := h2
    obtain ⟨hpin, hk1, hk2⟩ := hl.kids
    obtain ⟨hle, hl₁, hr₁⟩ := updateM_rel h p hk1 hk2 h1
    refine ⟨hle, ?_, hr.mono (h.mono hle)⟩
    rw [hpin]
    exact Rel.join h.inj hl₁ hr₁

/-- A run of `updateM` that stops does so at a fault of the operation. -/
theorem updateM_fault (h : Sim le R f g) {P : ε → σ → Prop}
    (hf : ∀ {s s' a b e}, R s a b → f a s = (.error e, s') → P e s') :
    ∀ (p : List Bool) {l r : BitTrie α} {l' r' : BitTrie β} {e : ε} {s s' : σ}, l.Rel (R s) l' →
      r.Rel (R s) r' → updateM f p l r s = (.error e, s') → P e s'
  | [], l, r, l', r', e, s, s', hl, hr, herr => by
    rcases Exec.bind_eq_error herr with h1 | ⟨l₁, s₁, h1, h2⟩
    · exact paint_fault hl h1
    · have hle := (paintM_rel h hl h1).1
      rcases Exec.bind_eq_error h2 with h3 | ⟨r₁, s₂, h3, h4⟩
      · exact paint_fault (hr.mono (h.mono hle)) h3
      · simp at h4
  | true :: p, l, r, l', r', e, s, s', hl, hr, herr => by
    obtain ⟨-, hk1, hk2⟩ := hr.kids
    rcases Exec.bind_eq_error herr with h1 | ⟨lr, s₁, h1, h2⟩
    · exact updateM_fault h hf p hk1 hk2 h1
    · simp at h2
  | false :: p, l, r, l', r', e, s, s', hl, hr, herr => by
    obtain ⟨-, hk1, hk2⟩ := hl.kids
    rcases Exec.bind_eq_error herr with h1 | ⟨lr, s₁, h1, h2⟩
    · exact updateM_fault h hf p hk1 hk2 h1
    · simp at h2
where
  paint_fault : ∀ {t : BitTrie α} {u : BitTrie β} {e : ε} {s s' : σ}, t.Rel (R s) u →
      t.paintM f s = (.error e, s') → P e s'
    | leaf a, leaf b, e, s, s', hR, herr => by
      rcases Exec.bind_eq_error herr with h1 | ⟨a', s₁, h1, h2⟩
      · exact hf hR h1
      · simp at h2
    | node _ l r, node _ l' r', e, s, s', hR, herr => by
      rcases Exec.bind_eq_error herr with h1 | ⟨l₁, s₁, h1, h2⟩
      · exact paint_fault hR.2.1 h1
      · have hle := (paintM_rel h hR.2.1 h1).1
        rcases Exec.bind_eq_error h2 with h3 | ⟨r₁, s₂, h3, h4⟩
        · exact paint_fault (hR.2.2.mono (h.mono hle)) h3
        · simp at h4

end Sim

section Mark

variable {free mark : α}

theorem markAt_ne_leaf_free (hne : mark ≠ free) (p : List Bool) (t : BitTrie α) :
    t.markAt free mark p ≠ leaf free := by
  rcases t with a | ⟨pin, l, r⟩ <;> rcases p with _ | ⟨_ | _, p⟩ <;> simp only [markAt]
  all_goals first | (split_ifs with h <;> simp_all) | simp

/-- A mark changes the map below its path, where the path is free, and nowhere else. -/
theorem eval_markAt : ∀ (p : List Bool) (t : BitTrie α) (q : List Bool), p.length ≤ q.length →
    (t.markAt free mark p).eval q =
      if p <+: q ∧ t.coverAt p = some free then mark else t.eval q
  | [], leaf a, q, _ => by
    by_cases h : a = free <;> simp [markAt, coverAt, h]
  | [], node pin l r, q, _ => by simp [markAt, coverAt]
  | b :: p, t, [], h => by simp at h
  | b :: p, leaf a, c :: q, h => by
    have hq : p.length ≤ q.length := by simpa using h
    by_cases ha : a = free
    · have ih := eval_markAt p (leaf free) q hq
      cases b <;> cases c <;> simp [markAt, coverAt, ih, ha, List.cons_prefix_cons]
    · simp [markAt, coverAt, ha]
  | b :: p, node pin l r, c :: q, h => by
    have hq : p.length ≤ q.length := by simpa using h
    have ihl := eval_markAt p l q hq
    have ihr := eval_markAt p r q hq
    cases b <;> cases c <;> simp [markAt, coverAt, ihl, ihr, List.cons_prefix_cons]

/-- Marks at incomparable paths do not see each other. -/
theorem coverAt_markAt : ∀ {p p' : List Bool} (t : BitTrie α), ¬ p <+: p' → ¬ p' <+: p →
    (t.markAt free mark p).coverAt p' = t.coverAt p'
  | [], p', t, h, _ => by simp at h
  | b :: p, [], t, _, h => by simp at h
  | b :: p, c :: p', leaf a, h, h' => by
    by_cases ha : a = free
    · rw [List.cons_prefix_cons] at h h'
      have ih : b = c →
          ((leaf free).markAt free mark p).coverAt p' = (leaf free).coverAt p' :=
        fun hbc => coverAt_markAt (leaf free) (fun hp => h ⟨hbc, hp⟩) fun hp => h' ⟨hbc.symm, hp⟩
      simp only [coverAt] at ih
      cases b <;> cases c <;> simp_all [markAt, coverAt]
    · simp [markAt, ha]
  | b :: p, c :: p', node pin l r, h, h' => by
    rw [List.cons_prefix_cons] at h h'
    have ih : b = c → ∀ t : BitTrie α, (t.markAt free mark p).coverAt p' = t.coverAt p' :=
      fun hbc t => coverAt_markAt t (fun hp => h ⟨hbc, hp⟩) fun hp => h' ⟨hbc.symm, hp⟩
    cases b <;> cases c <;> simp_all [markAt, coverAt]

theorem height_markAt_le : ∀ (p : List Bool) (t : BitTrie α),
    (t.markAt free mark p).height ≤ max t.height p.length
  | [], leaf a => by
    simp only [markAt]
    split_ifs <;> simp [height]
  | [], node pin l r => by simp [markAt]
  | b :: p, leaf a => by
    have ih := height_markAt_le p (leaf free)
    simp only [height, Nat.zero_max] at ih
    cases b <;> simp only [markAt] <;> split_ifs <;> simp [height, ih]
  | b :: p, node pin l r => by
    have ihl := height_markAt_le p l
    have ihr := height_markAt_le p r
    cases b <;> simp only [markAt, cond_true, cond_false, height, List.length_cons] <;> omega

theorem pinnedAt_markAt : ∀ (p : List Bool) (t : BitTrie α) (q : List Bool),
    (t.markAt free mark p).PinnedAt q ↔ t.PinnedAt q
  | [], leaf a, q => by
    simp only [markAt]
    split_ifs <;> simp [PinnedAt]
  | [], node pin l r, q => by simp [markAt]
  | b :: p, leaf a, q => by
    have ih := pinnedAt_markAt p (leaf free)
    simp only [PinnedAt, iff_false] at ih
    simp only [markAt]
    split_ifs
    · rcases q with _ | ⟨c, q⟩ <;> cases b
      · simp [PinnedAt]
      · simp [PinnedAt]
      · cases c <;> simp [PinnedAt, ih]
      · cases c <;> simp [PinnedAt, ih]
    · rfl
  | b :: p, node pin l r, [] => by cases b <;> simp [markAt, PinnedAt]
  | b :: p, node pin l r, c :: q => by
    have ihl := pinnedAt_markAt p l q
    have ihr := pinnedAt_markAt p r q
    cases b <;> cases c <;> simp [markAt, PinnedAt, ihl, ihr]

theorem unpinned_markAt : ∀ (p : List Bool) {t : BitTrie α}, t.Unpinned →
    (t.markAt free mark p).Unpinned
  | [], leaf a, _ => by
    simp only [markAt]
    split_ifs <;> trivial
  | [], node pin l r, h => h
  | b :: p, leaf a, _ => by
    have ih := unpinned_markAt p (t := leaf free) trivial
    simp only [markAt]
    split_ifs
    · cases b
      · exact ⟨rfl, ih, trivial⟩
      · exact ⟨rfl, trivial, ih⟩
    · trivial
  | true :: p, node pin l r, h => ⟨h.1, h.2.1, unpinned_markAt p h.2.2⟩
  | false :: p, node pin l r, h => ⟨h.1, unpinned_markAt p h.2.1, h.2.2⟩

/-- A mark other than the free label keeps the trie reduced on a set of labels without the mark. -/
theorem reducedOn_markAt {P : α → Prop} (hne : mark ≠ free) (hmark : ¬ P mark) :
    ∀ (p : List Bool) {t : BitTrie α}, t.ReducedOn P → (t.markAt free mark p).ReducedOn P
  | [], leaf a, _ => by
    simp only [markAt]
    split_ifs <;> trivial
  | [], node pin l r, h => h
  | b :: p, leaf a, _ => by
    have ih := reducedOn_markAt hne hmark p (t := leaf free) trivial
    have hleaf := markAt_ne_leaf_free hne p (leaf free)
    simp only [markAt]
    split_ifs
    · cases b
      · refine ⟨ih, trivial, fun _ a _ hl hr => hleaf ?_⟩
        rw [hl, hr]
      · refine ⟨trivial, ih, fun _ a _ hl hr => hleaf ?_⟩
        rw [hr, hl]
    · trivial
  | true :: p, node pin l r, h => by
    refine ⟨h.1, reducedOn_markAt hne hmark p h.2.1, fun hp a ha hl hr => ?_⟩
    exact h.2.2 hp a ha hl (eq_leaf_of_markAt hne hmark ha hr)
  | false :: p, node pin l r, h => by
    refine ⟨reducedOn_markAt hne hmark p h.1, h.2.1, fun hp a ha hl hr => ?_⟩
    exact h.2.2 hp a ha (eq_leaf_of_markAt hne hmark ha hl) hr
where
  eq_leaf_of_markAt {P : α → Prop} (hne : mark ≠ free) (hmark : ¬ P mark) {a : α} (ha : P a)
      {p : List Bool} {t : BitTrie α} (h : t.markAt free mark p = leaf a) : t = leaf a := by
    rcases t with b | ⟨pin, l, r⟩ <;> rcases p with _ | ⟨_ | _, p⟩ <;> simp only [markAt] at h
    all_goals first | (split_ifs at h with hb <;> simp_all) | simp at h

/-- Marks at several paths, one after the other. -/
def markAll (free mark : α) (paths : List (List Bool)) (t : BitTrie α) : BitTrie α :=
  paths.foldl (fun t p => t.markAt free mark p) t

/-- Marks at pairwise incomparable paths change the map below those of them that were free. -/
theorem eval_markAll : ∀ {paths : List (List Bool)} {t : BitTrie α} {q : List Bool},
    paths.Pairwise (fun p p' => ¬ p <+: p' ∧ ¬ p' <+: p) → (∀ p ∈ paths, p.length ≤ q.length) →
    (t.markAll free mark paths).eval q =
      if ∃ p ∈ paths, p <+: q ∧ t.coverAt p = some free then mark else t.eval q
  | [], t, q, _, _ => by simp [markAll]
  | p :: paths, t, q, hpw, hlen => by
    obtain ⟨hp, hpw⟩ := List.pairwise_cons.mp hpw
    have ih := eval_markAll (t := t.markAt free mark p) (q := q) hpw fun p' hp' =>
      hlen p' (List.mem_cons_of_mem _ hp')
    have hcov : (∃ p' ∈ paths, p' <+: q ∧ (t.markAt free mark p).coverAt p' = some free) ↔
        ∃ p' ∈ paths, p' <+: q ∧ t.coverAt p' = some free := by
      refine exists_congr fun p' => and_congr_right fun hp' => ?_
      rw [coverAt_markAt t (hp p' hp').1 (hp p' hp').2]
    have hcons : t.markAll free mark (p :: paths) =
        (t.markAt free mark p).markAll free mark paths := rfl
    rw [hcons, ih, if_congr hcov rfl rfl, eval_markAt p t q (hlen p List.mem_cons_self)]
    by_cases hex : ∃ p' ∈ paths, p' <+: q ∧ t.coverAt p' = some free
    · rw [if_pos hex, if_pos (by simpa using Or.inr hex)]
    · rw [if_neg hex]
      by_cases hpq : p <+: q ∧ t.coverAt p = some free
      · rw [if_pos hpq, if_pos (by simpa using Or.inl hpq)]
      · rw [if_neg hpq, if_neg]
        rintro ⟨p', hp', h⟩
        rcases List.mem_cons.mp hp' with rfl | hm
        · exact hpq h
        · exact hex ⟨p', hm, h⟩

/-- What each mark keeps, the marks in a row keep. -/
theorem markAll_induct {P : BitTrie α → Prop} {paths : List (List Bool)}
    (h : ∀ p ∈ paths, ∀ t, P t → P (t.markAt free mark p)) {t : BitTrie α} (ht : P t) :
    P (t.markAll free mark paths) := by
  induction paths generalizing t with
  | nil => exact ht
  | cons p paths ih =>
    exact ih (fun p' hp' => h p' (List.mem_cons_of_mem _ hp')) (h p List.mem_cons_self t ht)

end Mark

section Rel

variable {R : α → β → Prop}

omit [DecidableEq α] in
theorem Rel.coverAt {t : BitTrie α} {u : BitTrie β} (h : t.Rel R u) (p : List Bool) :
    (t.coverAt p = none ∧ u.coverAt p = none) ∨
      ∃ a b, t.coverAt p = some a ∧ u.coverAt p = some b ∧ R a b := by
  induction p generalizing t u with
  | nil =>
    rcases t with a | _ <;> rcases u with b | _ <;> simp only [Rel] at h
    · exact Or.inr ⟨a, b, rfl, rfl, h⟩
    · exact Or.inl ⟨rfl, rfl⟩
  | cons c p ih =>
    rcases t with a | ⟨pin, l, r⟩ <;> rcases u with b | ⟨pin', l', r'⟩ <;> simp only [Rel] at h
    · exact Or.inr ⟨a, b, rfl, rfl, h⟩
    · cases c
      · exact ih h.2.1
      · exact ih h.2.2

omit [DecidableEq α] in
theorem Rel.pinAt : ∀ (p : List Bool) {t : BitTrie α} {u : BitTrie β}, t.Rel R u →
    (t.pinAt p).Rel R (u.pinAt p)
  | [], leaf _, leaf _, h => h
  | _ :: _, leaf _, leaf _, h => h
  | [], node _ _ _, node _ _ _, h => ⟨rfl, h.2.1, h.2.2⟩
  | true :: p, node _ _ _, node _ _ _, h => ⟨h.1, h.2.1, h.2.2.pinAt p⟩
  | false :: p, node _ _ _, node _ _ _, h => ⟨h.1, h.2.1.pinAt p, h.2.2⟩

variable [DecidableEq β] {free mark : α} {free' mark' : β}

theorem Rel.markAt (hf : ∀ a b, R a b → (a = free ↔ b = free')) (hfree : R free free')
    (hmark : R mark mark') : ∀ (p : List Bool) {t : BitTrie α} {u : BitTrie β}, t.Rel R u →
    (t.markAt free mark p).Rel R (u.markAt free' mark' p)
  | [], leaf a, leaf b, h => by
    by_cases ha : a = free
    · simpa [BitTrie.markAt, ha, (hf a b h).mp ha, Rel] using hmark
    · have hb : b ≠ free' := fun hb => ha ((hf a b h).mpr hb)
      simpa [BitTrie.markAt, ha, hb] using h
  | c :: p, leaf a, leaf b, h => by
    by_cases ha : a = free
    · have ih := Rel.markAt hf hfree hmark p (t := leaf free) (u := leaf free') hfree
      simp only [BitTrie.markAt, ha, (hf a b h).mp ha, if_true]
      cases c
      · exact ⟨rfl, ih, hfree⟩
      · exact ⟨rfl, hfree, ih⟩
    · have hb : b ≠ free' := fun hb => ha ((hf a b h).mpr hb)
      simpa [BitTrie.markAt, ha, hb] using h
  | [], node _ _ _, node _ _ _, h => h
  | true :: p, node _ _ _, node _ _ _, h => ⟨h.1, h.2.1, h.2.2.markAt hf hfree hmark p⟩
  | false :: p, node _ _ _, node _ _ _, h => ⟨h.1, h.2.1.markAt hf hfree hmark p, h.2.2⟩

theorem Rel.markAll (hf : ∀ a b, R a b → (a = free ↔ b = free')) (hfree : R free free')
    (hmark : R mark mark') {paths : List (List Bool)} {t : BitTrie α} {u : BitTrie β}
    (h : t.Rel R u) : (t.markAll free mark paths).Rel R (u.markAll free' mark' paths) := by
  induction paths generalizing t u with
  | nil => exact h
  | cons p paths ih => exact ih (h.markAt hf hfree hmark p)

end Rel

end BitTrie
