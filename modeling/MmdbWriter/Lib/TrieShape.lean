import MmdbWriter.Lib.TrieCalls

/-!
# The shape of a trie

An update that is cut short leaves a trie with more of its leaves split (`Splits`). A trie in which no
node lies deeper than a level, and none at the level could collapse, is `Settled` at it: updates along
paths no longer than the level keep it so, and collapsing it keeps what paths of that length meet.
-/

namespace BitTrie

variable {α β ε σ : Type}

section Splits

/-- The later trie is the earlier one with leaves split, at fewer than `n` levels below the root. -/
inductive Splits : ℕ → BitTrie α → BitTrie α → Prop
  | refl (n t) : Splits n t t
  | leaf {n a l r} (hl : Splits n (leaf a) l) (hr : Splits n (leaf a) r) :
      Splits (n + 1) (leaf a) (node false l r)
  | node {n pin l r l' r'} (hl : Splits n l l') (hr : Splits n r r') :
      Splits (n + 1) (node pin l r) (node pin l' r')

theorem Splits.of_kids {n : ℕ} {t l' r' : BitTrie α} (hl : Splits n t.kids.2.1 l')
    (hr : Splits n t.kids.2.2 r') : Splits (n + 1) t (BitTrie.node t.kids.1 l' r') := by
  rcases t with a | ⟨pin, l, r⟩
  · exact .leaf hl hr
  · exact .node hl hr

theorem Splits.eval {n : ℕ} {t u : BitTrie α} (h : Splits n t u) (p : List Bool) :
    u.eval p = t.eval p := by
  induction h generalizing p with
  | refl => rfl
  | leaf _ _ ihl ihr =>
    rcases p with _ | ⟨_ | _, p⟩ <;> simp [ihl, ihr]
  | node _ _ ihl ihr =>
    rcases p with _ | ⟨_ | _, p⟩ <;> simp [ihl, ihr]

theorem Splits.unpinned {n : ℕ} {t u : BitTrie α} (h : Splits n t u) (ht : t.Unpinned) :
    u.Unpinned := by
  induction h with
  | refl => exact ht
  | leaf _ _ ihl ihr => exact ⟨rfl, ihl trivial, ihr trivial⟩
  | node _ _ ihl ihr => exact ⟨ht.1, ihl ht.2.1, ihr ht.2.2⟩

theorem Splits.pinnedAt {n : ℕ} {t u : BitTrie α} (h : Splits n t u) (q : List Bool) :
    u.PinnedAt q ↔ t.PinnedAt q := by
  induction h generalizing q with
  | refl => rfl
  | leaf _ _ ihl ihr =>
    rcases q with _ | ⟨_ | _, q⟩
    · simp [PinnedAt]
    · exact ihl q
    · exact ihr q
  | node _ _ ihl ihr =>
    rcases q with _ | ⟨_ | _, q⟩
    · rfl
    · exact ihl q
    · exact ihr q

theorem Splits.forall {P : α → Prop} {n : ℕ} {t u : BitTrie α} (h : Splits n t u)
    (ht : t.Forall P) : u.Forall P :=
  forall_of_eval fun p => by
    rw [h.eval]
    exact ht.eval p

theorem Splits.height_le {k n : ℕ} {t u : BitTrie α} (h : Splits k t u) (hk : k ≤ n)
    (ht : t.height ≤ n) : u.height ≤ n := by
  induction h generalizing n with
  | refl => exact ht
  | leaf _ _ ihl ihr =>
    obtain ⟨n, rfl⟩ := Nat.exists_eq_succ_of_ne_zero (show n ≠ 0 by omega)
    have := ihl (n := n) (by omega) (Nat.zero_le n)
    have := ihr (n := n) (by omega) (Nat.zero_le n)
    simp only [height]
    omega
  | node _ _ ihl ihr =>
    obtain ⟨n, rfl⟩ := Nat.exists_eq_succ_of_ne_zero (show n ≠ 0 by omega)
    simp only [height] at ht ⊢
    have := ihl (n := n) (by omega) (by omega)
    have := ihr (n := n) (by omega) (by omega)
    omega

theorem Splits.sameMap {k n : ℕ} {t u : BitTrie α} (h : Splits k t u) (hk : k ≤ n)
    (ht : t.height ≤ n) : SameMap n t u :=
  ⟨h.eval, h.unpinned, h.height_le hk ht⟩

end Splits

section Subtrie

/-- What is below the end of a path. -/
def subtrie : BitTrie α → List Bool → BitTrie α
  | t, [] => t
  | leaf a, _ :: _ => leaf a
  | node _ l r, b :: p => bif b then r.subtrie p else l.subtrie p

theorem eval_subtrie : ∀ (t : BitTrie α) (p q : List Bool),
    (t.subtrie p).eval q = t.eval (p ++ q)
  | t, [], q => by simp [subtrie]
  | leaf a, _ :: _, q => by simp [subtrie]
  | node _ l r, b :: p, q => by
    cases b <;> simp [subtrie, eval_subtrie l p q, eval_subtrie r p q]

theorem ReducedOn.subtrie {P : α → Prop} : ∀ {t : BitTrie α} {p : List Bool}, t.ReducedOn P →
    (t.subtrie p).ReducedOn P
  | t, [], h => by simpa [BitTrie.subtrie] using h
  | leaf _, _ :: _, _ => trivial
  | node _ l r, true :: p, h => ReducedOn.subtrie (t := r) h.2.1
  | node _ l r, false :: p, h => ReducedOn.subtrie (t := l) h.1

end Subtrie

section Settled

/-- No node is more than `n` levels below the root, and one at that level has two leaves that do not
collapse. -/
def Settled : ℕ → BitTrie α → Prop
  | _, leaf _ => True
  | 0, node pin l r => ∃ a b, l = leaf a ∧ r = leaf b ∧ (pin = false → a ≠ b)
  | n + 1, node _ l r => Settled n l ∧ Settled n r

@[simp] theorem settled_leaf (n : ℕ) (a : α) : Settled n (leaf a) := by
  cases n <;> trivial

theorem Settled.height_le : ∀ {n : ℕ} {t : BitTrie α}, Settled n t → t.height ≤ n + 1
  | n, leaf _, _ => by simp [height]
  | 0, node _ _ _, h => by
    obtain ⟨a, b, rfl, rfl, -⟩ := h
    simp [height]
  | n + 1, node _ l r, h => by
    have := h.1.height_le
    have := h.2.height_le
    simp only [height]
    omega

theorem settled_of_height_le : ∀ {n : ℕ} {t : BitTrie α}, t.height ≤ n → Settled n t
  | n, leaf a, _ => settled_leaf n a
  | 0, node _ _ _, h => by simp [height] at h
  | n + 1, node _ l r, h => by
    simp only [height] at h
    exact ⟨settled_of_height_le (by omega), settled_of_height_le (by omega)⟩

theorem Rel.settled {β : Type} {R : α → β → Prop}
    (hR : ∀ a b a' b', R a b → R a' b' → (a = a' ↔ b = b')) : ∀ {n : ℕ} {t : BitTrie α}
    {u : BitTrie β}, t.Rel R u → (Settled n t ↔ Settled n u)
  | n, leaf a, leaf b, _ => iff_of_true (settled_leaf n a) (settled_leaf n b)
  | n + 1, node _ _ _, node _ _ _, h => and_congr (h.2.1.settled hR) (h.2.2.settled hR)
  | 0, node _ l r, node _ l' r', h => by
    obtain ⟨rfl, hl, hr⟩ := h
    cases l with
    | node _ _ _ =>
      cases l' with
      | leaf _ => exact hl.elim
      | node _ _ _ => simp [Settled]
    | leaf a =>
      cases r with
      | node _ _ _ =>
        cases r' with
        | leaf _ => exact hr.elim
        | node _ _ _ => simp [Settled]
      | leaf b =>
        cases l' with
        | node _ _ _ => exact hl.elim
        | leaf a' =>
          cases r' with
          | node _ _ _ => exact hr.elim
          | leaf b' => simp [Settled, hR _ _ _ _ hl hr]

theorem Settled.splits {k n : ℕ} {t u : BitTrie α} (h : Settled n t) (hs : Splits k t u)
    (hk : k ≤ n) : Settled n u := by
  induction hs generalizing n with
  | refl => exact h
  | leaf _ _ ihl ihr =>
    obtain ⟨n, rfl⟩ := Nat.exists_eq_succ_of_ne_zero (show n ≠ 0 by omega)
    exact ⟨ihl (settled_leaf n _) (by omega), ihr (settled_leaf n _) (by omega)⟩
  | node _ _ ihl ihr =>
    obtain ⟨n, rfl⟩ := Nat.exists_eq_succ_of_ne_zero (show n ≠ 0 by omega)
    exact ⟨ihl h.1 (by omega), ihr h.2 (by omega)⟩

theorem Settled.subtrie : ∀ {n : ℕ} {t : BitTrie α} {p : List Bool}, Settled n t → p.length ≤ n →
    Settled (n - p.length) (t.subtrie p)
  | n, t, [], h, _ => by simpa [BitTrie.subtrie] using h
  | n, leaf a, _ :: _, _, _ => by simp [BitTrie.subtrie]
  | 0, node _ _ _, _ :: _, _, hp => by simp at hp
  | n + 1, node _ l r, true :: p, h, hp => by
    rw [List.length_cons, Nat.add_sub_add_right]
    exact Settled.subtrie (t := r) h.2 (by simpa using hp)
  | n + 1, node _ l r, false :: p, h, hp => by
    rw [List.length_cons, Nat.add_sub_add_right]
    exact Settled.subtrie (t := l) h.1 (by simpa using hp)

theorem Settled.pinAt : ∀ {n : ℕ} {t : BitTrie α} (p : List Bool), Settled n t →
    Settled n (t.pinAt p)
  | n, leaf a, p, h => by cases p <;> exact h
  | 0, node _ _ _, [], h => by
    obtain ⟨a, b, hl, hr, -⟩ := h
    exact ⟨a, b, hl, hr, by simp⟩
  | n + 1, node _ _ _, [], h => h
  | 0, node pin _ _, b :: p, h => by
    obtain ⟨a, c, rfl, rfl, hac⟩ := h
    cases b <;> cases p <;> exact ⟨a, c, rfl, rfl, hac⟩
  | n + 1, node _ l r, true :: p, h => ⟨h.1, h.2.pinAt p⟩
  | n + 1, node _ l r, false :: p, h => ⟨h.1.pinAt p, h.2⟩

variable [DecidableEq α]

theorem Settled.markAt {free mark : α} : ∀ {n : ℕ} {t : BitTrie α} {p : List Bool}, Settled n t →
    p.length ≤ n → Settled n (t.markAt free mark p)
  | n, leaf a, [], h, _ => by
    unfold BitTrie.markAt
    split_ifs <;> exact settled_leaf n _
  | 0, node _ _ _, [], h, _ => h
  | n + 1, node _ _ _, [], h, _ => h
  | 0, _, _ :: _, _, hp => by simp at hp
  | n + 1, leaf a, b :: p, h, hp => by
    have ih : Settled n ((leaf free).markAt free mark p) :=
      Settled.markAt (settled_leaf n free) (by simpa using hp)
    unfold BitTrie.markAt
    split_ifs
    · cases b
      · exact ⟨ih, settled_leaf n _⟩
      · exact ⟨settled_leaf n _, ih⟩
    · exact settled_leaf _ _
  | n + 1, node _ l r, true :: p, h, hp => ⟨h.1, h.2.markAt (by simpa using hp)⟩
  | n + 1, node _ l r, false :: p, h, hp => ⟨h.1.markAt (by simpa using hp), h.2⟩

theorem forall_markAt {P : α → Prop} {free mark : α} (hfree : P free)
    (hmark : P mark) : ∀ (p : List Bool) {t : BitTrie α}, t.Forall P → (t.markAt free mark p).Forall P
  | [], leaf a, h => by
    unfold markAt
    split_ifs
    · exact hmark
    · exact h
  | [], node _ _ _, h => h
  | b :: p, leaf a, h => by
    have ih := forall_markAt hfree hmark p (t := leaf free) hfree
    unfold markAt
    split_ifs
    · cases b
      · exact ⟨ih, hfree⟩
      · exact ⟨hfree, ih⟩
    · exact h
  | true :: p, node _ l r, h => ⟨h.1, forall_markAt hfree hmark p h.2⟩
  | false :: p, node _ l r, h => ⟨forall_markAt hfree hmark p h.1, h.2⟩

theorem settled_join {n : ℕ} {pin : Bool} {l r : BitTrie α} (hl : Settled n l)
    (hr : Settled n r) : Settled (n + 1) (join pin l r) := by
  rcases join_cases pin l r with ⟨h, -⟩ | ⟨a, -, -, -, h⟩ <;> rw [h]
  · exact ⟨hl, hr⟩
  · exact settled_leaf _ _

theorem settled_join_leaf (n : ℕ) (pin : Bool) (a b : α) :
    Settled n (join pin (leaf a) (leaf b)) := by
  rcases join_cases pin (leaf a) (leaf b) with ⟨h, hne⟩ | ⟨c, -, -, -, h⟩ <;> rw [h]
  · cases n with
    | zero => exact ⟨a, b, rfl, rfl, fun hp hab => hne hp a rfl (by rw [hab])⟩
    | succ n => exact ⟨settled_leaf n a, settled_leaf n b⟩
  · exact settled_leaf n c

section Update

variable {f : α → Exec ε σ α}

theorem paintM_leaf {a : α} {t' : BitTrie α} {s s' : σ} (h : (leaf a).paintM f s = (.ok t', s')) :
    ∃ b, t' = leaf b := by
  obtain ⟨b, s₁, -, h2⟩ := Exec.bind_eq_ok h
  simp only [Exec.pure_apply, Prod.mk.injEq, Except.ok.injEq] at h2
  exact ⟨b, h2.1.symm⟩

theorem paintM_settled : ∀ {n : ℕ} {t t' : BitTrie α} {s s' : σ}, Settled n t →
    t.paintM f s = (.ok t', s') → Settled n t'
  | n, leaf a, t', s, s', _, h => by
    obtain ⟨b, rfl⟩ := paintM_leaf h
    exact settled_leaf n b
  | n, node pin l r, t', s, s', hs, h => by
    obtain ⟨l', s₁, h1, h2⟩ := Exec.bind_eq_ok h
    obtain ⟨r', s₂, h3, h4⟩ := Exec.bind_eq_ok h2
    simp only [Exec.pure_apply, Prod.mk.injEq, Except.ok.injEq] at h4
    obtain ⟨rfl, -⟩ := h4
    cases n with
    | zero =>
      obtain ⟨a, b, rfl, rfl, -⟩ := hs
      obtain ⟨a', rfl⟩ := paintM_leaf h1
      obtain ⟨b', rfl⟩ := paintM_leaf h3
      exact settled_join_leaf 0 pin a' b'
    | succ n => exact settled_join (paintM_settled hs.1 h1) (paintM_settled hs.2 h3)

/-- An update keeps to the level its path reaches. -/
theorem updateM_settled : ∀ {n : ℕ} {p : List Bool} {l r : BitTrie α} {lr : BitTrie α × BitTrie α}
    {s s' : σ}, Settled n l → Settled n r → p.length ≤ n + 1 →
    updateM f p l r s = (.ok lr, s') → Settled n lr.1 ∧ Settled n lr.2
  | n, [], l, r, lr, s, s', hl, hr, _, h => by
    obtain ⟨l', s₁, h1, h2⟩ := Exec.bind_eq_ok h
    obtain ⟨r', s₂, h3, h4⟩ := Exec.bind_eq_ok h2
    simp only [Exec.pure_apply, Prod.mk.injEq, Except.ok.injEq] at h4
    obtain ⟨rfl, -⟩ := h4
    exact ⟨paintM_settled hl h1, paintM_settled hr h3⟩
  | n, b :: p, l, r, lr, s, s', hl, hr, hp, h => by
    have hp' : p.length ≤ n := by simpa using hp
    have child : ∀ t : BitTrie α, Settled n t → ∀ {lr' s₁},
        updateM f p t.kids.2.1 t.kids.2.2 s = (.ok lr', s₁) →
        Settled n (join t.kids.1 lr'.1 lr'.2) := by
      intro t ht lr' s₁ h1
      rcases n with _ | n
      · obtain rfl : p = [] := List.length_eq_zero_iff.mp (by omega)
        obtain ⟨l', s₂, h2, h3⟩ := Exec.bind_eq_ok h1
        obtain ⟨r', s₃, h4, h5⟩ := Exec.bind_eq_ok h3
        simp only [Exec.pure_apply, Prod.mk.injEq, Except.ok.injEq] at h5
        obtain ⟨rfl, -⟩ := h5
        rcases t with a | ⟨pin, l₀, r₀⟩
        · obtain ⟨a', rfl⟩ := paintM_leaf h2
          obtain ⟨b', rfl⟩ := paintM_leaf h4
          exact settled_join_leaf 0 false a' b'
        · obtain ⟨a, c, rfl, rfl, -⟩ := ht
          obtain ⟨a', rfl⟩ := paintM_leaf h2
          obtain ⟨b', rfl⟩ := paintM_leaf h4
          exact settled_join_leaf 0 pin a' b'
      · have hk : Settled n t.kids.2.1 ∧ Settled n t.kids.2.2 := by
          rcases t with a | ⟨pin, l₀, r₀⟩
          · exact ⟨settled_leaf n a, settled_leaf n a⟩
          · exact ht
        obtain ⟨h2, h3⟩ := updateM_settled hk.1 hk.2 hp' h1
        exact settled_join h2 h3
    cases b with
    | true =>
      obtain ⟨lr', s₁, h1, h2⟩ := Exec.bind_eq_ok h
      simp only [Exec.pure_apply, Prod.mk.injEq, Except.ok.injEq] at h2
      obtain ⟨rfl, -⟩ := h2
      exact ⟨hl, child r hr h1⟩
    | false =>
      obtain ⟨lr', s₁, h1, h2⟩ := Exec.bind_eq_ok h
      simp only [Exec.pure_apply, Prod.mk.injEq, Except.ok.injEq] at h2
      obtain ⟨rfl, -⟩ := h2
      exact ⟨child l hl h1, hr⟩

end Update

end Settled

end BitTrie
