import MmdbWriter.Lib.Exec

/-!
# Binary tries over bit strings

A trie maps every bit string to the label of the leaf it leads to; a string that ends inside the
trie goes on with `false`. `join` builds a node and collapses it when its two children are the same
leaf, unless the node is pinned, and `norm` does so everywhere. Normal forms are determined by the
map and the pinned positions alone (`norm_congr`).

`updateM` applies an operation to every leaf below a prefix: it walks the prefix, splitting the leaf
it meets on the way, broadcasts below it, and joins on the way up.
-/

/-- A binary trie with labels at its leaves; a pinned node is never collapsed. -/
inductive BitTrie (α : Type) where
  | leaf (a : α)
  | node (pin : Bool) (l r : BitTrie α)
deriving DecidableEq, Repr

namespace BitTrie

variable {α β : Type}

/-- The label a bit string leads to. -/
def eval : BitTrie α → List Bool → α
  | leaf a, _ => a
  | node _ l r, p => bif p.headD false then r.eval p.tail else l.eval p.tail

/-- The length of the longest path to a leaf. -/
def height : BitTrie α → ℕ
  | leaf _ => 0
  | node _ l r => max l.height r.height + 1

/-- The number of nodes. -/
def size : BitTrie α → ℕ
  | leaf _ => 0
  | node _ l r => l.size + r.size + 1

/-- The label of the leaf met at or before the end of a path. -/
def coverAt : BitTrie α → List Bool → Option α
  | leaf a, _ => some a
  | node _ _ _, [] => none
  | node _ l r, b :: p => bif b then r.coverAt p else l.coverAt p

/-- The label of the leaf a path ends at exactly. -/
def leafAt : BitTrie α → List Bool → Option α
  | leaf a, [] => some a
  | leaf _, _ :: _ => none
  | node _ _ _, [] => none
  | node _ l r, b :: p => bif b then r.leafAt p else l.leafAt p

/-- The path ends at a pinned node. -/
def PinnedAt : BitTrie α → List Bool → Prop
  | leaf _, _ => False
  | node pin _ _, [] => pin = true
  | node _ l r, b :: p => bif b then r.PinnedAt p else l.PinnedAt p

/-- No node is pinned. -/
def Unpinned : BitTrie α → Prop
  | leaf _ => True
  | node pin l r => pin = false ∧ l.Unpinned ∧ r.Unpinned

/-- Every leaf's label satisfies `P`. -/
def Forall (P : α → Prop) : BitTrie α → Prop
  | leaf a => P a
  | node _ l r => l.Forall P ∧ r.Forall P

/-- No unpinned node has twice the same leaf below it, for the labels in `P`. -/
def ReducedOn (P : α → Prop) : BitTrie α → Prop
  | leaf _ => True
  | node pin l r => l.ReducedOn P ∧ r.ReducedOn P ∧
      (pin = false → ∀ a, P a → l = leaf a → r ≠ leaf a)

/-- Two tries of one shape, the labels related leaf by leaf. -/
def Rel (R : α → β → Prop) : BitTrie α → BitTrie β → Prop
  | leaf a, leaf b => R a b
  | node pin l r, node pin' l' r' => pin = pin' ∧ l.Rel R l' ∧ r.Rel R r'
  | _, _ => False

/-- The pin and the children of a trie; a leaf splits into twice itself. -/
def kids : BitTrie α → Bool × BitTrie α × BitTrie α
  | leaf a => (false, leaf a, leaf a)
  | node pin l r => (pin, l, r)

/-- The leaves with their paths, from left to right. -/
def leaves : BitTrie α → List (List Bool × α)
  | leaf a => [([], a)]
  | node _ l r => l.leaves.map (fun e => (false :: e.1, e.2)) ++
      r.leaves.map (fun e => (true :: e.1, e.2))

section Eval

@[simp] theorem eval_leaf (a : α) (p : List Bool) : (leaf a).eval p = a := by simp [eval]

@[simp] theorem eval_node_nil (pin : Bool) (l r : BitTrie α) :
    (node pin l r).eval [] = l.eval [] := by simp [eval]

@[simp] theorem eval_node_cons (pin b : Bool) (l r : BitTrie α) (p : List Bool) :
    (node pin l r).eval (b :: p) = bif b then r.eval p else l.eval p := by simp [eval]

theorem eval_pin (pin pin' : Bool) (l r : BitTrie α) (p : List Bool) :
    (node pin l r).eval p = (node pin' l r).eval p := by cases p <;> simp

theorem eval_take : ∀ (t : BitTrie α) (n : ℕ) (p : List Bool), t.height ≤ n →
    t.eval (p.take n) = t.eval p
  | leaf _, _, _, _ => by simp
  | node _ _ _, 0, _, h => by simp [height] at h
  | node _ _ _, _ + 1, [], _ => by simp
  | node _ l r, n + 1, b :: p, h => by
    simp only [height] at h
    simp only [List.take_succ_cons, eval_node_cons]
    rw [eval_take r n p (by omega), eval_take l n p (by omega)]

theorem eval_append_replicate : ∀ (t : BitTrie α) (p : List Bool) (k : ℕ),
    t.eval (p ++ List.replicate k false) = t.eval p
  | leaf _, _, _ => by simp
  | node _ _ _, [], 0 => by simp
  | node pin l r, [], k + 1 => by
    have := eval_append_replicate l [] k
    simpa [List.replicate_succ] using this
  | node _ l r, b :: p, k => by
    simp only [List.cons_append, eval_node_cons]
    rw [eval_append_replicate r p k, eval_append_replicate l p k]

/-- Two tries no higher than `n` that agree on the strings of length `n` agree everywhere. -/
theorem eval_ext_of_height {t u : BitTrie α} {n : ℕ} (ht : t.height ≤ n) (hu : u.height ≤ n)
    (h : ∀ p : List Bool, p.length = n → t.eval p = u.eval p) (p : List Bool) :
    t.eval p = u.eval p := by
  have hlen : (p.take n ++ List.replicate (n - p.length) false).length = n := by
    simp only [List.length_append, List.length_take, List.length_replicate]
    omega
  have := h _ hlen
  rwa [eval_append_replicate, eval_append_replicate, eval_take t n p ht, eval_take u n p hu]
    at this

theorem coverAt_eq_some : ∀ {t : BitTrie α} {p : List Bool} {a : α}, t.coverAt p = some a →
    ∀ q, t.eval (p ++ q) = a
  | leaf _, _, _, h, _ => by simpa [coverAt] using h
  | node _ _ _, [], _, h, _ => by simp [coverAt] at h
  | node _ l r, b :: p, _, h, q => by
    cases b <;> simp only [coverAt, cond_true, cond_false] at h <;>
      simpa using coverAt_eq_some h q

theorem coverAt_of_leafAt : ∀ {t : BitTrie α} {p : List Bool} {a : α}, t.leafAt p = some a →
    t.coverAt p = some a
  | leaf _, [], _, h => by simpa [coverAt, leafAt] using h
  | leaf _, _ :: _, _, h => by simp [leafAt] at h
  | node _ _ _, [], _, h => by simp [leafAt] at h
  | node _ l r, b :: p, _, h => by
    cases b <;> simp only [leafAt, cond_true, cond_false] at h <;>
      simpa [coverAt] using coverAt_of_leafAt h

/-- A path to a leaf has no leaf at its proper prefixes. -/
theorem coverAt_of_leafAt_append : ∀ {t : BitTrie α} {p q : List Bool} {a : α},
    t.leafAt (p ++ q) = some a → q ≠ [] → t.coverAt p = none
  | leaf _, p, q, _, h, hq => by
    rcases p with _ | ⟨b, p⟩ <;> rcases q with _ | ⟨c, q⟩ <;> simp [leafAt] at h hq
  | node _ _ _, [], _, _, _, _ => by simp [coverAt]
  | node _ l r, b :: p, _, _, h, hq => by
    cases b <;> simp only [List.cons_append, leafAt, cond_true, cond_false] at h <;>
      simpa [coverAt] using coverAt_of_leafAt_append h hq

theorem exists_leafAt_of_coverAt : ∀ {t : BitTrie α} {p : List Bool} {a : α},
    t.coverAt p = some a → ∃ q, q <+: p ∧ t.leafAt q = some a
  | leaf _, p, _, h => ⟨[], List.nil_prefix, by simpa [coverAt, leafAt] using h⟩
  | node _ _ _, [], _, h => by simp [coverAt] at h
  | node _ l r, b :: p, _, h => by
    cases b <;> simp only [coverAt, cond_true, cond_false] at h <;>
      obtain ⟨q, hq, hl⟩ := exists_leafAt_of_coverAt h
    · exact ⟨false :: q, by simpa using hq, by simpa [leafAt] using hl⟩
    · exact ⟨true :: q, by simpa using hq, by simpa [leafAt] using hl⟩

theorem coverAt_of_height_le : ∀ {t : BitTrie α} {p : List Bool}, t.height ≤ p.length →
    t.coverAt p = some (t.eval p)
  | leaf _, _, _ => by simp [coverAt]
  | node _ _ _, [], h => by simp [height] at h
  | node _ l r, b :: p, h => by
    simp only [height, List.length_cons] at h
    cases b
    · simpa [coverAt] using coverAt_of_height_le (t := l) (p := p) (by omega)
    · simpa [coverAt] using coverAt_of_height_le (t := r) (p := p) (by omega)

theorem mem_leaves : ∀ {t : BitTrie α} {p : List Bool} {a : α},
    (p, a) ∈ t.leaves ↔ t.leafAt p = some a
  | leaf b, p, a => by cases p <;> simp [leaves, leafAt, eq_comm]
  | node _ l r, p, a => by
    simp only [leaves, List.mem_append, List.mem_map, Prod.mk.injEq, Prod.exists]
    rcases p with _ | ⟨_ | _, p⟩ <;> simp [leafAt, mem_leaves]

theorem length_le_of_leafAt : ∀ {t : BitTrie α} {p : List Bool} {a : α}, t.leafAt p = some a →
    p.length ≤ t.height
  | leaf _, [], _, _ => by simp
  | leaf _, _ :: _, _, h => by simp [leafAt] at h
  | node _ _ _, [], _, h => by simp [leafAt] at h
  | node _ l r, b :: p, _, h => by
    cases b <;> simp only [leafAt, cond_true, cond_false] at h <;>
      have := length_le_of_leafAt h <;> simp only [height, List.length_cons] <;> omega

/-- No leaf's path is a prefix of another's. -/
theorem leaves_pairwise : ∀ t : BitTrie α,
    t.leaves.Pairwise fun e e' => ¬ e.1 <+: e'.1 ∧ ¬ e'.1 <+: e.1
  | leaf _ => by simp [leaves]
  | node _ l r => by
    simp only [leaves, List.pairwise_append, List.pairwise_map, List.mem_map, List.cons_prefix_cons,
      true_and]
    refine ⟨leaves_pairwise l, leaves_pairwise r, ?_⟩
    rintro _ ⟨e, -, rfl⟩ _ ⟨e', -, rfl⟩
    simp [List.cons_prefix_cons]

theorem Unpinned.not_pinnedAt : ∀ {t : BitTrie α}, t.Unpinned → ∀ p, ¬ t.PinnedAt p
  | leaf _, _, _ => by simp [PinnedAt]
  | node _ _ _, h, [] => by simp [PinnedAt, h.1]
  | node _ _ _, h, true :: p => by simpa [PinnedAt] using h.2.2.not_pinnedAt p
  | node _ _ _, h, false :: p => by simpa [PinnedAt] using h.2.1.not_pinnedAt p

theorem Forall.eval {P : α → Prop} : ∀ {t : BitTrie α}, t.Forall P → ∀ p, P (t.eval p)
  | leaf _, h, _ => by simpa [Forall] using h
  | node _ _ _, h, [] => by simpa using h.1.eval []
  | node _ _ _, h, true :: p => by simpa using h.2.eval p
  | node _ _ _, h, false :: p => by simpa using h.1.eval p

theorem Forall.mono {P Q : α → Prop} (hPQ : ∀ a, P a → Q a) :
    ∀ {t : BitTrie α}, t.Forall P → t.Forall Q
  | leaf _, h => hPQ _ h
  | node _ _ _, h => ⟨h.1.mono hPQ, h.2.mono hPQ⟩

theorem forall_of_eval {P : α → Prop} : ∀ {t : BitTrie α}, (∀ p, P (t.eval p)) → t.Forall P
  | leaf _, h => by simpa [Forall] using h []
  | node _ _ _, h =>
    ⟨forall_of_eval fun p => by simpa using h (false :: p),
      forall_of_eval fun p => by simpa using h (true :: p)⟩

end Eval

section Kids

theorem eval_kids (t : BitTrie α) (p : List Bool) :
    (node t.kids.1 t.kids.2.1 t.kids.2.2).eval p = t.eval p := by
  rcases t with a | ⟨pin, l, r⟩
  · rcases p with _ | ⟨b, p⟩ <;> simp [kids]
  · rfl

theorem unpinned_kids {t : BitTrie α} (h : t.Unpinned) :
    t.kids.1 = false ∧ t.kids.2.1.Unpinned ∧ t.kids.2.2.Unpinned := by
  rcases t with a | ⟨pin, l, r⟩
  · exact ⟨rfl, trivial, trivial⟩
  · exact h

theorem reducedOn_kids {P : α → Prop} {t : BitTrie α} (h : t.ReducedOn P) :
    t.kids.2.1.ReducedOn P ∧ t.kids.2.2.ReducedOn P := by
  rcases t with a | ⟨pin, l, r⟩
  · exact ⟨trivial, trivial⟩
  · exact ⟨h.1, h.2.1⟩

theorem height_kids_le {t : BitTrie α} {n : ℕ} (h : t.height ≤ n + 1) :
    t.kids.2.1.height ≤ n ∧ t.kids.2.2.height ≤ n := by
  rcases t with a | ⟨pin, l, r⟩
  · simp [kids, height]
  · simp only [height] at h
    simp only [kids]
    omega

theorem Rel.kids {R : α → β → Prop} {t : BitTrie α} {u : BitTrie β} (h : t.Rel R u) :
    t.kids.1 = u.kids.1 ∧ t.kids.2.1.Rel R u.kids.2.1 ∧ t.kids.2.2.Rel R u.kids.2.2 := by
  rcases t with a | ⟨pin, l, r⟩ <;> rcases u with b | ⟨pin', l', r'⟩
  · exact ⟨rfl, h, h⟩
  · exact h.elim
  · exact h.elim
  · exact h

end Kids

section SameMap

/-- The later trie has the earlier one's map, no pins of its own, and is no higher than `n`. -/
structure SameMap (n : ℕ) (t t' : BitTrie α) : Prop where
  eval : ∀ p, t'.eval p = t.eval p
  unpinned : t.Unpinned → t'.Unpinned
  height : t'.height ≤ n

end SameMap

section Reduced

/-- A reduced unpinned trie with one label everywhere is a leaf. -/
theorem eq_leaf_of_reducedOn {P : α → Prop} {a : α} (ha : P a) : ∀ {t : BitTrie α},
    t.Unpinned → t.ReducedOn P → (∀ p, t.eval p = a) → t = leaf a
  | leaf b, _, _, h => by
    have := h []
    rw [eval_leaf] at this
    rw [this]
  | node pin l r, hu, hr, h => by
    have h1 : l = leaf a :=
      eq_leaf_of_reducedOn ha hu.2.1 hr.1 fun p => by simpa using h (false :: p)
    have h2 : r = leaf a :=
      eq_leaf_of_reducedOn ha hu.2.2 hr.2.1 fun p => by simpa using h (true :: p)
    exact absurd h2 (hr.2.2 hu.1 a ha h1)

/-- Where a reduced unpinned trie has one label below a path, a leaf covers the path. -/
theorem coverAt_of_uniform {P : α → Prop} {a : α} (ha : P a) : ∀ {t : BitTrie α} {p : List Bool},
    t.Unpinned → t.ReducedOn P → (∀ q, t.eval (p ++ q) = a) → t.coverAt p = some a
  | t, [], hu, hr, h => by
    rw [eq_leaf_of_reducedOn ha hu hr (by simpa using h), coverAt]
  | leaf b, c :: p, _, _, h => by
    have := h []
    rw [eval_leaf] at this
    rw [coverAt, this]
  | node pin l r, true :: p, hu, hr, h => by
    simpa [coverAt] using coverAt_of_uniform ha hu.2.2 hr.2.1 (by simpa using h)
  | node pin l r, false :: p, hu, hr, h => by
    simpa [coverAt] using coverAt_of_uniform ha hu.2.1 hr.1 (by simpa using h)

/-- The leaves of a reduced unpinned trie are the maximal blocks with one label. -/
theorem leafAt_iff_maximal {t : BitTrie α} (hu : t.Unpinned) (hr : t.ReducedOn fun _ => True)
    {p : List Bool} {a : α} : t.leafAt p = some a ↔
      (∀ q, t.eval (p ++ q) = a) ∧
        ∀ p', p' <+: p → (∃ b, ∀ q, t.eval (p' ++ q) = b) → p' = p := by
  constructor
  · intro h
    refine ⟨coverAt_eq_some (coverAt_of_leafAt h), ?_⟩
    rintro p' ⟨s, rfl⟩ ⟨b, hb⟩
    by_contra hne
    have hs : s ≠ [] := by
      rintro rfl
      simp at hne
    have h1 := coverAt_of_leafAt_append h hs
    rw [coverAt_of_uniform (P := fun _ => True) trivial hu hr hb] at h1
    simp at h1
  · rintro ⟨h, hmax⟩
    obtain ⟨p', hp', hl⟩ :=
      exists_leafAt_of_coverAt (coverAt_of_uniform (P := fun _ => True) trivial hu hr h)
    have := hmax p' hp' ⟨a, coverAt_eq_some (coverAt_of_leafAt hl)⟩
    rwa [this] at hl

end Reduced

section Norm

variable [DecidableEq α]

/-- The node with the two children, or their label if they are the same leaf and may be merged. -/
def join (pin : Bool) (l r : BitTrie α) : BitTrie α :=
  match pin, l, r with
  | false, leaf a, leaf b => if a = b then leaf a else node false (leaf a) (leaf b)
  | pin, l, r => node pin l r

/-- Every node whose children come to be the same leaf collapsed, the pinned ones kept. -/
def norm : BitTrie α → BitTrie α
  | leaf a => leaf a
  | node pin l r => join pin l.norm r.norm

/-- Every node below the root collapsed that can be. -/
def normKids : BitTrie α → BitTrie α
  | leaf a => leaf a
  | node pin l r => node pin l.norm r.norm

theorem join_leaf_self (a : α) : join false (leaf a) (leaf a) = leaf a := by simp [join]

/-- A join is a node, or both its children were the leaf it is. -/
theorem join_cases (pin : Bool) (l r : BitTrie α) :
    (join pin l r = node pin l r ∧ (pin = false → ∀ a, l = leaf a → r ≠ leaf a)) ∨
      ∃ a, pin = false ∧ l = leaf a ∧ r = leaf a ∧ join pin l r = leaf a := by
  unfold join
  split
  · rename_i a b
    split_ifs with h
    · exact Or.inr ⟨a, rfl, rfl, by rw [h], rfl⟩
    · refine Or.inl ⟨rfl, fun _ c hc hd => h ?_⟩
      rw [leaf.injEq] at hc hd
      rw [hc, hd]
  · rename_i hne
    refine Or.inl ⟨rfl, fun hp a hl hr => hne a a hp hl hr⟩

theorem eval_join (pin : Bool) (l r : BitTrie α) (p : List Bool) :
    (join pin l r).eval p = (node pin l r).eval p := by
  rcases join_cases pin l r with ⟨h, -⟩ | ⟨a, -, rfl, rfl, h⟩
  · rw [h]
  · rw [h]
    rcases p with _ | ⟨b, p⟩ <;> simp

theorem height_join_le (pin : Bool) (l r : BitTrie α) :
    (join pin l r).height ≤ max l.height r.height + 1 := by
  rcases join_cases pin l r with ⟨h, -⟩ | ⟨a, -, rfl, rfl, h⟩ <;> rw [h] <;> simp [height]

theorem reducedOn_join {P : α → Prop} {pin : Bool} {l r : BitTrie α} (hl : l.ReducedOn P)
    (hr : r.ReducedOn P) : (join pin l r).ReducedOn P := by
  rcases join_cases pin l r with ⟨h, hne⟩ | ⟨a, -, -, -, h⟩
  · rw [h]
    exact ⟨hl, hr, fun hp a _ => hne hp a⟩
  · rw [h]
    trivial

theorem unpinned_join {l r : BitTrie α} (hl : l.Unpinned) (hr : r.Unpinned) :
    (join false l r).Unpinned := by
  rcases join_cases false l r with ⟨h, -⟩ | ⟨a, -, -, -, h⟩ <;> rw [h]
  · exact ⟨rfl, hl, hr⟩
  · trivial

theorem eval_norm : ∀ (t : BitTrie α) (p : List Bool), t.norm.eval p = t.eval p
  | leaf _, _ => rfl
  | node pin l r, p => by
    rw [norm, eval_join]
    rcases p with _ | ⟨b, p⟩ <;> simp [eval_norm l, eval_norm r]

theorem eval_normKids (t : BitTrie α) (p : List Bool) : t.normKids.eval p = t.eval p := by
  rcases t with _ | ⟨pin, l, r⟩
  · rfl
  · rcases p with _ | ⟨_ | _, p⟩ <;> simp [normKids, eval_norm]

theorem height_norm_le : ∀ t : BitTrie α, t.norm.height ≤ t.height
  | leaf _ => le_rfl
  | node pin l r => by
    have hl := height_norm_le l
    have hr := height_norm_le r
    have := height_join_le pin l.norm r.norm
    simp only [norm, height]
    omega

theorem reducedOn_norm (P : α → Prop) : ∀ t : BitTrie α, t.norm.ReducedOn P
  | leaf _ => trivial
  | node _ l r => reducedOn_join (reducedOn_norm P l) (reducedOn_norm P r)

theorem Unpinned.norm : ∀ {t : BitTrie α}, t.Unpinned → t.norm.Unpinned
  | leaf _, _ => trivial
  | node _ _ _, h => by
    rw [BitTrie.norm, h.1]
    exact unpinned_join h.2.1.norm h.2.2.norm

theorem join_eq_node {pin : Bool} {l r : BitTrie α}
    (h : pin = true ∨ (∀ a, l ≠ leaf a) ∨ ∀ a, r ≠ leaf a) : join pin l r = node pin l r := by
  rcases join_cases pin l r with ⟨hj, -⟩ | ⟨a, rfl, rfl, rfl, -⟩
  · exact hj
  · rcases h with h | h | h
    · cases h
    · exact absurd rfl (h a)
    · exact absurd rfl (h a)

omit [DecidableEq α] in
theorem PinnedAt.ne_leaf {t : BitTrie α} {p : List Bool} (h : t.PinnedAt p) (a : α) :
    t ≠ leaf a := by
  rintro rfl
  simp [PinnedAt] at h

/-- Collapsing keeps the pinned nodes at their places. -/
theorem PinnedAt.norm : ∀ {t : BitTrie α} {p : List Bool}, t.PinnedAt p → t.norm.PinnedAt p
  | leaf _, _, h => by simp [PinnedAt] at h
  | node pin l r, [], h => by
    have hpin : pin = true := h
    rw [BitTrie.norm, join_eq_node (Or.inl hpin)]
    exact hpin
  | node pin l r, true :: p, h => by
    have ih : r.norm.PinnedAt p := PinnedAt.norm (t := r) h
    rw [BitTrie.norm, join_eq_node (Or.inr (Or.inr ih.ne_leaf))]
    exact ih
  | node pin l r, false :: p, h => by
    have ih : l.norm.PinnedAt p := PinnedAt.norm (t := l) h
    rw [BitTrie.norm, join_eq_node (Or.inr (Or.inl ih.ne_leaf))]
    exact ih

theorem PinnedAt.of_norm : ∀ {t : BitTrie α} {p : List Bool}, t.norm.PinnedAt p → t.PinnedAt p
  | leaf _, _, h => by simp [BitTrie.norm, PinnedAt] at h
  | node pin l r, p, h => by
    rw [BitTrie.norm] at h
    rcases join_cases pin l.norm r.norm with ⟨hj, -⟩ | ⟨a, -, -, -, hj⟩ <;> rw [hj] at h
    · rcases p with _ | ⟨_ | _, p⟩
      · exact h
      · exact PinnedAt.of_norm (t := l) h
      · exact PinnedAt.of_norm (t := r) h
    · simp [PinnedAt] at h

theorem PinnedAt.of_normKids {t : BitTrie α} {p : List Bool} (h : t.normKids.PinnedAt p) :
    t.PinnedAt p := by
  rcases t with _ | ⟨pin, l, r⟩
  · exact h
  · rcases p with _ | ⟨_ | _, p⟩
    · exact h
    · exact PinnedAt.of_norm (t := l) h
    · exact PinnedAt.of_norm (t := r) h

theorem PinnedAt.normKids {t : BitTrie α} {p : List Bool} (h : t.PinnedAt p) :
    t.normKids.PinnedAt p := by
  rcases t with _ | ⟨pin, l, r⟩
  · exact h
  · rcases p with _ | ⟨_ | _, p⟩
    · exact h
    · exact PinnedAt.norm (t := l) h
    · exact PinnedAt.norm (t := r) h

/-- A trie that maps every string to one label and pins nothing has a leaf for its normal form. -/
theorem norm_eq_leaf {a : α} : ∀ {t : BitTrie α}, (∀ p, ¬ t.PinnedAt p) →
    (∀ p, t.eval p = a) → t.norm = leaf a
  | leaf b, _, h => by
    have := h []
    rw [eval_leaf] at this
    rw [norm, this]
  | node pin l r, hp, h => by
    have hpin : pin = false := by simpa [PinnedAt] using hp []
    have hl : l.norm = leaf a :=
      norm_eq_leaf (fun p => by simpa [PinnedAt] using hp (false :: p))
        fun p => by simpa using h (false :: p)
    have hr : r.norm = leaf a :=
      norm_eq_leaf (fun p => by simpa [PinnedAt] using hp (true :: p))
        fun p => by simpa using h (true :: p)
    rw [norm, hpin, hl, hr, join_leaf_self]

/-- The map and the pinned positions determine the normal form. -/
theorem norm_congr : ∀ {t u : BitTrie α}, (∀ p, t.eval p = u.eval p) →
    (∀ p, t.PinnedAt p ↔ u.PinnedAt p) → t.norm = u.norm
  | leaf a, u, h, hp => by
    refine (norm_eq_leaf (t := u) (fun p => ?_) fun p => ?_).symm
    · rw [← hp p]
      simp [PinnedAt]
    · rw [← h p, eval_leaf]
  | node pin l r, leaf b, h, hp => by
    refine norm_eq_leaf (t := node pin l r) (fun p => ?_) fun p => ?_
    · rw [hp p]
      simp [PinnedAt]
    · rw [h p, eval_leaf]
  | node pin l r, node pin' l' r', h, hp => by
    have hpin : pin = pin' := Bool.eq_iff_iff.mpr (by simpa [PinnedAt] using hp [])
    have hl : l.norm = l'.norm :=
      norm_congr (fun p => by simpa using h (false :: p))
        fun p => by simpa [PinnedAt] using hp (false :: p)
    have hr : r.norm = r'.norm :=
      norm_congr (fun p => by simpa using h (true :: p))
        fun p => by simpa [PinnedAt] using hp (true :: p)
    rw [norm, norm, hpin, hl, hr]

theorem normKids_congr {pin : Bool} {l r l' r' : BitTrie α}
    (h : ∀ p, (node pin l r).eval p = (node pin l' r').eval p)
    (hp : ∀ p, (node pin l r).PinnedAt p ↔ (node pin l' r').PinnedAt p) :
    (node pin l r).normKids = (node pin l' r').normKids := by
  have hl : l.norm = l'.norm :=
    norm_congr (fun p => by simpa using h (false :: p))
      fun p => by simpa [PinnedAt] using hp (false :: p)
  have hr : r.norm = r'.norm :=
    norm_congr (fun p => by simpa using h (true :: p))
      fun p => by simpa [PinnedAt] using hp (true :: p)
  rw [normKids, normKids, hl, hr]

theorem Rel.join {R : α → β → Prop} [DecidableEq β]
    (hR : ∀ a b a' b', R a b → R a' b' → (a = a' ↔ b = b')) {pin : Bool} {l r : BitTrie α}
    {l' r' : BitTrie β} (hl : l.Rel R l') (hr : r.Rel R r') :
    (join pin l r).Rel R (join pin l' r') := by
  have hnode : (node pin l r).Rel R (node pin l' r') := ⟨rfl, hl, hr⟩
  rcases l with a | _ <;> rcases l' with a' | _ <;> rcases r with b | _ <;>
    rcases r' with b' | _ <;> simp only [Rel] at hl hr <;> cases pin <;>
    first
    | exact hnode
    | exact hl.elim
    | exact hr.elim
    | skip
  have := hR _ _ _ _ hl hr
  by_cases h : a = b
  · simpa [BitTrie.join, h, this.mp h, Rel] using hr
  · have h' : a' ≠ b' := fun he => h (this.mpr he)
    simpa [BitTrie.join, h, h', Rel] using ⟨hl, hr⟩

theorem Rel.norm {R : α → β → Prop} [DecidableEq β]
    (hR : ∀ a b a' b', R a b → R a' b' → (a = a' ↔ b = b')) :
    ∀ {t : BitTrie α} {u : BitTrie β}, t.Rel R u → t.norm.Rel R u.norm
  | leaf _, leaf _, h => h
  | node _ _ _, node _ _ _, h => by
    obtain ⟨rfl, hl, hr⟩ := h
    exact Rel.join hR (hl.norm hR) (hr.norm hR)

theorem Rel.normKids {R : α → β → Prop} [DecidableEq β]
    (hR : ∀ a b a' b', R a b → R a' b' → (a = a' ↔ b = b')) {t : BitTrie α} {u : BitTrie β}
    (h : t.Rel R u) : t.normKids.Rel R u.normKids := by
  rcases t with a | ⟨pin, l, r⟩ <;> rcases u with b | ⟨pin', l', r'⟩ <;> simp only [Rel] at h
  · exact h
  · exact ⟨h.1, h.2.1.norm hR, h.2.2.norm hR⟩

end Norm

section Rel

variable {R : α → β → Prop}

theorem Rel.mono {R' : α → β → Prop} (hR : ∀ a b, R a b → R' a b) :
    ∀ {t : BitTrie α} {u : BitTrie β}, t.Rel R u → t.Rel R' u
  | leaf _, leaf _, h => hR _ _ h
  | node _ _ _, node _ _ _, h => ⟨h.1, h.2.1.mono hR, h.2.2.mono hR⟩

theorem Rel.eval : ∀ {t : BitTrie α} {u : BitTrie β}, t.Rel R u → ∀ p, R (t.eval p) (u.eval p)
  | leaf _, leaf _, h, _ => by simpa [Rel] using h
  | node _ _ _, node _ _ _, h, [] => by simpa using h.2.1.eval []
  | node _ _ _, node _ _ _, h, true :: p => by simpa using h.2.2.eval p
  | node _ _ _, node _ _ _, h, false :: p => by simpa using h.2.1.eval p

theorem Rel.height : ∀ {t : BitTrie α} {u : BitTrie β}, t.Rel R u → t.height = u.height
  | leaf _, leaf _, _ => rfl
  | node _ _ _, node _ _ _, h => by simp only [BitTrie.height, h.2.1.height, h.2.2.height]

theorem Rel.size : ∀ {t : BitTrie α} {u : BitTrie β}, t.Rel R u → t.size = u.size
  | leaf _, leaf _, _ => rfl
  | node _ _ _, node _ _ _, h => by simp only [BitTrie.size, h.2.1.size, h.2.2.size]

theorem Rel.unpinned : ∀ {t : BitTrie α} {u : BitTrie β}, t.Rel R u → (t.Unpinned ↔ u.Unpinned)
  | leaf _, leaf _, _ => Iff.rfl
  | node _ _ _, node _ _ _, h => by
    simp only [Unpinned, h.1, h.2.1.unpinned, h.2.2.unpinned]

theorem Rel.refl {R : α → α → Prop} (hR : ∀ a, R a a) : ∀ t : BitTrie α, t.Rel R t
  | leaf a => hR a
  | node _ l r => ⟨rfl, Rel.refl hR l, Rel.refl hR r⟩

/-- Tries related to one trie are related to each other. -/
theorem Rel.comp {γ : Type} {S : γ → β → Prop} {Q : α → γ → Prop}
    (hQ : ∀ a b c, R a b → S c b → Q a c) : ∀ {t : BitTrie α} {u : BitTrie β} {v : BitTrie γ},
    t.Rel R u → v.Rel S u → t.Rel Q v
  | leaf _, leaf _, leaf _, h, h' => hQ _ _ _ h h'
  | node _ _ _, node _ _ _, node _ _ _, h, h' =>
    ⟨h.1.trans h'.1.symm, h.2.1.comp hQ h'.2.1, h.2.2.comp hQ h'.2.2⟩

theorem Rel.reducedOn {P : α → Prop} {P' : β → Prop}
    (hR : ∀ a b a' b', R a b → R a' b' → (a = a' ↔ b = b')) (hP : ∀ a b, R a b → P' b → P a) :
    ∀ {t : BitTrie α} {u : BitTrie β}, t.Rel R u → t.ReducedOn P → u.ReducedOn P'
  | leaf _, leaf _, _, _ => trivial
  | node pin l r, node pin' l' r', h, hred => by
    obtain ⟨rfl, hl, hr⟩ := h
    refine ⟨hl.reducedOn hR hP hred.1, hr.reducedOn hR hP hred.2.1, ?_⟩
    rintro hpin b hb rfl rfl
    rcases l with a | _ <;> rcases r with a' | _ <;> simp only [Rel] at hl hr
    have haa : a = a' := (hR a b a' b hl hr).mpr rfl
    exact hred.2.2 hpin a (hP a b hl hb) rfl (by rw [haa])

theorem exists_rel : ∀ {t : BitTrie α}, (∀ p, ∃ b, R (t.eval p) b) → ∃ u : BitTrie β, t.Rel R u
  | leaf a, h => by
    obtain ⟨b, hb⟩ := h []
    rw [eval_leaf] at hb
    exact ⟨leaf b, hb⟩
  | node pin l r, h => by
    obtain ⟨l', hl⟩ := exists_rel (t := l) fun p => by simpa using h (false :: p)
    obtain ⟨r', hr⟩ := exists_rel (t := r) fun p => by simpa using h (true :: p)
    exact ⟨node pin l' r', rfl, hl, hr⟩

theorem Rel.leaves : ∀ {t : BitTrie α} {u : BitTrie β}, t.Rel R u →
    List.Forall₂ (fun e e' => e.1 = e'.1 ∧ R e.2 e'.2) t.leaves u.leaves
  | leaf _, leaf _, h => List.Forall₂.cons ⟨rfl, h⟩ List.Forall₂.nil
  | node _ _ _, node _ _ _, h => by
    have hcons : ∀ b : Bool, ∀ {es : List (List Bool × α)} {es' : List (List Bool × β)},
        List.Forall₂ (fun e e' => e.1 = e'.1 ∧ R e.2 e'.2) es es' →
        List.Forall₂ (fun e e' => e.1 = e'.1 ∧ R e.2 e'.2) (es.map fun e => (b :: e.1, e.2))
          (es'.map fun e => (b :: e.1, e.2)) := by
      intro b es es' hes
      rw [List.forall₂_map_left_iff, List.forall₂_map_right_iff]
      exact hes.imp fun e e' he => ⟨by rw [he.1], he.2⟩
    exact List.rel_append (hcons false h.2.1.leaves) (hcons true h.2.2.leaves)

theorem Rel.pinnedAt : ∀ {t : BitTrie α} {u : BitTrie β}, t.Rel R u →
    ∀ p, t.PinnedAt p ↔ u.PinnedAt p
  | leaf _, leaf _, _, _ => by simp [PinnedAt]
  | node _ _ _, node _ _ _, h, [] => by simp [PinnedAt, h.1]
  | node _ _ _, node _ _ _, h, true :: p => by simpa [PinnedAt] using h.2.2.pinnedAt p
  | node _ _ _, node _ _ _, h, false :: p => by simpa [PinnedAt] using h.2.1.pinnedAt p

end Rel

end BitTrie
