import MmdbWriter.Proofs.Referred

/-!
# The representation of the trees of inserts

A step of the walk writes one record: a leaf, or the node it has just put at the end of the vector.
So in the whole vector every record leads forward and no two lead to one node, whichever way the walk
goes and wherever it stops. That no node below the root could be merged is read off the stored trie.
-/

namespace MmdbWriter

open BitTrie (leaf node)
open Exec

namespace Tree

/-- A record of a leaf that may hold data. -/
def IsSlot (rec : Record) : Prop := rec = .noData ∨ ∃ id, rec = .data id

/-- A slot, or a record that leads to a node which may be merged. -/
def IsPlain (rec : Record) : Prop := IsSlot rec ∨ ∃ j, rec = .node j

/-- Every record of the vector is free, holds data or leads forward, and no two lead to one node. -/
structure Linked (t : Tree) : Prop where
  plain : ∀ (i : ℕ) (n : Node) (b : Bool), t.nodes[i]? = some n → IsPlain (n.child b)
  forward : ∀ i b j, t.Points i b j → i < j ∧ j < t.nodes.length
  single : ∀ i b i' b' j, t.Points i b j → t.Points i' b' j → i = i' ∧ b = b'

section Points

variable {t : Tree} {i k j : ℕ} {n : Node} {b c : Bool} {rec : Record}

theorem points_iff (h : t.nodes[i]? = some n) : t.Points i b j ↔ (n.child b).target = some j := by
  unfold Points
  simp [h]

theorem IsSlot.target (h : IsSlot rec) : rec.target = none := by
  rcases h with rfl | ⟨id, rfl⟩ <;> rfl

theorem points_set (h : t.nodes[i]? = some n) :
    (Tree.mk (t.nodes.set i (n.setChild b rec))).Points k c j ↔
      if k = i ∧ c = b then rec.target = some j else t.Points k c j := by
  have hlt := (List.getElem?_eq_some_iff.mp h).1
  by_cases hk : k = i
  · subst hk
    rw [points_iff (List.getElem?_set_self hlt), points_iff h]
    cases b <;> cases c <;> simp [Node.child, Node.setChild]
  · unfold Points
    simp [hk, List.getElem?_set_ne (Ne.symm hk)]

theorem points_append : (Tree.mk (t.nodes ++ [n])).Points k c j ↔
    t.Points k c j ∨ k = t.nodes.length ∧ (n.child c).target = some j := by
  unfold Points
  rcases lt_trichotomy k t.nodes.length with hlt | rfl | hgt
  · rw [List.getElem?_append_left hlt]
    simp [hlt.ne]
  · simp
  · have h1 : t.nodes[k]? = none := List.getElem?_eq_none hgt.le
    have h2 : (t.nodes ++ [n])[k]? = none := List.getElem?_eq_none (by simp; omega)
    simp [h1, h2, hgt.ne']

end Points

section Steps

variable {t : Tree} {i : ℕ} {n : Node} {b : Bool}

theorem linked_new : Linked Tree.new where
  plain i n b h := by
    rcases i with _ | i
    · cases h
      exact Or.inl (Or.inl (by cases b <;> rfl))
    · cases h
  forward i b j h := by
    obtain ⟨n, hn, hj⟩ := h
    rcases i with _ | i
    · cases hn
      cases b <;> cases hj
    · cases hn
  single i b i' b' j h := by
    obtain ⟨n, hn, hj⟩ := h
    rcases i with _ | i
    · cases hn
      cases b <;> cases hj
    · cases hn

theorem plain_set (h : ∀ (k : ℕ) (m : Node) (c : Bool), t.nodes[k]? = some m → IsPlain (m.child c))
    (hn : t.nodes[i]? = some n) {rec : Record} (hrec : IsPlain rec) {k : ℕ} {m : Node} {c : Bool}
    (hm : (t.nodes.set i (n.setChild b rec))[k]? = some m) : IsPlain (m.child c) := by
  by_cases hk : k = i
  · subst hk
    rw [List.getElem?_set_self (List.getElem?_eq_some_iff.mp hn).1, Option.some.injEq] at hm
    subst hm
    rcases Bool.eq_or_eq_not c b with rfl | rfl
    · rw [Node.child_setChild_self]
      exact hrec
    · rw [Node.child_setChild_not]
      exact h k n _ hn
  · rw [List.getElem?_set_ne (Ne.symm hk)] at hm
    exact h k m c hm

theorem plain_append (h : ∀ (k : ℕ) (m : Node) (c : Bool), t.nodes[k]? = some m → IsPlain (m.child c))
    {new : Node} (hnew : ∀ c, IsSlot (new.child c)) (k : ℕ) (m : Node) (c : Bool)
    (hm : (t.nodes ++ [new])[k]? = some m) : IsPlain (m.child c) := by
  by_cases hk : k < t.nodes.length
  · rw [List.getElem?_append_left hk] at hm
    exact h k m c hm
  · rw [List.getElem?_append_right (by omega), List.getElem?_singleton] at hm
    split_ifs at hm
    rw [Option.some.injEq] at hm
    exact hm ▸ Or.inl (hnew c)

/-- A record is freed or filled. -/
theorem Linked.set_slot (h : t.Linked) (hn : t.nodes[i]? = some n) {rec : Record}
    (hrec : IsSlot rec) : (Tree.mk (t.nodes.set i (n.setChild b rec))).Linked := by
  have hpoints : ∀ {k c j}, (Tree.mk (t.nodes.set i (n.setChild b rec))).Points k c j →
      t.Points k c j := by
    intro k c j hp
    rw [points_set hn] at hp
    split_ifs at hp
    · rw [hrec.target] at hp
      cases hp
    · exact hp
  refine ⟨fun k m c hm => plain_set h.plain hn (Or.inl hrec) hm, fun k c j hp => ?_,
    fun k c k' c' j hp hp' => h.single k c k' c' j (hpoints hp) (hpoints hp')⟩
  rw [List.length_set]
  exact h.forward k c j (hpoints hp)

/-- A new node is put at the end, and a record of an old one leads to it. -/
theorem Linked.link (h : t.Linked) (hn : t.nodes[i]? = some n) {new : Node}
    (hnew : ∀ c, IsSlot (new.child c)) :
    (Tree.mk ((t.nodes ++ [new]).set i (n.setChild b (.node t.nodes.length)))).Linked := by
  have hlt := (List.getElem?_eq_some_iff.mp hn).1
  have hn' : (Tree.mk (t.nodes ++ [new])).nodes[i]? = some n := by
    rw [List.getElem?_append_left hlt, hn]
  have hpoints : ∀ {k c j},
      (Tree.mk ((t.nodes ++ [new]).set i (n.setChild b (.node t.nodes.length)))).Points k c j →
      (k = i ∧ c = b ∧ j = t.nodes.length) ∨ t.Points k c j ∧ j < t.nodes.length := by
    intro k c j hp
    rw [points_set hn', points_append, (hnew c).target] at hp
    split_ifs at hp with hkc
    · exact Or.inl ⟨hkc.1, hkc.2, (Option.some.inj hp).symm⟩
    · rcases hp with hp | ⟨-, hp⟩
      · exact Or.inr ⟨hp, (h.forward k c j hp).2⟩
      · cases hp
  refine ⟨fun k m c hm => plain_set (plain_append h.plain hnew) hn' (Or.inr ⟨_, rfl⟩) hm,
    fun k c j hp => ?_, fun k c k' c' j hp hp' => ?_⟩
  · rw [List.length_set, List.length_append, List.length_singleton]
    rcases hpoints hp with ⟨rfl, -, rfl⟩ | ⟨hp, hj⟩
    · omega
    · have := (h.forward k c j hp).1
      omega
  · rcases hpoints hp with ⟨rfl, rfl, rfl⟩ | ⟨hp, hj⟩ <;>
      rcases hpoints hp' with ⟨rfl, rfl, hj'⟩ | ⟨hp', hj'⟩
    · exact ⟨rfl, rfl⟩
    · omega
    · omega
    · exact h.single k c k' c' j hp hp'

end Steps

section Insert

variable {σ : Type}

theorem writeChild_linked (i : ℕ) (b : Bool) {rec : Record} (hrec : IsSlot rec) :
    Preserves Linked (writeChild i b rec) := by
  intro t h
  cases hn : t.nodes[i]? with
  | none =>
    unfold writeChild
    rw [bind_error (readNode_eq_panic hn)]
    exact h
  | some n =>
    rw [writeChild_eq hn]
    exact h.set_slot hn hrec

theorem mergeInto_linked (c i : ℕ) (b : Bool) : Preserves (fun s : Tree × σ => s.1.Linked) (do
    let merged ← (tryMergeNode c).onFst
    match merged with
    | some record => (writeChild i b record).onFst
    | none => pure ()) := by
  rintro ⟨t, s⟩ h
  cases hn : t.nodes[c]? with
  | none =>
    have hread : (tryMergeNode c).onFst (t, s) = (.error .panic, t, s) := by
      unfold tryMergeNode
      rw [onFst_apply, bind_error (readNode_eq_panic hn)]
    rw [bind_error hread]
    exact h
  | some n =>
    rw [bind_ok (by rw [onFst_apply, tryMergeNode_eq hn])]
    split_ifs with hm
    · have hleft : IsPlain n.left := h.plain c n false hn
      have hslot : IsSlot n.left := by
        refine hleft.resolve_right ?_
        rintro ⟨j, hj⟩
        rw [hj] at hm
        cases hm.2
      exact (writeChild_linked i b hslot).onFst (t, s) h
    · exact h

theorem insertAtRecord_linked {descend : ℕ → Exec Fault (Tree × σ) Unit}
    (hd : ∀ i, Preserves (fun s => s.1.Linked) (descend i))
    (op : Option ValueId → Exec Fault σ (Option ValueId)) (i : ℕ) (b : Bool) (d p : ℕ) :
    Preserves (fun s => s.1.Linked) (insertAtRecord descend op i b d p) := by
  rintro ⟨t, s⟩ h
  unfold insertAtRecord
  cases hn : t.nodes[i]? with
  | none =>
    have hread : (readNode i).onFst (t, s) = (.error .panic, t, s) := by
      rw [onFst_apply, readNode_eq_panic hn]
    rw [bind_error hread]
    exact h
  | some n =>
    rw [bind_ok (by rw [onFst_apply, readNode_eq hn])]
    have hsplit : ∀ new : Node, (∀ c, IsSlot (new.child c)) → Linked ((do
        let newIdx ← (allocNode new).onFst
        (writeChild i b (.node newIdx)).onFst
        descend newIdx
        let merged ← (tryMergeNode newIdx).onFst
        match merged with
        | some record => (writeChild i b record).onFst
        | none => pure ()) (t, s)).2.1 := by
      intro new hnew
      by_cases hroom : t.nodes.length < 2 ^ 32
      · have hn' : (Tree.mk (t.nodes ++ [new])).nodes[i]? = some n := by
          rw [List.getElem?_append_left (List.getElem?_eq_some_iff.mp hn).1, hn]
        rw [bind_ok (by rw [onFst_apply, allocNode_eq hroom]),
          bind_ok (by rw [onFst_apply, writeChild_eq hn'])]
        exact ((hd _).bind fun _ => mergeInto_linked _ i b) (_, s) (h.link hn hnew)
      · rw [bind_error (by rw [onFst_apply, allocNode_full (by omega)])]
        exact h
    have hchild := h.plain i n b hn
    cases hc : n.child b with
    | node c => exact ((hd c).bind fun _ => mergeInto_linked c i b) (t, s) h
    | fixedNode c => exact hd c (t, s) h
    | aliased c => exact h
    | reserved => exact h
    | noData =>
      dsimp only
      split_ifs
      · refine Preserves.bind (preserves_onSnd _) (fun id => ?_) (t, s) h
        cases id with
        | none => exact preserves_pure _
        | some id => exact (writeChild_linked i b (Or.inr ⟨id, rfl⟩)).onFst
      · exact hsplit _ fun c => Or.inl (by cases c <;> rfl)
    | data oldId =>
      dsimp only
      split_ifs
      · refine Preserves.bind (preserves_onSnd _) (fun id => ?_) (t, s) h
        cases id with
        | none => exact (writeChild_linked i b (Or.inl rfl)).onFst
        | some id => exact (writeChild_linked i b (Or.inr ⟨id, rfl⟩)).onFst
      · exact hsplit _ fun c => Or.inr ⟨oldId, by cases c <;> rfl⟩

/-- Whichever way an insert ends it leaves the nodes linked. -/
theorem insertAtNode_linked (op : Option ValueId → Exec Fault σ (Option ValueId))
    (bits : BitVec 128) (p : ℕ) : ∀ room i d,
    Preserves (fun s => s.1.Linked) (insertAtNode op bits p room i d) := by
  intro room
  induction room with
  | zero => exact fun _ _ => preserves_stop _
  | succ room ih =>
    intro i d
    unfold insertAtNode
    dsimp only
    split_ifs
    · exact (insertAtRecord_linked (fun c => ih c _) op i false _ p).bind fun _ =>
        insertAtRecord_linked (fun c => ih c _) op i true _ p
    · exact (preserves_lift _).bind fun b =>
        insertAtRecord_linked (fun c => ih c _) op i b _ p

end Insert

end Tree

end MmdbWriter
