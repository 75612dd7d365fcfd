import MmdbWriter.Lib.TrieNodes
import MmdbWriter.Proofs.Capacity
import MmdbWriter.Proofs.Linked

/-!
# The nodes an insert makes

An insert of a value makes a node at every prefix of its bits that is none yet, and one more at their
end, whose halves are joined again. An insert that finds the vector of nodes full had more to make than
there was room for.
-/

namespace MmdbWriter

open BitTrie (leaf node)
open Exec (Spends)

/-- One for the failure of `alloc_node`. -/
def Fault.isFull : Fault → ℕ
  | .err (.treeTooLarge _ _ _) => 1
  | _ => 0

namespace Tree

/-- The nodes that an insert at the bits makes below a node: none where the bits lead to nodes, and one
for each bit from a leaf on. -/
def missing (t : Tree) : (bits : List Bool) → (i : ℕ) → ℕ
  | [], _ => 0
  | bit :: bits, i =>
    match t.nodes[i]? with
    | some n =>
      match n.child bit with
      | .node c | .fixedNode c => t.missing bits c
      | .noData | .data _ => bits.length + 1
      | .aliased _ | .reserved => 0
    | none => 0

section Spends

variable {σ : Type} {s : Tree × σ}

theorem spends_readNode (i : ℕ) : Spends size Fault.isFull 0 (readNode i).onFst s :=
  Exec.spends_zero rfl fun e he => by
    obtain ⟨t, u⟩ := s
    rcases hn : t.nodes[i]? with _ | n
    · rw [Exec.onFst_apply, readNode_eq_panic hn] at he
      cases he
      rfl
    · rw [Exec.onFst_apply, readNode_eq hn] at he
      cases he

theorem spends_writeChild (i : ℕ) (b : Bool) (rec : Record) :
    Spends size Fault.isFull 0 (writeChild i b rec).onFst s := by
  obtain ⟨t, u⟩ := s
  rcases hn : t.nodes[i]? with _ | n
  · have hpanic : (writeChild i b rec).onFst (t, u) = (.error .panic, t, u) := by
      unfold writeChild
      rw [Exec.onFst_apply, Exec.bind_error (readNode_eq_panic hn)]
    exact Exec.spends_zero (by rw [hpanic]) fun e he => by
      rw [hpanic] at he
      cases he
      rfl
  · have hwrite : (writeChild i b rec).onFst (t, u) =
        (.ok (), ⟨t.nodes.set i (n.setChild b rec)⟩, u) := by
      rw [Exec.onFst_apply, writeChild_eq hn]
    exact Exec.spends_zero (by rw [hwrite]; exact List.length_set ..) fun e he => by
      rw [hwrite] at he
      cases he

theorem spends_tryMergeNode (i : ℕ) : Spends size Fault.isFull 0 (tryMergeNode i).onFst s := by
  obtain ⟨t, u⟩ := s
  rcases hn : t.nodes[i]? with _ | n
  · have hpanic : (tryMergeNode i).onFst (t, u) = (.error .panic, t, u) := by
      unfold tryMergeNode
      rw [Exec.onFst_apply, Exec.bind_error (readNode_eq_panic hn)]
    exact Exec.spends_zero (by rw [hpanic]) fun e he => by
      rw [hpanic] at he
      cases he
      rfl
  · have hmerge := tryMergeNode_eq hn
    exact Exec.spends_zero (by rw [Exec.onFst_apply, hmerge]) fun e he => by
      rw [Exec.onFst_apply, hmerge] at he
      cases he

theorem spends_allocNode (n : Node) : Spends size Fault.isFull 1 (allocNode n).onFst s := by
  obtain ⟨t, u⟩ := s
  constructor <;> intro res s' h <;> rw [Exec.onFst_apply] at h <;>
    rcases Nat.lt_or_ge t.nodes.length (2 ^ 32) with hroom | hfull
  · rw [allocNode_eq hroom] at h
    cases h
    exact List.length_append ..
  · rw [allocNode_full hfull] at h
    cases h
  · rw [allocNode_eq hroom] at h
    cases h
  · rw [allocNode_full hfull] at h
    cases h
    exact le_rfl

/-- The end of an insert below a record: the two leaves of the node are joined. -/
theorem spends_merge (c i : ℕ) (b : Bool) (s : Tree × σ) : Spends size Fault.isFull 0 (do
    let merged ← (tryMergeNode c).onFst
    match merged with
    | some record => (writeChild i b record).onFst
    | none => pure ()) s :=
  (spends_tryMergeNode c).seq fun merged s' _ => by
    cases merged with
    | some record => exact spends_writeChild i b record
    | none => exact Exec.spends_pure ()

variable {descend : ℕ → Exec Fault (Tree × σ) Unit} {id : ValueId} {newDepth prefixLen i k : ℕ}
  {b : Bool}

/-- Past the prefix no node is made. -/
theorem spends_insertAtRecord_past (hpast : newDepth > prefixLen)
    (hdesc : ∀ c s, Spends size Fault.isFull 0 (descend c) s) (s : Tree × σ) :
    Spends size Fault.isFull 0
      (insertAtRecord descend (fun _ => pure (some id)) i b newDepth prefixLen) s := by
  have hop : ∀ s : Tree × σ, Spends size Fault.isFull 0
      ((pure (some id) : Exec Fault σ (Option ValueId)).onSnd) s := fun s =>
    Exec.spends_zero rfl fun e he => by cases he
  unfold insertAtRecord
  refine (spends_readNode i).seq fun n s' _ => ?_
  cases n.child b with
  | node c => exact (hdesc c s').seq fun _ s'' _ => spends_merge c i b s''
  | fixedNode c => exact hdesc c s'
  | aliased _ | reserved => exact Exec.spends_pure ()
  | noData =>
    dsimp only
    rw [if_pos hpast]
    refine (hop s').seq fun o s'' ho => ?_
    cases ho
    exact spends_writeChild i b _
  | data old =>
    dsimp only
    rw [if_pos hpast]
    refine (hop s').seq fun o s'' ho => ?_
    cases ho
    exact spends_writeChild i b _

theorem spends_insertAtNode_past (bits : BitVec 128) : ∀ (room i depth : ℕ), prefixLen ≤ depth →
    ∀ s : Tree × σ, Spends size Fault.isFull 0
      (insertAtNode (fun _ => pure (some id)) bits prefixLen room i depth) s
  | 0, _, _, _, _ => Exec.spends_stop le_rfl
  | room + 1, i, depth, hdepth, s => by
    have hpast : depth + 1 > prefixLen := by omega
    have hdesc := fun c => spends_insertAtNode_past bits room c (depth + 1) (by omega)
    unfold insertAtNode
    dsimp only
    rw [if_pos hpast]
    exact (spends_insertAtRecord_past hpast hdesc s).seq fun _ s' _ =>
      spends_insertAtRecord_past hpast hdesc s'

theorem missing_of_slots {t : Tree} {c : ℕ} {m : Node} (hc : t.nodes[c]? = some m)
    (hm : ∀ b, IsSlot (m.child b)) : ∀ rest, t.missing rest c = rest.length
  | [] => rfl
  | b :: rest => by rcases hm b with h | ⟨id, h⟩ <;> simp [missing, hc, h]

/-- A leaf is split: there is a new node, and one below it for each bit that is left. -/
theorem spends_split {t : Tree} {u : σ} {n m : Node} (hn : t.nodes[i]? = some n)
    (hm : ∀ b, IsSlot (m.child b)) {rest : List Bool}
    (hdesc : ∀ c s, Spends size Fault.isFull (s.1.missing rest c) (descend c) s) :
    Spends size Fault.isFull (rest.length + 1) (do
      let newIdx ← (allocNode m).onFst
      (writeChild i b (.node newIdx)).onFst
      descend newIdx
      let merged ← (tryMergeNode newIdx).onFst
      match merged with
      | some record => (writeChild i b record).onFst
      | none => pure ()) (t, u) := by
  have hlt : i < t.nodes.length := (List.getElem?_eq_some_iff.mp hn).1
  rw [Nat.add_comm]
  refine (spends_allocNode m).bind fun c s' hs' => ?_
  obtain ⟨rfl, rfl⟩ : c = t.nodes.length ∧ s' = (⟨t.nodes ++ [m]⟩, u) := by
    rw [Exec.onFst_apply] at hs'
    rcases Nat.lt_or_ge t.nodes.length (2 ^ 32) with hroom | hfull
    · rw [allocNode_eq hroom] at hs'
      cases hs'
      exact ⟨rfl, rfl⟩
    · rw [allocNode_full hfull] at hs'
      cases hs'
  refine (spends_writeChild i b _).seq fun _ s' hs' => ?_
  have hn' : (t.nodes ++ [m])[i]? = some n := by rw [List.getElem?_append_left hlt, hn]
  rw [Exec.onFst_apply, writeChild_eq hn'] at hs'
  cases hs'
  have hc : ((t.nodes ++ [m]).set i (n.setChild b (.node t.nodes.length)))[t.nodes.length]? =
      some m := by
    rw [List.getElem?_set_ne (by omega)]
    simp
  have hspends := hdesc t.nodes.length
    (⟨(t.nodes ++ [m]).set i (n.setChild b (.node t.nodes.length))⟩, u)
  rw [missing_of_slots hc hm] at hspends
  exact hspends.before fun _ s' => spends_merge t.nodes.length i b s'

/-- Above the prefix the walk goes on to a node, or a leaf is split. -/
theorem spends_insertAtRecord_above (habove : ¬ newDepth > prefixLen) {rest : List Bool}
    (hdesc : ∀ c s, Spends size Fault.isFull (s.1.missing rest c) (descend c) s) (s : Tree × σ) :
    Spends size Fault.isFull (s.1.missing (b :: rest) i)
      (insertAtRecord descend (fun _ => pure (some id)) i b newDepth prefixLen) s := by
  obtain ⟨t, u⟩ := s
  unfold insertAtRecord
  rcases hn : t.nodes[i]? with _ | n
  · refine (Exec.spends_stop (e := Fault.panic) (Nat.zero_le _)).congr ?_
    exact Exec.bind_error (by rw [Exec.onFst_apply, readNode_eq_panic hn]) _
  refine (spends_readNode i).seq fun n' s' hs' => ?_
  rw [Exec.onFst_apply, readNode_eq hn] at hs'
  cases hs'
  cases hc : n.child b with
  | node c =>
    have hmissing : t.missing (b :: rest) i = t.missing rest c := by simp [missing, hn, hc]
    rw [hmissing]
    exact (hdesc c (t, u)).before fun _ s' => spends_merge c i b s'
  | fixedNode c =>
    have hmissing : t.missing (b :: rest) i = t.missing rest c := by simp [missing, hn, hc]
    rw [hmissing]
    exact hdesc c (t, u)
  | aliased _ | reserved =>
    have hmissing : t.missing (b :: rest) i = 0 := by simp [missing, hn, hc]
    rw [hmissing]
    exact Exec.spends_pure ()
  | noData =>
    have hmissing : t.missing (b :: rest) i = rest.length + 1 := by simp [missing, hn, hc]
    rw [hmissing]
    dsimp only
    rw [if_neg habove]
    exact spends_split hn (fun c => Or.inl (by cases c <;> rfl)) hdesc
  | data old =>
    have hmissing : t.missing (b :: rest) i = rest.length + 1 := by simp [missing, hn, hc]
    rw [hmissing]
    dsimp only
    rw [if_neg habove]
    exact spends_split hn (fun c => Or.inr ⟨old, by cases c <;> rfl⟩) hdesc

/-- An insert of a value makes the nodes that are missing. -/
theorem spends_insertAtNode (bits : BitVec 128) (hbits : prefixLen ≤ 128) :
    ∀ (room i depth : ℕ) (s : Tree × σ), Spends size Fault.isFull
      (s.1.missing (pathFrom bits prefixLen depth) i)
      (insertAtNode (fun _ => pure (some id)) bits prefixLen room i depth) s
  | 0, _, _, _ => Exec.spends_stop (Nat.zero_le _)
  | room + 1, i, depth, s => by
    rcases Nat.lt_or_ge depth prefixLen with hdepth | hdepth
    · have habove : ¬ depth + 1 > prefixLen := by omega
      rw [pathFrom_cons hdepth hbits]
      unfold insertAtNode
      dsimp only
      rw [if_neg habove, walkBit_eq (by omega)]
      exact spends_insertAtRecord_above habove
        (fun c s => spends_insertAtNode bits hbits room c (depth + 1) s) s
    · rw [pathFrom_eq_nil hdepth]
      exact spends_insertAtNode_past bits (room + 1) i depth hdepth s

end Spends

/-- The nodes that are missing are the prefixes of the bits that the stored trie covers. -/
theorem missing_eq {t : Tree} {v4 : ℕ} (pin : Bool) : ∀ {bits : List Bool} {i : ℕ}
    {l r : BitTrie (Leaf ValueId)} {fp : List ℕ}, NodeStores t.nodes v4 i l r fp →
    l.Forall (fun a => a ≠ .reserved ∧ a ≠ .aliased) →
    r.Forall (fun a => a ≠ .reserved ∧ a ≠ .aliased) →
    t.missing bits i = (bits.inits.toFinset.filter fun q => ((node pin l r).coverAt q).isSome).card
  | [], _, _, _, _, _, _, _ => by
    simp [missing, Finset.filter_singleton, BitTrie.coverAt]
  | b :: bits, i, l, r, fp, hst, hl, hr => by
    obtain ⟨n, fl, fr, hn, hsl, hsr, -⟩ := hst
    have hchild : ∀ {u : BitTrie (Leaf ValueId)} {fu : List ℕ}, Stores t.nodes v4 (n.child b) u fu →
        u.Forall (fun a => a ≠ .reserved ∧ a ≠ .aliased) →
        t.missing (b :: bits) i = (bits.inits.toFinset.filter fun q => (u.coverAt q).isSome).card := by
      intro u fu hu hfree
      rcases u with a | ⟨pin', l', r'⟩
      · rw [BitTrie.card_covered_leaf]
        obtain ⟨hrec, -⟩ := hu
        rcases a with _ | v | _ | _
        · simp [missing, hn, hrec, leafRecord]
        · simp [missing, hn, hrec, leafRecord]
        · exact absurd rfl hfree.1
        · exact absurd rfl hfree.2
      · obtain ⟨c, hrec, -, hc⟩ := stores_node.mp hu
        rw [← missing_eq pin' hc hfree.1 hfree.2]
        cases pin' <;> simp [missing, hn, hrec, nodeRecord]
    rw [BitTrie.card_covered_cons]
    cases b
    · exact hchild hsl hl
    · exact hchild hsr hr

end Tree

end MmdbWriter
