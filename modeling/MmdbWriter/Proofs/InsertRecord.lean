import MmdbWriter.Lib.Bits
import MmdbWriter.Lib.TrieShape
import MmdbWriter.Proofs.Stores

/-!
# Inserting at a record

`insert_at_record` on a record that stores a trie does what `BitTrie.updateM` does below it, with
the operation on the ids at the leaves. It ends in one of three ways: with the updated trie, at a
fault of the operation, or with the vector of nodes full. In the last case the operation has not run
and the trie has leaves split along the path.
-/

namespace MmdbWriter

open BitTrie (leaf node join updateM paintM Splits)

/-- What an insert does to a leaf. -/
def leafM {σ : Type} (op : Option ValueId → Exec Fault σ (Option ValueId)) :
    Leaf ValueId → Exec Fault σ (Leaf ValueId)
  | .noData => do
    let id ← op none
    return id.elim .noData .data
  | .data oldId => do
    let id ← op (some oldId)
    return id.elim .noData .data
  | .reserved => pure .reserved
  | .aliased => pure .aliased

/-- The bits an insert still has to walk at a depth. -/
def pathFrom (bits : BitVec 128) (prefixLen depth : ℕ) : List Bool :=
  (bits.msbs.take prefixLen).drop depth

theorem pathFrom_cons {bits : BitVec 128} {prefixLen depth : ℕ} (h : depth < prefixLen)
    (hp : prefixLen ≤ 128) :
    pathFrom bits prefixLen depth = bits.getMsbD depth :: pathFrom bits prefixLen (depth + 1) := by
  have hlen : depth < (bits.msbs.take prefixLen).length := by
    rw [List.length_take, BitVec.length_msbs]
    omega
  have hbit : (bits.msbs.take prefixLen)[depth]? = some (bits.getMsbD depth) := by
    rw [List.getElem?_take, if_pos h, BitVec.getElem?_msbs, if_pos (by omega)]
  rw [List.getElem?_eq_getElem hlen, Option.some.injEq] at hbit
  rw [pathFrom, List.drop_eq_getElem_cons hlen, hbit, pathFrom]

theorem pathFrom_eq_nil {bits : BitVec 128} {prefixLen depth : ℕ} (h : prefixLen ≤ depth) :
    pathFrom bits prefixLen depth = [] := by
  rw [pathFrom, List.drop_eq_nil_iff, List.length_take]
  omega

theorem length_pathFrom {bits : BitVec 128} {prefixLen depth : ℕ} (hp : prefixLen ≤ 128) :
    (pathFrom bits prefixLen depth).length = prefixLen - depth := by
  rw [pathFrom, List.length_drop, List.length_take, BitVec.length_msbs]
  omega

namespace Tree

theorem walkBit_eq {bits : BitVec 128} {depth : ℕ} (h : depth ≤ 127) :
    walkBit bits depth = .ok (bits.getMsbD depth) := by
  rw [walkBit, if_pos h]
  congr 1
  have h1 : bits.getMsbD depth = bits[127 - depth] := by
    rw [BitVec.getMsbD_eq_getLsbD, BitVec.getLsbD_eq_getElem (by omega)]
    simp only [show depth < 128 by omega, decide_true, Bool.true_and]
  rw [h1, BitVec.and_one_eq_setWidth_ofBool_getLsbD]
  have h2 : (bits >>> (127 - depth)).getLsbD 0 = bits[127 - depth] := by
    rw [BitVec.getLsbD_ushiftRight, Nat.add_zero, BitVec.getLsbD_eq_getElem (by omega)]
  rw [h2]
  cases bits[127 - depth] <;> decide

section Ops

variable {t : Tree} {i : ℕ} {n : Node}

theorem readNode_eq (h : t.nodes[i]? = some n) : readNode i t = (.ok n, t) := by
  unfold readNode nodeAt
  rw [h]

theorem readNode_eq_panic (h : t.nodes[i]? = none) : readNode i t = (.error .panic, t) := by
  unfold readNode nodeAt
  rw [h]

theorem writeNode_eq (h : t.nodes[i]? = some n) (n' : Node) :
    writeNode i n' t = (.ok (), ⟨t.nodes.set i n'⟩) := by
  unfold writeNode
  rw [if_pos (List.getElem?_eq_some_iff.mp h).1]

theorem writeChild_eq (h : t.nodes[i]? = some n) (b : Bool) (r : Record) :
    writeChild i b r t = (.ok (), ⟨t.nodes.set i (n.setChild b r)⟩) := by
  unfold writeChild
  rw [Exec.bind_ok (readNode_eq h), writeNode_eq h]

theorem tryMergeNode_eq (h : t.nodes[i]? = some n) : tryMergeNode i t =
    (.ok (if n.left = n.right ∧ isLeafRecord n.left then some n.left else none), t) := by
  unfold tryMergeNode
  rw [Exec.bind_ok (readNode_eq h), Exec.pure_apply]

theorem allocNode_eq (h : t.nodes.length < 2 ^ 32) (n : Node) :
    allocNode n t = (.ok t.nodes.length, ⟨t.nodes ++ [n]⟩) := by
  unfold allocNode u32Max
  rw [if_pos (by omega)]

theorem allocNode_full (h : 2 ^ 32 ≤ t.nodes.length) (n : Node) :
    allocNode n t = (.error (.err (.treeTooLarge t.nodes.length u32Max .bits32)), t) := by
  unfold allocNode u32Max
  rw [if_neg (by omega)]

end Ops

end Tree

section Outcome

variable {σ : Type}

/-- The error of a full vector of nodes. -/
def fullFault (t : Tree) : Fault := .err (.treeTooLarge t.nodes.length u32Max .bits32)

/-- How an insert at a node can end, where `m` is what the update of the trie came to. -/
inductive NodeOutcome (nodes : List Node) (v4 i : ℕ) (l r : BitTrie (Leaf ValueId))
    (fp : List ℕ) (p : List Bool) (s : σ)
    (m : Except Fault (BitTrie (Leaf ValueId) × BitTrie (Leaf ValueId)) × σ) :
    Except Fault Unit × Tree × σ → Prop
  | done {l' r' s' t' fp'} (hm : m = (.ok (l', r'), s')) (hst : NodeStores t'.nodes v4 i l' r' fp')
      (hf : Frame nodes t'.nodes fp fp') : NodeOutcome nodes v4 i l r fp p s m (.ok (), t', s')
  | fault {e s' t'} (hm : m = (.error e, s')) (hlen : nodes.length ≤ t'.nodes.length) :
      NodeOutcome nodes v4 i l r fp p s m (.error e, t', s')
  | full {l' r' t' fp'} (hp : p ≠ []) (hl : Splits (p.length - 1) l l')
      (hr : Splits (p.length - 1) r r')
      (hst : NodeStores t'.nodes v4 i l' r' fp') (hf : Frame nodes t'.nodes fp fp')
      (hlen : 2 ^ 32 ≤ t'.nodes.length) :
      NodeOutcome nodes v4 i l r fp p s m (.error (fullFault t'), t', s)

/-- How an insert at one record of the node `nd` can end, with `n` bits of the path below it. -/
inductive RecordOutcome (nodes : List Node) (v4 i n : ℕ) (nd : Node) (b : Bool)
    (t : BitTrie (Leaf ValueId)) (ft : List ℕ) (past : Bool) (s : σ)
    (m : Except Fault (BitTrie (Leaf ValueId)) × σ) : Except Fault Unit × Tree × σ → Prop
  | done {u s' t'} (rec fu) (hm : m = (.ok u, s')) (hn : t'.nodes[i]? = some (nd.setChild b rec))
      (hst : Stores t'.nodes v4 rec u fu) (hf : Frame nodes t'.nodes (i :: ft) (i :: fu)) :
      RecordOutcome nodes v4 i n nd b t ft past s m (.ok (), t', s')
  | fault {e s' t'} (hm : m = (.error e, s')) (hlen : nodes.length ≤ t'.nodes.length) :
      RecordOutcome nodes v4 i n nd b t ft past s m (.error e, t', s')
  | full {u t'} (rec fu) (hpast : past = false) (hu : Splits n t u)
      (hn : t'.nodes[i]? = some (nd.setChild b rec)) (hst : Stores t'.nodes v4 rec u fu)
      (hf : Frame nodes t'.nodes (i :: ft) (i :: fu)) (hlen : 2 ^ 32 ≤ t'.nodes.length) :
      RecordOutcome nodes v4 i n nd b t ft past s m (.error (fullFault t'), t', s)

/-- The update of one child: past the prefix the operation applies at a leaf, above it the leaf is
split. -/
def descendM (op : Option ValueId → Exec Fault σ (Option ValueId)) (past : Bool) (p : List Bool)
    (t : BitTrie (Leaf ValueId)) : Exec Fault σ (BitTrie (Leaf ValueId)) :=
  match past, t with
  | true, leaf a => do
    let a' ← leafM op a
    return leaf a'
  | _, t => do
    let lr ← updateM (leafM op) p t.kids.2.1 t.kids.2.2
    return join t.kids.1 lr.1 lr.2

variable (op : Option ValueId → Exec Fault σ (Option ValueId))

theorem descendM_false (p : List Bool) (t : BitTrie (Leaf ValueId)) :
    descendM op false p t = (updateM (leafM op) p t.kids.2.1 t.kids.2.2 >>= fun lr =>
      pure (join t.kids.1 lr.1 lr.2)) := by
  cases t <;> rfl

theorem descendM_node (past pin : Bool) (p : List Bool) (l r : BitTrie (Leaf ValueId)) :
    descendM op past p (node pin l r) = (updateM (leafM op) p l r >>= fun lr =>
      pure (join pin lr.1 lr.2)) := by
  cases past <;> rfl

theorem descendM_nil (t : BitTrie (Leaf ValueId)) :
    descendM op true [] t = paintM (leafM op) t := by
  cases t with
  | leaf a => rfl
  | node pin l r =>
    funext s
    rw [descendM_node]
    simp only [updateM, paintM, Exec.bind_apply, Exec.pure_apply]
    rcases paintM (leafM op) l s with ⟨_ | l', s'⟩
    · rfl
    · dsimp only
      rcases paintM (leafM op) r s' with ⟨_ | r', s''⟩ <;> rfl

theorem updateM_skip {a : Leaf ValueId} (ha : leafM op a = pure a) (p : List Bool) (s : σ) :
    updateM (leafM op) p (leaf a) (leaf a) s = (.ok (leaf a, leaf a), s) := by
  induction p with
  | nil =>
    simp only [updateM, paintM, ha]
    rfl
  | cons b p ih =>
    cases b <;> simp only [updateM, BitTrie.kids, Exec.bind_ok ih, BitTrie.join_leaf_self] <;> rfl

end Outcome

section Merge

variable {nodes : List Node} {v4 : ℕ}

/-- A node whose two records are one leaf record stores one leaf twice. -/
theorem merge_iff {recl recr : Record} {l r : BitTrie (Leaf ValueId)} {fl fr : List ℕ}
    (hl : Stores nodes v4 recl l fl) (hr : Stores nodes v4 recr r fr) :
    (recl = recr ∧ isLeafRecord recl = true) ↔ ∃ a, l = leaf a ∧ r = leaf a := by
  constructor
  · rintro ⟨rfl, hleaf⟩
    obtain ⟨a, rfl⟩ := (isLeafRecord_of_stores hl).mp hleaf
    obtain ⟨b, rfl⟩ := (isLeafRecord_of_stores hr).mp hleaf
    rw [leafRecord_inj (hl.1.symm.trans hr.1)]
    exact ⟨b, rfl, rfl⟩
  · rintro ⟨a, rfl, rfl⟩
    rw [hl.1, hr.1]
    exact ⟨rfl, isLeafRecord_leafRecord v4 a⟩

theorem Frame.set {fp fp' : List ℕ} {i : ℕ} {n : Node} (hi : i ∈ fp) (hsub : fp' ⊆ fp)
    (hnd : fp'.Nodup) : Frame nodes (nodes.set i n) fp fp' where
  length_le := by rw [List.length_set]
  same j _ hfp := by
    have hij : i ≠ j := fun h => hfp (h ▸ hi)
    rw [List.getElem?_set_ne hij]
  sub j hj := Or.inl (hsub hj)
  nodup := hnd

theorem Frame.alloc {fp : List ℕ} (hnd : fp.Nodup) (hlt : ∀ j ∈ fp, j < nodes.length) (n : Node) :
    Frame nodes (nodes ++ [n]) fp (nodes.length :: fp) where
  length_le := by simp
  same j hj _ := by rw [List.getElem?_append_left hj]
  sub j hj := by
    rcases List.mem_cons.mp hj with rfl | hm
    · exact Or.inr le_rfl
    · exact Or.inl hm
  nodup := List.nodup_cons.mpr ⟨fun hm => absurd (hlt _ hm) (lt_irrefl _), hnd⟩

end Merge

section Record

variable {σ : Type}

/-- The insert at a child and the merge after it, as `insert_at_record` runs them. -/
def mergeAfter (x : Exec Fault (Tree × σ) Unit) (nodeIdx : ℕ) (bit : Bool) (c : ℕ) :
    Exec Fault (Tree × σ) Unit := do
  x
  let merged ← (Tree.tryMergeNode c).onFst
  match merged with
  | some record => (Tree.writeChild nodeIdx bit record).onFst
  | none => pure ()

variable {v4 i n c : ℕ} {tr : Tree} {nd : Node} {b past : Bool} {s : σ} {p : List Bool}
  {t l r : BitTrie (Leaf ValueId)} {ft fc : List ℕ}

theorem RecordOutcome.of_frame {nodes nodes₂ : List Node} {rec : Record} {ft₂ : List ℕ}
    {m : Except Fault (BitTrie (Leaf ValueId)) × σ} {res : Except Fault Unit × Tree × σ}
    (hf : Frame nodes nodes₂ (i :: ft) (i :: ft₂))
    (h : RecordOutcome nodes₂ v4 i n (nd.setChild b rec) b t ft₂ past s m res) :
    RecordOutcome nodes v4 i n nd b t ft past s m res := by
  cases h with
  | done rec' fu hm hn hst hf' =>
    rw [Node.setChild_setChild] at hn
    exact .done rec' fu hm hn hst (hf.trans hf')
  | fault hm hlen => exact .fault hm (hf.length_le.trans hlen)
  | full rec' fu hpast hu hn hst hf' hlen =>
    rw [Node.setChild_setChild] at hn
    exact .full rec' fu hpast hu hn hst (hf.trans hf') hlen

/-- An insert below a record that can merge joins the two tries it leaves. -/
theorem mergeAfter_outcome {x : Exec Fault (Tree × σ) Unit}
    {m : Exec Fault σ (BitTrie (Leaf ValueId) × BitTrie (Leaf ValueId))}
    (hnd : tr.nodes[i]? = some nd) (hi : i ∉ fc) (hchild : nd.child b = .node c)
    (hkids : t.kids = (false, l, r)) (hpast : p ≠ [] → past = false)
    (hx : NodeOutcome tr.nodes v4 c l r fc p s (m s) (x (tr, s))) :
    RecordOutcome tr.nodes v4 i p.length nd b t fc past s ((m >>= fun lr => pure (join false lr.1 lr.2)) s)
      (mergeAfter x i b c (tr, s)) := by
  have hlt : ∀ j ∈ [i], j < tr.nodes.length := by
    simpa using (List.getElem?_eq_some_iff.mp hnd).1
  have hd : ∀ j ∈ [i], j ∉ fc := by simpa using hi
  have hself : nd.setChild b (.node c) = nd := by rw [← hchild, Node.setChild_child]
  generalize hres : x (tr, s) = res at hx
  cases hx with
  | fault hm hlen =>
    rw [mergeAfter, Exec.bind_error hres]
    exact .fault (Exec.bind_error hm _) hlen
  | @full l' r' t' fp' hp hl hr hst hf hlen =>
    rw [mergeAfter, Exec.bind_error hres]
    have hi' : t'.nodes[i]? = some nd := by rw [hf.same i (hlt i (by simp)) hi, hnd]
    have hu : Splits p.length t (node false l' r') := by
      have hkn : Splits (p.length - 1 + 1) t (node t.kids.1 l' r') :=
        Splits.of_kids (by rw [hkids]; exact hl) (by rw [hkids]; exact hr)
      rwa [hkids, Nat.sub_add_cancel (List.length_pos_of_ne_nil hp)] at hkn
    exact .full (.node c) fp' (hpast hp) hu (by rw [hself, hi'])
      (nodeStores_unpinned hst) (hf.union (List.nodup_singleton i) hlt hd) hlen
  | @done l' r' s' t' fp' hm hst hf =>
    have hi' : t'.nodes[i]? = some nd := by rw [hf.same i (hlt i (by simp)) hi, hnd]
    have hf' := hf.union (List.nodup_singleton i) hlt hd
    obtain ⟨cn, fl, fr, hcn, hsl, hsr, hfp'⟩ := id hst
    have hmerge : (Tree.tryMergeNode c).onFst (t', s') =
        (.ok (if cn.left = cn.right ∧ isLeafRecord cn.left = true then some cn.left else none),
          t', s') := by
      rw [Exec.onFst_apply, Tree.tryMergeNode_eq hcn]
    rw [mergeAfter, Exec.bind_ok hres, Exec.bind_ok hmerge, Exec.bind_ok hm, Exec.pure_apply]
    rcases BitTrie.join_cases false l' r' with ⟨hj, hne⟩ | ⟨a, -, rfl, rfl, hj⟩
    · have hno : ¬ (cn.left = cn.right ∧ isLeafRecord cn.left = true) := by
        rw [merge_iff hsl hsr]
        rintro ⟨a, hla, hra⟩
        exact hne rfl a hla hra
      rw [if_neg hno, hj]
      exact .done (.node c) fp' rfl (by rw [hself, hi']) (nodeStores_unpinned hst) hf'
    · have hyes := (merge_iff hsl hsr).mpr ⟨a, rfl, rfl⟩
      rw [if_pos hyes, hj, hsl.1]
      dsimp only
      rw [Exec.onFst_apply, Tree.writeChild_eq hi']
      have hii : i < t'.nodes.length := (List.getElem?_eq_some_iff.mp hi').1
      refine .done (leafRecord v4 a) [] rfl ?_ ⟨rfl, rfl⟩ ?_
      · rw [List.getElem?_set_self hii]
      · exact hf'.trans (Frame.set (by simp) (by simp) (List.nodup_singleton i))

/-- An insert below a record that cannot merge. -/
theorem fixed_outcome {x : Exec Fault (Tree × σ) Unit}
    {m : Exec Fault σ (BitTrie (Leaf ValueId) × BitTrie (Leaf ValueId))}
    (hnd : tr.nodes[i]? = some nd) (hi : i ∉ fc) (hchild : nd.child b = .fixedNode c)
    (hc : c = v4) (hpast : p ≠ [] → past = false)
    (hx : NodeOutcome tr.nodes v4 c l r fc p s (m s) (x (tr, s))) :
    RecordOutcome tr.nodes v4 i p.length nd b (node true l r) fc past s
      ((m >>= fun lr => pure (join true lr.1 lr.2)) s) (x (tr, s)) := by
  have hlt : ∀ j ∈ [i], j < tr.nodes.length := by
    simpa using (List.getElem?_eq_some_iff.mp hnd).1
  have hd : ∀ j ∈ [i], j ∉ fc := by simpa using hi
  have hself : nd.setChild b (.fixedNode c) = nd := by rw [← hchild, Node.setChild_child]
  generalize x (tr, s) = res at hx ⊢
  cases hx with
  | fault hm hlen => exact .fault (Exec.bind_error hm _) hlen
  | @full l' r' t' fp' hp hl hr hst hf hlen =>
    have hi' := hf.same i (hlt i (by simp)) hi
    have hu : Splits p.length (node true l r) (node true l' r') := by
      rw [← Nat.sub_add_cancel (List.length_pos_of_ne_nil hp)]
      exact .node hl hr
    exact .full (.fixedNode c) _ (hpast hp) hu (by rw [hself, hi', hnd])
      (stores_node.mpr ⟨c, rfl, fun _ => hc, hst⟩) (hf.union (List.nodup_singleton i) hlt hd) hlen
  | @done l' r' s' t' fp' hm hst hf =>
    have hi' := hf.same i (hlt i (by simp)) hi
    have hm' : (m >>= fun lr => pure (join true lr.1 lr.2)) s = (.ok (node true l' r'), s') := by
      rw [Exec.bind_ok hm, Exec.pure_apply]
      rfl
    exact .done (.fixedNode c) _ hm' (by rw [hself, hi', hnd])
      (stores_node.mpr ⟨c, rfl, fun _ => hc, hst⟩)
      (hf.union (List.nodup_singleton i) hlt hd)

/-- What the recursive call of `insert_at_record` is assumed to do. -/
def DescendSpec (v4 n : ℕ) (p : List Bool) (op : Option ValueId → Exec Fault σ (Option ValueId))
    (descend : ℕ → Exec Fault (Tree × σ) Unit) : Prop :=
  ∀ (tr : Tree) (s : σ) (c : ℕ) (l r : BitTrie (Leaf ValueId)) (fc : List ℕ),
    NodeStores tr.nodes v4 c l r fc → fc.Nodup → l.height ≤ n → r.height ≤ n →
    NodeOutcome tr.nodes v4 c l r fc p s (updateM (leafM op) p l r s) (descend c (tr, s))

variable {op : Option ValueId → Exec Fault σ (Option ValueId)}
  {descend : ℕ → Exec Fault (Tree × σ) Unit}

/-- The node of a leaf that is split. -/
def leafNode (v4 : ℕ) (a : Leaf ValueId) : Node := ⟨leafRecord v4 a, leafRecord v4 a⟩

/-- The nodes after a leaf is split: a new node that stores the leaf twice, below the old record. -/
theorem split_nodes {nodes : List Node} (v4 : ℕ) (a : Leaf ValueId) (hnd : nodes[i]? = some nd) :
    ∃ nodes₂, (nodes ++ [leafNode v4 a]).set i (nd.setChild b (.node nodes.length)) = nodes₂ ∧
      nodes₂[i]? = some (nd.setChild b (.node nodes.length)) ∧
      NodeStores nodes₂ v4 nodes.length (leaf a) (leaf a) [nodes.length] ∧
      Frame nodes nodes₂ [i] [i, nodes.length] ∧ nodes₂.length = nodes.length + 1 := by
  have hlt : i < nodes.length := (List.getElem?_eq_some_iff.mp hnd).1
  have h1 := Frame.alloc (List.nodup_singleton i) (by simpa using hlt) (leafNode v4 a)
  refine ⟨_, rfl, ?_, ⟨leafNode v4 a, [], [], ?_, ⟨rfl, rfl⟩, ⟨rfl, rfl⟩, rfl⟩, ?_, by simp⟩
  · rw [List.getElem?_set_self (by rw [List.length_append]; omega)]
  · rw [List.getElem?_set_ne (by omega)]
    simp
  · exact (h1.trans (Frame.set (by simp) (List.Subset.refl _) h1.nodup)).perm (List.Perm.refl _)
      (List.Perm.swap _ _ _)

/-- Splitting a leaf above the prefix and descending into the halves. -/
theorem split_outcome {a : Leaf ValueId} (hsplit : DescendSpec v4 n p op descend)
    (hnd : tr.nodes[i]? = some nd) (hchild : nd.child b = leafRecord v4 a) :
    RecordOutcome tr.nodes v4 i p.length nd b (leaf a) [] false s (descendM op false p (leaf a) s)
      (((Tree.allocNode (leafNode v4 a)).onFst >>= fun newIdx =>
        (Tree.writeChild i b (.node newIdx)).onFst >>= fun _ =>
          mergeAfter (descend newIdx) i b newIdx) (tr, s)) := by
  rcases Nat.lt_or_ge tr.nodes.length (2 ^ 32) with hroom | hfull
  · have hlt : i < tr.nodes.length := (List.getElem?_eq_some_iff.mp hnd).1
    have halloc : (Tree.allocNode (leafNode v4 a)).onFst (tr, s) =
        (.ok tr.nodes.length, (⟨tr.nodes ++ [leafNode v4 a]⟩ : Tree), s) := by
      rw [Exec.onFst_apply, Tree.allocNode_eq hroom]
    have hnd' : (tr.nodes ++ [leafNode v4 a])[i]? = some nd := by
      rw [List.getElem?_append_left hlt, hnd]
    obtain ⟨nodes₂, hset, hi₂, hst, hframe, -⟩ := split_nodes v4 a hnd
    have hwrite : (Tree.writeChild i b (.node tr.nodes.length)).onFst
        ((⟨tr.nodes ++ [leafNode v4 a]⟩ : Tree), s) = (.ok (), (⟨nodes₂⟩ : Tree), s) := by
      rw [Exec.onFst_apply, Tree.writeChild_eq hnd', hset]
    rw [Exec.bind_ok halloc, Exec.bind_ok hwrite, descendM_false]
    have hx := hsplit ⟨nodes₂⟩ s tr.nodes.length (leaf a) (leaf a) _ hst (List.nodup_singleton _)
      (Nat.zero_le _) (Nat.zero_le _)
    have hmerge : RecordOutcome (Tree.mk nodes₂).nodes v4 i p.length _ b (leaf a) _ false s _ _ :=
      mergeAfter_outcome hi₂ (by simp; omega) (Node.child_setChild_self nd b _) rfl
        (fun _ => rfl) hx
    exact RecordOutcome.of_frame hframe hmerge
  · have halloc : (Tree.allocNode (leafNode v4 a)).onFst (tr, s) =
        (.error (fullFault tr), tr, s) := by
      rw [Exec.onFst_apply, Tree.allocNode_full hfull]
      rfl
    rw [Exec.bind_error halloc]
    refine .full (nd.child b) [] rfl (Splits.refl _ _) ?_ ?_
      (Frame.refl (List.nodup_singleton i)) hfull
    · rw [Node.setChild_child, hnd]
    · exact ⟨hchild, rfl⟩

theorem RecordOutcome.stay {m : Except Fault (BitTrie (Leaf ValueId)) × σ}
    {s' : σ} (hnd : tr.nodes[i]? = some nd) (hst : Stores tr.nodes v4 (nd.child b) t ft)
    (hnodup : (i :: ft).Nodup) (hm : m = (.ok t, s')) :
    RecordOutcome tr.nodes v4 i n nd b t ft past s m (.ok (), tr, s') :=
  .done (nd.child b) ft hm (by rw [Node.setChild_child, hnd]) hst (Frame.refl hnodup)

/-- The operation applied at a leaf past the prefix. -/
theorem leaf_outcome {a : Leaf ValueId} {x : Exec Fault (Tree × σ) Unit}
    {o : Option ValueId} (hleaf : leafM op a = (op o >>= fun id => pure (id.elim .noData .data)))
    (hx : x = ((op o).onSnd >>= fun id =>
      (match id with
      | some id => (Tree.writeChild i b (.data id)).onFst
      | none => if a = .noData then pure () else (Tree.writeChild i b .noData).onFst)))
    (hnd : tr.nodes[i]? = some nd) (hchild : nd.child b = leafRecord v4 a) :
    RecordOutcome tr.nodes v4 i n nd b (leaf a) [] true s (descendM op true p (leaf a) s)
      (x (tr, s)) := by
  have hlt : i < tr.nodes.length := (List.getElem?_eq_some_iff.mp hnd).1
  have hset : ∀ (rec : Record) (u : Leaf ValueId) (s' : σ), rec = leafRecord v4 u →
      RecordOutcome tr.nodes v4 i n nd b (leaf a) [] true s (.ok (leaf u), s')
        (.ok (), (⟨tr.nodes.set i (nd.setChild b rec)⟩ : Tree), s') := by
    intro rec u s' hrec
    refine .done rec [] rfl ?_ ⟨hrec, rfl⟩ ?_
    · rw [List.getElem?_set_self hlt]
    · exact Frame.set (by simp) (List.Subset.refl _) (List.nodup_singleton i)
  subst hx
  have hm : descendM op true p (leaf a) s = (op o >>= fun id =>
      pure (leaf (id.elim .noData .data))) s := by
    simp only [descendM, hleaf, Exec.bind_apply, Exec.pure_apply]
    rcases op o s with ⟨_ | _, _⟩ <;> rfl
  rw [hm]
  rcases hop : op o s with ⟨e | id, s'⟩
  · rw [Exec.bind_error hop, Exec.bind_error (by rw [Exec.onSnd_apply, hop])]
    exact .fault rfl le_rfl
  · have hop' : (op o).onSnd (tr, s) = (.ok id, tr, s') := by rw [Exec.onSnd_apply, hop]
    rw [Exec.bind_ok hop, Exec.bind_ok hop']
    rcases id with _ | id
    · dsimp only [Option.elim, Exec.pure_apply]
      split_ifs with ha
      · subst ha
        exact RecordOutcome.stay hnd (by rw [hchild]; exact ⟨rfl, rfl⟩)
          (List.nodup_singleton i) rfl
      · rw [Exec.onFst_apply, Tree.writeChild_eq hnd]
        exact hset .noData .noData s' rfl
    · dsimp only [Option.elim, Exec.pure_apply]
      rw [Exec.onFst_apply, Tree.writeChild_eq hnd]
      exact hset (.data id) (.data id) s' rfl

theorem skip_outcome {a : Leaf ValueId} (hskip : leafM op a = pure a)
    (hnd : tr.nodes[i]? = some nd) (hchild : nd.child b = leafRecord v4 a) :
    RecordOutcome tr.nodes v4 i n nd b (leaf a) [] past s (descendM op past p (leaf a) s)
      (.ok (), tr, s) := by
  refine RecordOutcome.stay hnd (by rw [hchild]; exact ⟨rfl, rfl⟩)
    (List.nodup_singleton i) ?_
  cases past with
  | true =>
    simp only [descendM, hskip]
    rfl
  | false =>
    rw [descendM_false]
    simp only [BitTrie.kids]
    rw [Exec.bind_ok (updateM_skip op hskip p s), BitTrie.join_leaf_self, Exec.pure_apply]

/-- An insert at a record updates the trie below it. -/
theorem insertAtRecord_spec {newDepth prefixLen : ℕ}
    (hdesc : past = false ∨ 0 < n → DescendSpec v4 (n - 1) p op descend)
    (hpast : past = decide (newDepth > prefixLen)) (hp : past = true → p = [])
    (hnd : tr.nodes[i]? = some nd) (hst : Stores tr.nodes v4 (nd.child b) t ft)
    (hnodup : (i :: ft).Nodup) (ht : t.height ≤ n) :
    RecordOutcome tr.nodes v4 i p.length nd b t ft past s (descendM op past p t s)
      (Tree.insertAtRecord descend op i b newDepth prefixLen (tr, s)) := by
  have hread : (Tree.readNode i).onFst (tr, s) = (.ok nd, tr, s) := by
    rw [Exec.onFst_apply, Tree.readNode_eq hnd]
  unfold Tree.insertAtRecord
  rw [Exec.bind_ok hread]
  cases t with
  | leaf a =>
    obtain ⟨hchild, rfl⟩ := hst
    rw [hchild]
    by_cases hlt : newDepth > prefixLen
    · obtain rfl : past = true := by rw [hpast]; simpa using hlt
      cases a with
      | noData =>
        exact leaf_outcome (a := .noData) (o := none) rfl (if_pos hlt) hnd hchild
      | data id =>
        exact leaf_outcome (a := .data id) (o := some id) rfl (if_pos hlt) hnd hchild
      | reserved => exact skip_outcome rfl hnd hchild
      | aliased => exact skip_outcome rfl hnd hchild
    · obtain rfl : past = false := by rw [hpast]; simpa using hlt
      cases a with
      | noData =>
        simp only [leafRecord, if_neg hlt]
        exact split_outcome (a := .noData) (hdesc (Or.inl rfl)) hnd hchild
      | data id =>
        simp only [leafRecord, if_neg hlt]
        exact split_outcome (a := .data id) (hdesc (Or.inl rfl)) hnd hchild
      | reserved => exact skip_outcome rfl hnd hchild
      | aliased => exact skip_outcome rfl hnd hchild
  | node pin l r =>
    obtain ⟨c, hchild, hpin, hc⟩ := stores_node.mp hst
    rw [List.nodup_cons] at hnodup
    simp only [BitTrie.height] at ht
    have hx := hdesc (Or.inr (by omega)) tr s c l r ft hc hnodup.2 (by omega) (by omega)
    rw [hchild, descendM_node]
    cases pin with
    | false =>
      refine mergeAfter_outcome hnd hnodup.1 hchild rfl (fun hne => ?_) hx
      cases past with
      | true => exact absurd (hp rfl) hne
      | false => rfl
    | true =>
      refine fixed_outcome hnd hnodup.1 hchild (hpin rfl) (fun hne => ?_) hx
      cases past with
      | true => exact absurd (hp rfl) hne
      | false => rfl

end Record

end MmdbWriter
