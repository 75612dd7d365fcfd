import MmdbWriter.Proofs.InsertRecord

/-!
# Inserting into the nodes updates the trie they store

One step of the walk inserts at the record the next bit selects, or past the prefix at both. The
recursion is on the depths left in a `u8`, of which a tree no higher than its addresses uses at most
129.
-/

namespace MmdbWriter

open BitTrie (leaf node updateM Splits)

section Node

variable {σ : Type} {v4 i n : ℕ} {s : σ} {op : Option ValueId → Exec Fault σ (Option ValueId)}

theorem updateM_cons (b : Bool) (p : List Bool) (l r : BitTrie (Leaf ValueId)) (s : σ) :
    updateM (leafM op) (b :: p) l r s = (descendM op false p (bif b then r else l) >>= fun u =>
      pure (bif b then (l, u) else (u, r))) s := by
  cases b <;>
  · simp only [cond_true, cond_false, updateM, descendM_false, Exec.bind_apply, Exec.pure_apply]
    rcases updateM (leafM op) p _ _ s with ⟨_ | _, _⟩ <;> rfl

theorem nodeStores_of_record {nodes nodes' : List Node} {nd : Node} {b : Bool} {rec : Record}
    {u o : BitTrie (Leaf ValueId)} {fb fo fu : List ℕ}
    (hn : nodes'[i]? = some (nd.setChild b rec)) (hu : Stores nodes' v4 rec u fu)
    (hf : Frame nodes nodes' (i :: fb) (i :: fu)) (ho : Stores nodes v4 (nd.child !b) o fo)
    (hnodup : (i :: (fb ++ fo)).Nodup) :
    ∃ fp', NodeStores nodes' v4 i (bif b then o else u) (bif b then u else o) fp' ∧
      fp'.Perm (i :: (fu ++ fo)) ∧ Frame nodes nodes' (i :: (fb ++ fo)) fp' := by
  have hd : ∀ j ∈ fo, j ∉ i :: fb := by
    intro j hj hm
    simp only [List.nodup_cons, List.nodup_append, List.mem_append, not_or] at hnodup
    rcases List.mem_cons.mp hm with rfl | hm
    · exact hnodup.1.2 hj
    · exact hnodup.2.2.2 j hm j hj rfl
  have hnodup' : fo.Nodup := by
    rw [List.nodup_cons, List.nodup_append] at hnodup
    exact hnodup.2.2.1
  have ho' : Stores nodes' v4 ((nd.setChild b rec).child !b) o fo := by
    rw [Node.child_setChild_not]
    exact hf.stores ho hd
  have hu' : Stores nodes' v4 ((nd.setChild b rec).child b) u fu := by
    rwa [Node.child_setChild_self]
  have hperm : ∀ f : List ℕ, (fo ++ i :: f).Perm (i :: (f ++ fo)) := fun f =>
    List.perm_middle.trans (List.Perm.cons _ List.perm_append_comm)
  have hf' := (hf.union hnodup' (stores_mem_lt ho) hd).perm (hperm fb) (hperm fu)
  cases b with
  | false => exact ⟨_, ⟨_, fu, fo, hn, hu', ho', rfl⟩, List.Perm.refl _, hf'⟩
  | true =>
    have hcomm : (i :: (fu ++ fo)).Perm (i :: (fo ++ fu)) :=
      List.Perm.cons _ List.perm_append_comm
    exact ⟨_, ⟨_, fo, fu, hn, ho', hu', rfl⟩, hcomm.symm, hf'.perm (List.Perm.refl _) hcomm⟩

/-- An insert at one record of a node updates the node. -/
theorem NodeOutcome.of_record {nodes : List Node} {nd : Node} {b : Bool} {p : List Bool}
    {l r : BitTrie (Leaf ValueId)} {fb fo fp : List ℕ} {res : Except Fault Unit × Tree × σ}
    (hfp : (i :: (fb ++ fo)).Perm fp) (hnodup : fp.Nodup)
    (ho : Stores nodes v4 (nd.child !b) (bif b then l else r) fo)
    (h : RecordOutcome nodes v4 i p.length nd b (bif b then r else l) fb false s
      (descendM op false p (bif b then r else l) s) res) :
    NodeOutcome nodes v4 i l r fp (b :: p) s (updateM (leafM op) (b :: p) l r s) res := by
  rw [updateM_cons]
  cases h with
  | fault hm hlen => exact .fault (Exec.bind_error hm _) hlen
  | @done u s' t' rec fu hm hn hu hf =>
    obtain ⟨fp', hst, -, hf'⟩ :=
      nodeStores_of_record hn hu hf ho (hfp.nodup_iff.mpr hnodup)
    rw [Exec.bind_ok hm]
    cases b with
    | false => exact .done rfl hst (hf'.perm hfp (List.Perm.refl _))
    | true => exact .done rfl hst (hf'.perm hfp (List.Perm.refl _))
  | @full u t' rec fu _ hu hn hst hf hlen =>
    obtain ⟨fp', hst', -, hf'⟩ :=
      nodeStores_of_record hn hst hf ho (hfp.nodup_iff.mpr hnodup)
    cases b with
    | false =>
      exact .full (List.cons_ne_nil _ _) hu (Splits.refl _ _) hst'
        (hf'.perm hfp (List.Perm.refl _)) hlen
    | true =>
      exact .full (List.cons_ne_nil _ _) (Splits.refl _ _) hu hst'
        (hf'.perm hfp (List.Perm.refl _)) hlen

/-- A broadcast at both records of a node, left before right. -/
theorem NodeOutcome.of_both {tr : Tree} {nd : Node} {l r : BitTrie (Leaf ValueId)}
    {fl fr : List ℕ} {x y : Exec Fault (Tree × σ) Unit} (hnodup : (i :: (fl ++ fr)).Nodup)
    (hr : Stores tr.nodes v4 nd.right r fr)
    (hx : RecordOutcome tr.nodes v4 i 0 nd false l fl true s (descendM op true [] l s) (x (tr, s)))
    (hy : ∀ (t' : Tree) (s' : σ) (nd' : Node), t'.nodes[i]? = some nd' → nd'.right = nd.right →
      Stores t'.nodes v4 nd.right r fr →
      RecordOutcome t'.nodes v4 i 0 nd' true r fr true s' (descendM op true [] r s')
        (y (t', s'))) :
    NodeOutcome tr.nodes v4 i l r (i :: (fl ++ fr)) [] s (updateM (leafM op) [] l r s)
      ((x >>= fun _ => y) (tr, s)) := by
  have hboth : updateM (leafM op) [] l r = (descendM op true [] l >>= fun l' =>
      descendM op true [] r >>= fun r' => pure (l', r')) := by
    rw [descendM_nil, descendM_nil]
    rfl
  rw [hboth]
  generalize hres : x (tr, s) = res at hx
  cases hx with
  | fault hm hlen =>
    rw [Exec.bind_error hres]
    exact .fault (Exec.bind_error hm _) hlen
  | full _ _ hpast => exact absurd hpast (by simp)
  | @done u s' t' rec fu hm hn hu hf =>
    obtain ⟨fp', hst, hperm, hf'⟩ := nodeStores_of_record hn hu hf hr hnodup
    have hd : ∀ j ∈ fr, j ∉ i :: fl := by
      intro j hj hm
      simp only [List.nodup_cons, List.nodup_append, List.mem_append, not_or] at hnodup
      rcases List.mem_cons.mp hm with rfl | hm
      · exact hnodup.1.2 hj
      · exact hnodup.2.2.2 j hm j hj rfl
    have hy' := hy t' s' _ hn rfl (hf.stores hr hd)
    rw [Exec.bind_ok hres, Exec.bind_ok hm]
    generalize y (t', s') = res at hy'
    have hnodup' : (i :: (fr ++ fu)).Nodup := by
      have := hperm.nodup_iff.mp hf'.nodup
      exact (List.Perm.cons i List.perm_append_comm).nodup_iff.mp this
    cases hy' with
    | fault hm' hlen => exact .fault (Exec.bind_error hm' _) (hf.length_le.trans hlen)
    | full _ _ hpast => exact absurd hpast (by simp)
    | @done u' s'' t'' rec' fu' hm' hn' hu' hg =>
      have hu'' : Stores t'.nodes v4 ((nd.setChild false rec).child !true) u fu := by
        simpa [Node.child, Node.setChild] using hu
      obtain ⟨fq, hst', -, hg'⟩ := nodeStores_of_record hn' hu' hg hu'' hnodup'
      have hp : fp'.Perm (i :: (fr ++ fu)) :=
        hperm.trans (List.Perm.cons i List.perm_append_comm)
      have hm'' : (descendM op true [] r >>= fun r' => pure (u, r')) s' = (.ok (u, u'), s'') := by
        rw [Exec.bind_ok hm', Exec.pure_apply]
      exact .done hm'' hst' (hf'.trans (hg'.perm hp.symm (List.Perm.refl _)))

variable (op) in
/-- An insert at a node updates the tries below it. -/
theorem insertAtNode_spec (bits : BitVec 128) {prefixLen : ℕ} (hp : prefixLen ≤ 128) :
    ∀ (room n depth i : ℕ) (tr : Tree) (s : σ) (l r : BitTrie (Leaf ValueId)) (fp : List ℕ),
      NodeStores tr.nodes v4 i l r fp → fp.Nodup → l.height ≤ n → r.height ≤ n →
      prefixLen - depth ≤ n + 1 → n + 1 ≤ room → prefixLen - depth + 1 ≤ room →
      NodeOutcome tr.nodes v4 i l r fp (pathFrom bits prefixLen depth) s
        (updateM (leafM op) (pathFrom bits prefixLen depth) l r s)
        (Tree.insertAtNode op bits prefixLen room i depth (tr, s)) := by
  intro room
  induction room with
  | zero =>
    intro n depth i tr s l r fp _ _ _ _ _ hroom _
    omega
  | succ room ih =>
    intro n depth i tr s l r fp hst hnodup hl hr hpn hroom hroom'
    obtain ⟨nd, fl, fr, hnd, hsl, hsr, rfl⟩ := id hst
    have hnl : (i :: fl).Nodup :=
      hnodup.sublist (List.Sublist.cons_cons i (List.sublist_append_left fl fr))
    have hnr : (i :: fr).Nodup :=
      hnodup.sublist (List.Sublist.cons_cons i (List.sublist_append_right fl fr))
    by_cases hdepth : depth + 1 > prefixLen
    · have hnil : pathFrom bits prefixLen (depth + 1) = [] := pathFrom_eq_nil (by omega)
      have hdesc : true = false ∨ 0 < n → DescendSpec v4 (n - 1) [] op
          fun c => Tree.insertAtNode op bits prefixLen room c (depth + 1) := by
        intro hn tr s c l r fc hc hcd hcl hcr
        have hn' : 0 < n := by simpa using hn
        have := ih (n - 1) (depth + 1) c tr s l r fc hc hcd hcl hcr (by omega) (by omega)
          (by omega)
        rwa [hnil] at this
      rw [pathFrom_eq_nil (by omega), Tree.insertAtNode, if_pos hdepth]
      refine NodeOutcome.of_both hnodup hsr ?_ ?_
      · exact insertAtRecord_spec hdesc (by simp [hdepth]) (fun _ => rfl) hnd hsl hnl hl
      · intro t' s' nd' hnd' hright hsr'
        exact insertAtRecord_spec hdesc (by simp [hdepth]) (fun _ => rfl) hnd'
          (by simpa [Node.child, hright] using hsr') hnr hr
    · have hdesc : false = false ∨ 0 < n → DescendSpec v4 (n - 1)
          (pathFrom bits prefixLen (depth + 1)) op
          fun c => Tree.insertAtNode op bits prefixLen room c (depth + 1) := by
        intro _ tr s c l r fc hc hcd hcl hcr
        exact ih (n - 1) (depth + 1) c tr s l r fc hc hcd hcl hcr (by omega) (by omega) (by omega)
      have hlift : ∀ f : Bool → Exec Fault (Tree × σ) Unit,
          (Exec.lift (Tree.walkBit bits depth) >>= f) = f (bits.getMsbD depth) := by
        intro f
        rw [Tree.walkBit_eq (by omega)]
        rfl
      rw [pathFrom_cons (by omega) hp, Tree.insertAtNode, if_neg hdepth, hlift]
      cases bits.getMsbD depth with
      | false =>
        refine NodeOutcome.of_record (List.Perm.refl _) hnodup hsr ?_
        exact insertAtRecord_spec hdesc (by simp [hdepth]) (by simp) hnd hsl hnl hl
      | true =>
        refine NodeOutcome.of_record (List.Perm.cons i List.perm_append_comm) hnodup hsl ?_
        exact insertAtRecord_spec hdesc (by simp [hdepth]) (by simp) hnd hsr hnr hr

end Node

end MmdbWriter
