import MmdbWriter.Proofs.InsertNode

/-!
# Markers

`install_marker` puts a leaf at the end of a path, as `BitTrie.markAt` does, and makes at most one
node for each bit of the path.
-/

namespace MmdbWriter

open BitTrie (leaf node Splits)

/-- The children of a node after a mark below it. -/
def markKids (mark : Leaf ValueId) : List Bool → BitTrie (Leaf ValueId) → BitTrie (Leaf ValueId) →
    BitTrie (Leaf ValueId) × BitTrie (Leaf ValueId)
  | [], l, r => (l, r)
  | b :: p, l, r => bif b then (l, r.markAt .noData mark p) else (l.markAt .noData mark p, r)

theorem markAt_node (mark : Leaf ValueId) (p : List Bool) (pin : Bool)
    (l r : BitTrie (Leaf ValueId)) :
    (node pin l r).markAt .noData mark p =
      node pin (markKids mark p l r).1 (markKids mark p l r).2 := by
  rcases p with _ | ⟨_ | _, p⟩ <;> rfl

theorem markAt_noData (mark : Leaf ValueId) (b : Bool) (p : List Bool) :
    (leaf .noData).markAt .noData mark (b :: p) =
      (node false (leaf .noData) (leaf .noData)).markAt .noData mark (b :: p) := by
  cases b <;> rfl

theorem markAt_occupied (mark : Leaf ValueId) (p : List Bool) {a : Leaf ValueId}
    (h : a ≠ .noData) : (leaf a).markAt .noData mark p = leaf a := by
  rcases p with _ | ⟨b, p⟩ <;> simp [BitTrie.markAt, h]

/-- How a mark below a node can end. -/
inductive MarkOutcome (nodes : List Node) (v4 i : ℕ) (mark : Leaf ValueId)
    (l r : BitTrie (Leaf ValueId)) (fp : List ℕ) (p : List Bool) : Except Fault Unit × Tree → Prop
  | done {t'} (fp') (hst : NodeStores t'.nodes v4 i (markKids mark p l r).1 (markKids mark p l r).2 fp')
      (hf : Frame nodes t'.nodes fp fp') (hlen : t'.nodes.length ≤ nodes.length + p.length) :
      MarkOutcome nodes v4 i mark l r fp p (.ok (), t')
  | full {t' l' r'} (fp') (hp : p ≠ []) (hl : Splits (p.length - 1) l l')
      (hr : Splits (p.length - 1) r r') (hst : NodeStores t'.nodes v4 i l' r' fp')
      (hf : Frame nodes t'.nodes fp fp') (hlen : 2 ^ 32 ≤ t'.nodes.length)
      (hadd : t'.nodes.length ≤ nodes.length + p.length) :
      MarkOutcome nodes v4 i mark l r fp p (.error (fullFault t'), t')

variable {v4 i : ℕ} {mark : Leaf ValueId} {l r : BitTrie (Leaf ValueId)} {t : Tree} {nd : Node}
  {fb fo fp : List ℕ} {p : List Bool}

theorem MarkOutcome.of_child {t' : Tree} {b : Bool} {rec : Record} {fu : List ℕ}
    (hnodup : fp.Nodup) (hfp : (i :: (fb ++ fo)).Perm fp)
    (ho : Stores t.nodes v4 (nd.child !b) (bif b then l else r) fo)
    (hn : t'.nodes[i]? = some (nd.setChild b rec))
    (hu : Stores t'.nodes v4 rec ((bif b then r else l).markAt .noData mark p) fu)
    (hf : Frame t.nodes t'.nodes (i :: fb) (i :: fu))
    (hlen : t'.nodes.length ≤ t.nodes.length + (p.length + 1)) :
    MarkOutcome t.nodes v4 i mark l r fp (b :: p) (.ok (), t') := by
  obtain ⟨fp', hst, -, hf'⟩ := nodeStores_of_record hn hu hf ho (hfp.nodup_iff.mpr hnodup)
  cases b <;> exact .done fp' hst (hf'.perm hfp (List.Perm.refl _)) hlen

theorem MarkOutcome.of_descend {nodes : List Node} {b pin : Bool} {c : ℕ} {fc : List ℕ}
    {l' r' : BitTrie (Leaf ValueId)} {res : Except Fault Unit × Tree} (hnodup : fp.Nodup)
    (hfp : (i :: (fb ++ fo)).Perm fp)
    (ho : Stores t.nodes v4 (nd.child !b) (bif b then l else r) fo)
    (hf : Frame t.nodes nodes (i :: fb) (i :: fc))
    (hn : nodes[i]? = some (nd.setChild b (nodeRecord pin c))) (hpin : pin = true → c = v4)
    (hlen : nodes.length ≤ t.nodes.length + 1)
    (hmark : (bif b then r else l).markAt .noData mark p = (node pin l' r').markAt .noData mark p)
    (hsplit : ∀ {k : ℕ} {l₂ r₂ : BitTrie (Leaf ValueId)}, Splits k l' l₂ → Splits k r' r₂ →
      Splits (k + 1) (bif b then r else l) (node pin l₂ r₂))
    (h : MarkOutcome nodes v4 c mark l' r' fc p res) :
    MarkOutcome t.nodes v4 i mark l r fp (b :: p) res := by
  have hi : i ∉ fc := (List.nodup_cons.mp hf.nodup).1
  have hlt : i < nodes.length := (List.getElem?_eq_some_iff.mp hn).1
  cases h with
  | done fp' hst hf' hadd =>
    have hn' := hf'.same i hlt hi
    rw [hn] at hn'
    have hf'' := hf'.union (List.nodup_singleton i) (by simpa using hlt) (by simpa using hi)
    refine MarkOutcome.of_child hnodup hfp ho hn' ?_ (hf.trans hf'') (by omega)
    rw [hmark, markAt_node]
    exact stores_node.mpr ⟨c, rfl, hpin, hst⟩
  | full fp' hp hl' hr' hst hf' hfull hadd =>
    have hn' := hf'.same i hlt hi
    rw [hn] at hn'
    have hf'' := hf'.union (List.nodup_singleton i) (by simpa using hlt) (by simpa using hi)
    have hs := hsplit hl' hr'
    rw [Nat.sub_add_cancel (List.length_pos_of_ne_nil hp)] at hs
    obtain ⟨fp'', hst', -, hf₃⟩ := nodeStores_of_record hn' (stores_node.mpr ⟨c, rfl, hpin, hst⟩)
      (hf.trans hf'') ho (hfp.nodup_iff.mpr hnodup)
    have hadd' : ∀ t' : Tree, t'.nodes.length ≤ nodes.length + p.length →
        t'.nodes.length ≤ t.nodes.length + (b :: p).length := fun t' h => by
      rw [List.length_cons]
      omega
    cases b with
    | false =>
      exact .full fp'' (List.cons_ne_nil _ _) hs (Splits.refl _ _) hst'
        (hf₃.perm hfp (List.Perm.refl _)) hfull (hadd' _ hadd)
    | true =>
      exact .full fp'' (List.cons_ne_nil _ _) (Splits.refl _ _) hs hst'
        (hf₃.perm hfp (List.Perm.refl _)) hfull (hadd' _ hadd)

theorem installMarkerFrom_record (bits : BitVec 128) {b : Bool} {left bitIndex : ℕ}
    (ih : ∀ (i : ℕ) (t : Tree) (l r : BitTrie (Leaf ValueId)) (fp : List ℕ), p ≠ [] →
      NodeStores t.nodes v4 i l r fp → fp.Nodup → MarkOutcome t.nodes v4 i mark l r fp p
        (Tree.installMarkerFrom bits (leafRecord v4 mark) left (bitIndex + 1) i t))
    (hbit : Tree.walkBit bits bitIndex = .ok b) (hleft : p.length = left)
    (hnodup : fp.Nodup) (hfp : (i :: (fb ++ fo)).Perm fp) (hnd : t.nodes[i]? = some nd)
    (hb : Stores t.nodes v4 (nd.child b) (bif b then r else l) fb)
    (ho : Stores t.nodes v4 (nd.child !b) (bif b then l else r) fo) :
    MarkOutcome t.nodes v4 i mark l r fp (b :: p)
      (Tree.installMarkerFrom bits (leafRecord v4 mark) (left + 1) bitIndex i t) := by
  have hlt : i < t.nodes.length := (List.getElem?_eq_some_iff.mp hnd).1
  have hnb : (i :: fb).Nodup := by
    have := hfp.nodup_iff.mpr hnodup
    exact this.sublist (List.Sublist.cons_cons i (List.sublist_append_left fb fo))
  have hself : t.nodes[i]? = some (nd.setChild b (nd.child b)) := by
    rw [Node.setChild_child, hnd]
  generalize hu : (bif b then r else l) = u at hb
  have hstay : u.markAt .noData mark p = u →
      MarkOutcome t.nodes v4 i mark l r fp (b :: p) (.ok (), t) := by
    intro h
    refine MarkOutcome.of_child hnodup hfp ho hself ?_ (Frame.refl hnb) (by omega)
    rwa [hu, h]
  unfold Tree.installMarkerFrom
  rw [Exec.bind_ok (a := b) (by rw [Exec.lift_apply, hbit]), Exec.bind_ok (Tree.readNode_eq hnd)]
  cases left with
  | zero =>
    obtain rfl : p = [] := List.length_eq_zero_iff.mp hleft
    rw [if_pos rfl]
    cases u with
    | node pin l' r' =>
      obtain ⟨c, hc, -⟩ := stores_node.mp hb
      have := hstay rfl
      rw [hc]
      cases pin <;> exact this
    | leaf a =>
      obtain ⟨hc, rfl⟩ := hb
      rw [hc]
      by_cases ha : a = .noData
      · subst ha
        simp only [leafRecord]
        rw [Tree.writeChild_eq hnd]
        have hn' : (t.nodes.set i (nd.setChild b (leafRecord v4 mark)))[i]? =
            some (nd.setChild b (leafRecord v4 mark)) := List.getElem?_set_self hlt
        refine MarkOutcome.of_child hnodup hfp ho hn' ?_
          (Frame.set (by simp) (List.Subset.refl [i]) hnb) (by simp)
        rw [hu]
        exact ⟨rfl, rfl⟩
      · have := hstay (markAt_occupied mark [] ha)
        cases a <;> first | exact absurd rfl ha | exact this
  | succ left =>
    have hp : p ≠ [] := by
      rintro rfl
      simp at hleft
    rw [if_neg (by omega)]
    cases u with
    | node pin l' r' =>
      obtain ⟨c, hc, hpin, hst⟩ := stores_node.mp hb
      have h := ih c t l' r' fb hp hst (List.nodup_cons.mp hnb).2
      rw [hc] at hself
      have := MarkOutcome.of_descend hnodup hfp ho (Frame.refl hnb) hself hpin (by omega)
        (by rw [hu]) (fun hl hr => by rw [hu]; exact .node hl hr) h
      rw [hc]
      cases pin <;> exact this
    | leaf a =>
      obtain ⟨hc, rfl⟩ := hb
      rw [hc]
      by_cases ha : a = .noData
      · subst ha
        simp only [leafRecord]
        rcases Nat.lt_or_ge t.nodes.length (2 ^ 32) with hroom | hfull
        · obtain ⟨nodes₂, hset, hi₂, hst, hframe, hlen⟩ := split_nodes v4 .noData hnd
          have hnd' : (t.nodes ++ [leafNode v4 .noData])[i]? = some nd := by
            rw [List.getElem?_append_left hlt, hnd]
          have hwrite : Tree.writeChild i b (.node t.nodes.length)
              ⟨t.nodes ++ [leafNode v4 .noData]⟩ = (.ok (), ⟨nodes₂⟩) := by
            rw [Tree.writeChild_eq hnd', hset]
          rw [Exec.bind_ok (Tree.allocNode_eq hroom Node.empty)]
          rw [Exec.bind_ok (show Tree.writeChild i b (.node t.nodes.length)
            ⟨t.nodes ++ [Node.empty]⟩ = (.ok (), ⟨nodes₂⟩) from hwrite)]
          have h := ih t.nodes.length ⟨nodes₂⟩ _ _ _ hp hst (List.nodup_singleton _)
          have hi₂' : nodes₂[i]? = some (nd.setChild b (nodeRecord false t.nodes.length)) := hi₂
          refine MarkOutcome.of_descend hnodup hfp ho hframe hi₂' (by simp) (by omega)
            ?_ (fun hl hr => by rw [hu]; exact .leaf hl hr) h
          obtain ⟨c, p', rfl⟩ := List.exists_cons_of_ne_nil hp
          rw [hu, markAt_noData]
        · rw [Exec.bind_error (Tree.allocNode_full hfull Node.empty)]
          have hst' := nodeStores_of_record hself (u := leaf .noData) (by rw [hc]; exact ⟨rfl, rfl⟩)
            (Frame.refl hnb) ho (hfp.nodup_iff.mpr hnodup)
          obtain ⟨fp', hst', -, hf'⟩ := hst'
          cases b with
          | false =>
            rw [← show l = leaf .noData from hu] at hst'
            exact .full fp' (List.cons_ne_nil _ _) (Splits.refl _ _) (Splits.refl _ _) hst'
              (hf'.perm hfp (List.Perm.refl _)) hfull (by omega)
          | true =>
            rw [← show r = leaf .noData from hu] at hst'
            exact .full fp' (List.cons_ne_nil _ _) (Splits.refl _ _) (Splits.refl _ _) hst'
              (hf'.perm hfp (List.Perm.refl _)) hfull (by omega)
      · have := hstay (markAt_occupied mark p ha)
        cases a <;> first | exact absurd rfl ha | exact this

variable (mark) in
/-- A mark below a node. -/
theorem installMarkerFrom_spec (bits : BitVec 128) {prefixLen : ℕ} (hlen : prefixLen ≤ 128) :
    ∀ (left bitIndex i : ℕ) (t : Tree) (l r : BitTrie (Leaf ValueId)) (fp : List ℕ),
      left = prefixLen - bitIndex → NodeStores t.nodes v4 i l r fp → fp.Nodup →
      MarkOutcome t.nodes v4 i mark l r fp (pathFrom bits prefixLen bitIndex)
        (Tree.installMarkerFrom bits (leafRecord v4 mark) left bitIndex i t) := by
  intro left
  induction left with
  | zero =>
    intro bitIndex i t l r fp hleft hst hnodup
    rw [pathFrom_eq_nil (by omega)]
    exact .done fp hst (Frame.refl hnodup) (by simp)
  | succ left ih =>
    intro bitIndex i t l r fp hleft hst hnodup
    obtain ⟨nd, fl, fr, hnd, hl, hr, rfl⟩ := hst
    rw [pathFrom_cons (by omega) hlen]
    have hbit : Tree.walkBit bits bitIndex = _ := Tree.walkBit_eq (by omega)
    have hleft' : (pathFrom bits prefixLen (bitIndex + 1)).length = left := by
      rw [length_pathFrom hlen]
      omega
    have ih' : ∀ (i : ℕ) (t : Tree) (l r : BitTrie (Leaf ValueId)) (fp : List ℕ),
        pathFrom bits prefixLen (bitIndex + 1) ≠ [] → NodeStores t.nodes v4 i l r fp → fp.Nodup →
        MarkOutcome t.nodes v4 i mark l r fp (pathFrom bits prefixLen (bitIndex + 1))
          (Tree.installMarkerFrom bits (leafRecord v4 mark) left (bitIndex + 1) i t) :=
      fun i t l r fp _ => ih (bitIndex + 1) i t l r fp (by omega)
    cases hb : bits.getMsbD bitIndex with
    | false =>
      rw [hb] at hbit
      exact installMarkerFrom_record bits ih' hbit hleft' hnodup (List.Perm.refl _) hnd hl hr
    | true =>
      rw [hb] at hbit
      exact installMarkerFrom_record bits ih' hbit hleft' hnodup
        (List.Perm.cons i List.perm_append_comm) hnd hr hl

end MmdbWriter
