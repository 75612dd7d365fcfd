import MmdbWriter.Proofs.Compact

/-!
# Renumbering

`renumber_reachable` visits the nodes below the root in pre-order, which is their footprint, and
gives each its place in that order for an index. What the nodes store stays as it is.
-/

namespace MmdbWriter

open BitTrie (leaf node)

namespace Tree

variable {t : Tree} {v4 : ℕ}

/-- The nodes on the stack of `renumber_reachable` and all that is below them, in the order of the
visit. -/
inductive Pending (nodes : List Node) (v4 : ℕ) : List ℕ → List ℕ → Prop
  | nil : Pending nodes v4 [] []
  | cons {i l r fp stack fps} (hst : NodeStores nodes v4 i l r fp) (hp : Pending nodes v4 stack fps) :
      Pending nodes v4 (i :: stack) (fp ++ fps)

theorem Pending.pushed {nodes : List Node} {rec : Record} {u : BitTrie (Leaf ValueId)}
    {fu stack fps : List ℕ} (hu : Stores nodes v4 rec u fu) (hp : Pending nodes v4 stack fps) :
    Pending nodes v4 (pushed rec ++ stack) (fu ++ fps) := by
  cases u with
  | leaf a =>
    obtain ⟨rfl, rfl⟩ := hu
    cases a <;> exact hp
  | node pin l r =>
    obtain ⟨i, rfl, -, hst⟩ := stores_node.mp hu
    cases pin <;> exact Pending.cons hst hp

/-- The map gives every visited node its place in the order. -/
def Numbers (oldToNew : List (ℕ × ℕ)) (order : List ℕ) : Prop :=
  ∀ i k : ℕ, oldToNew.lookup i = some k ↔ order[k]? = some i

theorem Numbers.lookup_eq_none {oldToNew : List (ℕ × ℕ)} {order : List ℕ}
    (h : Numbers oldToNew order) {i : ℕ} (hi : i ∉ order) : oldToNew.lookup i = none := by
  rw [Option.eq_none_iff_forall_ne_some]
  intro k hk
  exact hi (List.mem_of_getElem? ((h i k).mp hk))

theorem Numbers.append {oldToNew : List (ℕ × ℕ)} {order : List ℕ} (h : Numbers oldToNew order)
    {i : ℕ} (hi : i ∉ order) : Numbers ((i, order.length) :: oldToNew) (order ++ [i]) := by
  intro j k
  rw [List.lookup_cons]
  by_cases hji : j = i
  · subst hji
    simp only [BEq.rfl, Option.some.injEq]
    refine ⟨fun hk => by simp [← hk], fun hk => ?_⟩
    rw [List.getElem?_append] at hk
    split_ifs at hk with hlt
    · exact absurd (List.mem_of_getElem? hk) hi
    · have := (List.getElem?_eq_some_iff.mp hk).1
      simp only [List.length_singleton] at this
      omega
  · have hbeq : (j == i) = false := by simpa using hji
    rw [hbeq]
    simp only []
    rw [h j k, List.getElem?_append]
    split_ifs with hlt
    · rfl
    · rw [List.getElem?_eq_none (by omega)]
      refine ⟨fun hk => (by cases hk), fun hk => ?_⟩
      have := List.mem_of_getElem? hk
      rw [List.mem_singleton] at this
      exact absurd this hji

/-- The visit goes through the nodes below the stack in pre-order. -/
theorem visitOrder_spec : ∀ (fuel : ℕ) (stack fps : List ℕ) (oldToNew : List (ℕ × ℕ))
    (order : List ℕ), Pending t.nodes v4 stack fps → fps.length < fuel → (order ++ fps).Nodup →
    (order ++ fps).length ≤ 2 ^ 32 → Numbers oldToNew order →
    ∃ oldToNew', visitOrder t fuel stack oldToNew order = .ok (oldToNew', order ++ fps) ∧
      Numbers oldToNew' (order ++ fps) := by
  intro fuel
  induction fuel with
  | zero =>
    intro stack fps oldToNew order _ hfuel
    omega
  | succ fuel ih =>
    intro stack fps oldToNew order hp hfuel hnd hlen hnum
    cases hp with
    | nil =>
      rw [List.append_nil]
      exact ⟨oldToNew, rfl, hnum⟩
    | @cons i l r fp stack fps hst hp =>
      obtain ⟨nd, fl, fr, hn, hl, hr, rfl⟩ := hst
      have hi : i ∉ order := fun hmem =>
        (List.nodup_append.mp hnd).2.2 i hmem i (by simp) rfl
      have hread : t.nodeAt i = .ok nd := by
        unfold nodeAt
        rw [hn]
      have heq : order ++ (i :: (fl ++ fr) ++ fps) = order ++ [i] ++ (fl ++ (fr ++ fps)) := by simp
      have hmin : min order.length u32Max = order.length := by
        rw [List.length_append, List.length_append, List.length_cons] at hlen
        unfold u32Max
        omega
      rw [heq] at hnd hlen ⊢
      unfold visitOrder
      rw [hnum.lookup_eq_none hi]
      simp only [hread, hmin, bind, Except.bind]
      refine ih _ _ _ _ ((hp.pushed hr).pushed hl) ?_ hnd hlen (hnum.append hi)
      simp only [List.length_append, List.length_cons] at hfuel ⊢
      omega

theorem mapM_nodeAt : ∀ {order : List ℕ}, (∀ i ∈ order, i < t.nodes.length) →
    ∃ ns, order.mapM t.nodeAt = .ok ns ∧ ns.length = order.length ∧
      ∀ k i : ℕ, order[k]? = some i → ns[k]? = t.nodes[i]?
  | [], _ => ⟨[], rfl, rfl, by simp⟩
  | i :: order, h => by
    obtain ⟨ns, hns, hlen, hget⟩ := mapM_nodeAt fun j hj =>
      h j (List.mem_cons_of_mem i hj)
    have hlt := h i List.mem_cons_self
    have hi := List.getElem?_eq_getElem hlt
    have hread : t.nodeAt i = .ok t.nodes[i] := by
      unfold nodeAt
      rw [hi]
    refine ⟨t.nodes[i] :: ns, ?_, by simp [hlen], ?_⟩
    · rw [List.mapM_cons, hread, hns]
      rfl
    · rintro (_ | k) j hj
      · simp only [List.getElem?_cons_zero, Option.some.injEq] at hj
        rw [← hj, hi]
        rfl
      · exact hget k j hj

/-- The new index of a node. -/
def newIndex (oldToNew : List (ℕ × ℕ)) (i : ℕ) : ℕ := (oldToNew.lookup i).getD 0

theorem Numbers.newIndex {oldToNew : List (ℕ × ℕ)} {order : List ℕ} (h : Numbers oldToNew order)
    {i : ℕ} (hi : i ∈ order) : oldToNew.lookup i = some (newIndex oldToNew i) ∧
      order[newIndex oldToNew i]? = some i := by
  obtain ⟨k, hk⟩ := List.mem_iff_getElem?.mp hi
  have hlk := (h i k).mpr hk
  have hnew : Tree.newIndex oldToNew i = k := by
    unfold Tree.newIndex
    rw [hlk]
    rfl
  rw [hnew]
  exact ⟨hlk, hk⟩

theorem Numbers.map_newIndex {oldToNew : List (ℕ × ℕ)} {order : List ℕ}
    (h : Numbers oldToNew order) : order.map (Tree.newIndex oldToNew) = List.range order.length := by
  apply List.ext_getElem (by simp)
  intro k h1 h2
  rw [List.length_map] at h1
  have hlk := (h order[k] k).mpr (List.getElem?_eq_getElem h1)
  rw [List.getElem_map, List.getElem_range, Tree.newIndex, hlk]
  rfl

/-- The nodes in their new places, with their records remapped, store what they stored before. -/
theorem stores_remap {oldToNew : List (ℕ × ℕ)} {order : List ℕ} {ns : List Node}
    (hnum : Numbers oldToNew order) (hget : ∀ k i : ℕ, order[k]? = some i → ns[k]? = t.nodes[i]?) :
    ∀ {u : BitTrie (Leaf ValueId)} {rec : Record} {fu : List ℕ}, Stores t.nodes v4 rec u fu →
      (∀ j ∈ fu, j ∈ order) → ((∃ p, u.eval p = .aliased) → v4 ∈ order) →
      Stores (ns.map (remapNode oldToNew)) (newIndex oldToNew v4) (remapRecord oldToNew rec) u
        (fu.map (newIndex oldToNew))
  | leaf a, rec, fu, h, _, ha => by
    obtain ⟨rfl, rfl⟩ := h
    refine ⟨?_, rfl⟩
    cases a with
    | aliased =>
      have := (hnum.newIndex (ha ⟨[], rfl⟩)).1
      simp [remapRecord, leafRecord, this]
    | noData => rfl
    | reserved => rfl
    | data id => rfl
  | node pin l r, rec, fu, h, hmem, ha => by
    obtain ⟨i, nd, fl, fr, rfl, hpin, hn, hl, hr, rfl⟩ := h
    obtain ⟨hlk, hplace⟩ := hnum.newIndex (hmem i List.mem_cons_self)
    have hnew := hget _ _ hplace
    refine ⟨newIndex oldToNew i, remapNode oldToNew nd, _, _, ?_, ?_, ?_,
      stores_remap hnum hget hl ?_ ?_, stores_remap hnum hget hr ?_ ?_, by simp⟩
    · cases pin <;> simp [remapRecord, nodeRecord, hlk]
    · intro hp
      rw [hpin hp]
    · rw [List.getElem?_map, hnew, hn]
      rfl
    · exact fun j hj => hmem j (by simp [hj])
    · rintro ⟨p, hp⟩
      exact ha ⟨false :: p, by simpa using hp⟩
    · exact fun j hj => hmem j (by simp [hj])
    · rintro ⟨p, hp⟩
      exact ha ⟨true :: p, by simpa using hp⟩

/-- The nodes visited are the footprint of the root. -/
theorem visitOrder_root {l r : BitTrie (Leaf ValueId)} {fp : List ℕ}
    (hst : NodeStores t.nodes v4 0 l r fp) (hnd : fp.Nodup) (hlen : t.nodes.length ≤ 2 ^ 32) :
    ∃ oldToNew, visitOrder t (2 * t.nodes.length + 2) [0] [] [] = .ok (oldToNew, fp) ∧
      Numbers oldToNew fp := by
  have hfp := length_le_of_nodeStores hst hnd
  have hp : Pending t.nodes v4 [0] fp := by
    have := Pending.cons hst .nil
    rwa [List.append_nil] at this
  exact visitOrder_spec (2 * t.nodes.length + 2) [0] fp [] [] hp (by omega) hnd
    (by rw [List.nil_append]; omega) fun i k => by simp

/-- After the renumbering the footprint of the root is the whole vector, in order. -/
theorem renumberReachable_spec {l r : BitTrie (Leaf ValueId)} {fp : List ℕ}
    (hst : NodeStores t.nodes v4 0 l r fp) (hnd : fp.Nodup) (hlen : t.nodes.length ≤ 2 ^ 32)
    (ha : (∃ p, (node false l r).eval p = .aliased) → v4 ∈ fp) :
    ∃ t' v4', renumberReachable t = (.ok (), t') ∧
      NodeStores t'.nodes v4' 0 l r (List.range t'.nodes.length) ∧
      t'.nodes.length ≤ t.nodes.length := by
  obtain ⟨oldToNew, hvisit, hnum⟩ := visitOrder_root hst hnd hlen
  obtain ⟨ns, hns, hnslen, hget⟩ := mapM_nodeAt (nodeStores_mem_lt hst)
  have hroot : newIndex oldToNew 0 = 0 := by
    obtain ⟨nd, fl, fr, -, -, -, rfl⟩ := hst
    have := (hnum 0 0).mpr rfl
    unfold newIndex
    rw [this]
    rfl
  have hstores := stores_remap hnum hget (nodeStores_unpinned hst) (fun j hj => hj) ha
  rw [hnum.map_newIndex, ← hnslen, ← List.length_map (f := remapNode oldToNew)] at hstores
  refine ⟨⟨ns.map (remapNode oldToNew)⟩, newIndex oldToNew v4, ?_, ?_, ?_⟩
  · unfold renumberReachable
    simp only [hvisit, hns]
  · obtain ⟨i, hi, -, h⟩ := stores_node.mp hstores
    have hlk := (hnum.newIndex (nodeStores_root_mem hst)).1
    have : 0 = i := by simpa [remapRecord, nodeRecord, hlk, hroot] using hi
    rwa [← this] at h
  · have := length_le_of_nodeStores hst hnd
    rw [List.length_map, hnslen]
    exact this

end Tree

end MmdbWriter
