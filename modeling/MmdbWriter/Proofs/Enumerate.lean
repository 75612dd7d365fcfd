import MmdbWriter.Listing
import MmdbWriter.Proofs.Built

/-!
# The networks of a database are the maximal blocks

The data leaves of a built tree are the leaves of a normal form, and these are the widest blocks on
which the map has one label.
-/

namespace MmdbWriter

open BitTrie (leaf node)

/-- A leaf with data below a path. -/
def Leaf.entryAt {α : Type} (path : List Bool) (e : List Bool × Leaf α) : Option (List Bool × α) :=
  match e.2 with
  | .data v => some (path ++ e.1, v)
  | _ => none

theorem Leaf.entryAt_cons {α : Type} (path : List Bool) (b : Bool) (e : List Bool × Leaf α) :
    Leaf.entryAt path (b :: e.1, e.2) = Leaf.entryAt (path ++ [b]) e := by
  rcases e with ⟨p, _ | v | _ | _⟩ <;> simp [Leaf.entryAt]

theorem Leaf.mem_filterMap_entryAt {α : Type} {es : List (List Bool × Leaf α)} {p : List Bool}
    {v : α} : (p, v) ∈ es.filterMap (Leaf.entryAt []) ↔ (p, .data v) ∈ es := by
  rw [List.mem_filterMap]
  constructor
  · rintro ⟨⟨q, a⟩, hmem, he⟩
    rcases a with _ | v' | _ | _ <;>
      simp only [Leaf.entryAt, List.nil_append, Option.some.injEq, Prod.mk.injEq,
        reduceCtorEq] at he
    obtain ⟨rfl, rfl⟩ := he
    exact hmem
  · exact fun hmem => ⟨_, hmem, rfl⟩

theorem Leaf.pairwise_entries {α : Type} (t : BitTrie (Leaf α)) :
    (t.leaves.filterMap (Leaf.entryAt [])).Pairwise fun e e' => ¬ e.1 <+: e'.1 ∧ ¬ e'.1 <+: e.1 := by
  refine List.Pairwise.filterMap _ (fun e e' hee x hx y hy => ?_) (BitTrie.leaves_pairwise t)
  rcases e with ⟨p, _ | v | _ | _⟩ <;> rcases e' with ⟨p', _ | v' | _ | _⟩ <;>
    simp only [Leaf.entryAt, List.nil_append, Option.some.injEq, reduceCtorEq] at hx hy
  rw [← hx, ← hy]
  exact hee

/-- The leaves below a node are listed from left to right. -/
theorem Tree.listNode_spec {t : Tree} {v4 : ℕ} : ∀ (depth i : ℕ) (l r : BitTrie (Leaf ValueId))
    (fp : List ℕ) (path : List Bool), NodeStores t.nodes v4 i l r fp →
    (node false l r).height ≤ depth →
    t.listNode depth i path = .ok ((node false l r).leaves.filterMap (Leaf.entryAt path)) := by
  intro depth
  induction depth with
  | zero =>
    intro i l r fp path _ hh
    simp [BitTrie.height] at hh
  | succ depth ih =>
    intro i l r fp path hst hh
    obtain ⟨nd, fl, fr, hn, hl, hr, rfl⟩ := hst
    simp only [BitTrie.height] at hh
    have hrec : ∀ (rec : Record) (u : BitTrie (Leaf ValueId)) (fu : List ℕ) (q : List Bool),
        Stores t.nodes v4 rec u fu → u.height ≤ depth →
        listRecord (t.listNode depth) q rec = .ok (u.leaves.filterMap (Leaf.entryAt q)) := by
      intro rec u fu q hu hhu
      cases u with
      | leaf a =>
        obtain ⟨rfl, -⟩ := hu
        cases a <;> simp [listRecord, leafRecord, BitTrie.leaves, Leaf.entryAt]
      | node pin l' r' =>
        obtain ⟨c, rfl, -, hc⟩ := stores_node.mp hu
        have h := ih c l' r' fu q hc (by simpa [BitTrie.height] using hhu)
        cases pin <;> exact h
    have hread : t.nodeAt i = .ok nd := by
      unfold nodeAt
      rw [hn]
    unfold listNode
    rw [hread]
    simp only [bind, Except.bind, hrec _ l fl _ hl (by omega), hrec _ r fr _ hr (by omega),
      BitTrie.leaves, List.filterMap_append, List.filterMap_map]
    have hcons : ∀ b : Bool, (Leaf.entryAt path ∘ fun e : List Bool × Leaf ValueId => (b :: e.1, e.2)) =
        Leaf.entryAt (path ++ [b]) := fun b => funext fun e => Leaf.entryAt_cons path b e
    rw [hcons, hcons]

namespace Writer

theorem mapM_entries {pool : ValuePool} {es : List (List Bool × Leaf ValueId)}
    {es' : List (List Bool × Leaf Value)}
    (h : List.Forall₂ (fun e e' => e.1 = e'.1 ∧ IdRel pool e.2 e'.2) es es') :
    (es.filterMap (Leaf.entryAt [])).mapM (fun e => do
        let v ← pool.get e.2
        .ok (e.1, v)) = (.ok (es'.filterMap (Leaf.entryAt [])) : Except Fault _) := by
  induction h with
  | nil => rfl
  | @cons e e' es es' he _ ih =>
    obtain ⟨p, a⟩ := e
    obtain ⟨p', a'⟩ := e'
    obtain ⟨rfl, ha⟩ := he
    cases a <;> cases a' <;> simp only [IdRel, Leaf.Rel] at ha <;>
      simp only [List.filterMap_cons, Leaf.entryAt, List.nil_append]
    · exact ih
    · rw [List.mapM_cons, ih]
      simp only [ValuePool.get, ha, bind, Except.bind]
      rfl
    · exact ih
    · exact ih

variable {w : Writer} {l r : BitTrie (Leaf Value)}

/-- The networks are the data leaves of the built trie. -/
theorem Inv.networks (h : w.Inv l r) (hlen : w.tree.Indexed)
    (hno : ¬ (w.ipVersion = .v6 ∧ w.ipv4Aliasing = .enabled)) :
    w.networks = .ok ((node false l r).normKids.leaves.filterMap (Leaf.entryAt [])) := by
  rcases h.models.buildTree h.unpinned h.not_aliased hlen with ⟨t, u, ht, ⟨v4, l', r', rfl, hst⟩, hrel⟩ | ⟨n, -, -, hal⟩
  · unfold WriterBuilder.builtTrie at hrel
    rw [if_neg hno] at hrel
    have hheight : (node false l' r').height ≤ w.ipVersion.treeDepth := by
      have h1 := h.height
      have h2 := BitTrie.height_norm_le l
      have h3 := BitTrie.height_norm_le r
      rw [hrel.height]
      simp only [BitTrie.normKids, BitTrie.height] at h1 ⊢
      omega
    unfold Writer.networks Tree.dataLeaves
    rw [ht]
    simp only [bind, Except.bind, Tree.listNode_spec _ 0 l' r' _ [] hst hheight]
    exact mapM_entries hrel.leaves
  · exact absurd hal hno

variable [Ipnet]

theorem Inv.uniformOn_iff (h : w.Inv l r) {p : List Bool} {v : Value}
    (hp : p.length ≤ w.ipVersion.treeDepth) :
    w.UniformOn p v ↔ ∀ q, (node false l r).eval (p ++ q) = .data v := by
  have hvalue : ∀ a : Leaf Value, a.value = some v ↔ a = .data v := by
    intro a
    cases a <;> simp [Leaf.value]
  constructor
  · intro hu q
    have hlen : ((p ++ q).take w.ipVersion.treeDepth ++
        List.replicate (w.ipVersion.treeDepth - (p ++ q).length) false).length =
        w.ipVersion.treeDepth := by
      simp only [List.length_append, List.length_take, List.length_replicate]
      omega
    obtain ⟨ip, hip⟩ := exists_addrPath w.ipVersion hlen
    have hpre : p <+: (p ++ q).take w.ipVersion.treeDepth ++
        List.replicate (w.ipVersion.treeDepth - (p ++ q).length) false := by
      refine List.IsPrefix.trans ?_ (List.prefix_append _ _)
      rw [List.prefix_take_iff]
      exact ⟨List.prefix_append _ _, hp⟩
    have := hu ip _ hip hpre
    rw [h.get hip, BitTrie.eval_append_replicate, BitTrie.eval_take _ _ _ h.height,
      Except.ok.injEq, hvalue] at this
    exact this
  · rintro hu ip _ hip ⟨q, rfl⟩
    rw [h.get hip, hu q]
    rfl

/-- A leaf of the normal form is a maximal block. -/
theorem Inv.leafAt_iff (h : w.Inv l r) {p : List Bool} {v : Value} :
    (node false l r).normKids.leafAt p = some (.data v) ↔ w.MaximalBlock p v := by
  have hnorm : ∀ (b : Bool) (p : List Bool), (node false l r).normKids.leafAt (b :: p) =
      (bif b then r else l).norm.leafAt p := by
    intro b p
    cases b <;> rfl
  have heval : ∀ (b : Bool) (p : List Bool), (node false l r).eval (b :: p) =
      (bif b then r else l).norm.eval p := by
    intro b p
    cases b <;> simp [BitTrie.eval_norm]
  have hchild : ∀ b : Bool, (bif b then r else l).norm.Unpinned ∧
      (bif b then r else l).norm.ReducedOn fun _ => True := by
    intro b
    cases b
    · exact ⟨h.unpinned.2.1.norm, BitTrie.reducedOn_norm _ _⟩
    · exact ⟨h.unpinned.2.2.norm, BitTrie.reducedOn_norm _ _⟩
  constructor
  · intro hleaf
    rcases p with _ | ⟨b, p⟩
    · simp [BitTrie.normKids, BitTrie.leafAt] at hleaf
    have hlen : (b :: p).length ≤ w.ipVersion.treeDepth := by
      have h1 := BitTrie.length_le_of_leafAt hleaf
      have h2 := h.height
      have h3 := BitTrie.height_norm_le l
      have h4 := BitTrie.height_norm_le r
      simp only [BitTrie.normKids, BitTrie.height] at h1 h2 ⊢
      omega
    rw [hnorm, BitTrie.leafAt_iff_maximal (hchild b).1 (hchild b).2] at hleaf
    refine ⟨by simp, hlen, ?_, ?_⟩
    · rw [h.uniformOn_iff hlen]
      intro q
      rw [List.cons_append, heval]
      exact hleaf.1 q
    · rintro p' hne hpre ⟨v', hv'⟩
      obtain ⟨b', p', rfl⟩ := List.exists_cons_of_ne_nil hne
      rw [h.uniformOn_iff (hpre.length_le.trans hlen)] at hv'
      obtain ⟨rfl, hpre'⟩ := List.cons_prefix_cons.mp hpre
      rw [hleaf.2 p' hpre' ⟨.data v', fun q => by rw [← heval]; exact hv' q⟩]
  · intro hmax
    obtain ⟨b, p, rfl⟩ := List.exists_cons_of_ne_nil hmax.ne_nil
    have hu := (h.uniformOn_iff hmax.length_le).mp hmax.uniform
    rw [hnorm, BitTrie.leafAt_iff_maximal (hchild b).1 (hchild b).2]
    refine ⟨fun q => by rw [← heval]; exact hu q, ?_⟩
    rintro p' hpre ⟨a, ha⟩
    have hv : a = .data v := by
      obtain ⟨s, rfl⟩ := hpre
      have h1 := ha s
      have h2 := hu []
      rw [List.append_nil, heval, h1] at h2
      exact h2
    have hpre' : b :: p' <+: b :: p := List.cons_prefix_cons.mpr ⟨rfl, hpre⟩
    have := hmax.maximal (b :: p') (by simp) hpre' ⟨v, by
      rw [h.uniformOn_iff (hpre'.length_le.trans hmax.length_le)]
      intro q
      rw [List.cons_append, heval, ha q, hv]⟩
    rwa [List.cons.injEq, and_iff_right rfl] at this

/-- The networks of a database without aliases are the maximal blocks of `get`. They are apart from
each other and cover exactly the addresses that have data, and no two halves of one network that
both are networks have the same value. -/
theorem networks_eq_maximalBlocks (hw : w.Reachable)
    (hno : w.ipVersion = .v4 ∨ w.ipv4Aliasing = .disabled) :
    ∃ nets, w.networks = .ok nets ∧ (∀ p v, (p, v) ∈ nets ↔ w.MaximalBlock p v) ∧
      nets.Pairwise (fun e e' => ¬ e.1 <+: e'.1 ∧ ¬ e'.1 <+: e.1) ∧
      (∀ ip q v, addrPath w.ipVersion ip = some q →
        (w.get ip = .ok (some v) ↔ ∃ p, (p, v) ∈ nets ∧ p <+: q)) ∧
      ∀ p v, p ≠ [] → ¬ ((p ++ [false], v) ∈ nets ∧ (p ++ [true], v) ∈ nets) := by
  obtain ⟨l, r, h⟩ := hw.inv
  have hno' : ¬ (w.ipVersion = .v6 ∧ w.ipv4Aliasing = .enabled) := by
    rintro ⟨h1, h2⟩
    rcases hno with hno | hno
    · rw [h1] at hno
      cases hno
    · rw [h2] at hno
      cases hno
  have hmem : ∀ p v, (p, v) ∈ (node false l r).normKids.leaves.filterMap (Leaf.entryAt []) ↔
      w.MaximalBlock p v := by
    intro p v
    rw [Leaf.mem_filterMap_entryAt, BitTrie.mem_leaves, h.leafAt_iff]
  refine ⟨_, h.networks hw.indexed hno', hmem, Leaf.pairwise_entries _, ?_, ?_⟩
  · intro ip q v hip
    constructor
    · intro hget
      rw [h.get hip, Except.ok.injEq] at hget
      have hdata : (node false l r).normKids.eval q = .data v := by
        rw [BitTrie.eval_normKids]
        cases ha : (node false l r).eval q <;> rw [ha] at hget <;> simp [Leaf.value] at hget
        rw [hget]
      have hheight : (node false l r).normKids.height ≤ q.length := by
        have h1 := h.height
        have h3 := BitTrie.height_norm_le l
        have h4 := BitTrie.height_norm_le r
        rw [length_addrPath hip]
        simp only [BitTrie.normKids, BitTrie.height] at h1 ⊢
        omega
      have hcov := BitTrie.coverAt_of_height_le hheight
      rw [hdata] at hcov
      obtain ⟨p, hp, hleaf⟩ := BitTrie.exists_leafAt_of_coverAt hcov
      exact ⟨p, (hmem p v).mpr (h.leafAt_iff.mp hleaf), hp⟩
    · rintro ⟨p, hp, hpre⟩
      exact ((hmem p v).mp hp).uniform ip q hip hpre
  · rintro p v hne ⟨h0, h1⟩
    have hm0 := (hmem _ v).mp h0
    have hm1 := (hmem _ v).mp h1
    have hlen : p.length ≤ w.ipVersion.treeDepth := by
      have := hm0.length_le
      rw [List.length_append] at this
      omega
    have hu0 := (h.uniformOn_iff hm0.length_le).mp hm0.uniform
    have hu1 := (h.uniformOn_iff hm1.length_le).mp hm1.uniform
    have := hm0.maximal p hne (List.prefix_append _ _) ⟨v, by
      rw [h.uniformOn_iff hlen]
      rintro (_ | ⟨b, q⟩)
      · rw [List.append_nil, ← BitTrie.eval_append_replicate _ p 1]
        simpa using hu0 []
      · cases b
        · simpa using hu0 q
        · simpa using hu1 q⟩
    simp at this

omit [Ipnet] in
/-- The two halves of a network are listed as one. -/
theorem networks_eq_maximalBlocks_halves :
    let _ := Ipnet.std
    let b : WriterBuilder := { databaseType := "City", ipVersion := .v4 }
    let calls : List Call := [.insert (.value (.v4 ⟨0x01000000, 9, by decide⟩) (.string "a")),
      .insert (.value (.v4 ⟨0x01800000, 9, by decide⟩) (.string "a"))]
    ∃ (w : Writer) (nets : List (List Bool × Value)), b.build = .ok w ∧
      (run calls w).2.networks = .ok nets ∧
      (∀ p v, (p, v) ∈ nets ↔ (run calls w).2.MaximalBlock p v) ∧
      ([false, false, false, false, false, false, false, true], .string "a") ∈ nets := by
  intro _ b calls
  let w : Writer := { toWriterBuilder := b, tree := Tree.new, pool := ValuePool.new }
  have hok : (run calls w).1 = [.ok (), .ok ()] := by decide +kernel
  have hw : (run calls w).2.Reachable := ⟨b, w, calls, rfl, by rw [hok]; simp, rfl⟩
  obtain ⟨nets, hnets, hmem, -⟩ := networks_eq_maximalBlocks hw (Or.inl (by decide +kernel))
  have hlist : (run calls w).2.networks = .ok
      [([false, false, false, false, false, false, false, true], .string "a")] := by
    decide +kernel
  refine ⟨w, nets, rfl, hnets, hmem, ?_⟩
  rw [hlist, Except.ok.injEq] at hnets
  rw [← hnets]
  exact List.mem_cons_self

end Writer

end MmdbWriter
