import MmdbWriter.Layout
import MmdbWriter.Proofs.Canonical

/-!
# The file depends on `get` alone

The trees built for two writers with one built trie differ in the ids of the values only. The values
come in one order, so that the data sections are the same, and every record is written as the same
number.
-/

namespace MmdbWriter

open BitTrie (leaf node)

/-- Two records, their ids related. -/
def RecordRel (R : ValueId → ValueId → Prop) : Record → Record → Prop
  | .data a, .data b => R a b
  | rec, rec' => rec = rec'

/-- Two nodes, their ids related. -/
def NodeRel (R : ValueId → ValueId → Prop) (n n' : Node) : Prop :=
  RecordRel R n.left n'.left ∧ RecordRel R n.right n'.right

section Stores

variable {R : ValueId → ValueId → Prop} {nodes nodes' : List Node} {v4 v4' : ℕ}

theorem recordRel_refl {rec : Record} (h : ∀ id, rec ≠ .data id) : RecordRel R rec rec := by
  cases rec <;> first | rfl | exact absurd rfl (h _)

/-- One footprint and one shape give the same records, up to the ids. -/
theorem stores_rel {t t' : BitTrie (Leaf ValueId)} {rec rec' : Record} {fp : List ℕ}
    (h : Stores nodes v4 rec t fp) (h' : Stores nodes' v4' rec' t' fp)
    (hrel : t.Rel (Leaf.Rel R) t') (hv4 : v4 = v4' ∨ ∀ p, t.eval p ≠ .aliased) :
    RecordRel R rec rec' ∧
      ∀ j ∈ fp, ∃ n n', nodes[j]? = some n ∧ nodes'[j]? = some n' ∧ NodeRel R n n' := by
  induction t generalizing t' rec rec' fp with
  | leaf a =>
    cases t' with
    | node _ _ _ => exact hrel.elim
    | leaf b =>
      obtain ⟨rfl, rfl⟩ := h
      obtain ⟨rfl, -⟩ := h'
      refine ⟨?_, by simp⟩
      cases a <;> cases b <;> simp only [BitTrie.Rel, Leaf.Rel] at hrel
      · exact rfl
      · exact hrel
      · exact rfl
      · rcases hv4 with rfl | hno
        · exact rfl
        · exact absurd (BitTrie.eval_leaf _ []) (hno [])
  | node pin l r ihl ihr =>
    cases t' with
    | leaf _ => exact hrel.elim
    | node pin' l' r' =>
      obtain ⟨i, n, fl, fr, rfl, -, hn, hl, hr, rfl⟩ := h
      obtain ⟨i', n', fl', fr', rfl, -, hn', hl', hr', hfp⟩ := h'
      obtain ⟨rfl, hrl, hrr⟩ := hrel
      rw [List.cons.injEq] at hfp
      obtain ⟨rfl, hfp⟩ := hfp
      have hlen : fl.length = fl'.length := by
        rw [stores_length hl, stores_length hl', hrl.size]
      obtain ⟨rfl, rfl⟩ := List.append_inj hfp hlen
      obtain ⟨hrecl, hsl⟩ := ihl hl hl' hrl
        (hv4.imp_right fun hno p hp => hno (false :: p) (by simpa using hp))
      obtain ⟨hrecr, hsr⟩ := ihr hr hr' hrr
        (hv4.imp_right fun hno p hp => hno (true :: p) (by simpa using hp))
      refine ⟨recordRel_refl fun id => by cases pin <;> simp [nodeRecord], fun j hj => ?_⟩
      simp only [List.mem_cons, List.mem_append] at hj
      rcases hj with rfl | hj | hj
      · exact ⟨n, n', hn, hn', hrecl, hrecr⟩
      · exact hsl j hj
      · exact hsr j hj

/-- The pinned node is at one place in the footprint. -/
theorem stores_pinned_eq {t t' : BitTrie (Leaf ValueId)} {rec rec' : Record} {fp : List ℕ}
    {p : List Bool} (h : Stores nodes v4 rec t fp) (h' : Stores nodes' v4' rec' t' fp)
    (hrel : t.Rel (Leaf.Rel R) t') (hp : t.PinnedAt p) : v4 = v4' := by
  induction t generalizing t' rec rec' fp p with
  | leaf _ => simp [BitTrie.PinnedAt] at hp
  | node pin l r ihl ihr =>
    cases t' with
    | leaf _ => exact hrel.elim
    | node pin' l' r' =>
      obtain ⟨i, n, fl, fr, rfl, hpin, hn, hl, hr, rfl⟩ := h
      obtain ⟨i', n', fl', fr', rfl, hpin', hn', hl', hr', hfp⟩ := h'
      obtain ⟨rfl, hrl, hrr⟩ := hrel
      rw [List.cons.injEq] at hfp
      obtain ⟨rfl, hfp⟩ := hfp
      have hlen : fl.length = fl'.length := by
        rw [stores_length hl, stores_length hl', hrl.size]
      obtain ⟨rfl, rfl⟩ := List.append_inj hfp hlen
      rcases p with _ | ⟨_ | _, p⟩
      · rw [← hpin hp, hpin' hp]
      · exact ihl hl hl' hrl hp
      · exact ihr hr hr' hrr hp

/-- Trees that hold related tries have related nodes. -/
theorem Tree.Holds.rel {t t' : Tree} {u u' : BitTrie (Leaf ValueId)} (h : t.Holds u)
    (h' : t'.Holds u') (hrel : u.Rel (Leaf.Rel R) u')
    (ha : (∃ p, u.eval p = .aliased) → ∃ p, u.PinnedAt p) :
    List.Forall₂ (NodeRel R) t.nodes t'.nodes := by
  obtain ⟨v4, l, r, rfl, hst⟩ := h
  obtain ⟨v4', l', r', rfl, hst'⟩ := h'
  have hs := nodeStores_unpinned hst
  have hs' := nodeStores_unpinned hst'
  have hlen : t.nodes.length = t'.nodes.length := by
    have h1 := stores_length hs
    have h2 := stores_length hs'
    rw [List.length_range] at h1 h2
    rw [h1, h2, hrel.size]
  rw [← hlen] at hs'
  have hv4 : v4 = v4' ∨ ∀ p, (node false l r).eval p ≠ .aliased := by
    by_cases hex : ∃ p, (node false l r).eval p = .aliased
    · obtain ⟨p, hp⟩ := ha hex
      exact Or.inl (stores_pinned_eq hs hs' hrel hp)
    · exact Or.inr fun p hp => hex ⟨p, hp⟩
  obtain ⟨-, hnodes⟩ := stores_rel hs hs' hrel hv4
  rw [List.forall₂_iff_get]
  refine ⟨hlen, fun i hi hi' => ?_⟩
  obtain ⟨n, n', hn, hn', hnn⟩ := hnodes i (List.mem_range.mpr hi)
  rw [List.getElem?_eq_getElem hi, Option.some.injEq] at hn
  rw [List.getElem?_eq_getElem hi', Option.some.injEq] at hn'
  simpa [hn, hn'] using hnn

end Stores

section Emit

variable {R : ValueId → ValueId → Prop} (hR : ∀ a b a' b', R a b → R a' b' → (a = a' ↔ b = b'))

include hR

theorem mem_rel {ids ids' : List ValueId} (h : List.Forall₂ R ids ids') {id id' : ValueId}
    (hid : R id id') : id ∈ ids ↔ id' ∈ ids' := by
  induction h with
  | nil => simp
  | cons hab _ ih => rw [List.mem_cons, List.mem_cons, hR _ _ _ _ hid hab, ih]

theorem collectId_rel {rs rs' : List Record} (h : List.Forall₂ (RecordRel R) rs rs') :
    ∀ {ids ids' : List ValueId}, List.Forall₂ R ids ids' →
      List.Forall₂ R (rs.foldl Tree.collectId ids) (rs'.foldl Tree.collectId ids') := by
  induction h with
  | nil => exact id
  | @cons rec rec' rs rs' hrec _ ih =>
    intro ids ids' hids
    refine ih ?_
    cases rec <;> cases rec' <;> simp only [RecordRel, reduceCtorEq] at hrec <;> try exact hids
    rename_i id id'
    have hmem := mem_rel hR hids hrec
    unfold Tree.collectId
    by_cases hin : id ∈ ids
    · simp only [if_pos hin, if_pos (hmem.mp hin)]
      exact hids
    · simp only [if_neg hin, if_neg fun hin' => hin (hmem.mpr hin')]
      exact List.rel_append hids (.cons hrec .nil)

/-- The ids come in one order. -/
theorem reachableDataIds_rel {t t' : Tree} (h : List.Forall₂ (NodeRel R) t.nodes t'.nodes) :
    List.Forall₂ R t.reachableDataIds t'.reachableDataIds := by
  have hrecs : ∀ {nodes nodes' : List Node}, List.Forall₂ (NodeRel R) nodes nodes' →
      List.Forall₂ (RecordRel R) (nodes.flatMap fun n => [n.left, n.right])
        (nodes'.flatMap fun n => [n.left, n.right]) := by
    intro nodes nodes' h
    induction h with
    | nil => exact .nil
    | cons hn _ ih => exact .cons hn.1 (.cons hn.2 ih)
  rw [Tree.reachableDataIds_eq, Tree.reachableDataIds_eq]
  exact collectId_rel hR (hrecs h) .nil

variable {pool pool' : ValuePool}
  (hpool : ∀ id id', R id id' → ∃ v, pool.values[id]? = some v ∧ pool'.values[id']? = some v)

include hpool

theorem pushIds_rel {ids ids' : List ValueId} (h : List.Forall₂ R ids ids') :
    ∀ (d : DataSection) (m m' : List (ValueId × ℕ)),
      (∀ id id', R id id' → m.lookup id = m'.lookup id') →
      ∃ d₁ m₁ m₁', Writer.pushIds pool ids d m = .ok (d₁, m₁) ∧
        Writer.pushIds pool' ids' d m' = .ok (d₁, m₁') ∧
        ∀ id id', R id id' → m₁.lookup id = m₁'.lookup id' := by
  induction h with
  | nil => exact fun d m m' hm => ⟨d, m, m', rfl, rfl, hm⟩
  | @cons a b ids ids' hid _ ih =>
    intro d m m' hm
    obtain ⟨v, hv, hv'⟩ := hpool a b hid
    have hnext : ∀ id id', R id id' → ((a, (d.push v).2) :: m).lookup id =
        ((b, (d.push v).2) :: m').lookup id' := by
      intro id id' hr
      have hbeq : (id == a) = (id' == b) := by
        rw [Bool.eq_iff_iff, beq_iff_eq, beq_iff_eq]
        exact hR _ _ _ _ hr hid
      rw [List.lookup_cons, List.lookup_cons, hbeq, hm id id' hr]
    obtain ⟨d₁, m₁, m₁', h, h', hm₁⟩ := ih (d.push v).1 _ _ hnext
    refine ⟨d₁, m₁, m₁', ?_, ?_, hm₁⟩
    · unfold Writer.pushIds
      simp only [ValuePool.get, hv, bind, Except.bind]
      exact h
    · unfold Writer.pushIds
      simp only [ValuePool.get, hv', bind, Except.bind]
      exact h'

omit hR hpool in
theorem serializeNodes_rel {nodes nodes' : List Node} (h : List.Forall₂ (NodeRel R) nodes nodes')
    (count : ℕ) (size : RecordSize) {m m' : List (ValueId × ℕ)}
    (hm : ∀ id id', R id id' → m.lookup id = m'.lookup id') :
    Tree.serializeNodes count size m nodes = Tree.serializeNodes count size m' nodes' := by
  have hrec : ∀ {rec rec' : Record}, RecordRel R rec rec' →
      Tree.encodeRecord rec count size m = Tree.encodeRecord rec' count size m' := by
    intro rec rec' hr
    cases rec <;> cases rec' <;> simp only [RecordRel, reduceCtorEq] at hr <;>
      first | rfl | (rw [hr]; rfl) | skip
    unfold Tree.encodeRecord
    simp only [hm _ _ hr]
  induction h with
  | nil => rfl
  | cons hn _ ih =>
    unfold Tree.serializeNodes
    rw [hrec hn.1, hrec hn.2, ih]

end Emit

namespace Writer

variable {w w' : Writer}

/-- Trees that differ in the ids of the values give one file. -/
theorem toBytes_congr {R : ValueId → ValueId → Prop}
    (hR : ∀ a b a' b', R a b → R a' b' → (a = a' ↔ b = b'))
    (hpool : ∀ id id', R id id' → ∃ v, w.pool.values[id]? = some v ∧ w'.pool.values[id']? = some v)
    (hopt : w'.toWriterBuilder = w.toWriterBuilder) (hepoch : w.buildEpoch.isSome) {t t' : Tree}
    (ht : w.buildTree = .ok t) (ht' : w'.buildTree = .ok t')
    (h : List.Forall₂ (NodeRel R) t.nodes t'.nodes) (now now' : SystemTime) :
    w.toBytes now = w'.toBytes now' := by
  obtain ⟨d, m, m', hp, hp', hm⟩ := pushIds_rel hR hpool (reachableDataIds_rel hR h)
    DataSection.new [] [] fun _ _ _ => rfl
  have hlen : t.nodes.length = t'.nodes.length := h.length_eq
  have hfits : t.fitsRecordSize = t'.fitsRecordSize := by
    funext size n
    unfold Tree.fitsRecordSize
    rw [hlen]
  have hpick : ∀ n, pickRecordSize t n w.recordSize = pickRecordSize t' n w'.recordSize := by
    intro n
    rw [hopt]
    unfold pickRecordSize Tree.nodeCount
    rw [hfits, hlen]
  have hmeta : ∀ size, w.metadata now t size = w'.metadata now' t' size := by
    intro size
    obtain ⟨e, he⟩ := Option.isSome_iff_exists.mp hepoch
    unfold metadata Tree.nodeCount buildEpochSecs
    rw [hopt, hlen, he]
    rfl
  have hser : ∀ size, t.serialize size m = t'.serialize size m' := by
    intro size
    unfold Tree.serialize
    rw [hlen]
    exact serializeNodes_rel h _ size hm
  unfold toBytes
  rw [ht, ht']
  simp only [bind, Except.bind, hp, hp', hpick, hser, hmeta]

/-- Writers with the same options and epoch that stand for one built trie write the same file. -/
theorem toBytes_eq_of_builtTrie {l r l' r' : BitTrie (Leaf Value)} (hm : w.Models l r)
    (hm' : w'.Models l' r') (hu : (node false l r).Unpinned) (hu' : (node false l' r').Unpinned)
    (ha : ∀ p, (node false l r).eval p ≠ .aliased) (ha' : ∀ p, (node false l' r').eval p ≠ .aliased)
    (hind : w.tree.Indexed) (hind' : w'.tree.Indexed)
    (hbuilt : w.builtTrie (node false l r) = w'.builtTrie (node false l' r'))
    (hopt : w'.toWriterBuilder = w.toWriterBuilder) (hepoch : w.buildEpoch.isSome)
    (hlen : w.tree.nodes.length + 144 < 2 ^ 32) (hlen' : w'.tree.nodes.length + 144 < 2 ^ 32)
    (now now' : SystemTime) : w.toBytes now = w'.toBytes now' := by
  rcases hm.buildTree hu ha hind with ⟨t, u, ht, hholds, hrel⟩ | ⟨n, -, hfull, -⟩
  · rcases hm'.buildTree hu' ha' hind' with ⟨t', u', ht', hholds', hrel'⟩ | ⟨n, -, hfull, -⟩
    · let R : ValueId → ValueId → Prop := fun id id' =>
        ∃ v, w.pool.values[id]? = some v ∧ w'.pool.values[id']? = some v
      have hR : ∀ a b a' b', R a b → R a' b' → (a = a' ↔ b = b') := by
        rintro a b a' b' ⟨v, ha, hb⟩ ⟨v', ha', hb'⟩
        constructor
        · rintro rfl
          rw [ha] at ha'
          rw [← Option.some.inj ha'] at hb'
          exact w'.pool.id_unique hb hb'
        · rintro rfl
          rw [hb] at hb'
          rw [← Option.some.inj hb'] at ha'
          exact w.pool.id_unique ha ha'
      have hids : u.Rel (Leaf.Rel R) u' := by
        rw [← hbuilt] at hrel'
        refine hrel.comp (fun a b c hab hcb => ?_) hrel'
        cases a <;> cases b <;> simp only [IdRel, Leaf.Rel] at hab <;>
          cases c <;> simp only [IdRel, Leaf.Rel] at hcb ⊢
        exact ⟨_, hab, hcb⟩
      refine toBytes_congr hR (fun _ _ hid => hid) hopt hepoch ht ht'
        (hholds.rel hholds' hids ?_) now now'
      rintro ⟨p, hp⟩
      exact ⟨v4Path, (hrel.pinnedAt v4Path).mpr (w.pinnedAt_builtTrie hu ha
        ⟨p, (hrel.eval p).aliased_iff.mp hp⟩)⟩
    · omega
  · omega

variable [Ipnet]

/-- Writers with the same options and epoch whose `get` agrees at every address write the same
file. -/
theorem toBytes_eq_of_get (hw : w.Reachable) (hw' : w'.Reachable)
    (hopt : w'.toWriterBuilder = w.toWriterBuilder) (hepoch : w.buildEpoch.isSome)
    (hlen : w.tree.nodes.length + 144 < 2 ^ 32) (hlen' : w'.tree.nodes.length + 144 < 2 ^ 32)
    (hget : ∀ ip, w.get ip = w'.get ip) (now now' : SystemTime) :
    w.toBytes now = w'.toBytes now' := by
  obtain ⟨l, r, h⟩ := hw.inv
  obtain ⟨l', r', h'⟩ := hw'.inv
  have hbuilt := h.builtTrie_congr h' hopt hget (by omega) (by omega)
  exact toBytes_eq_of_builtTrie h.models h'.models h.unpinned h'.unpinned h.not_aliased
    h'.not_aliased hw.indexed hw'.indexed hbuilt hopt hepoch hlen hlen' now now'

omit [Ipnet] in
/-- A range leaves no trace of having been inserted twice. -/
theorem toBytes_eq_of_get_repeated :
    let _ := Ipnet.std
    let b : WriterBuilder := { databaseType := "City", ipVersion := .v4, buildEpoch := some 0 }
    let c : Call := .range (.v4 0x01020300) (.v4 0x010203FF) (.string "a")
    ∃ w : Writer, b.build = .ok w ∧ (run [c] w).2.toBytes 0 = (run [c, c] w).2.toBytes (10 ^ 9) := by
  intro _ b c
  let w : Writer := { toWriterBuilder := b, tree := Tree.new, pool := ValuePool.new }
  have hb : b.build = .ok w := rfl
  have hok : (exec c w).1 = .ok () ∧ (exec c (exec c w).2).1 = .ok () := by decide +kernel
  have hw : w.Reachable := ⟨b, w, [], hb, List.not_mem_nil, rfl⟩
  have hw₁ := hw.exec c (by rw [hok.1]; simp)
  have hw₂ := hw₁.exec c (by rw [hok.2]; simp)
  obtain ⟨l, r, hinv⟩ := hw₁.inv
  have hopt₁ := (Inv.exec_keeps (w := w) (Classical.choose_spec (Classical.choose_spec hw.inv)) c
    (by rw [hok.1]; simp)).1
  have hopt := (hinv.exec_keeps c (by rw [hok.2]; simp)).1
  have hle : IpAddr.Le (.v4 0x01020300) (.v4 0x010203FF) := by
    show (0x01020300 : BitVec 32).toNat ≤ (0x010203FF : BitVec 32).toNat
    decide
  rcases rangeToNetworks_cases hle with ⟨nets, hnets, hexact, -⟩ | ⟨-, h, -⟩
  · have hget := fun ip => get_insertRange hnets hexact hw (.string "a") hok.1 ip
    have hget' := fun ip => get_insertRange hnets hexact hw₁ (.string "a") hok.2 ip
    refine ⟨w, hb, toBytes_eq_of_get hw₁ hw₂ hopt (by rw [hopt₁]; rfl) (by decide +kernel)
      (by decide +kernel) (fun ip => ?_) 0 (10 ^ 9)⟩
    refine Eq.symm ((hget' ip).trans ?_)
    rw [hopt₁]
    by_cases hc : InRange w.ipVersion (.v4 0x01020300) (.v4 0x010203FF) ip ∧
        ¬ (w.reservedNetworks = .excluded ∧ ReservedAddr w.ipVersion ip)
    · exact (if_pos hc).trans ((hget ip).trans (if_pos hc)).symm
    · exact if_neg hc
  · cases h

end Writer

end MmdbWriter
