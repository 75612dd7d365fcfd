import MmdbWriter.Proofs.AliasFile
import MmdbWriter.Proofs.Blocks
import MmdbWriter.Within

/-!
# The networks a reader lists in a file

The listing goes over the records of the serialized tree. It comes to every node once, for the nodes of
a built tree are apart, and passes over the aliases; so it is the list of the leaves with data.
-/

namespace MmdbWriter

open BitTrie (leaf node)
open Mmdb (Decodes)
open Value (SizeOk HeaderOk All)

section Lists

variable {α β : Type} {R : α → β → Prop}

theorem forall₂_exists_left {l : List α} {l' : List β} (h : List.Forall₂ R l l') :
    ∀ a ∈ l, ∃ b ∈ l', R a b := by
  induction h with
  | nil => simp
  | cons hab _ ih =>
    refine List.forall_mem_cons.mpr ⟨⟨_, List.mem_cons_self, hab⟩, fun a ha => ?_⟩
    obtain ⟨b, hb, hR⟩ := ih a ha
    exact ⟨b, List.mem_cons_of_mem _ hb, hR⟩

theorem forall₂_exists_right {l : List α} {l' : List β} (h : List.Forall₂ R l l') :
    ∀ b ∈ l', ∃ a ∈ l, R a b := forall₂_exists_left (List.Forall₂.flip (R := fun b a => R a b) h)

end Lists

namespace Tree

/-- The node the bits lead to from a record, aliases not followed. -/
def indexAt (t : Tree) : (bits : List Bool) → Record → Option ℕ
  | [], rec => (pushed rec).head?
  | bit :: bits, rec =>
    (pushed rec).head?.bind fun i => t.nodes[i]?.bind fun n => t.indexAt bits (n.child bit)

@[simp] theorem pushed_leafRecord (v4 : ℕ) (a : Leaf ValueId) : pushed (leafRecord v4 a) = [] := by
  cases a <;> rfl

@[simp] theorem pushed_nodeRecord (pin : Bool) (i : ℕ) : pushed (nodeRecord pin i) = [i] := by
  cases pin <;> rfl

variable {t : Tree} {v4 : ℕ}

@[simp] theorem indexAt_leafRecord (a : Leaf ValueId) (p : List Bool) :
    t.indexAt p (leafRecord v4 a) = none := by
  cases p <;> simp [indexAt]

@[simp] theorem indexAt_nodeRecord_nil (pin : Bool) (i : ℕ) :
    t.indexAt [] (nodeRecord pin i) = some i := by
  simp [indexAt]

theorem indexAt_nodeRecord_cons {i : ℕ} {n : Node} (hn : t.nodes[i]? = some n) (pin b : Bool)
    (p : List Bool) : t.indexAt (b :: p) (nodeRecord pin i) = t.indexAt p (n.child b) := by
  simp [indexAt, hn]

theorem mem_of_indexAt : ∀ {u : BitTrie (Leaf ValueId)} {rec : Record} {fp : List ℕ} {p : List Bool}
    {c : ℕ}, Stores t.nodes v4 rec u fp → t.indexAt p rec = some c → c ∈ fp
  | leaf a, _, _, p, c, hst, h => by
    rw [hst.1, indexAt_leafRecord] at h
    cases h
  | node pin l r, _, _, [], c, hst, h => by
    obtain ⟨i, n, fl, fr, rfl, -, -, -, -, rfl⟩ := hst
    rw [indexAt_nodeRecord_nil, Option.some.injEq] at h
    simp [h]
  | node pin l r, _, _, b :: p, c, hst, h => by
    obtain ⟨i, n, fl, fr, rfl, -, hn, hl, hr, rfl⟩ := hst
    rw [indexAt_nodeRecord_cons hn] at h
    cases b with
    | false => simp [mem_of_indexAt hl h]
    | true => simp [mem_of_indexAt hr h]

theorem indexAt_inj : ∀ {u : BitTrie (Leaf ValueId)} {rec : Record} {fp : List ℕ} {p q : List Bool}
    {c : ℕ}, Stores t.nodes v4 rec u fp → fp.Nodup → t.indexAt p rec = some c →
    t.indexAt q rec = some c → p = q
  | leaf a, _, _, p, q, c, hst, _, hp, _ => by
    rw [hst.1, indexAt_leafRecord] at hp
    cases hp
  | node pin l r, rec, fp, p, q, c, hst, hnd, hp, hq => by
    obtain ⟨i, n, fl, fr, rfl, -, hn, hl, hr, rfl⟩ := hst
    have hi : ∀ {b : Bool} {p : List Bool}, t.indexAt (b :: p) (nodeRecord pin i) ≠ some i := by
      intro b p h
      rw [indexAt_nodeRecord_cons hn] at h
      rw [List.nodup_cons, List.mem_append] at hnd
      cases b with
      | false => exact hnd.1 (Or.inl (mem_of_indexAt hl h))
      | true => exact hnd.1 (Or.inr (mem_of_indexAt hr h))
    rw [List.nodup_cons, List.nodup_append] at hnd
    obtain ⟨-, hfl, hfr, hdisj⟩ := hnd
    rcases p with _ | ⟨b, p⟩ <;> rcases q with _ | ⟨b', q⟩
    · rfl
    · rw [indexAt_nodeRecord_nil] at hp
      exact absurd (hq.trans hp.symm) hi
    · rw [indexAt_nodeRecord_nil] at hq
      exact absurd (hp.trans hq.symm) hi
    · rw [indexAt_nodeRecord_cons hn] at hp hq
      cases b <;> cases b'
      · rw [indexAt_inj hl hfl hp hq]
      · exact absurd rfl (hdisj c (mem_of_indexAt hl hp) c (mem_of_indexAt hr hq))
      · exact absurd rfl (hdisj c (mem_of_indexAt hl hq) c (mem_of_indexAt hr hp))
      · rw [indexAt_inj hr hfr hp hq]

theorem indexAt_pinnedAt : ∀ {u : BitTrie (Leaf ValueId)} {rec : Record} {fp : List ℕ}
    {p : List Bool}, Stores t.nodes v4 rec u fp → u.PinnedAt p → t.indexAt p rec = some v4
  | leaf _, _, _, _, _, h => by simp [BitTrie.PinnedAt] at h
  | node pin l r, _, _, [], hst, h => by
    obtain ⟨i, rfl, hpin, -⟩ := stores_node.mp hst
    rw [indexAt_nodeRecord_nil, hpin h]
  | node pin l r, _, _, b :: p, hst, h => by
    obtain ⟨i, n, fl, fr, rfl, -, hn, hl, hr, rfl⟩ := hst
    rw [indexAt_nodeRecord_cons hn]
    cases b with
    | false => exact indexAt_pinnedAt hl h
    | true => exact indexAt_pinnedAt hr h

section File

variable {size : RecordSize} {idToOffset : List (ValueId × ℕ)} {bytes : List UInt8}

/-- Every record of a serialized tree has a value. -/
theorem valued_of_serialize (h : t.serialize size idToOffset = .ok bytes) {i : ℕ} {n : Node}
    (hn : t.nodes[i]? = some n) (b : Bool) :
    ∃ v, recordValue t.nodeCount idToOffset (n.child b) = some v := by
  obtain ⟨values, hvalues, -⟩ := serializeNodes_eq_ok.mp h
  obtain ⟨hi, rfl⟩ := List.getElem?_eq_some_iff.mp hn
  have hv := (List.forall₂_iff_get.mp hvalues).2 i hi (hvalues.length_eq ▸ hi)
  cases b with
  | false => exact ⟨_, hv.1.1⟩
  | true => exact ⟨_, hv.2.1⟩

/-- What the listing of a file yields for a trie of ids. -/
def listed (idToOffset : List (ValueId × ℕ)) (u : BitTrie (Leaf ValueId)) (path : List Bool) :
    List (List Bool × ℕ) :=
  (u.leaves.filterMap (Leaf.entryAt path)).map fun e => (e.1, (idToOffset.lookup e.2).getD 0)

theorem listed_node (pin : Bool) (l r : BitTrie (Leaf ValueId)) (path : List Bool) :
    listed idToOffset (node pin l r) path =
      listed idToOffset l (path ++ [false]) ++ listed idToOffset r (path ++ [true]) := by
  have hcons : ∀ b : Bool, (Leaf.entryAt path ∘ fun e : List Bool × Leaf ValueId => (b :: e.1, e.2)) =
      Leaf.entryAt (path ++ [b]) := fun b => funext fun e => Leaf.entryAt_cons path b e
  simp only [listed, BitTrie.leaves, List.filterMap_append, List.filterMap_map, hcons,
    List.map_append]

variable {layout : Mmdb.Layout}

/-- The listing below a record is that of the data leaves. Nodes below other paths are not the start of
the IPv4 addresses, and aliases are. -/
theorem networksAt_spec (h : t.serialize size idToOffset = .ok bytes) (more : List UInt8)
    (hcount : layout.nodeCount = t.nodeCount) (hsize : layout.recordSize = size.bits)
    (htarget : ∀ rec ∈ t.records, ∀ j, rec.target = some j → j < t.nodeCount) {start : Option ℕ} :
    ∀ (u : BitTrie (Leaf ValueId)) {rec : Record} {fp : List ℕ} {depth value : ℕ} {path : List Bool},
      Stores t.nodes v4 rec u fp → u.height ≤ depth →
      (∀ j, rec.target = some j → j < t.nodeCount) →
      recordValue t.nodeCount idToOffset rec = some value →
      (∀ q c, t.indexAt q rec = some c → start = some c → path ++ q = v4Path) →
      (∀ q, u.leafAt q = some .aliased → start = some v4 ∧ path ++ q ≠ v4Path) →
      Mmdb.networksAt (bytes ++ more) layout start depth path value =
        some (listed idToOffset u path)
  | leaf a, rec, fp, depth, value, path, hst, _, hrec, hvalue, _, halias => by
    obtain ⟨rfl, -⟩ := hst
    unfold Mmdb.networksAt
    rw [hcount]
    cases a with
    | noData | reserved =>
      obtain rfl : t.nodeCount = value := Option.some.inj hvalue
      simp [listed, BitTrie.leaves, Leaf.entryAt]
    | aliased =>
      obtain rfl : v4 = value := Option.some.inj hvalue
      obtain ⟨hstart, hne⟩ := halias [] rfl
      rw [List.append_nil] at hne
      rw [if_pos (hrec _ rfl), if_pos ⟨hstart, hne⟩]
      rfl
    | data id =>
      obtain ⟨offset, hoff, rfl⟩ := Option.map_eq_some_iff.mp hvalue
      have hsub : t.nodeCount + 16 + offset - t.nodeCount - 16 = offset := by omega
      rw [if_neg (by omega), if_neg (by omega), if_pos (by omega), hsub]
      simp [listed, BitTrie.leaves, Leaf.entryAt, hoff]
  | node pin l r, rec, fp, depth, value, path, hst, hh, hrec, hvalue, hstart, halias => by
    obtain ⟨i, n, fl, fr, rfl, -, hn, hl, hr, rfl⟩ := hst
    obtain rfl : i = value := by
      cases pin <;> simpa [nodeRecord, recordValue] using hvalue
    have hlt : i < t.nodeCount := hrec i (by cases pin <;> rfl)
    have hmem : ∀ b, n.child b ∈ t.records := fun b => mem_records.mpr ⟨i, n, hn, by
      cases b
      · exact Or.inl rfl
      · exact Or.inr rfl⟩
    obtain ⟨vl, hvl⟩ := valued_of_serialize h hn false
    obtain ⟨vr, hvr⟩ := valued_of_serialize h hn true
    have hread := readRecord_serialize_append h hn more
    simp only [BitTrie.height] at hh
    obtain ⟨depth, rfl⟩ : ∃ d, depth = d + 1 := ⟨depth - 1, by omega⟩
    have ihl : Mmdb.networksAt (bytes ++ more) layout start depth (path ++ [false]) vl =
        some (listed idToOffset l (path ++ [false])) :=
      networksAt_spec h more hcount hsize htarget l hl (by omega : l.height ≤ depth)
      (fun j hj => htarget _ (hmem false) j hj) hvl
      (fun q c hq hc => by
        rw [List.append_assoc]
        exact hstart (false :: q) c (by rw [indexAt_nodeRecord_cons hn]; exact hq) hc)
      (fun q hq => by
        rw [List.append_assoc]
        exact halias (false :: q) hq)
    have ihr : Mmdb.networksAt (bytes ++ more) layout start depth (path ++ [true]) vr =
        some (listed idToOffset r (path ++ [true])) :=
      networksAt_spec h more hcount hsize htarget r hr (by omega : r.height ≤ depth)
      (fun j hj => htarget _ (hmem true) j hj) hvr
      (fun q c hq hc => by
        rw [List.append_assoc]
        exact hstart (true :: q) c (by rw [indexAt_nodeRecord_cons hn]; exact hq) hc)
      (fun q hq => by
        rw [List.append_assoc]
        exact halias (true :: q) hq)
    have hnot : ¬ (start = some i ∧ path ≠ List.replicate 96 false) := fun hs => hs.2 (by
      simpa [v4Path] using hstart [] i (indexAt_nodeRecord_nil pin i) hs.1)
    unfold Mmdb.networksAt
    rw [hcount, if_pos hlt, if_neg hnot]
    simp only [hsize, hread, hvl, hvr, Option.bind_eq_bind, Option.bind_some, ihl, ihr, listed_node]

/-- The record after the bits is a node where the trie has one, as long as no alias is on the way. -/
theorem recordAfter_filter (h : t.serialize size idToOffset = .ok bytes) (more : List UInt8)
    (htarget : ∀ rec ∈ t.records, ∀ j, rec.target = some j → j < t.nodeCount) :
    ∀ (u : BitTrie (Leaf ValueId)) {rec : Record} {fp : List ℕ} {value : ℕ} (p : List Bool),
      Stores t.nodes v4 rec u fp → (∀ j, rec.target = some j → j < t.nodeCount) →
      recordValue t.nodeCount idToOffset rec = some value → u.coverAt p ≠ some .aliased →
      (Mmdb.recordAfter (bytes ++ more) t.nodeCount size.bits p value).filter (· < t.nodeCount) =
        t.indexAt p rec
  | leaf a, rec, fp, value, p, hst, _, hvalue, hno => by
    obtain ⟨rfl, -⟩ := hst
    have hge : ¬ value < t.nodeCount := by
      cases a with
      | aliased => exact absurd rfl hno
      | noData | reserved =>
        obtain rfl : t.nodeCount = value := Option.some.inj hvalue
        exact lt_irrefl _
      | data id =>
        obtain ⟨offset, -, rfl⟩ := Option.map_eq_some_iff.mp hvalue
        omega
    rw [indexAt_leafRecord]
    cases p with
    | nil => simp [Mmdb.recordAfter, not_lt.mp hge]
    | cons b p => simp [Mmdb.recordAfter, hge]
  | node pin l r, rec, fp, value, p, hst, hrec, hvalue, hno => by
    obtain ⟨i, n, fl, fr, rfl, -, hn, hl, hr, rfl⟩ := hst
    obtain rfl : i = value := by
      cases pin <;> simpa [nodeRecord, recordValue] using hvalue
    have hlt : i < t.nodeCount := hrec i (by cases pin <;> rfl)
    rcases p with _ | ⟨b, p⟩
    · simp [Mmdb.recordAfter, hlt]
    · obtain ⟨v, hv⟩ := valued_of_serialize h hn b
      have hmem : n.child b ∈ t.records := mem_records.mpr ⟨i, n, hn, by
        cases b
        · exact Or.inl rfl
        · exact Or.inr rfl⟩
      rw [indexAt_nodeRecord_cons hn, Mmdb.recordAfter, if_pos hlt,
        readRecord_serialize_append h hn more, hv]
      cases b with
      | false => exact recordAfter_filter h more htarget l p hl (htarget _ hmem) hv hno
      | true => exact recordAfter_filter h more htarget r p hr (htarget _ hmem) hv hno

theorem ipv4Start_eq (h : t.serialize size idToOffset = .ok bytes) (more : List UInt8)
    (hcount : layout.nodeCount = t.nodeCount) (hsize : layout.recordSize = size.bits)
    (hversion : layout.ipVersion = 6) {l r : BitTrie (Leaf ValueId)}
    (ha : Anchored (node false l r))
    (hst : NodeStores t.nodes v4 0 l r (List.range t.nodes.length)) :
    Mmdb.ipv4Start (bytes ++ more) layout = t.indexAt v4Path (.node 0) := by
  have htarget : ∀ rec ∈ t.records, ∀ j, rec.target = some j → j < t.nodeCount :=
    fun rec hrec j hj => (target_lt_of_stores ha hst hrec hj).1
  have hroot : 0 < t.nodeCount := nodeStores_mem_lt hst 0 (nodeStores_root_mem hst)
  unfold Mmdb.ipv4Start
  rw [if_pos hversion, hcount, hsize]
  refine recordAfter_filter h more htarget (node false l r) v4Path (nodeStores_unpinned hst)
    (fun j hj => by cases hj; exact hroot) rfl fun hcov => ?_
  have hpin := ha.pinned ⟨v4Path ++ [], BitTrie.coverAt_eq_some hcov []⟩
  rw [hpin.coverAt] at hcov
  cases hcov

end File

end Tree

theorem RecordSize.bits_injective : Function.Injective RecordSize.bits := fun size size' => by
  cases size <;> cases size' <;> decide

namespace Writer

/-- The parts of a file before the marker and behind it, with the layout the metadata is written for. -/
def Lays (w : Writer) (now : SystemTime) (file database metadata : List UInt8)
    (layout : Mmdb.Layout) : Prop :=
  ∃ tree data idToOffset recordSize treeBytes, w.buildTree = .ok tree ∧
    pushIds w.pool tree.reachableDataIds DataSection.new [] = .ok (data, idToOffset) ∧
    pickRecordSize tree data.len w.recordSize = .ok recordSize ∧
    tree.serialize recordSize idToOffset = .ok treeBytes ∧
    database = treeBytes ++ dataSectionSeparator ++ data.bytes ∧
    metadata = (w.metadata now tree recordSize).toBytes ∧
    layout = (w.metadata now tree recordSize).layout ∧
    file = database ++ metadataMarker ++ metadata

theorem toBytes_eq_ok_iff_lays {w : Writer} {now : SystemTime} {file : List UInt8} :
    w.toBytes now = .ok file ↔
      ∃ database metadata layout, w.Lays now file database metadata layout := by
  rw [toBytes_eq_ok]
  constructor
  · rintro ⟨t, data, idToOffset, size, treeBytes, ht, hpush, hpick, hser, hfile⟩
    exact ⟨_, _, _, t, data, idToOffset, size, treeBytes, ht, hpush, hpick, hser, rfl, rfl, rfl, hfile⟩
  · rintro ⟨_, _, _, t, data, idToOffset, size, treeBytes, ht, hpush, hpick, hser, rfl, rfl, -, hfile⟩
    exact ⟨t, data, idToOffset, size, treeBytes, ht, hpush, hpick, hser, hfile⟩

/-- The networks a reader lists for leaves of ids are those of their values. -/
theorem forall₂_listed {pool : ValuePool} {idToOffset : List (ValueId × ℕ)} {Q : ℕ → Value → Prop}
    {es : List (List Bool × Leaf ValueId)} {es' : List (List Bool × Leaf Value)}
    (h : List.Forall₂ (fun e e' => e.1 = e'.1 ∧ IdRel pool e.2 e'.2) es es') :
    (∀ q id, (q, .data id) ∈ es → ∃ v offset, pool.values[id]? = some v ∧
      idToOffset.lookup id = some offset ∧ Q offset v) →
    List.Forall₂ (fun e n => e.1 = n.1 ∧ Q e.2 n.2)
      ((es.filterMap (Leaf.entryAt [])).map fun e => (e.1, (idToOffset.lookup e.2).getD 0))
      (es'.filterMap (Leaf.entryAt [])) := by
  induction h with
  | nil => exact fun _ => .nil
  | @cons e e' es es' he _ ih =>
    intro hdata
    have ih := ih fun q id hmem => hdata q id (List.mem_cons_of_mem _ hmem)
    obtain ⟨p, a⟩ := e
    obtain ⟨p', a'⟩ := e'
    obtain ⟨rfl, ha⟩ := he
    cases a <;> cases a' <;> simp only [IdRel, Leaf.Rel] at ha <;>
      simp only [List.filterMap_cons, Leaf.entryAt, List.nil_append, List.map_cons]
    · exact ih
    · obtain ⟨v, offset, hv, hoff, hQ⟩ := hdata _ _ List.mem_cons_self
      rw [ha, Option.some.injEq] at hv
      rw [hoff, hv]
      exact .cons ⟨rfl, hQ⟩ ih
    · exact ih
    · exact ih

variable {w : Writer} {l r : BitTrie (Leaf Value)}

theorem rel_builtTrie {t : BitTrie (Leaf ValueId)} {u : BitTrie (Leaf Value)}
    (h : t.Rel (IdRel w.pool) u) : (w.builtTrie t).Rel (IdRel w.pool) (w.builtTrie u) := by
  have hR : ∀ a b a' b', IdRel w.pool a b → IdRel w.pool a' b' → (a = a' ↔ b = b') :=
    fun _ _ _ _ => IdRel.inj
  unfold WriterBuilder.builtTrie
  split_ifs
  · exact (rel_withAliases h).normKids hR
  · exact BitTrie.Rel.normKids hR h

/-- The trie of ids that a built tree stores. -/
theorem Inv.built (h : w.Inv l r) (hidx : w.tree.Indexed) {t : Tree} (ht : w.buildTree = .ok t) :
    ∃ v4 lu ru, NodeStores t.nodes v4 0 lu ru (List.range t.nodes.length) ∧
      Anchored (node false lu ru) ∧
      (node false lu ru).Rel (IdRel w.pool) (w.builtTrie (node false l r)) := by
  obtain ⟨li, ri, fp, hst, hnd, hkl, hkr, hli, hri⟩ := h.settles.ids
  obtain ⟨hu, ha, hs⟩ := KidShape.node hkl hkr
  obtain ⟨v4, lu, ru, hnode, hstu⟩ : t.Holds (w.builtTrie (node false li ri)) := by
    rcases buildTree_ids hst hnd hidx hu ha.eval with ⟨t', ht', hholds⟩ | ⟨n, hn, -⟩
    · rw [ht, Except.ok.injEq] at ht'
      rwa [ht']
    · rw [ht] at hn
      cases hn
  refine ⟨v4, lu, ru, hstu, ?_, ?_⟩ <;> rw [← hnode]
  · unfold WriterBuilder.builtTrie
    split_ifs
    · exact (compactable_withAliases hu ha hs).toAnchored.normKids
    · exact (compactable_of_unaliased hu ha hs).toAnchored.normKids
  · exact rel_builtTrie ⟨rfl, hli, hri⟩

variable [Ipnet]

/-- What a reader lists in a file are the data leaves of the built trie. -/
theorem Reachable.listing (hw : w.Reachable) {now : SystemTime} {file database metadata : List UInt8}
    {layout : Mmdb.Layout} (h : w.Lays now file database metadata layout) : ∃ l r listed, w.Inv l r ∧
      Mmdb.networks database layout = some listed ∧
      w.networks = .ok ((w.builtTrie (node false l r)).leaves.filterMap (Leaf.entryAt [])) ∧
      List.Forall₂ (fun e n => e.1 = n.1 ∧ (All SizeOk n.2 → All HeaderOk n.2 →
        Decodes (Mmdb.dataSection database layout.nodeCount layout.recordSize) e.2 n.2)) listed
        ((w.builtTrie (node false l r)).leaves.filterMap (Leaf.entryAt [])) := by
  obtain ⟨t, data, idToOffset, size, treeBytes, ht, hpush, -, hser, rfl, rfl, rfl, -⟩ := h
  obtain ⟨l, r, hinv⟩ := hw.inv
  obtain ⟨v4, lu, ru, hst, hanchored, hrel⟩ := hinv.built hw.indexed ht
  have hheight := w.height_builtTrie_le hinv.height
  have hnets := networks_of_built ht hst hrel hheight
  have htarget : ∀ rec ∈ t.records, ∀ j, rec.target = some j → j < t.nodeCount :=
    fun rec hrec j hj => (Tree.target_lt_of_stores hanchored hst hrec hj).1
  have hroot : 0 < t.nodeCount := nodeStores_mem_lt hst 0 (nodeStores_root_mem hst)
  have hsst := nodeStores_unpinned hst
  have hversion : (w.metadata now t size).layout.ipVersion = 6 ↔ w.ipVersion = .v6 := by
    show (w.ipVersion.metadata).toNat = 6 ↔ _
    cases w.ipVersion <;> decide
  have hstart : w.ipVersion = .v6 → Mmdb.ipv4Start (treeBytes ++ (dataSectionSeparator ++ data.bytes))
      (w.metadata now t size).layout = t.indexAt v4Path (.node 0) := fun h6 =>
    Tree.ipv4Start_eq hser _ rfl rfl (hversion.mpr h6) hanchored hst
  have hlist : Mmdb.networks (treeBytes ++ (dataSectionSeparator ++ data.bytes))
      (w.metadata now t size).layout = some (Tree.listed idToOffset (node false lu ru) []) := by
    unfold Mmdb.networks
    refine Tree.networksAt_spec hser _ rfl rfl htarget (node false lu ru) hsst ?_
      (fun j hj => by cases hj; exact hroot) rfl ?_ ?_
    · rw [hrel.height]
      refine hheight.trans ?_
      show _ ≤ if (w.ipVersion.metadata).toNat = 6 then 128 else 32
      cases w.ipVersion <;> decide
    · intro q c hq hc
      by_cases h6 : w.ipVersion = .v6
      · rw [hstart h6] at hc
        exact Tree.indexAt_inj hsst List.nodup_range hq hc
      · unfold Mmdb.ipv4Start at hc
        rw [if_neg (mt hversion.mp h6)] at hc
        cases hc
    · intro q hq
      have heval := BitTrie.coverAt_eq_some (BitTrie.coverAt_of_leafAt hq) []
      have hpin := hanchored.pinned ⟨_, heval⟩
      have h6 : w.ipVersion = .v6 ∧ w.ipv4Aliasing = .enabled := by
        by_contra hno
        have heval' := (hrel.eval (q ++ [])).aliased_iff.mp heval
        rw [WriterBuilder.builtTrie, BitTrie.eval_normKids, if_neg hno] at heval'
        exact hinv.not_aliased _ heval'
      constructor
      · rw [hstart h6.1]
        exact Tree.indexAt_pinnedAt hsst hpin
      · rintro rfl
        have hcov := BitTrie.coverAt_of_leafAt hq
        rw [hpin.coverAt] at hcov
        cases hcov
  rw [← List.append_assoc] at hlist
  refine ⟨l, r, _, hinv, hlist, hnets, forall₂_listed (Q := fun offset v => All SizeOk v →
    All HeaderOk v → Decodes (Mmdb.dataSection (treeBytes ++ dataSectionSeparator ++ data.bytes)
      t.nodeCount size.bits) offset v) hrel.leaves fun q id hmem => ?_⟩
  have heval := BitTrie.coverAt_eq_some (BitTrie.coverAt_of_leafAt (BitTrie.mem_leaves.mp hmem)) []
  have hrec := Tree.leafRecord_mem hsst (by simp) (q ++ [])
  rw [heval] at hrec
  obtain ⟨v, offset, stop, fields, hv, hvalue, hin⟩ := inline_of_record hpush hser hrec
  obtain ⟨offset', hoff, hsum⟩ := Option.map_eq_some_iff.mp hvalue
  obtain rfl : offset' = offset := by omega
  refine ⟨v, offset', hv, hoff, fun hs hh => ?_⟩
  rw [dataSection_parts hser]
  exact hin.decodes hh hs

/-- A reader lists in a file the networks of the writer, each with an offset at which its value is
decoded, and they are the maximal blocks of `get`. -/
theorem networks_file (hw : w.Reachable) {now : SystemTime} {file : List UInt8}
    (h : w.toBytes now = .ok file) : ∃ database metadata layout listed nets,
      w.Lays now file database metadata layout ∧
      Mmdb.networks database layout = some listed ∧ w.networks = .ok nets ∧
      List.Forall₂ (fun e n => e.1 = n.1 ∧ (All SizeOk n.2 → All HeaderOk n.2 →
        Decodes (Mmdb.dataSection database layout.nodeCount layout.recordSize) e.2 n.2)) listed nets ∧
      (w.tree.nodes.length < 2 ^ 32 → ∀ p v, (p, v) ∈ nets ↔ w.MaximalBlock p v) := by
  obtain ⟨database, metadata, layout, hlays⟩ := toBytes_eq_ok_iff_lays.mp h
  obtain ⟨l, r, listed, hinv, hlist, hnets, hrel⟩ := hw.listing hlays
  refine ⟨database, metadata, layout, listed, _, hlays, hlist, hnets, hrel, fun hlen p v => ?_⟩
  rw [Leaf.mem_filterMap_entryAt, BitTrie.mem_leaves, hinv.leafAt_builtTrie_iff hlen]

omit [Ipnet] in
/-- The network of a small database with aliases is listed once. -/
theorem networks_file_city :
    let _ := Ipnet.std
    ∃ (w : Writer) (file database metadata : List UInt8) (layout : Mmdb.Layout)
      (listed : List (List Bool × ℕ)), w.ipv4Aliasing = .enabled ∧ w.toBytes 0 = .ok file ∧
      w.Lays 0 file database metadata layout ∧ Mmdb.networks database layout = some listed ∧
      listed.length = 1 := by
  intro _
  obtain ⟨-, w, file, -, -, hr, hopt, hfile, -, -, hlist⟩ := city_file
  obtain ⟨database, metadata, layout, listed, nets, hlays, hlisted, hnets, hrel, -⟩ :=
    networks_file hr hfile
  obtain rfl := Except.ok.inj (hnets.symm.trans hlist)
  exact ⟨w, file, database, metadata, layout, listed, by rw [hopt], hfile, hlays, hlisted,
    hrel.length_eq⟩

end Writer

end MmdbWriter
