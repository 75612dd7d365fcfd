import MmdbWriter.Proofs.Accepted
import MmdbWriter.Proofs.Apart
import MmdbWriter.Proofs.RoundTrip

/-!
# The aliases in a file

When the lookups of all aliases of an IPv4 address end, in the file, where the lookup of the address
itself does. The aliases are installed for the alias networks without data, if the IPv4 subtree has a
node of its own.
-/

namespace MmdbWriter

open BitTrie (leaf node)

/-- The record that the lookup of an address ends at in a database of the layout. -/
def Mmdb.lookupRecord (database : List UInt8) (layout : Mmdb.Layout) (ip : IpAddr) : Option ℕ :=
  (Mmdb.addressBits layout.ipVersion ip).bind fun bits =>
    Mmdb.walk database layout.nodeCount layout.recordSize bits 0

/-- An address of an alias network that stands for the IPv4 address: the network's bits, those of the
IPv4 address, then any others. -/
def AliasOf (x : BitVec 32) (y : BitVec 128) : Prop := ∃ a ∈ aliasPaths, a ++ x.msbs <+: y.msbs

namespace Tree

/-- The bits lead from a node to a node. -/
def hasNode (t : Tree) : (bits : List Bool) → (i : ℕ) → Bool
  | [], _ => true
  | bit :: bits, i =>
    match t.nodes[i]? with
    | some n =>
      match n.child bit with
      | .node j | .fixedNode j => t.hasNode bits j
      | .noData | .data _ | .aliased _ | .reserved => false
    | none => false

theorem hasNode_iff {t : Tree} {v4 : ℕ} : ∀ (p : List Bool) {i : ℕ} {l r : BitTrie (Leaf ValueId)}
    {fp : List ℕ}, NodeStores t.nodes v4 i l r fp →
    (t.hasNode p i = true ↔ (node false l r).coverAt p = none)
  | [], _, _, _, _, _ => by simp [hasNode, BitTrie.coverAt]
  | b :: p, i, l, r, fp, hst => by
    obtain ⟨n, fl, fr, hn, hl, hr, -⟩ := hst
    have hchild : ∀ {u : BitTrie (Leaf ValueId)} {fu : List ℕ}, Stores t.nodes v4 (n.child b) u fu →
        (t.hasNode (b :: p) i = true ↔ u.coverAt p = none) := by
      intro u fu hu
      rw [hasNode, hn]
      cases u with
      | leaf a =>
        obtain ⟨hrec, -⟩ := hu
        simp only [hrec]
        cases a <;> simp [leafRecord, BitTrie.coverAt]
      | node pin l' r' =>
        obtain ⟨c, hrec, -, hc⟩ := stores_node.mp hu
        have hpin : (node pin l' r').coverAt p = (node false l' r').coverAt p := by cases p <;> rfl
        simp only [hrec]
        rw [hpin, ← hasNode_iff p hc]
        cases pin <;> rfl
    cases b with
    | false => exact hchild hl
    | true => exact hchild hr

end Tree

namespace Writer

/-- In the file, the lookup of each alias of an IPv4 address ends at the record that the lookup of the
address itself ends at. -/
def AliasesComplete (w : Writer) (now : SystemTime) (file : List UInt8) : Prop :=
  ∃ tree data idToOffset recordSize treeBytes, w.buildTree = .ok tree ∧
    pushIds w.pool tree.reachableDataIds DataSection.new [] = .ok (data, idToOffset) ∧
    pickRecordSize tree data.len w.recordSize = .ok recordSize ∧
    tree.serialize recordSize idToOffset = .ok treeBytes ∧
    file = treeBytes ++ dataSectionSeparator ++ data.bytes ++ metadataMarker ++
      (w.metadata now tree recordSize).toBytes ∧
    ∀ x y, AliasOf x y →
      Mmdb.lookupRecord file (w.metadata now tree recordSize).layout (.v6 y) =
        Mmdb.lookupRecord file (w.metadata now tree recordSize).layout (.v4 x)

/-- In the file, the lookup of each alias of the IPv4 address ends at the record that the lookup of the
address itself ends at. -/
def AliasesCompleteAt (w : Writer) (now : SystemTime) (file : List UInt8) (x : BitVec 32) : Prop :=
  ∃ tree data idToOffset recordSize treeBytes, w.buildTree = .ok tree ∧
    pushIds w.pool tree.reachableDataIds DataSection.new [] = .ok (data, idToOffset) ∧
    pickRecordSize tree data.len w.recordSize = .ok recordSize ∧
    tree.serialize recordSize idToOffset = .ok treeBytes ∧
    file = treeBytes ++ dataSectionSeparator ++ data.bytes ++ metadataMarker ++
      (w.metadata now tree recordSize).toBytes ∧
    ∀ y, AliasOf x y →
      Mmdb.lookupRecord file (w.metadata now tree recordSize).layout (.v6 y) =
        Mmdb.lookupRecord file (w.metadata now tree recordSize).layout (.v4 x)

/-- Each alias network has no data beside an IPv4 subtree with a node, or has what the IPv4 address has,
and the address was not left in two halves. -/
structure AliasesOkAt [Ipnet] (w : Writer) (x : BitVec 32) : Prop where
  networks : ∀ y : BitVec 128, AliasOf x y →
    w.tree.hasNode v4Path 0 = true ∧ w.get (.v6 y) = .ok none ∨ w.get (.v4 x) = w.get (.v6 y)
  host : w.tree.hasNode (v4Path ++ x.msbs) 0 = false

/-- An alias network has no data and the IPv4 subtree is a node, or the network has what all of the
IPv4 addresses have, and no IPv4 address was left in two halves. -/
structure AliasesOk [Ipnet] (w : Writer) : Prop where
  networks : ∀ y : BitVec 128, w.Aliases (.v6 y) →
    w.tree.hasNode v4Path 0 = true ∧ w.get (.v6 y) = .ok none ∨
      ∀ x : BitVec 32, w.get (.v4 x) = w.get (.v6 y)
  hosts : ∀ x : BitVec 32, w.tree.hasNode (v4Path ++ x.msbs) 0 = false

variable [Ipnet] {w : Writer}

section Leaves

/-- The value of a leaf of the trie of ids. -/
def leafValue (w : Writer) (a : Leaf ValueId) : Option Value := a.value.bind (w.pool.values[·]?)

omit [Ipnet] in
theorem leafValue_eq {a : Leaf ValueId} {b : Leaf Value} (h : IdRel w.pool a b) :
    w.leafValue a = b.value := by
  cases a <;> cases b <;> simp only [IdRel, Leaf.Rel] at h <;> simp [leafValue, Leaf.value, h]

/-- In the trie of ids an address has the value of its leaf. -/
theorem Settles.get_ids {l r : BitTrie (Leaf Value)} (h : w.Settles l r)
    {t : BitTrie (Leaf ValueId)} (hrel : t.Rel (IdRel w.pool) (node false l r)) {ip : IpAddr}
    {q : List Bool} (hq : addrPath w.ipVersion ip = some q) :
    w.get ip = .ok ((t.coverAt q).bind w.leafValue) := by
  rw [h.get hq]
  rcases hrel.coverAt q with ⟨h1, h2⟩ | ⟨a, b, h1, h2, hab⟩
  · rw [h1, h2]
    rfl
  · rw [h1, h2, Option.bind_some, Option.bind_some, leafValue_eq hab]

variable {t : Tree} {data : DataSection} {idToOffset : List (ValueId × ℕ)} {size : RecordSize}
  {treeBytes : List UInt8}

omit [Ipnet] in
theorem record_cases
    (hpush : pushIds w.pool t.reachableDataIds DataSection.new [] = .ok (data, idToOffset))
    (hser : t.serialize size idToOffset = .ok treeBytes) : ∃ values : List Value, ∀ a : Leaf ValueId,
      a ≠ .aliased → (∀ id, a = .data id → .data id ∈ t.records) →
      a.record t.nodeCount idToOffset = some t.nodeCount ∧ w.leafValue a = none ∨
      ∃ v offset, a.record t.nodeCount idToOffset = some (t.nodeCount + 16 + offset) ∧
        w.leafValue a = some v ∧ offset < u32Max ∧
        (v, offset) ∈ values.zip (DataSection.offsets values) := by
  obtain ⟨values, -, -, hlookup⟩ := lookup_pushIds hpush
  refine ⟨values, fun a ha hrec => ?_⟩
  cases a with
  | noData | reserved => exact Or.inl ⟨rfl, rfl⟩
  | aliased => exact absurd rfl ha
  | data id =>
    obtain ⟨v, offset, hoff, hv, hmem⟩ := hlookup id (Tree.mem_reachableDataIds.mpr (hrec id rfl))
    have hvalue : Tree.recordValue t.nodeCount idToOffset (.data id) =
        some (t.nodeCount + 16 + offset) := by
      rw [Tree.recordValue, hoff]
      rfl
    have hlt := Tree.lt_of_serialize hser (hrec id rfl) hvalue
    have hmax : size.maxValue ≤ 2 ^ 32 := by cases size <;> decide
    refine Or.inr ⟨v, offset, hvalue, hv, ?_, hmem⟩
    unfold u32Max
    omega

omit [Ipnet] in
theorem record_eq_iff
    (hpush : pushIds w.pool t.reachableDataIds DataSection.new [] = .ok (data, idToOffset))
    (hser : t.serialize size idToOffset = .ok treeBytes) {a b : Leaf ValueId}
    (ha : a ≠ .aliased) (hb : b ≠ .aliased) (ha' : ∀ id, a = .data id → .data id ∈ t.records)
    (hb' : ∀ id, b = .data id → .data id ∈ t.records) :
    a.record t.nodeCount idToOffset = b.record t.nodeCount idToOffset ↔
      w.leafValue a = w.leafValue b := by
  obtain ⟨values, hcases⟩ := record_cases hpush hser
  rcases hcases a ha ha' with ⟨hrec, hval⟩ | ⟨v, offset, hrec, hval, hlt, hmem⟩ <;>
    rcases hcases b hb hb' with ⟨hrec', hval'⟩ | ⟨v', offset', hrec', hval', -, hmem'⟩ <;>
    rw [hrec, hrec', hval, hval']
  · simp
  · simp only [Option.some.injEq, reduceCtorEq, iff_false]
    omega
  · simp only [Option.some.injEq, reduceCtorEq, iff_false]
    omega
  · rw [Option.some.injEq, Option.some.injEq, Nat.add_right_inj]
    exact ⟨fun h => DataSection.eq_of_offset_eq (x := (v, offset)) (y := (v', offset')) hmem hmem' h
      hlt, fun h => DataSection.offset_eq_of_eq (x := (v, offset)) (y := (v', offset')) hmem hmem' h⟩

end Leaves

section Built

/-- The trie of ids of a writer and what its built tree has of it. -/
structure BuiltIds (w : Writer) (tree : Tree) (t : BitTrie (Leaf ValueId)) : Prop where
  not_aliased : t.Forall (· ≠ .aliased)
  settled : BitTrie.Settled 128 t
  covered : ∀ a ∈ aliasPaths, ∃ b, t.coverAt a = some b ∧ b ≠ .reserved
  hasNode_iff : ∀ p, w.tree.hasNode p 0 = true ↔ t.coverAt p = none
  get : ∀ ip q, addrPath .v6 ip = some q → w.get ip = .ok ((t.coverAt q).bind w.leafValue)
  data_mem : ∀ q id, t.coverAt q = some (.data id) → .data id ∈ tree.records
  walk : ∀ {size : RecordSize} {idToOffset : List (ValueId × ℕ)} {bytes : List UInt8},
    tree.serialize size idToOffset = .ok bytes → ∀ (more : List UInt8) (p : List Bool),
    p.length = 128 → Mmdb.walk (bytes ++ more) tree.nodeCount size.bits p 0 =
      followLookup (Leaf.record tree.nodeCount idToOffset) (withAliases t) p

omit [Ipnet] in
/-- A leaf with data is in the built tree. -/
theorem data_mem_of_coverAt {t : BitTrie (Leaf ValueId)} {tree : Tree} {v4 : ℕ}
    {l r : BitTrie (Leaf ValueId)} {fp : List ℕ} (hbuilt : w.builtTrie t = node false l r)
    (hst : NodeStores tree.nodes v4 0 l r fp) {q : List Bool} {id : ValueId}
    (hcov : t.coverAt q = some (.data id)) : .data id ∈ tree.records := by
  have heval := BitTrie.coverAt_eq_some hcov (List.replicate 96 false)
  have hsame : (node false l r).eval (q ++ List.replicate 96 false) = .data id := by
    rw [← hbuilt, WriterBuilder.builtTrie, BitTrie.eval_normKids]
    split_ifs
    · rw [eval_withAliases (by simp), if_neg, heval]
      rintro ⟨-, p, -, ⟨s, hs⟩, hfree⟩
      rw [← hs, BitTrie.coverAt_eq_some hfree s] at heval
      cases heval
    · exact heval
  have hmem := Tree.leafRecord_mem (nodeStores_unpinned hst) (by simp)
    (q ++ List.replicate 96 false)
  rwa [hsame] at hmem

theorem Accepted.builtIds (hw : w.Accepted) (h6 : w.ipVersion = .v6)
    (hal : w.ipv4Aliasing = .enabled) {tree : Tree} (ht : w.buildTree = .ok tree) :
    ∃ t, w.BuiltIds tree t := by
  obtain ⟨l, r, hset, hwhole⟩ := hw.whole
  obtain ⟨li, ri, fp, hst, hnd, hkl, hkr, hli, hri⟩ := hset.ids
  obtain ⟨hu, ha, hs⟩ := KidShape.node hkl hkr
  have hrel : (node false li ri).Rel (IdRel w.pool) (node false l r) := ⟨rfl, hli, hri⟩
  have hcompact := compactable_withAliases hu ha hs
  have hbuilt : w.builtTrie (node false li ri) = (withAliases (node false li ri)).normKids := by
    rw [WriterBuilder.builtTrie, if_pos ⟨h6, hal⟩]
  obtain ⟨v4, lu, ru, hnode, hstu⟩ : tree.Holds (w.builtTrie (node false li ri)) := by
    rcases buildTree_ids hst hnd hw.grown.tree.shaped.indexed hu ha.eval with
      ⟨tree', ht', hholds⟩ | ⟨n, hn, -⟩
    · rw [ht, Except.ok.injEq] at ht'
      rwa [ht']
    · rw [ht] at hn
      cases hn
  have hanchored : Anchored (node false lu ru) := by
    rw [← hnode, hbuilt]
    exact hcompact.toAnchored.normKids
  have hdepth : w.ipVersion.treeDepth = 128 := by rw [h6]; rfl
  refine ⟨node false li ri, ha, hdepth ▸ hs, fun a hmem => ?_,
    fun p => Tree.hasNode_iff p hst, fun ip q hq => ?_,
    fun q id hcov => data_mem_of_coverAt hnode hstu hcov, fun hser more p hp => ?_⟩
  · rcases hrel.coverAt a with ⟨-, h⟩ | ⟨b, c, hb, hc, hbc⟩
    · have hsome := hwhole h6 hal a hmem
      rw [h] at hsome
      cases hsome
    · refine ⟨b, hb, ?_⟩
      rintro rfl
      -- a reserved leaf would lie below a reserved network
      have hle := (aliasPaths_length a hmem).2
      have heval := BitTrie.coverAt_eq_some hc (List.replicate 128 false)
      rw [hbc.reserved_iff.mp rfl, hset.reserved_iff _ (by
        rw [hdepth, List.length_append, List.length_replicate]
        omega)] at heval
      obtain ⟨p, hp, hpre⟩ := heval
      unfold WriterBuilder.reservedPaths at hp
      split_ifs at hp
      · rw [h6] at hp
        have hno := reserved_aliasPaths p hp a hmem
        rcases List.prefix_or_prefix_of_prefix hpre (List.prefix_append a _) with h | h
        · exact hno.1 h
        · exact hno.2 h
      · cases hp
  · rw [← h6] at hq
    exact hset.get_ids hrel hq
  · rw [Tree.walk_followLookup hser more
      (fun rec hrec j hj => (Tree.target_lt_of_stores hanchored hstu hrec hj).1) hstu hanchored p,
      ← hnode, hbuilt, hcompact.followLookup_normKids _ (by rw [hdepth, hp])]

variable {tree : Tree} {t : BitTrie (Leaf ValueId)} {data : DataSection}
  {idToOffset : List (ValueId × ℕ)} {size : RecordSize} {treeBytes : List UInt8}

theorem BuiltIds.walks_iff (h : w.BuiltIds tree t)
    (hser : tree.serialize size idToOffset = .ok treeBytes) (more : List UInt8) (x : BitVec 32) :
    (∀ y, AliasOf x y → Mmdb.walk (treeBytes ++ more) tree.nodeCount size.bits y.msbs 0 =
      Mmdb.walk (treeBytes ++ more) tree.nodeCount size.bits (v4Path ++ x.msbs) 0) ↔
    AliasesAgree (Leaf.record tree.nodeCount idToOffset) (withAliases t) x.msbs := by
  have hv4 : (v4Path ++ x.msbs).length = 128 := by
    rw [List.length_append, v4Path, List.length_replicate, BitVec.length_msbs]
  constructor
  · intro hwalks a hmem s hlen
    have hys : (a ++ (x.msbs ++ s)).length = 128 := by
      simp only [List.length_append, BitVec.length_msbs]
      omega
    obtain ⟨y, hy⟩ := BitVec.exists_msbs hys
    have := hwalks y ⟨a, hmem, s, by rw [hy, List.append_assoc]⟩
    rwa [h.walk hser more _ (BitVec.length_msbs y), h.walk hser more _ hv4, hy] at this
  · rintro hagree y ⟨a, hmem, s, hs⟩
    have hlen := congrArg List.length hs
    simp only [List.length_append, BitVec.length_msbs] at hlen
    rw [h.walk hser more _ (BitVec.length_msbs y), h.walk hser more _ hv4, ← hs, List.append_assoc]
    exact hagree a hmem s hlen

theorem BuiltIds.isSome_record (h : w.BuiltIds tree t)
    (hpush : pushIds w.pool tree.reachableDataIds DataSection.new [] = .ok (data, idToOffset))
    (hser : tree.serialize size idToOffset = .ok treeBytes) {q : List Bool} {b : Leaf ValueId}
    (hb : t.coverAt q = some b) : (b.record tree.nodeCount idToOffset).isSome := by
  obtain ⟨values, hcases⟩ := record_cases hpush hser
  rcases hcases b (coverAt_ne_aliased h.not_aliased hb)
    (fun id hid => h.data_mem q id (hid ▸ hb)) with ⟨hrec, -⟩ | ⟨v, offset, hrec, -⟩ <;> rw [hrec] <;> rfl

theorem BuiltIds.noData_iff (h : w.BuiltIds tree t)
    (hpush : pushIds w.pool tree.reachableDataIds DataSection.new [] = .ok (data, idToOffset))
    (hser : tree.serialize size idToOffset = .ok treeBytes) {q : List Bool} {b : Leaf ValueId}
    (hb : t.coverAt q = some b) (hres : b ≠ .reserved) : b = .noData ↔ w.leafValue b = none := by
  constructor
  · rintro rfl
    rfl
  · intro hval
    cases b with
    | noData => rfl
    | reserved => exact absurd rfl hres
    | aliased => exact absurd rfl (coverAt_ne_aliased h.not_aliased hb)
    | data id =>
      obtain ⟨v, _, _, _, hv, -⟩ := inline_of_record hpush hser (h.data_mem q id hb)
      rw [show w.leafValue (.data id) = w.pool.values[id]? from rfl, hv] at hval
      cases hval

omit [Ipnet] in
/-- The addresses of the alias networks are those whose bits go on from the bits of one. -/
theorem aliases_iff_path {w : Writer} (h6 : w.ipVersion = .v6) (hal : w.ipv4Aliasing = .enabled)
    (y : BitVec 128) : w.Aliases (.v6 y) ↔ ∃ a ∈ aliasPaths, a <+: y.msbs := by
  constructor
  · rintro ⟨-, -, net, hnet, hcov⟩
    have hall : ∀ net ∈ aliasNetworks, (netPath .v6 net).isSome := by decide +kernel
    obtain ⟨a, ha⟩ := Option.isSome_iff_exists.mp (hall net hnet)
    have hy : addrPath .v6 (.v6 y) = some y.msbs := rfl
    exact ⟨a, List.mem_filterMap.mpr ⟨net, hnet, ha⟩, (covers_iff_path ha hy).mp hcov⟩
  · rintro ⟨a, hmem, hpre⟩
    obtain ⟨net, hnet, ha⟩ := List.mem_filterMap.mp hmem
    have hy : addrPath .v6 (.v6 y) = some y.msbs := rfl
    exact ⟨h6, hal, net, hnet, (covers_iff_path ha hy).mpr hpre⟩

omit [Ipnet] in
theorem exists_aliasOf {a : List Bool} (hmem : a ∈ aliasPaths) (x : BitVec 32) :
    ∃ y : BitVec 128, a ++ x.msbs <+: y.msbs := by
  have hlen : (a ++ x.msbs ++ List.replicate (96 - a.length) false).length = 128 := by
    have := (aliasPaths_length a hmem).2
    rw [List.length_append, List.length_append, BitVec.length_msbs, List.length_replicate]
    omega
  obtain ⟨y, hy⟩ := BitVec.exists_msbs hlen
  exact ⟨y, by rw [hy]; exact List.prefix_append _ _⟩

/-- Below a leaf the writer finds the leaf's value. -/
theorem BuiltIds.get_below (h : w.BuiltIds tree t) {a : List Bool} {b : Leaf ValueId}
    (hb : t.coverAt a = some b) {y : BitVec 128} (hpre : a <+: y.msbs) :
    w.get (.v6 y) = .ok (w.leafValue b) := by
  obtain ⟨s, hs⟩ := hpre
  rw [h.get (.v6 y) y.msbs rfl, ← hs, BitTrie.coverAt_append hb]
  rfl

theorem BuiltIds.record_iff (h : w.BuiltIds tree t)
    (hpush : pushIds w.pool tree.reachableDataIds DataSection.new [] = .ok (data, idToOffset))
    (hser : tree.serialize size idToOffset = .ok treeBytes) {x : BitVec 32}
    (hx : t.coverAt (v4Path ++ x.msbs) ≠ none) {a : List Bool} {b : Leaf ValueId}
    (hb : t.coverAt a = some b) :
    (t.coverAt (v4Path ++ x.msbs)).bind (Leaf.record tree.nodeCount idToOffset) =
      b.record tree.nodeCount idToOffset ↔ w.get (.v4 x) = .ok (w.leafValue b) := by
  obtain ⟨c, hc⟩ := Option.ne_none_iff_exists'.mp hx
  rw [h.get (.v4 x) _ rfl, show List.replicate 96 false ++ x.msbs = v4Path ++ x.msbs from rfl, hc,
    Option.bind_some, Option.bind_some, Except.ok.injEq]
  exact record_eq_iff hpush hser (coverAt_ne_aliased h.not_aliased hc)
    (coverAt_ne_aliased h.not_aliased hb) (fun id hid => h.data_mem _ id (hid ▸ hc))
    (fun id hid => h.data_mem a id (hid ▸ hb))

/-- The aliases of an address agree in the trie where the writer's own lookups say so. -/
theorem BuiltIds.aliasesAgree_iff (h : w.BuiltIds tree t)
    (hpush : pushIds w.pool tree.reachableDataIds DataSection.new [] = .ok (data, idToOffset))
    (hser : tree.serialize size idToOffset = .ok treeBytes) (x : BitVec 32) :
    AliasesAgree (Leaf.record tree.nodeCount idToOffset) (withAliases t) x.msbs ↔
      w.AliasesOkAt x := by
  have hhost : t.coverAt (v4Path ++ x.msbs) ≠ none ↔
      w.tree.hasNode (v4Path ++ x.msbs) 0 = false := by
    rw [Ne, ← h.hasNode_iff, Bool.not_eq_true]
  rw [MmdbWriter.aliasesAgree_iff _ h.not_aliased h.settled
    (fun a hmem => (h.covered a hmem).elim fun b hb => by rw [hb.1]; rfl)
    (fun q b hb => h.isSome_record hpush hser hb) (BitVec.length_msbs x)]
  constructor
  · rintro ⟨hnets, hx⟩
    refine ⟨fun y hy => ?_, hhost.mp hx⟩
    obtain ⟨a, hmem, hpre⟩ := hy
    obtain ⟨b, hb, -⟩ := h.covered a hmem
    rw [h.get_below hb ((List.prefix_append a x.msbs).trans hpre)]
    rcases hnets a hmem b hb with ⟨hv4, hfree⟩ | hrec
    · exact Or.inl ⟨(h.hasNode_iff _).mpr hv4, by rw [hfree]; rfl⟩
    · exact Or.inr ((h.record_iff hpush hser hx hb).mp hrec)
  · rintro ⟨hnets, hx⟩
    refine ⟨fun a hmem b hb => ?_, hhost.mpr hx⟩
    obtain ⟨b', hb', hres⟩ := h.covered a hmem
    rw [hb, Option.some.injEq] at hb'
    subst hb'
    obtain ⟨y, hy⟩ := exists_aliasOf hmem x
    have hnet := hnets y ⟨a, hmem, hy⟩
    rw [h.get_below hb ((List.prefix_append a x.msbs).trans hy)] at hnet
    rcases hnet with ⟨hv4, hfree⟩ | hrec
    · exact Or.inl ⟨(h.hasNode_iff _).mp hv4,
        (h.noData_iff hpush hser hb hres).mpr (Except.ok.inj hfree)⟩
    · exact Or.inr ((h.record_iff hpush hser (hhost.mpr hx) hb).mpr hrec)

theorem BuiltIds.aliasesOk_iff (h : w.BuiltIds tree t) (h6 : w.ipVersion = .v6)
    (hal : w.ipv4Aliasing = .enabled) : w.AliasesOk ↔ ∀ x, w.AliasesOkAt x := by
  constructor
  · rintro ⟨hnets, hhosts⟩ x
    refine ⟨fun y hy => ?_, hhosts x⟩
    obtain ⟨a, hmem, hpre⟩ := hy
    exact (hnets y ((aliases_iff_path h6 hal y).mpr
      ⟨a, hmem, (List.prefix_append a x.msbs).trans hpre⟩)).imp_right fun hall => hall x
  · intro hall
    refine ⟨fun y hy => or_iff_not_imp_left.mpr fun hno x => ?_, fun x => (hall x).host⟩
    obtain ⟨a, hmem, hpre⟩ := (aliases_iff_path h6 hal y).mp hy
    obtain ⟨b, hb, -⟩ := h.covered a hmem
    obtain ⟨y', hy'⟩ := exists_aliasOf hmem x
    have hget := h.get_below hb ((List.prefix_append a x.msbs).trans hy')
    rw [h.get_below hb hpre] at hno ⊢
    rcases (hall x).networks y' ⟨a, hmem, hy'⟩ with hfree | hsame
    · rw [hget] at hfree
      exact absurd hfree hno
    · rw [hsame, hget]

end Built

section File

variable {now : SystemTime} {file : List UInt8} {tree : Tree} {t : BitTrie (Leaf ValueId)}
  {data : DataSection} {idToOffset : List (ValueId × ℕ)} {size : RecordSize} {treeBytes : List UInt8}

omit [Ipnet] in
theorem prefix_of_file {rest rest' rest'' metadata : List UInt8}
    (h : file = treeBytes ++ rest ++ rest' ++ rest'' ++ metadata) : treeBytes <+: file :=
  ⟨rest ++ rest' ++ rest'' ++ metadata, by rw [h]; simp only [List.append_assoc]⟩

theorem BuiltIds.lookups_iff (h : w.BuiltIds tree t) (h6 : w.ipVersion = .v6)
    (hpush : pushIds w.pool tree.reachableDataIds DataSection.new [] = .ok (data, idToOffset))
    (hser : tree.serialize size idToOffset = .ok treeBytes) (hfile : treeBytes <+: file)
    (x : BitVec 32) : (∀ y, AliasOf x y →
      Mmdb.lookupRecord file (w.metadata now tree size).layout (.v6 y) =
        Mmdb.lookupRecord file (w.metadata now tree size).layout (.v4 x)) ↔ w.AliasesOkAt x := by
  have hversion : (w.metadata now tree size).layout.ipVersion = 6 := by
    show (w.ipVersion.metadata).toNat = 6
    rw [h6]
    rfl
  obtain ⟨more, rfl⟩ := hfile
  rw [← h.aliasesAgree_iff hpush hser, ← h.walks_iff hser more]
  unfold Mmdb.lookupRecord Mmdb.addressBits
  rw [hversion]
  rfl

theorem Accepted.aliasesOkAt (hw : w.Accepted) (h6 : w.ipVersion = .v6)
    (hal : w.ipv4Aliasing = .enabled) {x : BitVec 32} (h : w.AliasesCompleteAt now file x) :
    w.AliasesOkAt x := by
  obtain ⟨tree, data, idToOffset, size, treeBytes, ht, hpush, -, hser, hfile, hall⟩ := h
  obtain ⟨t, hbuilt⟩ := hw.builtIds h6 hal ht
  exact (hbuilt.lookups_iff h6 hpush hser (prefix_of_file hfile) x).mp hall

/-- In the file of accepted inserts the aliases of an IPv4 address are complete exactly where each alias
network is free beside an IPv4 subtree with a node, or has what the address has, and where the address
was not left in two halves. -/
theorem aliasesCompleteAt_iff (hw : w.Accepted) (h6 : w.ipVersion = .v6)
    (hal : w.ipv4Aliasing = .enabled) (h : w.toBytes now = .ok file) (x : BitVec 32) :
    w.AliasesCompleteAt now file x ↔ w.AliasesOkAt x := by
  refine ⟨hw.aliasesOkAt h6 hal, fun hok => ?_⟩
  obtain ⟨tree, data, idToOffset, size, treeBytes, ht, hpush, hpick, hser, hfile⟩ := toBytes_eq_ok.mp h
  obtain ⟨t, hbuilt⟩ := hw.builtIds h6 hal ht
  exact ⟨tree, data, idToOffset, size, treeBytes, ht, hpush, hpick, hser, hfile,
    (hbuilt.lookups_iff h6 hpush hser (prefix_of_file hfile) x).mpr hok⟩

/-- In the file of accepted inserts the aliases are complete exactly where each alias network is free
beside an IPv4 subtree with a node, or has what all of the IPv4 addresses have, and where no IPv4
address was left in two halves. -/
theorem aliasesComplete_iff (hw : w.Accepted) (h6 : w.ipVersion = .v6)
    (hal : w.ipv4Aliasing = .enabled) (h : w.toBytes now = .ok file) :
    w.AliasesComplete now file ↔ w.AliasesOk := by
  constructor
  · rintro ⟨tree, data, idToOffset, size, treeBytes, ht, hpush, hpick, hser, hfile, hall⟩
    obtain ⟨t, hbuilt⟩ := hw.builtIds h6 hal ht
    exact (hbuilt.aliasesOk_iff h6 hal).mpr fun x => hw.aliasesOkAt h6 hal
      ⟨tree, data, idToOffset, size, treeBytes, ht, hpush, hpick, hser, hfile, hall x⟩
  · intro hok
    obtain ⟨tree, data, idToOffset, size, treeBytes, ht, hpush, hpick, hser, hfile⟩ :=
      toBytes_eq_ok.mp h
    obtain ⟨t, hbuilt⟩ := hw.builtIds h6 hal ht
    exact ⟨tree, data, idToOffset, size, treeBytes, ht, hpush, hpick, hser, hfile, fun x =>
      (hbuilt.lookups_iff h6 hpush hser (prefix_of_file hfile) x).mpr
        ((hbuilt.aliasesOk_iff h6 hal).mp hok x)⟩

/-- Operations that are functions leave no IPv4 address in two halves. -/
theorem Reachable.hosts (hw : w.Reachable) (h6 : w.ipVersion = .v6) (x : BitVec 32) :
    w.tree.hasNode (v4Path ++ x.msbs) 0 = false := by
  obtain ⟨l, r, hinv⟩ := hw.inv
  obtain ⟨li, ri, fp, hst, -, hli, hri⟩ := hinv.models
  have hrel : (node false li ri).Rel (IdRel w.pool) (node false l r) := ⟨rfl, hli, hri⟩
  have hheight := hinv.height
  rw [← hrel.height, h6] at hheight
  have hcov := BitTrie.coverAt_of_height_le (t := node false li ri) (p := v4Path ++ x.msbs) (by
    rw [List.length_append, v4Path, List.length_replicate, BitVec.length_msbs]
    exact hheight)
  rw [← Bool.not_eq_true, Tree.hasNode_iff _ hst, hcov]
  simp

/-- Where the aliases are complete, a reader finds at an alias what it finds at the IPv4 address. -/
theorem Accepted.finds_alias_iff (hw : w.Accepted) (h6 : w.ipVersion = .v6)
    (hal : w.ipv4Aliasing = .enabled) (h : w.toBytes now = .ok file) (htexts : w.TextsOk)
    (hok : w.AliasesOk) : ∃ database metadata, w.Parts now database metadata ∧
      file = database ++ metadataMarker ++ metadata ∧ ∀ x y, AliasOf x y → ∀ result,
        Mmdb.Finds database metadata (.v6 y) result ↔ Mmdb.Finds database metadata (.v4 x) result := by
  obtain ⟨tree, data, idToOffset, size, treeBytes, ht, hpush, hpick, hser, rfl⟩ := toBytes_eq_ok.mp h
  obtain ⟨t, hbuilt⟩ := hw.builtIds h6 hal ht
  refine ⟨_, _, ⟨tree, data, idToOffset, size, treeBytes, ht, hpush, hpick, hser, rfl, rfl⟩, rfl,
    fun x y hxy result => ?_⟩
  have hwalk := (hbuilt.walks_iff hser (dataSectionSeparator ++ data.bytes) x).mpr
    ((hbuilt.aliasesAgree_iff hpush hser x).mpr ((hbuilt.aliasesOk_iff h6 hal).mp hok x)) y hxy
  rw [← List.append_assoc] at hwalk
  have hcount := hw.grown.nodeCount_lt ht hpush hser
  have hlayout : ∀ layout, Mmdb.HasLayout (w.metadata now tree size).toBytes layout →
      layout = (w.metadata now tree size).layout := by
    intro layout hl
    by_cases hlang : ArrayLenOk w.languages.length
    · exact hasLayout_unique hl (Metadata.hasLayout (htexts.all now tree size) hlang hcount)
    · exact absurd hl (Metadata.not_hasLayout (htexts.all now tree size) hlang layout)
  have hv6 : w.ipVersion.metadata.toNat = 6 := by rw [h6]; rfl
  have hfinds : ∀ {ip ip' : IpAddr} {q q' : List Bool}, addrPath .v6 ip = some q →
      addrPath .v6 ip' = some q' →
      Mmdb.walk (treeBytes ++ dataSectionSeparator ++ data.bytes) tree.nodeCount size.bits q 0 =
        Mmdb.walk (treeBytes ++ dataSectionSeparator ++ data.bytes) tree.nodeCount size.bits q' 0 →
      Mmdb.Finds (treeBytes ++ dataSectionSeparator ++ data.bytes)
          (w.metadata now tree size).toBytes ip result →
        Mmdb.Finds (treeBytes ++ dataSectionSeparator ++ data.bytes)
          (w.metadata now tree size).toBytes ip' result := by
    rintro ip ip' q q' hq hq' heq ⟨layout, bits, hl, hbits, hfound⟩
    obtain rfl := hlayout layout hl
    have hbits' : addrPath .v6 ip = some bits := by
      rw [← addressBits_eq]
      show Mmdb.addressBits 6 ip = some bits
      rw [← hv6]
      exact hbits
    rw [hq, Option.some.injEq] at hbits'
    subst hbits'
    refine ⟨_, q', hl, ?_, ?_⟩
    · show Mmdb.addressBits w.ipVersion.metadata.toNat ip' = some q'
      rw [hv6, ← hq', ← addressBits_eq]
      rfl
    · cases result with
      | none =>
        obtain ⟨record, hr, hm⟩ := hfound
        exact ⟨record, heq.symm.trans hr, hm⟩
      | some v =>
        obtain ⟨offset, ⟨record, hr, hm⟩, hd⟩ := hfound
        exact ⟨offset, ⟨record, heq.symm.trans hr, hm⟩, hd⟩
  exact ⟨hfinds rfl rfl hwalk, hfinds rfl rfl hwalk.symm⟩

/-- An IPv4 network put into a new database leaves the alias networks free. -/
theorem get_alias_of_v4 {b : WriterBuilder} (hb : b.build = .ok w) (h6 : w.ipVersion = .v6)
    (hal : w.ipv4Aliasing = .enabled) {net : Ipv4Net} {v : Value} {w' : Writer}
    (hins : insertValue (.v4 net) v w = (.ok (), w')) {y : BitVec 128} (hy : w.Aliases (.v6 y)) :
    w'.get (.v6 y) = .ok none := by
  obtain ⟨w₁, l, r, hb₁, -, hinv, hnone, -⟩ := build_inv b
  obtain rfl : w = w₁ := Except.ok.inj (hb.symm.trans hb₁)
  have hall : insertAll v [.v4 net] w = (.ok (), w') := by
    rw [insertAll_cons, hins]
    rfl
  obtain ⟨l', r', hinv', hopt, -, hvalue⟩ := insertAll_value v [.v4 net] hinv (by rw [hall])
  rw [hall] at hinv' hopt
  have hq : addrPath w.ipVersion (.v6 y) = some y.msbs := by
    rw [h6]
    rfl
  obtain ⟨a, hmem, hpre⟩ := (aliases_iff_path h6 hal y).mp hy
  have hno : ¬ ∃ net' ∈ [IpNet.v4 net], net'.Covers w.ipVersion (.v6 y) := by
    rintro ⟨net', hmem', hcov⟩
    rw [List.mem_singleton.mp hmem'] at hcov
    obtain ⟨-, hzero, -⟩ : _ ∧ y >>> 32 = 0 ∧ _ := hcov
    rw [msbs_eq_append y hzero] at hpre
    exact (aliasPaths_incomparable hmem _).1
      (hpre : a <+: v4Path ++ (y.setWidth 32).msbs)
  have hres : (node false l r).eval y.msbs ≠ .reserved := by
    rw [Ne, hinv.reserved_iff _ (length_addrPath hq)]
    rintro ⟨p, hp, hpre'⟩
    unfold WriterBuilder.reservedPaths at hp
    split_ifs at hp
    · rw [h6] at hp
      have hapart := reserved_aliasPaths p hp a hmem
      rcases List.prefix_or_prefix_of_prefix hpre' hpre with h | h
      · exact hapart.1 h
      · exact hapart.2 h
    · cases hp
  rw [hinv'.get (by rw [hopt]; exact hq), hvalue (.v6 y) _ hq hres, if_neg hno, hnone]

omit [Ipnet] in
theorem aliasesOk_city :
    let _ := Ipnet.std
    ∃ (w : Writer) (file : List UInt8), w.Accepted ∧ w.ipVersion = .v6 ∧
      w.ipv4Aliasing = .enabled ∧ w.toBytes 0 = .ok file ∧ w.TextsOk ∧ w.AliasesOk := by
  intro _
  obtain ⟨w, w', file, hb, hins, hr, hopt, hfile, -, -, -⟩ := city_file
  have hw : w'.Accepted := by
    have h := (Accepted.build hb).insertValue _ _ (congrArg Prod.fst hins)
    rwa [hins] at h
  have h6 : w'.ipVersion = .v6 := by rw [hopt]
  have hal : w'.ipv4Aliasing = .enabled := by rw [hopt]
  have htexts : w'.TextsOk := by
    constructor <;> rw [hopt] <;> decide +kernel
  have hnode : w'.tree.hasNode v4Path 0 = true := by
    have hsnd : (insertValue _ _ w).2 = w' := congrArg Prod.snd hins
    rw [← hsnd, ← Except.ok.inj hb]
    decide +kernel
  have hfree : ∀ y, w'.Aliases (.v6 y) → w'.get (.v6 y) = .ok none := fun y hy => by
    have hw₀ : w.ipVersion = .v6 ∧ w.ipv4Aliasing = .enabled := by
      rw [← Except.ok.inj hb]
      exact ⟨rfl, rfl⟩
    exact get_alias_of_v4 hb hw₀.1 hw₀.2 hins ⟨hw₀.1, hw₀.2, hy.2.2⟩
  exact ⟨w', file, hw, h6, hal, hfile, htexts,
    ⟨fun y hy => Or.inl ⟨hnode, hfree y hy⟩, hr.hosts h6⟩⟩

omit [Ipnet] in
theorem aliasesComplete_iff_city :
    let _ := Ipnet.std
    ∃ (w : Writer) (file : List UInt8), w.toBytes 0 = .ok file ∧ w.AliasesComplete 0 file := by
  intro _
  obtain ⟨w, file, hw, h6, hal, hfile, -, hok⟩ := aliasesOk_city
  exact ⟨w, file, hfile, (aliasesComplete_iff hw h6 hal hfile).mpr hok⟩

omit [Ipnet] in
theorem aliasesCompleteAt_iff_city :
    let _ := Ipnet.std
    ∃ (w : Writer) (file : List UInt8), w.toBytes 0 = .ok file ∧
      (w.AliasesCompleteAt 0 file 0x01020304 ↔ w.AliasesOkAt 0x01020304) := by
  intro _
  obtain ⟨w, file, hw, h6, hal, hfile, -, -⟩ := aliasesOk_city
  exact ⟨w, file, hfile, aliasesCompleteAt_iff hw h6 hal hfile _⟩

omit [Ipnet] in
/-- With `0.0.0.0/0` alone the IPv4 subtree is a leaf, and no alias is installed. -/
theorem not_aliasesCompleteAt_all :
    let _ := Ipnet.std
    let b : WriterBuilder := { databaseType := "City", ipVersion := .v6 }
    ∃ (w w' : Writer) (file : List UInt8), b.build = .ok w ∧
      w' = (insertValue (.v4 ⟨0, 0, by decide⟩) (.string "a") w).2 ∧ w'.Accepted ∧
      w'.toBytes 0 = .ok file ∧ ¬ w'.AliasesCompleteAt 0 file 0x01020304 := by
  intro _ b
  let w : Writer := { toWriterBuilder := b, tree := Tree.new, pool := ValuePool.new }
  let w' : Writer := (insertValue (.v4 ⟨0, 0, by decide⟩) (.string "a") w).2
  let y : BitVec 128 := 0xffff01020304
  have hb : b.build = .ok w := rfl
  obtain ⟨hok, h6, hal, hbytes, hnode, hget, hget'⟩ :
      (insertValue (.v4 ⟨0, 0, by decide⟩) (.string "a") w).1 = .ok () ∧ w'.ipVersion = .v6 ∧
      w'.ipv4Aliasing = .enabled ∧ (w'.toBytes 0).isOk = true ∧ w'.tree.hasNode v4Path 0 = false ∧
      w'.get (.v4 0x01020304) = .ok (some (.string "a")) ∧ w'.get (.v6 y) = .ok none := by
    decide +kernel
  have hw : w'.Accepted := (Accepted.build hb).insertValue _ _ hok
  have hy : AliasOf 0x01020304 y := by unfold AliasOf; decide +kernel
  rcases hfile : w'.toBytes 0 with e | file
  · rw [hfile] at hbytes
    cases hbytes
  refine ⟨w, w', file, hb, rfl, hw, hfile, fun hat => ?_⟩
  rcases (hw.aliasesOkAt h6 hal hat).networks y hy with ⟨h, -⟩ | h
  · rw [hnode] at h
    cases h
  · rw [hget, hget'] at h
    cases h

omit [Ipnet] in
theorem finds_alias_iff_city :
    let _ := Ipnet.std
    ∃ (w : Writer) (file : List UInt8), w.toBytes 0 = .ok file ∧
      ∃ database metadata, w.Parts 0 database metadata ∧
        file = database ++ metadataMarker ++ metadata ∧ ∀ x y, AliasOf x y → ∀ result,
          Mmdb.Finds database metadata (.v6 y) result ↔
            Mmdb.Finds database metadata (.v4 x) result := by
  intro _
  obtain ⟨w, file, hw, h6, hal, hfile, htexts, hok⟩ := aliasesOk_city
  exact ⟨w, file, hfile, hw.finds_alias_iff h6 hal hfile htexts hok⟩

end File

end Writer

end MmdbWriter
