import MmdbWriter.Proofs.Offsets
import MmdbWriter.Proofs.Records

/-!
# What a serialized tree holds

The records of a built tree have values in three ranges: below the node count for nodes, the node
count for no data, and 16 past it for the offsets. The size picked for the whole data section has room
for each of them.
-/

namespace MmdbWriter

open BitTrie (leaf node)

namespace Tree

/-- What `serialize` makes of a tree, given the offsets of its values and the length of the data
section. -/
structure Serializes (t : Tree) (dataLen : ℕ) (idToOffset : List (ValueId × ℕ)) : Prop where
  /-- A picked size has room, and with none there is none. -/
  picked : ∀ size, Writer.pickRecordSize t dataLen none = .ok size →
    ∃ bytes, t.serialize size idToOffset = .ok bytes
  not_picked : ∀ e, Writer.pickRecordSize t dataLen none = .error e →
    2 ^ 32 ≤ t.nodeCount + 16 + dataLen
  /-- Every record has a value. -/
  valued : ∀ rec ∈ t.records, ∃ v, recordValue t.nodeCount idToOffset rec = some v
  no_panic : ∀ size, t.serialize size idToOffset ≠ .error .panic
  ok_iff : ∀ size, (∃ bytes, t.serialize size idToOffset = .ok bytes) ↔
    ∀ rec ∈ t.records, ∀ v, recordValue t.nodeCount idToOffset rec = some v → v < size.maxValue
  length_eq : ∀ size bytes, t.serialize size idToOffset = .ok bytes →
    bytes.length = t.nodeCount * size.nodeBytes
  /-- A reader finds the values, and they tell the kinds of records apart. -/
  reads : ∀ size bytes, t.serialize size idToOffset = .ok bytes →
    ∀ (i : ℕ) (n : Node), t.nodes[i]? = some n → ∀ b,
      Mmdb.readRecord bytes size.bits i b = recordValue t.nodeCount idToOffset (n.child b)
  kinds : ∀ rec ∈ t.records, ∀ v, recordValue t.nodeCount idToOffset rec = some v →
    (v < t.nodeCount ↔ rec.target.isSome) ∧
    (v = t.nodeCount ↔ rec = .noData ∨ rec = .reserved) ∧
    (t.nodeCount + 16 ≤ v ↔ ∃ id, rec = .data id)
  /-- The node count of a file is one of 32 bits. -/
  count_lt : ∀ size bytes, t.serialize size idToOffset = .ok bytes → t.nodeCount < 2 ^ 32

section Serialize

variable {t : Tree} {size : RecordSize} {idToOffset : List (ValueId × ℕ)} {bytes : List UInt8}

theorem length_serialize (h : t.serialize size idToOffset = .ok bytes) :
    bytes.length = t.nodeCount * size.nodeBytes := by
  obtain ⟨values, hvalues, rfl⟩ := serializeNodes_eq_ok.mp h
  rw [List.length_flatMap]
  simp only [length_writeRecordPair, List.map_const', List.sum_replicate, smul_eq_mul]
  rw [← hvalues.length_eq]
  rfl

/-- The records are read from the front of a file. -/
theorem readRecord_serialize_append (h : t.serialize size idToOffset = .ok bytes) {i : ℕ} {n : Node}
    (hn : t.nodes[i]? = some n) (more : List UInt8) (b : Bool) :
    Mmdb.readRecord (bytes ++ more) size.bits i b =
      recordValue t.nodeCount idToOffset (n.child b) := by
  have hbytes := length_serialize h
  obtain ⟨values, hvalues, rfl⟩ := serializeNodes_eq_ok.mp h
  obtain ⟨hi, rfl⟩ := List.getElem?_eq_some_iff.mp hn
  have hi' : i < values.length := by rwa [← hvalues.length_eq]
  obtain ⟨⟨hl, hlt⟩, hr, hrt⟩ := (List.forall₂_iff_get.mp hvalues).2 i hi hi'
  have hlen := fun v : ℕ × ℕ => length_writeRecordPair v.1 v.2 size
  obtain ⟨rest, hrest⟩ := drop_flatMap hlen (List.getElem?_eq_getElem hi')
  have hfront : size.nodeBytes * i ≤ t.nodeCount * size.nodeBytes := by
    rw [Nat.mul_comm]
    exact Nat.mul_le_mul_right _ hi.le
  have hdrop : (_ ++ more).drop (size.nodeBytes * i) = _ :=
    List.drop_append_of_le_length (hbytes ▸ hfront)
  rw [hrest, List.append_assoc] at hdrop
  rw [readRecord_of_drop hdrop hlt hrt]
  cases b
  · exact hl.symm
  · exact hr.symm

theorem readRecord_serialize (h : t.serialize size idToOffset = .ok bytes) {i : ℕ} {n : Node}
    (hn : t.nodes[i]? = some n) (b : Bool) : Mmdb.readRecord bytes size.bits i b =
      recordValue t.nodeCount idToOffset (n.child b) := by
  have := readRecord_serialize_append h hn [] b
  rwa [List.append_nil] at this

/-- Every record of a serialized tree fits. -/
theorem lt_of_serialize (h : t.serialize size idToOffset = .ok bytes) {rec : Record}
    (hrec : rec ∈ t.records) {v : ℕ} (hv : recordValue t.nodeCount idToOffset rec = some v) :
    v < size.maxValue := by
  obtain ⟨values, hvalues, -⟩ := serializeNodes_eq_ok.mp h
  obtain ⟨i, n, hn, hleft⟩ := mem_records.mp hrec
  obtain ⟨hi, rfl⟩ := List.getElem?_eq_some_iff.mp hn
  have hi' : i < values.length := by rwa [← hvalues.length_eq]
  obtain ⟨⟨hl, hlt⟩, hr, hrt⟩ := (List.forall₂_iff_get.mp hvalues).2 i hi hi'
  have hl' : recordValue t.nodeCount idToOffset t.nodes[i].left = some (values.get ⟨i, hi'⟩).1 := hl
  have hr' : recordValue t.nodeCount idToOffset t.nodes[i].right = some (values.get ⟨i, hi'⟩).2 :=
    hr
  rcases hleft with rfl | rfl
  · rw [hl', Option.some.injEq] at hv
    rwa [← hv]
  · rw [hr', Option.some.injEq] at hv
    rwa [← hv]

theorem serialize_ok_iff (hvalued : ∀ rec ∈ t.records, ∃ v,
      recordValue t.nodeCount idToOffset rec = some v) :
    (∃ bytes, t.serialize size idToOffset = .ok bytes) ↔ ∀ rec ∈ t.records, ∀ v,
      recordValue t.nodeCount idToOffset rec = some v → v < size.maxValue := by
  constructor
  · rintro ⟨bytes, h⟩ rec hrec v hv
    exact lt_of_serialize h hrec hv
  · intro h
    obtain ⟨values, hvalues⟩ : ∃ values, Packs t.nodeCount size idToOffset t.nodes values := by
      refine exists_packs fun n hn rec hrec => ?_
      have hmem : rec ∈ t.records := by
        obtain ⟨i, hi⟩ := List.mem_iff_getElem?.mp hn
        exact mem_records.mpr ⟨i, n, hi, hrec⟩
      obtain ⟨v, hv⟩ := hvalued rec hmem
      exact ⟨v, hv, h rec hmem v hv⟩
    exact ⟨_, serializeNodes_eq_ok.mpr ⟨values, hvalues, rfl⟩⟩

end Serialize

/-- What a tree on which records lead to nodes, and a table with an offset of every value, come to. -/
theorem serializes_of_valued {t : Tree} {dataLen : ℕ} {idToOffset : List (ValueId × ℕ)}
    (htarget : ∀ rec ∈ t.records, ∀ j, rec.target = some j → j < t.nodeCount)
    (hdata : ∀ id, .data id ∈ t.records → ∃ offset ≤ dataLen, idToOffset.lookup id = some offset)
    (hleaf : ∃ rec ∈ t.records, rec.target = none) : t.Serializes dataLen idToOffset := by
  have hbound : ∀ rec ∈ t.records, ∃ v ≤ t.nodeCount + 16 + dataLen,
      recordValue t.nodeCount idToOffset rec = some v ∧
      (v < t.nodeCount ↔ rec.target.isSome) ∧
      (v = t.nodeCount ↔ rec = .noData ∨ rec = .reserved) ∧
      (t.nodeCount + 16 ≤ v ↔ ∃ id, rec = .data id) := by
    intro rec hrec
    have htarget := htarget rec hrec
    cases rec with
    | noData | reserved =>
      exact ⟨t.nodeCount, by omega, rfl, by simp [Record.target], by simp, by simp⟩
    | node i | fixedNode i | aliased i =>
      have hi := htarget i rfl
      refine ⟨i, by omega, rfl, by simp [Record.target, hi], ?_, ?_⟩
      · simp [hi.ne]
      · simp only [reduceCtorEq, exists_false, iff_false]
        omega
    | data id =>
      obtain ⟨offset, hle, hoff⟩ := hdata id hrec
      refine ⟨t.nodeCount + 16 + offset, by omega, by rw [recordValue, hoff]; rfl, ?_, ?_, ?_⟩
      · simp only [Record.target, Option.isSome_none, Bool.false_eq_true, iff_false]
        omega
      · simp only [reduceCtorEq, or_self, iff_false]
        omega
      · simp
  have hvalued : ∀ rec ∈ t.records, ∃ v, recordValue t.nodeCount idToOffset rec = some v := by
    intro rec hrec
    obtain ⟨v, -, hv, -⟩ := hbound rec hrec
    exact ⟨v, hv⟩
  refine ⟨fun size hpick => ?_, fun e hpick => ?_, hvalued, fun size => ?_,
    fun size => serialize_ok_iff hvalued, fun size bytes h => length_serialize h,
    fun size bytes h i n hn b => readRecord_serialize h hn b, fun rec hrec v hv => ?_,
    fun size bytes h => ?_⟩
  · unfold Writer.pickRecordSize at hpick
    simp only [] at hpick
    split at hpick
    · rename_i size' hfind
      rw [Except.ok.injEq] at hpick
      subst hpick
      have hfits := List.find?_some hfind
      simp only [fitsRecordSize, decide_eq_true_eq] at hfits
      refine (serialize_ok_iff hvalued).mpr fun rec hrec v hv => ?_
      obtain ⟨v', hle, hv', -⟩ := hbound rec hrec
      rw [hv, Option.some.injEq] at hv'
      have hcount : t.nodeCount = t.nodes.length := rfl
      omega
    · cases hpick
  · unfold Writer.pickRecordSize at hpick
    simp only [] at hpick
    split at hpick
    · cases hpick
    · rename_i hfind
      have hfits := List.find?_eq_none.mp hfind .bits32 (by simp [RecordSize.ascending])
      rw [fitsRecordSize, decide_eq_true_eq, not_lt] at hfits
      exact hfits
  · refine serializeNodes_ne_panic fun n hn rec hrec => ?_
    obtain ⟨i, hi⟩ := List.mem_iff_getElem?.mp hn
    obtain ⟨v, hv⟩ := hvalued rec (mem_records.mpr ⟨i, n, hi, hrec⟩)
    have hv : recordValue t.nodes.length idToOffset rec = some v := hv
    rw [hv]
    simp
  · obtain ⟨v', -, hv', hkinds⟩ := hbound rec hrec
    rw [hv, Option.some.injEq] at hv'
    rw [hv']
    exact hkinds
  · obtain ⟨rec, hrec, hnone⟩ := hleaf
    obtain ⟨v, -, hv, hlt, -⟩ := hbound rec hrec
    have hmax := (serialize_ok_iff hvalued).mp ⟨bytes, h⟩ rec hrec v hv
    rw [hnone] at hlt
    have hge : ¬ v < t.nodeCount := fun h => by simpa using hlt.mp h
    have hsize : size.maxValue ≤ 2 ^ 32 := by cases size <;> decide
    omega

end Tree

namespace Writer

variable [Ipnet] {w : Writer}

/-- The built tree of a writer stores a trie whose aliases lead to its pinned node. -/
theorem Grown.buildTree (hw : w.Grown) {t : Tree} (ht : w.buildTree = .ok t) :
    ∃ v4 l r, Anchored (node false l r) ∧
      NodeStores t.nodes v4 0 l r (List.range t.nodes.length) := by
  obtain ⟨⟨l, r, fp, hst, hnd, hl, hr⟩, hidx⟩ := hw.tree.shaped
  obtain ⟨hun, hal, hset⟩ := hl.node hr
  rcases buildTree_ids hst hnd hidx hun hal.eval with ⟨t', ht', v4, l', r', heq, hst'⟩ | ⟨n, herr, -⟩
  · rw [ht, Except.ok.injEq] at ht'
    subst ht'
    refine ⟨v4, l', r', ?_, hst'⟩
    rw [← heq]
    unfold WriterBuilder.builtTrie
    split_ifs
    · exact (compactable_withAliases hun hal hset).toAnchored.normKids
    · exact (compactable_of_unaliased hun hal hset).toAnchored.normKids
  · rw [ht] at herr
    cases herr

/-- Some leaf is not one of the aliases, as there are none below the pinned node. -/
theorem Grown.exists_leaf (hw : w.Grown) {t : Tree} (ht : w.buildTree = .ok t) :
    ∃ rec ∈ t.records, rec.target = none := by
  obtain ⟨v4, l, r, hanchored, hst⟩ := hw.buildTree ht
  obtain ⟨p, hp⟩ : ∃ p, (node false l r).eval p ≠ .aliased := by
    by_contra hall
    push Not at hall
    have hbelow := hanchored.below (hanchored.pinned ⟨[], hall []⟩)
    exact hbelow.eval [] (by rw [BitTrie.eval_subtrie]; exact hall _)
  refine ⟨_, Tree.leafRecord_mem (nodeStores_unpinned hst) (by simp) p, ?_⟩
  cases ha : (node false l r).eval p with
  | aliased => exact absurd ha hp
  | noData | data id | reserved => rfl

/-- What `build` serializes: a size picked for the tree and the data section has room for every record,
any size takes the tree exactly if it has room for each, and the records are read back as what they
are. -/
theorem serialize_correct (hw : w.Grown) {t : Tree} (ht : w.buildTree = .ok t) {data : DataSection}
    {idToOffset : List (ValueId × ℕ)}
    (hpush : pushIds w.pool t.reachableDataIds DataSection.new [] = .ok (data, idToOffset))
    (hlen : data.len < 2 ^ 32) : t.Serializes data.len idToOffset := by
  obtain ⟨v4, l, r, hanchored, hst⟩ := hw.buildTree ht
  refine Tree.serializes_of_valued
    (fun rec hrec j hj => (Tree.target_lt_of_stores hanchored hst hrec hj).1) ?_ ?_
  · intro id hid
    obtain ⟨values, -, rfl, hlookup⟩ := lookup_pushIds hpush
    obtain ⟨v, offset, hoff, -, hmem⟩ := hlookup id (Tree.mem_reachableDataIds.mpr hid)
    obtain ⟨tops, fields, -, hsound, hentries, -⟩ := DataSection.ofValues_spec hlen
    obtain ⟨entry, hentry, rfl⟩ := DataSection.forall₂_of_mem_zip hentries hmem
    have hle := (hsound.good.entry_of_lt hlen hentry).1
    exact ⟨_, (Nat.le_add_right _ _).trans hle, hoff⟩
  · exact hw.exists_leaf ht

omit [Ipnet] in
/-- One network of prefix length 8 is eight nodes and a string. -/
theorem serialize_correct_city :
    let _ := Ipnet.std
    let b : WriterBuilder := { databaseType := "City", ipVersion := .v4 }
    ∃ (w w' : Writer) (t : Tree) (data : DataSection) (idToOffset : List (ValueId × ℕ)),
      b.build = .ok w ∧ w' = (insertValue (.v4 ⟨0x01000000, 8, by decide⟩) (.string "a") w).2 ∧
      w'.buildTree = .ok t ∧
      pushIds w'.pool t.reachableDataIds DataSection.new [] = .ok (data, idToOffset) ∧
      t.nodeCount = 8 ∧ t.Serializes data.len idToOffset := by
  intro _ b
  let w : Writer := { toWriterBuilder := b, tree := Tree.new, pool := ValuePool.new }
  let w' : Writer := (insertValue (.v4 ⟨0x01000000, 8, by decide⟩) (.string "a") w).2
  let t : Tree := w'.buildTree.toOption.getD Tree.new
  have hb : b.build = .ok w := rfl
  have hw' : w'.Grown := .insertValue (.build hb) _ _ (by decide +kernel)
  have ht : w'.buildTree = .ok t := by decide +kernel
  have hpush : (pushIds w'.pool t.reachableDataIds DataSection.new []).map (fun r => r.1.len) =
      .ok 2 := by decide +kernel
  rcases hres : pushIds w'.pool t.reachableDataIds DataSection.new [] with e | ⟨data, idToOffset⟩
  · rw [hres] at hpush
    cases hpush
  · rw [hres, Except.map, Except.ok.injEq] at hpush
    exact ⟨w, w', t, data, idToOffset, hb, rfl, ht, hres, by decide +kernel,
      serialize_correct hw' ht hres (by rw [hpush]; decide)⟩

end Writer

end MmdbWriter
