import MmdbWriter.Proofs.Reads

/-!
# The choice of a record size

The record size decides how the search tree is packed and nothing else: the files of one writer for two
sizes hold the same records and the same data section. The size that is picked is the least with room
for the tree and the whole data section, and the file is that of the writer with that size pinned.
-/

namespace MmdbWriter

namespace Tree

variable {t : Tree} {size size' : RecordSize} {idToOffset : List (ValueId × ℕ)}
  {bytes bytes' : List UInt8}

/-- A walk reads the same records in every packing of a tree. -/
theorem walk_serialize (h : t.serialize size idToOffset = .ok bytes)
    (h' : t.serialize size' idToOffset = .ok bytes') (more more' : List UInt8) :
    ∀ (bits : List Bool) {i : ℕ}, i < t.nodeCount →
      Mmdb.walk (bytes ++ more) t.nodeCount size.bits bits i =
        Mmdb.walk (bytes' ++ more') t.nodeCount size'.bits bits i
  | [], _, _ => rfl
  | b :: bits, i, hi => by
    have hn : t.nodes[i]? = some (t.nodes.get ⟨i, hi⟩) := List.getElem?_eq_getElem hi
    obtain ⟨v, hv⟩ := valued_of_serialize h hn b
    rw [Mmdb.walk, Mmdb.walk, readRecord_serialize_append h hn more,
      readRecord_serialize_append h' hn more', hv]
    simp only [Option.bind_eq_bind, Option.bind_some]
    split_ifs with hlt
    · exact walk_serialize h h' more more' bits hlt
    · rfl

theorem maxValue_le_of_bits (h : size.bits ≤ size'.bits) : size.maxValue ≤ size'.maxValue := by
  cases size <;> cases size' <;> first | decide | exact absurd h (by decide)

/-- A tree that fits the records of one size fits those of a wider one. -/
theorem serialize_of_bits (h : t.serialize size idToOffset = .ok bytes)
    (hbits : size.bits ≤ size'.bits) : ∃ bytes', t.serialize size' idToOffset = .ok bytes' := by
  have hvalued : ∀ rec ∈ t.records, ∃ v, recordValue t.nodeCount idToOffset rec = some v := by
    intro rec hrec
    obtain ⟨i, n, hn, hside⟩ := mem_records.mp hrec
    rcases hside with rfl | rfl
    · exact valued_of_serialize h hn false
    · exact valued_of_serialize h hn true
  exact (serialize_ok_iff hvalued).mpr fun rec hrec v hv =>
    (lt_of_serialize h hrec hv).trans_le (maxValue_le_of_bits hbits)

end Tree

namespace Writer

/-- The writer with another choice of a record size. -/
def withRecordSize (w : Writer) (requested : Option RecordSize) : Writer :=
  { w with recordSize := requested }

variable {w w' : Writer} {now now' : SystemTime} {file file' database database' metadata metadata' : List UInt8}
  {layout layout' : Mmdb.Layout}

theorem forall_recordSize {P : RecordSize → Prop} :
    (∀ size, P size) ↔ P .bits24 ∧ P .bits28 ∧ P .bits32 :=
  ⟨fun h => ⟨h _, h _, h _⟩, fun h size => by cases size; exacts [h.1, h.2.1, h.2.2]⟩

/-- The size that is picked is the least with room for the tree and the data section. -/
theorem pickRecordSize_eq_ok {t : Tree} {dataLen : ℕ} {size : RecordSize} :
    pickRecordSize t dataLen none = .ok size ↔ t.nodeCount + 16 + dataLen < size.maxValue ∧
      ∀ size' : RecordSize, size'.bits < size.bits →
        ¬ t.nodeCount + 16 + dataLen < size'.maxValue := by
  have hfits : ∀ c, t.fitsRecordSize c dataLen = decide (t.nodeCount + 16 + dataLen < c.maxValue) :=
    fun _ => rfl
  unfold pickRecordSize RecordSize.ascending
  generalize t.nodeCount + 16 + dataLen = need at hfits ⊢
  simp only [List.find?_cons, hfits, RecordSize.maxValue]
  by_cases h24 : need < 2 ^ 24
  · simp only [h24, decide_true]
    cases size <;> simp [RecordSize.bits, forall_recordSize] <;> omega
  by_cases h28 : need < 2 ^ 28
  · simp only [h24, h28, decide_true, decide_false]
    cases size <;> simp [RecordSize.bits, forall_recordSize] <;> omega
  by_cases h32 : need < 2 ^ 32
  · simp only [h24, h28, h32, decide_true, decide_false]
    cases size <;> simp [RecordSize.bits, forall_recordSize] <;> omega
  · simp only [h24, h28, h32, decide_false, List.find?_nil]
    cases size <;> simp [RecordSize.bits, forall_recordSize] <;> omega

/-- The size has room for the tree and the whole data section of a database. -/
def HasRoom (database : List UInt8) (layout : Mmdb.Layout) (size : RecordSize) : Prop :=
  layout.nodeCount + 16 + (Mmdb.dataSection database layout.nodeCount layout.recordSize).length <
    size.maxValue

theorem hasRoom_iff {t : Tree} {size : RecordSize} {idToOffset : List (ValueId × ℕ)}
    {treeBytes : List UInt8} (hser : t.serialize size idToOffset = .ok treeBytes) (data : DataSection)
    (size' : RecordSize) : HasRoom (treeBytes ++ dataSectionSeparator ++ data.bytes)
      (w.metadata now t size).layout size' ↔ t.nodeCount + 16 + data.len < size'.maxValue := by
  have hsection := dataSection_parts hser data.bytes
  show t.nodeCount + 16 + (Mmdb.dataSection _ t.nodeCount size.bits).length < _ ↔ _
  rw [hsection]
  rfl

variable [Ipnet]

/-- The options of the metadata and the record size decide nothing of what a reader finds: files of
the same inserts have the same data section and the same records, and with records of one size they are
the same up to the metadata. -/
theorem lookupRecord_congr (hw : w.Reachable) (htree : w'.tree = w.tree) (hpool : w'.pool = w.pool)
    (hversion : w'.ipVersion = w.ipVersion) (haliasing : w'.ipv4Aliasing = w.ipv4Aliasing)
    (h : w.Lays now file database metadata layout)
    (h' : w'.Lays now' file' database' metadata' layout') :
    Mmdb.dataSection database layout.nodeCount layout.recordSize =
      Mmdb.dataSection database' layout'.nodeCount layout'.recordSize ∧
    (∀ ip, Mmdb.lookupRecord database layout ip = Mmdb.lookupRecord database' layout' ip) ∧
    (layout.recordSize = layout'.recordSize → database = database') := by
  obtain ⟨t, data, idToOffset, size, treeBytes, ht, hpush, -, hser, rfl, rfl, rfl, -⟩ := h
  obtain ⟨t', data', idToOffset', size', treeBytes', ht', hpush', -, hser', rfl, rfl, rfl, -⟩ := h'
  have hbuild : w'.buildTree = w.buildTree := by
    unfold buildTree
    rw [htree, hversion, haliasing]
  obtain rfl : t = t' := Except.ok.inj (ht.symm.trans (hbuild.symm.trans ht'))
  rw [hpool] at hpush'
  obtain ⟨rfl, rfl⟩ := Prod.mk.inj (Except.ok.inj (hpush.symm.trans hpush'))
  refine ⟨(dataSection_parts hser _).trans (dataSection_parts hser' _).symm, fun ip => ?_,
    fun hbits => ?_⟩
  · obtain ⟨v4, l, r, -, hst⟩ := hw.grown.buildTree ht
    have hroot : 0 < t.nodeCount := nodeStores_mem_lt hst 0 (nodeStores_root_mem hst)
    have hlayout : (w'.metadata now' t size').layout.ipVersion =
        (w.metadata now t size).layout.ipVersion := by
      show w'.ipVersion.metadata.toNat = w.ipVersion.metadata.toNat
      rw [hversion]
    unfold Mmdb.lookupRecord
    rw [hlayout, List.append_assoc, List.append_assoc]
    exact congrArg (Option.bind _) (funext fun bits => Tree.walk_serialize hser hser' _ _ bits hroot)
  · obtain rfl : size = size' := RecordSize.bits_injective hbits
    rw [Except.ok.inj (hser.symm.trans hser')]

omit [Ipnet] in
/-- With the widest records, another name and a later build a database has the data it had. -/
theorem lookupRecord_congr_wide :
    let _ := Ipnet.std
    ∃ (w w' : Writer) (file file' database database' metadata metadata' : List UInt8)
      (layout layout' : Mmdb.Layout), w.recordSize = none ∧ w'.recordSize = some .bits32 ∧
      w.databaseType = "City" ∧ w'.databaseType = "ISP" ∧
      w.Lays 0 file database metadata layout ∧ w'.Lays 1 file' database' metadata' layout' ∧
      Mmdb.dataSection database layout.nodeCount layout.recordSize =
        Mmdb.dataSection database' layout'.nodeCount layout'.recordSize ∧
      ∀ ip, Mmdb.lookupRecord database layout ip = Mmdb.lookupRecord database' layout' ip := by
  intro _
  obtain ⟨w, file, hr, hopt, -, hfile, -, -⟩ := small_city
  let w' : Writer := { w with databaseType := "ISP", recordSize := some .bits32 }
  obtain ⟨_, _, _, hlays⟩ := toBytes_eq_ok_iff_lays.mp hfile
  obtain ⟨t, data, idToOffset, size, treeBytes, ht, hpush, -, hser, -⟩ := toBytes_eq_ok.mp hfile
  have hbits : size.bits ≤ RecordSize.bits32.bits := by cases size <;> decide
  obtain ⟨treeBytes', hser'⟩ := Tree.serialize_of_bits hser hbits
  have hfile' : w'.toBytes 1 = .ok _ := toBytes_eq_ok.mpr
    ⟨t, data, idToOffset, .bits32, treeBytes', ht, hpush, rfl, hser', rfl⟩
  obtain ⟨_, _, _, hlays'⟩ := toBytes_eq_ok_iff_lays.mp hfile'
  have htree : w'.tree = w.tree := rfl
  have hpool : w'.pool = w.pool := rfl
  obtain ⟨hdata, hlookup, -⟩ := lookupRecord_congr hr htree hpool rfl rfl hlays hlays'
  exact ⟨w, w', file, _, _, _, _, _, _, _, by rw [hopt], rfl, by rw [hopt], rfl, hlays, hlays', hdata,
    hlookup⟩

omit [Ipnet] in
/-- Without a record size the file is that of the least size with room for the tree and the whole data
section, pinned; and a size that a file can be written for leaves every wider one. -/
theorem lays_withRecordSize : ((w.withRecordSize none).Lays now file database metadata layout ↔
      ∃ size : RecordSize, (w.withRecordSize (some size)).Lays now file database metadata layout ∧
        HasRoom database layout size ∧
        ∀ size' : RecordSize, size'.bits < size.bits → ¬ HasRoom database layout size') ∧
    ∀ size size' : RecordSize, size.bits ≤ size'.bits →
      (∃ file, (w.withRecordSize (some size)).toBytes now = .ok file) →
      ∃ file, (w.withRecordSize (some size')).toBytes now = .ok file := by
  refine ⟨⟨?_, ?_⟩, fun size size' hbits hfile => ?_⟩
  · rintro ⟨t, data, idToOffset, size, treeBytes, ht, hpush, hpick, hser, rfl, rfl, rfl, hfile⟩
    refine ⟨size, ⟨t, data, idToOffset, size, treeBytes, ht, hpush, rfl, hser, rfl, rfl, rfl, hfile⟩, ?_⟩
    simp only [hasRoom_iff hser data]
    exact pickRecordSize_eq_ok.mp hpick
  · rintro ⟨size, ⟨t, data, idToOffset, size', treeBytes, ht, hpush, hpick, hser, rfl, rfl, rfl, hfile⟩,
      hroom⟩
    obtain rfl : size = size' := Except.ok.inj hpick
    simp only [hasRoom_iff hser data] at hroom
    exact ⟨t, data, idToOffset, size, treeBytes, ht, hpush, pickRecordSize_eq_ok.mpr hroom, hser, rfl,
      rfl, rfl, hfile⟩
  · obtain ⟨file, hfile⟩ := hfile
    obtain ⟨t, data, idToOffset, size₁, treeBytes, ht, hpush, hpick, hser, -⟩ := toBytes_eq_ok.mp hfile
    obtain rfl : size = size₁ := Except.ok.inj hpick
    obtain ⟨treeBytes', hser'⟩ := Tree.serialize_of_bits hser hbits
    exact ⟨_, toBytes_eq_ok.mpr ⟨t, data, idToOffset, size', treeBytes', ht, hpush, rfl, hser', rfl⟩⟩

end Writer

end MmdbWriter
